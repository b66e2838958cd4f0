/-
One call of a set that a combinator holds.

A combinator calls `poll_next` of its set once, or round after round, and goes on with
what the call leaves. A call spends at most its budget; if it hands out an output it
leaves one future less in the set, and at most one released task more in the queue.
-/
import TokioStreamUtil.FuturesUnordered.Budget
import TokioStreamUtil.FuturesUnordered.Sound

set_option autoImplicit false

namespace TokioStreamUtil.FuturesUnordered

variable {F O W : Type} {A : AtomicWaker W} {s s' : State F O W A} {l : List ℕ}

/-! ## What is left behind -/

/-- A release leaves at most the task that it releases behind. -/
theorem leftover_retire (t : ℕ) (o : Owner O W) : (s.retire t o).leftover ≤ s.leftover + 1 := by
  unfold State.leftover
  have hsub : ((List.range s.fresh).filter fun u =>
      (s.retire t o).hist.retired u && s.ready.enqueued u) ⊆
        t :: (List.range s.fresh).filter fun u => s.hist.retired u && s.ready.enqueued u := by
    intro u hu
    by_cases hut : u = t
    · simp [hut]
    · have hsame : (s.retire t o).hist.retired u = s.hist.retired u := Function.update_of_ne hut _ _
      rw [List.mem_filter, hsame] at hu
      exact List.mem_cons_of_mem t (List.mem_filter.mpr hu)
  have hnodup := (List.nodup_range (n := s.fresh)).filter fun u =>
    (s.retire t o).hist.retired u && s.ready.enqueued u
  exact (List.subperm_of_subset hnodup hsub).length_le

/-- A call that has released the task it polled leaves at most that one behind, beside
those that it found. -/
theorem leftover_move {n : ℕ} (hl : s.Inv l) (hfound : s.owner.retiring = false → s.leftover ≤ n)
    (hleft : s.owner.retiring = true → s.leftover ≤ n + 1) {a : Act F O W} (hm : Move s a s')
    (hp : s.owner.polling = true) (ha : a ≠ .ret) :
    s'.owner.retiring = true → s'.leftover ≤ n + 1 := by
  have hother : a.inner = true → a ≠ .owner → s'.owner = s.owner →
      s'.owner.retiring = true → s'.leftover ≤ n + 1 := by
    intro hinner hne ho hr
    rw [(others_move hl hm hinner hne).2]
    exact hleft (ho ▸ hr)
  cases hm with
  | push fut hi ho => rw [ho] at hp; cases hp
  | upgradeFails hal => exact hleft
  | swapQueued hi => exact hother rfl nofun (by unfold State.swapQueued; split <;> rfl)
  | dropInner hi => exact hother rfl nofun (by rw [dropInner_of_polling _ hp])
  | poll_next w ho hpush => rw [ho] at hp; cases hp
  | @dequeueEmpty lv ho hc =>
      intro _
      have hsame : (s.dequeueEmpty lv).leftover = s.leftover := by
        unfold State.dequeueEmpty
        split <;> exact leftover_congr rfl rfl rfl
      rw [hsame]
      exact (hfound (by rw [ho]; rfl)).trans (Nat.le_succ n)
  | consume hrun ho =>
      intro hr
      rcases ho with ⟨lv, ho⟩ | ho
      · rw [show s.consume.owner = .poll lv .dequeue from ho] at hr
        cases hr
      · rw [ho] at hp
        cases hp
  | dequeueReleased ho hc hf =>
      intro hr
      rw [show (s.dequeueReleased _).owner = _ from ho] at hr
      cases hr
  | resetQueued ho =>
      intro hr
      unfold State.resetQueued at hr
      dsimp only at hr
      split at hr
      · cases hr
      · cases hr
  | polled r ho =>
      intro hr
      cases r with
      | _ => cases hr
  | relink ho =>
      intro hr
      rw [relink_owner] at hr
      split at hr
      · cases hr
      · cases hr
  | @release lv t r ho =>
      exact fun _ => (leftover_retire t _).trans (Nat.succ_le_succ (hfound (by rw [ho]; rfl)))
  | dropFuture ho =>
      intro _
      rw [leftover_congr rfl rfl rfl]
      exact hleft (by rw [ho]; rfl)
  | wakeParent ho =>
      intro _
      rw [leftover_congr rfl rfl rfl]
      exact (hfound (by rw [ho]; rfl)).trans (Nat.le_succ n)
  | ret ho => exact absurd rfl ha
  | drop ho hpush => rw [ho] at hp; cases hp
  | dropLoop ho => rw [ho] at hp; cases hp
  | dropRelease ho => rw [ho] at hp; cases hp
  | dropDropFuture ho => rw [ho] at hp; cases hp
  | dropDequeued ho hc => rw [ho] at hp; cases hp
  | produce hpr => exact hother rfl nofun rfl
  | endPush hi hpr => exact hother rfl nofun rfl
  | upgrade hi ht hal => exact hother rfl nofun rfl
  | storeWoken hi => exact hother rfl nofun rfl
  | endEnqueue hi hpr => exact hother rfl nofun rfl
  | wakeWaker hi => exact hother rfl nofun rfl
  | _ => exact nofun

/-- A push leaves nothing behind: its task is new. -/
theorem leftover_push (hl : s.Inv l) (i : ℕ) (fut : F) : (s.push i fut).leftover = s.leftover := by
  have hlive : s.hist.retired s.fresh = false := by
    by_contra hret
    exact Nat.lt_irrefl _ (hl.places.retired_lt s.fresh (Bool.not_eq_false _ ▸ hret))
  unfold State.leftover
  show ((List.range (s.fresh + 1)).filter fun t => s.hist.retired t &&
    Function.update s.ready.enqueued s.fresh true t).length = _
  rw [List.range_succ, List.filter_append, List.length_append]
  have hold : (List.range s.fresh).filter (fun t => s.hist.retired t &&
      Function.update s.ready.enqueued s.fresh true t) =
        (List.range s.fresh).filter fun t => s.hist.retired t && s.ready.enqueued t := by
    apply List.filter_congr
    intro t ht
    rw [Function.update_of_ne (Nat.ne_of_lt (List.mem_range.mp ht))]
  rw [hold]
  simp [hlive]

theorem len_push (h : s.Sound) {i : ℕ} {fut : F} (hi : s.threads i = .idle) (ho : s.owner = .idle) :
    (s.push i fut).len = s.len + 1 := by
  have hsound := h.move (.push fut hi ho) nofun
  rw [hsound.len_eq ho, h.len_eq ho, h.unfinished_push]

/-! ## The call -/

/-- The call of the set that was made in `q₀` with the waker `w`, after the steps `ls`. -/
structure SetCall (q₀ : State F O W A) (w : W) (ls : List (Act F O W)) (q : State F O W A) :
    Prop where
  books : Books q₀ w ls q
  run : Transition.run step (q₀.poll_next w) ls = some q
  sound : q.Sound
  few : q.unfinished + q.owner.carrying.length ≤ q₀.len
  left : q.owner.retiring = true → q.leftover ≤ q₀.leftover + 1

namespace SetCall

variable {q₀ q q' : State F O W A} {w : W} {ls : List (Act F O W)}

theorem poll_next (h : q₀.Sound) (ho : q₀.owner = .idle) (hp : q₀.pushing = ∅) (w : W) :
    SetCall q₀ w [] (q₀.poll_next w) := by
  have hsound := h.move (.poll_next w ho hp) nofun
  exact ⟨books_begin hsound.inv, rfl, hsound, (h.len_eq ho).ge, nofun⟩

theorem concat (h : SetCall q₀ w ls q) {a : Act F O W} (hs : step q a = some q')
    (ha : a.inner = true ∨ a.isPolled = true) : SetCall q₀ w (ls ++ [a]) q' := by
  have hm := move_of_step hs
  have hret : a ≠ .ret := by
    rintro rfl
    rcases ha with ha | ha
    · cases ha
    · cases ha
  have hdrop : a ≠ .drop := by
    rintro rfl
    rcases ha with ha | ha
    · cases ha
    · cases ha
  obtain ⟨l, hl⟩ := h.sound.inv
  refine ⟨h.books.concat h.run hret hs, ?_, h.sound.move hm hdrop, ?_, ?_⟩
  · rw [Transition.run_concat_eq_some]
    exact ⟨q, h.run, hs⟩
  · rcases ha with ha | ha
    · have hframe := frame_move hm ha
      rw [hframe.unfinished, hframe.carrying]
      exact h.few
    · cases a with
      | polled r =>
          cases hm with
          | polled r ho =>
              have hle := unfinished_polled h.sound ho r
              have hfew := h.few
              omega
      | _ => cases ha
  · have hfound : q.owner.retiring = false → q.leftover ≤ q₀.leftover := by
      intro hr
      have hkept := (h.books.stock.kept hr).2
      omega
    exact leftover_move hl hfound h.left hm h.books.polling hret

/-- What the call may have spent. -/
theorem spent (h : SetCall q₀ w ls q) :
    ls.countP Act.isPolled ≤ q₀.len ∧ ls.countP Act.ofCall ≤ 16 * q₀.len + 8 * q₀.leftover + 10 := by
  have hspent := h.books.spent
  refine ⟨?_, ?_⟩
  · cases ho : q.owner with
    | poll lv pc =>
        rw [ho] at hspent
        exact hspent.2.2.1
    | _ =>
        rw [ho] at hspent
        exact hspent.elim
  · have hrank := h.books.rank
    have hval : callRank (q₀.poll_next w) = 16 * q₀.len + 8 * q₀.leftover + 10 := rfl
    omega

/-- A call that hands out an output leaves one future less, and at most one released task
more, behind. -/
theorem yields (h : SetCall q₀ w ls q) {lv : Locals W} {o : O}
    (ho : q.owner = .poll lv (.done (.ready (some o)))) :
    (q.ret lv (.ready (some o))).len + 1 ≤ q₀.len ∧
      (q.ret lv (.ready (some o))).leftover ≤ q₀.leftover + 1 := by
  have hsound := h.sound.move (.ret ho) nofun
  refine ⟨?_, ?_⟩
  · have hfew := h.few
    rw [hsound.len_eq rfl]
    rw [ho] at hfew
    exact hfew
  · rw [leftover_congr rfl rfl rfl]
    exact h.left (by rw [ho]; rfl)

end SetCall

end TokioStreamUtil.FuturesUnordered
