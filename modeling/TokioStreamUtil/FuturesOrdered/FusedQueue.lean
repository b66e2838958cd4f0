/-
`FuturesOrdered` as a fused stream, and its `size_hint`.

The flag of its set goes up where the queue yields `None` and comes down at the next push,
but the flag of the queue is up only if no output waits in the heap as well. An output can
wait behind a future that has unwound; where no future unwinds the two are the same. The
hint counts the futures and the outputs that wait.
-/
import TokioStreamUtil.FuturesUnordered.FusedSet
import TokioStreamUtil.FuturesOrdered.Budget
import TokioStreamUtil.FuturesOrdered.Unwinding

set_option autoImplicit false

namespace TokioStreamUtil.FuturesOrdered

open FuturesUnordered (PollNext Polled move_of_step)

variable {F O W : Type} {A : AtomicWaker W} {s s' : State F O W A}

/-- `FuturesOrdered::is_terminated`. -/
def State.is_terminated (s : State F O W A) : Bool :=
  s.in_progress_queue.is_terminated && s.queued_outputs.elems.isEmpty

/-- `size_hint`. -/
def State.size_hint (s : State F O W A) : ℕ × Option ℕ := (s.len, some s.len)

/-- `poll_next` returns. -/
def Act.isRet : Act F O W → Bool
  | .ret => true
  | _ => false

/-- `poll_next` returns `Ready(None)`. -/
def State.Ends (s : State F O W A) (a : Act F O W) : Prop := a = .ret ∧ s.pc = .done (.ready none)

/-- `poll_next` has returned `Ready(None)`, and nothing has been pushed since. -/
def Ended (A : AtomicWaker W) (ls : List (Act F O W)) : Prop :=
  Transition.Since step State.Ends (fun a => a.isPush = true) (State.new : State F O W A) ls

/-! ## What the set keeps -/

/-- What every move of the set keeps, every step of the queue keeps. -/
theorem set_keeps {P : FuturesUnordered.State (Ordered F) (Ordered O) W A → Prop}
    (hmove : ∀ {q a q'}, FuturesUnordered.Move q a q' → a ≠ .drop → P q → P q') (hord : s.Orderly)
    {a : Act F O W} (hs : step s a = some s') (h : P s.in_progress_queue) :
    P s'.in_progress_queue := by
  have hset : ∀ b : FuturesUnordered.Act (Ordered F) (Ordered O) W, b.inner = true →
      stepSet s b = some s' → P s'.in_progress_queue := by
    intro b hb hstep
    obtain ⟨q, hq, rfl⟩ := Option.map_eq_some_iff.mp hstep
    refine hmove (move_of_step hq) ?_ h
    rintro rfl
    cases hb
  have hidle : s.pc.isIdle = true → s.in_progress_queue.owner = .idle := fun hpc =>
    hord.idle fun w hw => by rw [hw] at hpc; cases hpc
  cases a with
  | push_back i future =>
      simp only [step, Option.ite_none_right_eq_some, Option.some.injEq] at hs
      obtain ⟨⟨hpc, -, hi⟩, rfl⟩ := hs
      exact hmove (.push _ hi (hidle hpc)) (by simp) h
  | push_front i future =>
      simp only [step, Option.ite_none_right_eq_some, Option.some.injEq] at hs
      obtain ⟨⟨hpc, -, hi⟩, rfl⟩ := hs
      exact hmove (.push _ hi (hidle hpc)) (by simp) h
  | poll_next w =>
      simp only [step, Option.ite_none_right_eq_some, Option.some.injEq] at hs
      obtain ⟨-, rfl⟩ := hs
      exact h
  | own =>
      have hquiet : s.pc ≠ .idle → s.in_progress_queue.pushing = ∅ := hord.pushing
      cases ownMove_of_step hs with
      | queued hpc hq hpc' => exact hq ▸ h
      | enter hpc hq hpc' =>
          have ho := hord.idle fun w hw => by rw [hpc] at hw; cases hw
          rw [hq]
          exact hmove (.poll_next _ ho (hquiet (by rw [hpc]; simp))) (by simp) h
      | leave hpc ho hq hpc' =>
          rw [hq]
          exact hmove (.ret ho) (by simp) h
      | again hpc ho hq hpc' =>
          rw [hq]
          have hp := hquiet (by rw [hpc]; simp)
          exact hmove (.poll_next _ rfl hp) (by simp) (hmove (.ret ho) (by simp) h)
  | wake i t => exact hset _ rfl hs
  | thread i => exact hset _ rfl hs
  | owner => exact hset _ rfl hs
  | polled r =>
      obtain ⟨lv, t, r', ho, hq, -⟩ := set_of_polled hs
      rw [hq]
      exact hmove (.polled r' ho) (by simp) h
  | ret =>
      simp only [step] at hs
      split at hs
      · cases hs
        exact h
      · cases hs

/-- Under the flag of the set, the set is empty. -/
theorem over_of_reachable (h : Transition.Reachable step (State.new : State F O W A) s) :
    s.Orderly ∧ (s.in_progress_queue.is_terminated = true → s.in_progress_queue.Over) := by
  have hnew : (State.new : State F O W A).in_progress_queue.is_terminated = true →
      (State.new : State F O W A).in_progress_queue.Over := by
    simp [State.new, FuturesUnordered.State.new]
  refine h.invariant (I := fun s => s.Orderly ∧
    (s.in_progress_queue.is_terminated = true → s.in_progress_queue.Over)) ⟨.new, hnew⟩ ?_
  rintro s a s' ⟨hord, hover⟩ hs
  have hboth := set_keeps (P := fun q => (∃ l, q.Inv l) ∧ (q.is_terminated = true → q.Over))
    (fun {q a q'} hm ha hq => by
      obtain ⟨⟨l, hl⟩, hover⟩ := hq
      exact ⟨FuturesUnordered.inv_move hl hm, FuturesUnordered.over_move hl hover hm ha⟩)
    hord hs ⟨hord.set.inv, hover⟩
  exact ⟨hord.step hs, hboth.2⟩

/-! ## When the flag of the set is up -/

/-- The flag of the set is up when the queue has yielded `None` (`ended`), or it or its set
is about to. -/
def State.Flagged (s : State F O W A) (ended : Prop) : Prop :=
  s.in_progress_queue.Flagged (ended ∨ s.pc = .done (.ready none))

namespace State.Flagged

variable {ended : Prop}

/-- The result of the set is that of the queue, as far as `None` goes. -/
theorem own (h : s.Flagged ended) (hord : s.Orderly) (hs : stepOwn s = some s') :
    s'.Flagged ended := by
  have hquiet : s.pc ≠ .idle → s.in_progress_queue.pushing = ∅ := hord.pushing
  have hcall : ∀ w w', s.pc = .peek w → (s.pollSet w').Flagged ended := by
    intro w w' hpc
    have ho := hord.idle fun v hv => by rw [hpc] at hv; cases hv
    have hp := hquiet (by rw [hpc]; simp)
    exact (FuturesUnordered.State.Flagged.along h (.poll_next w' ho hp) rfl (by simp)).congr
      (by simp [State.pollSet, hpc])
  unfold stepOwn at hs
  split at hs
  · cases hs
  · rename_i w hpc
    cases hs
    unfold State.peekQueued
    split
    · split
      · exact FuturesUnordered.State.Flagged.congr h (by simp [State.settle, hpc])
      · exact hcall w w hpc
    · exact hcall w w hpc
  · rename_i w hpc
    split at hs
    · rename_i lv r ho
      cases hs
      have hret := FuturesUnordered.State.Flagged.ret h ho
      have hp := hquiet (by rw [hpc]; simp)
      cases r with
      | pending => exact hret.congr (by simp [State.loopBody, State.settle, hpc])
      | unwound => exact hret.congr (by simp [State.loopBody, State.settle, hpc])
      | ready o =>
          cases o with
          | none =>
              refine hret.congr ?_
              simp [State.loopBody, State.settle]
          | some output =>
              unfold State.loopBody
              dsimp only
              split
              · exact hret.congr (by simp [State.settle, hpc])
              · exact (hret.along (.poll_next w rfl hp) rfl (by simp)).congr
                  (by simp [State.pollSet, hpc])
    · cases hs
  · cases hs

/-- **Every step keeps the flag of the set right.** -/
theorem step (h : s.Flagged ended) (hord : s.Orderly) {a : Act F O W} (hs : step s a = some s') :
    s'.Flagged (s.Ends a ∨ (ended ∧ ¬a.isPush = true)) := by
  have hset : ∀ b : FuturesUnordered.Act (Ordered F) (Ordered O) W, b.inner = true →
      stepSet s b = some s' → s'.Flagged ended := by
    intro b hb hstep
    obtain ⟨q, hq, rfl⟩ := Option.map_eq_some_iff.mp hstep
    have hpush : b.isPush = false := by
      cases b with
      | push i fut => cases hb
      | _ => rfl
    refine FuturesUnordered.State.Flagged.along h (move_of_step hq) hpush ?_
    rintro rfl
    cases hb
  have hother : a.isPush = false → a ≠ .ret → s'.Flagged ended →
      s'.Flagged (s.Ends a ∨ (ended ∧ ¬a.isPush = true)) := by
    intro hpush hret h'
    have hno : ¬s.Ends a := fun hends => hret hends.1
    exact FuturesUnordered.State.Flagged.congr h' (by simp [hno, hpush])
  -- a push takes the flag of the set down
  have hpushed : ∀ {i : ℕ} {wrapped : Ordered F}, a.isPush = true → a ≠ .ret → s.pc = .idle →
      s.in_progress_queue.threads i = .idle → s'.pc = .idle →
      s'.in_progress_queue = s.in_progress_queue.push i wrapped →
      s'.Flagged (s.Ends a ∨ (ended ∧ ¬a.isPush = true)) := by
    intro i wrapped ha hret hpc hi hpc' hq
    have ho := hord.idle fun v hv => by rw [hpc] at hv; cases hv
    have hno : ¬s.Ends a := fun hends => hret hends.1
    unfold Flagged
    rw [hq]
    exact (FuturesUnordered.State.Flagged.push h wrapped hi ho).congr (by simp [hno, ha, hpc'])
  cases a with
  | push_back i future =>
      simp only [FuturesOrdered.step, Option.ite_none_right_eq_some, Option.some.injEq] at hs
      obtain ⟨⟨hpc, -, hi⟩, rfl⟩ := hs
      exact hpushed rfl (by simp) (Pc.eq_idle hpc) hi (Pc.eq_idle hpc) rfl
  | push_front i future =>
      simp only [FuturesOrdered.step, Option.ite_none_right_eq_some, Option.some.injEq] at hs
      obtain ⟨⟨hpc, -, hi⟩, rfl⟩ := hs
      exact hpushed rfl (by simp) (Pc.eq_idle hpc) hi (Pc.eq_idle hpc) rfl
  | poll_next w =>
      simp only [FuturesOrdered.step, Option.ite_none_right_eq_some, Option.some.injEq] at hs
      obtain ⟨⟨hpc, -⟩, rfl⟩ := hs
      refine hother rfl (by simp) (FuturesUnordered.State.Flagged.congr h ?_)
      simp [Pc.eq_idle hpc]
  | own => exact hother rfl (by simp) (h.own hord hs)
  | wake i t => exact hother rfl (by simp) (hset _ rfl hs)
  | thread i => exact hother rfl (by simp) (hset _ rfl hs)
  | owner => exact hother rfl (by simp) (hset _ rfl hs)
  | polled r =>
      obtain ⟨lv, t, r', ho, hq, hpc⟩ := set_of_polled hs
      have hq' : s'.in_progress_queue.Flagged (ended ∨ s.pc = .done (.ready none)) := by
        rw [hq]
        exact FuturesUnordered.State.Flagged.along h (.polled r' ho) rfl (by simp)
      exact hother rfl (by simp) (hq'.congr (by rw [hpc]))
  | ret =>
      simp only [FuturesOrdered.step] at hs
      split at hs
      · rename_i r hpc
        cases hs
        refine FuturesUnordered.State.Flagged.congr h ?_
        simp [State.ret, State.Ends, Act.isPush, hpc, or_comm]
      · cases hs

end State.Flagged

theorem flagged_of_run {ls : List (Act F O W)} (h : Transition.run step State.new ls = some s) :
    s.Flagged (Ended A ls) := by
  induction ls using List.reverseRecOn generalizing s with
  | nil =>
      rw [Transition.run_nil, Option.some.injEq] at h
      subst h
      have hnew : FuturesUnordered.State.Flagged (F := Ordered F) (O := Ordered O)
          FuturesUnordered.State.new (FuturesUnordered.Ended A []) :=
        FuturesUnordered.flagged_of_run rfl
      refine FuturesUnordered.State.Flagged.congr hnew ?_
      unfold Ended FuturesUnordered.Ended
      simp [Transition.not_since_nil, State.new]
  | append_singleton ls a ih =>
      obtain ⟨s₁, hrun, hs⟩ := Transition.run_concat_eq_some.mp h
      have hord := (over_of_reachable (.of_run hrun)).1
      unfold Ended
      unfold State.Flagged
      rw [Transition.since_concat hrun]
      exact (ih hrun).step hord hs

/-! ## After `None` -/

/-- **A queue that is empty stays so** until the next push, and polls no future. -/
theorem State.Drained.step {calm : Prop} (h : s.Drained calm) {a : Act F O W}
    (hpush : a.isPush = false) (hs : step s a = some s') :
    s'.Drained calm ∧ ∀ r, a ≠ .polled r := by
  cases a with
  | push_back i future => cases hpush
  | push_front i future => cases hpush
  | poll_next w => exact ⟨(h.poll_next hs).1, by simp⟩
  | own => exact ⟨(h.own hs).1, by simp⟩
  | wake i t => exact ⟨(h.inner rfl hs).1, by simp⟩
  | thread i => exact ⟨(h.inner rfl hs).1, by simp⟩
  | owner => exact ⟨(h.inner rfl hs).1, by simp⟩
  | polled r =>
      obtain ⟨lv, t, r', ho, -⟩ := set_of_polled hs
      exact absurd ho h.set.not_polled
  | ret =>
      simp only [FuturesOrdered.step] at hs
      split at hs
      · rename_i r hpc
        cases hs
        exact ⟨h.ret hpc, by simp⟩
      · cases hs

theorem State.Drained.run {calm : Prop} (h : s.Drained calm) {ls : List (Act F O W)}
    (hpush : ∀ a ∈ ls, a.isPush = false)
    (hrun : Transition.run FuturesOrdered.step s ls = some s') :
    s'.Drained calm ∧ ∀ r, .polled r ∉ ls := by
  induction ls generalizing s with
  | nil =>
      rw [Transition.run_nil, Option.some.injEq] at hrun
      exact ⟨hrun ▸ h, by simp⟩
  | cons a ls ih =>
      rw [Transition.run_cons, Option.bind_eq_some_iff] at hrun
      obtain ⟨s₁, hs, hrun⟩ := hrun
      obtain ⟨h₁, hpolled⟩ := h.step (hpush a List.mem_cons_self) hs
      obtain ⟨h', hrest⟩ := ih h₁ (fun b hb => hpush b (List.mem_cons_of_mem a hb)) hrun
      refine ⟨h', fun r hr => ?_⟩
      rcases List.mem_cons.mp hr with hr | hr
      · exact hpolled r hr.symm
      · exact hrest r hr

/-- Nothing is in an empty queue. -/
theorem State.Drained.len_eq_zero {calm : Prop} (h : s.Drained calm) : s.len = 0 := by
  obtain ⟨l, hl⟩ := h.set.inv
  have hlen : s.in_progress_queue.len = 0 := hl.places.all.len_eq.trans
    (List.length_eq_zero_iff.mpr (hl.places.all.is_empty_iff.mp h.set.empty))
  unfold State.len MaxHeap.len
  rw [hlen, MaxHeap.elems_of_peek_none h.outputs]
  rfl

/-- **A call on an empty queue comes to its end.** -/
theorem State.Drained.completes {calm : Prop} (h : s.Drained calm) (hpc : s.pc.isIdle = false) :
    Transition.Completes FuturesOrdered.step Act.isRet Act.ofCall (fun _ a => a.ofCall)
      (State.Drained calm) (fun e => ∃ r, e.pc = .done r) s := by
  have hstep : ∀ (s : State F O W A) a s', Act.isRet a = false →
      s.Drained calm ∧ s.pc.isIdle = false → FuturesOrdered.step s a = some s' →
      (s'.Drained calm ∧ s'.pc.isIdle = false) ∧
        drainedRank s' + (if a.ofCall then 1 else 0) ≤ drainedRank s := by
    rintro s a s' hret ⟨h, hpc⟩ hs
    have hset : ∀ b : FuturesUnordered.Act (Ordered F) (Ordered O) W, b.inner = true →
        b.ofCall = a.ofCall → stepSet s b = some s' →
        (s'.Drained calm ∧ s'.pc.isIdle = false) ∧
          drainedRank s' + (if a.ofCall then 1 else 0) ≤ drainedRank s := by
      intro b hb hcall hstep
      obtain ⟨h', hle⟩ := h.inner hb hstep
      rw [hcall] at hle
      obtain ⟨q, -, rfl⟩ := Option.map_eq_some_iff.mp hstep
      exact ⟨⟨h', hpc⟩, hle⟩
    cases a with
    | wake i t => exact hset _ rfl rfl hs
    | thread i => exact hset _ rfl rfl hs
    | owner => exact hset _ rfl rfl hs
    | own =>
        obtain ⟨h', hlt⟩ := h.own hs
        refine ⟨⟨h', ?_⟩, hlt⟩
        cases ownMove_of_step hs with
        | queued hpc hq hpc' => rw [hpc']; rfl
        | enter hpc hq hpc' => rw [hpc']; rfl
        | leave hpc ho hq hpc' => rw [hpc']; rfl
        | again hpc ho hq hpc' => rw [hpc']; rfl
    | polled r =>
        obtain ⟨lv, t, r', ho, -⟩ := set_of_polled hs
        exact absurd ho h.set.not_polled
    | ret => cases hret
    | _ =>
        -- inside a call nobody pushes or calls
        simp only [FuturesOrdered.step, Option.ite_none_right_eq_some] at hs
        rw [hs.1.1] at hpc
        cases hpc
  refine Transition.completes_of_rank hstep (fun _ h => h.1) ?_ ⟨h, hpc⟩
  rintro s ⟨h, hpc⟩
  rcases h.live hpc with hdone | ⟨s', hs'⟩ | ⟨s', hs'⟩
  · exact Or.inl hdone
  · exact Or.inr ⟨.own, s', rfl, hs'⟩
  · exact Or.inr ⟨.owner, s', rfl, hs'⟩

/-- A queue whose set is over and in which no output waits. -/
theorem drained_of_over {calm : Prop} (hord : s.Orderly) (hover : s.in_progress_queue.Over)
    (hpc : s.pc = .idle) (houtputs : s.queued_outputs.elems = [])
    (hcalm : calm → ∀ i t, ¬s.in_progress_queue.Enqueueing i t) : s.Drained calm := by
  have ho := hord.idle fun w hw => by rw [hpc] at hw; cases hw
  refine ⟨.of_empty hord.set.inv hover.empty ho hover.quiet hcalm, ?_, ?_⟩
  · exact List.head?_eq_none_iff.mpr houtputs
  · unfold State.Place
    rw [hpc]
    exact ho

/-! ## When no output can be left behind -/

/-- The result that a call has come to is what happened last. -/
theorem last_event {ls : List (Act F O W)} (hfew : ls.countP Act.isPush < 2 ^ 63)
    (hrun : Transition.run step State.new ls = some s) {r : PollNext O} (hpc : s.pc = .done r) :
    s.events.getLast? = some (.result r) := by
  induction ls using List.reverseRecOn generalizing s with
  | nil =>
      rw [Transition.run_nil, Option.some.injEq] at hrun
      subst hrun
      cases hpc
  | append_singleton ls a ih =>
      obtain ⟨s₁, hrun₁, hs⟩ := Transition.run_concat_eq_some.mp hrun
      rw [List.countP_append] at hfew
      have hfew₁ : ls.countP Act.isPush < 2 ^ 63 := by omega
      obtain ⟨d, hd⟩ := tracks_of_run ls State.new s₁ Deque.new Tracks.new
        (by simpa [State.new, FuturesUnordered.State.new] using hfew₁) hrun₁
      rcases done_step hd hs hpc with ⟨hpc₁, hsame⟩ | hnew
      · rw [hsame]
        exact ih hfew₁ hrun₁ hpc₁
      · rw [hnew, List.getLast?_concat]

/-- Where no future has unwound, `None` comes when no output waits. -/
theorem nothing_waits {ls : List (Act F O W)} (hunwind : .polled .unwind ∉ ls)
    (hfew : ls.countP Act.isPush < 2 ^ 63) (hrun : Transition.run step State.new ls = some s)
    (hpc : s.pc = .done (.ready none)) : s.queued_outputs.elems = [] := by
  obtain ⟨d, hd, hrel⟩ := rel_of_run ls State.new s Deque.new .nil Rel.new hunwind
    (by simpa [State.new, FuturesUnordered.State.new] using hfew) hrun
  obtain ⟨d₀, hstep⟩ := hd.last (last_event hfew hrun hpc)
  have hnil : d.futures = [] := by
    cases hstep with
    | none hnil => exact hnil
  rw [List.eq_nil_iff_forall_not_mem]
  intro x hx
  obtain ⟨t, ht, -⟩ := (hrel.waiting x).mp (List.mem_append_left _ hx)
  rw [hnil] at ht
  cases ht

/-- Where no future has unwound, no output waits until something is pushed after `None`. -/
theorem nothing_waits_of_ended {ls : List (Act F O W)} (hunwind : .polled .unwind ∉ ls)
    (hfew : ls.countP Act.isPush < 2 ^ 63) (hrun : Transition.run step State.new ls = some s)
    (h : Ended A ls) : s.queued_outputs.elems = [] := by
  obtain ⟨l₁, a, l₂, s₁, rfl, hrun₁, ⟨rfl, hpc⟩, hpush⟩ := h
  obtain ⟨s₁', hrun₁', hrest⟩ := Transition.run_append_eq_some.mp hrun
  obtain rfl := Option.some.inj (hrun₁'.symm.trans hrun₁)
  rw [Transition.run_cons, Option.bind_eq_some_iff] at hrest
  obtain ⟨s₂, hret, hrest⟩ := hrest
  have hnone : s₁'.queued_outputs.elems = [] := by
    refine nothing_waits (fun hmem => hunwind (List.mem_append_left _ hmem)) ?_ hrun₁ hpc
    rw [List.countP_append] at hfew
    omega
  have hs₂ : s₂ = s₁'.ret := by
    simp only [step, hpc, Option.some.injEq] at hret
    exact hret.symm
  subst hs₂
  obtain ⟨hord, hover⟩ := over_of_reachable (.of_run hrun₁)
  have hup : s₁'.in_progress_queue.is_terminated = true :=
    (flagged_of_run hrun₁).mpr (Or.inl (Or.inr hpc))
  have hdrained : s₁'.ret.Drained False :=
    drained_of_over (hord.step hret) (hover hup) rfl hnone (by simp)
  have hlast := (hdrained.run (fun b hb => Bool.not_eq_true _ ▸ hpush b hb) hrest).1
  exact MaxHeap.elems_of_peek_none hlast.outputs

/-! ## The hint -/

/-- What the set has handed out has been yielded or waits. -/
def State.Handed (s : State F O W A) : Prop :=
  s.in_progress_queue.hist.outputs.length =
    (Deque.yields s.events).length + s.queued_outputs.len

theorem handed_own (h : s.Handed) (hs : stepOwn s = some s') : s'.Handed := by
  unfold State.Handed at h ⊢
  unfold stepOwn at hs
  split at hs
  · cases hs
  · rename_i w hpc
    cases hs
    unfold State.peekQueued
    split
    · rename_i x hx
      split
      · have hlen := MaxHeap.len_pop hx
        simp only [State.settle, Deque.yields_result, List.length_append,
          FuturesUnordered.State.outputOf, List.length_singleton]
        omega
      · exact h
    · exact h
  · rename_i w hpc
    split at hs
    · rename_i lv r ho
      cases hs
      unfold State.loopBody
      split
      · rename_i output
        split
        · simp only [State.settle, Deque.yields_result, List.length_append,
            FuturesUnordered.State.ret, FuturesUnordered.State.outputOf, List.length_singleton]
          omega
        · simp only [State.pollSet, FuturesUnordered.State.poll_next,
            FuturesUnordered.State.setOwner, FuturesUnordered.State.ret, List.length_append,
            FuturesUnordered.State.outputOf, List.length_singleton, MaxHeap.len_push]
          omega
      all_goals
        simp only [State.settle, Deque.yields_result, List.length_append,
          FuturesUnordered.State.ret, FuturesUnordered.State.outputOf, List.length_nil]
        omega
    · cases hs
  · cases hs

theorem handed_step (hord : s.Orderly) (h : s.Handed) {a : Act F O W} (hs : step s a = some s') :
    s'.Handed := by
  have hset : ∀ b : FuturesUnordered.Act (Ordered F) (Ordered O) W, b.inner = true →
      stepSet s b = some s' → s'.Handed := by
    intro b hb hstep
    obtain ⟨q, hq, rfl⟩ := Option.map_eq_some_iff.mp hstep
    have hm := move_of_step hq
    have hframe := FuturesUnordered.frame_move hm hb
    -- no output appears or is lost on its way
    have houtputs : q.hist.outputs = s.in_progress_queue.hist.outputs := by
      have hbefore := hord.set.ledger.handed
      have hafter := (hord.set.move hm (by rintro rfl; cases hb)).ledger.handed
      rw [hframe.completed, hframe.carrying] at hafter
      exact List.append_cancel_right (hafter.trans hbefore.symm)
    unfold State.Handed at h ⊢
    dsimp only
    rw [houtputs]
    exact h
  -- only results are counted
  have hevent : ∀ e : Event O, (∀ r, e ≠ .result r) →
      (Deque.yields (s.events ++ [e])).length = (Deque.yields s.events).length := by
    intro e he
    rw [Deque.yields_append, List.length_append]
    cases e with
    | result r => exact absurd rfl (he r)
    | _ => rfl
  unfold State.Handed at h
  cases a with
  | push_back i future =>
      simp only [step, Option.ite_none_right_eq_some, Option.some.injEq] at hs
      obtain ⟨-, rfl⟩ := hs
      exact h.trans (congrArg (· + _) (hevent (.push_back _) (by simp)).symm)
  | push_front i future =>
      simp only [step, Option.ite_none_right_eq_some, Option.some.injEq] at hs
      obtain ⟨-, rfl⟩ := hs
      exact h.trans (congrArg (· + _) (hevent (.push_front _) (by simp)).symm)
  | poll_next w =>
      simp only [step, Option.ite_none_right_eq_some, Option.some.injEq] at hs
      obtain ⟨-, rfl⟩ := hs
      exact h
  | own => exact handed_own h hs
  | wake i t => exact hset _ rfl hs
  | thread i => exact hset _ rfl hs
  | owner => exact hset _ rfl hs
  | polled r =>
      simp only [step, stepPolled] at hs
      split at hs
      · split at hs
        · cases hs
          cases r with
          | ready o => exact h.trans (congrArg (· + _) (hevent (.completed _ o) (by simp)).symm)
          | _ => exact h
        · cases hs
      · cases hs
  | ret =>
      simp only [step] at hs
      split at hs
      · cases hs
        exact h
      · cases hs

theorem events_step {a : Act F O W} (hs : step s a = some s') : s.events <+: s'.events := by
  have hset : ∀ b : FuturesUnordered.Act (Ordered F) (Ordered O) W,
      stepSet s b = some s' → s.events <+: s'.events := by
    intro b hstep
    obtain ⟨q, -, rfl⟩ := Option.map_eq_some_iff.mp hstep
    exact List.prefix_refl _
  cases a with
  | push_back i future =>
      simp only [step, Option.ite_none_right_eq_some, Option.some.injEq] at hs
      obtain ⟨-, rfl⟩ := hs
      exact List.prefix_append _ _
  | push_front i future =>
      simp only [step, Option.ite_none_right_eq_some, Option.some.injEq] at hs
      obtain ⟨-, rfl⟩ := hs
      exact List.prefix_append _ _
  | poll_next w =>
      simp only [step, Option.ite_none_right_eq_some, Option.some.injEq] at hs
      obtain ⟨-, rfl⟩ := hs
      exact List.prefix_refl _
  | own =>
      rcases (own_cases hs).2.2 with ⟨he, -⟩ | ⟨r, he, -⟩
      · rw [he]
      · rw [he]
        exact List.prefix_append _ _
  | wake i t => exact hset _ hs
  | thread i => exact hset _ hs
  | owner => exact hset _ hs
  | polled r =>
      simp only [step, stepPolled] at hs
      split at hs
      · split at hs
        · cases hs
          cases r with
          | ready o => exact List.prefix_append _ _
          | _ => exact List.prefix_refl _
        · cases hs
      · cases hs
  | ret =>
      simp only [step] at hs
      split at hs
      · cases hs
        exact List.prefix_refl _
      · cases hs

/-- What is yielded and what unwinds only grows, and only a push brings a new future. -/
theorem grows_of_run {ls : List (Act F O W)} (hord : s.Orderly) (hhanded : s.Handed)
    (hpush : ∀ a ∈ ls, a.isPush = false) (hrun : Transition.run step s ls = some s') :
    s'.Handed ∧ s.events <+: s'.events ∧
      s.in_progress_queue.hist.discarded <+: s'.in_progress_queue.hist.discarded ∧
      s'.in_progress_queue.fresh = s.in_progress_queue.fresh := by
  induction ls generalizing s with
  | nil =>
      rw [Transition.run_nil, Option.some.injEq] at hrun
      subst hrun
      exact ⟨hhanded, List.prefix_refl _, List.prefix_refl _, rfl⟩
  | cons a ls ih =>
      rw [Transition.run_cons, Option.bind_eq_some_iff] at hrun
      obtain ⟨s₁, hs, hrun⟩ := hrun
      rw [List.forall_mem_cons] at hpush
      obtain ⟨hhanded', hevents, hdiscarded, hfresh⟩ :=
        ih (hord.step hs) (handed_step hord hhanded hs) hpush.2 hrun
      have hset := set_keeps
        (P := fun q => s.in_progress_queue.hist.discarded <+: q.hist.discarded)
        (fun hm _ hq => hq.trans (FuturesUnordered.records_move hm).discarded) hord hs
        (List.prefix_refl _)
      refine ⟨hhanded', (events_step hs).trans hevents, hset.trans hdiscarded, ?_⟩
      rw [hfresh, fresh_step hs, hpush.1]
      rfl

theorem handed_of_run {ls : List (Act F O W)} (h : Transition.run step State.new ls = some s) :
    s.Handed := by
  have hboth : s.Orderly ∧ s.Handed := by
    refine Transition.run_invariant (I := fun s : State F O W A => s.Orderly ∧ s.Handed) ?_
      ⟨State.Orderly.new, rfl⟩ h
    rintro s a s' ⟨hord, hhanded⟩ hs
    exact ⟨hord.step hs, handed_step hord hhanded hs⟩
  exact hboth.2

/-- **The contract of the queue as a stream.** In every interleaving of pushes on either
side, calls and wakes, in whatever order the futures complete or unwind, between two calls:
the flag is up exactly when `None` has been yielded, nothing has been pushed since and no
output waits; and when no future has unwound, no output can wait then. Under the flag the
queue stays empty and its flag up until the next push, no future is polled, and a call
comes to its end and yields `None` again, or is pending because an `enqueue` was under way.
And the hint is exactly the number of futures that will have been yielded, have unwound, or still be there
between two later calls. -/
theorem stream_contract (ls ls' : List (Act F O W)) (s s' : State F O W A)
    (hrun : Transition.run step State.new ls = some s) (hpc : s.pc = .idle)
    (hpush : ∀ a ∈ ls', a.isPush = false) (hrun' : Transition.run step s ls' = some s') :
    -- the flag
    (s.is_terminated = true ↔ Ended A ls ∧ s.queued_outputs.elems = []) ∧
    (.polled .unwind ∉ ls → ls.countP Act.isPush < 2 ^ 63 →
      (s.is_terminated = true ↔ Ended A ls)) ∧
    (s.is_terminated = true → s'.is_terminated = true ∧ s'.size_hint = (0, some 0) ∧
      (∀ r, .polled r ∉ ls') ∧
      (∀ r, s'.pc = .done r →
        r = .ready none ∨ (r = .pending ∧ ∃ i t, s.in_progress_queue.Enqueueing i t)) ∧
      ∀ w s₁, step s' (.poll_next w) = some s₁ →
        Transition.Completes step Act.isRet Act.ofCall (fun _ a => a.ofCall)
          (fun e => e.len = 0)
          (fun e => ∃ r, e.pc = .done r ∧
            (r = .ready none ∨ (r = .pending ∧ ∃ i t, s.in_progress_queue.Enqueueing i t))) s₁) ∧
    -- the hint
    (s'.pc = .idle → ∃ outs unwound,
      Deque.yields s'.events = Deque.yields s.events ++ outs ∧
      s'.in_progress_queue.hist.discarded = s.in_progress_queue.hist.discarded ++ unwound ∧
      s.size_hint = (outs.length + unwound.length + s'.len,
        some (outs.length + unwound.length + s'.len))) := by
  obtain ⟨hord, hover⟩ := over_of_reachable (.of_run hrun)
  have hset : s.in_progress_queue.is_terminated = true ↔ Ended A ls := by
    have hall := flagged_of_run hrun
    unfold State.Flagged FuturesUnordered.State.Flagged at hall
    rw [hall, hpc, hord.idle fun w hw => by rw [hpc] at hw; cases hw]
    simp [FuturesUnordered.Owner.result]
  have hflag : s.is_terminated = true ↔ Ended A ls ∧ s.queued_outputs.elems = [] := by
    unfold State.is_terminated
    rw [Bool.and_eq_true, hset, List.isEmpty_iff]
  refine ⟨hflag, fun hunwind hfew => ?_, fun hup => ?_, fun hpc' => ?_⟩
  · rw [hflag]
    exact ⟨And.left, fun hended => ⟨hended, nothing_waits_of_ended hunwind hfew hrun hended⟩⟩
  · obtain ⟨hended, hnone⟩ := hflag.mp hup
    -- nobody enqueues, or somebody does and the call may come to pending
    have hdrained : s.Drained (∀ i t, ¬s.in_progress_queue.Enqueueing i t) :=
      drained_of_over hord (hover (hset.mpr hended)) hpc hnone id
    obtain ⟨hdrained', hpolled⟩ := hdrained.run hpush hrun'
    have hrun₂ : Transition.run step State.new (ls ++ ls') = some s' :=
      Transition.run_append_eq_some.mpr ⟨s, hrun, hrun'⟩
    have hheap := MaxHeap.elems_of_peek_none hdrained'.outputs
    have hresult : ∀ {e : State F O W A} {r},
        e.Drained (∀ i t, ¬s.in_progress_queue.Enqueueing i t) → e.pc = .done r →
        r = .ready none ∨ (r = .pending ∧ ∃ i t, s.in_progress_queue.Enqueueing i t) := by
      intro e r he hr
      refine (he.result hr).imp_right fun hpending => ⟨hpending.1, ?_⟩
      by_contra hno
      exact hpending.2 fun i t ht => hno ⟨i, t, ht⟩
    refine ⟨?_, ?_, hpolled, fun r hr => hresult hdrained' hr, fun w s₁ hs₁ => ?_⟩
    · have hlater : Ended A (ls ++ ls') :=
        Transition.Since.append hended fun b hb => by simp [hpush b hb]
      unfold State.is_terminated
      rw [Bool.and_eq_true, List.isEmpty_iff]
      exact ⟨(flagged_of_run hrun₂).mpr (Or.inl (Or.inl hlater)), hheap⟩
    · unfold State.size_hint
      rw [hdrained'.len_eq_zero]
    · obtain ⟨bound, hbound⟩ := (hdrained'.poll_next hs₁).1.completes (by
        simp only [step, Option.ite_none_right_eq_some, Option.some.injEq] at hs₁
        obtain ⟨-, rfl⟩ := hs₁
        rfl)
      refine ⟨bound, fun ls₁ e hls₁ hrun₁ => ?_⟩
      obtain ⟨he, hle, hlive⟩ := hbound ls₁ e hls₁ hrun₁
      refine ⟨he.len_eq_zero, hle, hlive.imp_left ?_⟩
      rintro ⟨r, hr⟩
      exact ⟨r, hr, hresult he hr⟩
  · have hhanded := handed_of_run hrun
    obtain ⟨hhanded', ⟨es, hes⟩, ⟨unwound, hunwound⟩, hfresh⟩ :=
      grows_of_run hord hhanded hpush hrun'
    have hord' : s'.Orderly := (over_of_reachable (.of_run
      (Transition.run_append_eq_some.mpr ⟨s, hrun, hrun'⟩))).1
    have hbal := FuturesUnordered.balance hord.set
      (hord.idle fun w hw => by rw [hpc] at hw; cases hw)
    have hbal' := FuturesUnordered.balance hord'.set
      (hord'.idle fun w hw => by rw [hpc'] at hw; cases hw)
    unfold State.Handed at hhanded hhanded'
    have hyields : Deque.yields s'.events = Deque.yields s.events ++ Deque.yields es := by
      rw [← hes, Deque.yields_append]
    rw [hyields, List.length_append] at hhanded'
    rw [hfresh, ← hunwound, List.length_append] at hbal'
    have hlen : s.len = (Deque.yields es).length + unwound.length + s'.len := by
      unfold State.len
      omega
    refine ⟨Deque.yields es, unwound, hyields, hunwound.symm, ?_⟩
    unfold State.size_hint
    rw [hlen]

/-- The first of two futures unwinds, so that the output of the second waits for ever. -/
def outputLeftBehind : List (Act Unit ℕ Unit) :=
  List.flatten [
    [.push_back 0 (), .thread 0, .thread 0, .thread 0, .thread 0],
    [.push_back 0 (), .thread 0, .thread 0, .thread 0, .thread 0],
    [.poll_next (), .own], List.replicate 7 .owner,
    [.polled .unwind, .owner, .owner, .own, .ret],
    [.poll_next (), .own], List.replicate 11 .owner,
    [.polled (.ready 7), .owner, .owner, .own],
    List.replicate 3 .owner, [.own, .ret]]

/-- Both of two futures complete, and `None` is yielded. -/
def bothYielded : List (Act Unit ℕ Unit) :=
  List.flatten [
    [.push_back 0 (), .thread 0, .thread 0, .thread 0, .thread 0],
    [.push_back 0 (), .thread 0, .thread 0, .thread 0, .thread 0],
    [.poll_next (), .own], List.replicate 7 .owner,
    [.polled (.ready 5), .owner, .owner, .own, .ret],
    [.poll_next (), .own], List.replicate 11 .owner,
    [.polled (.ready 7), .owner, .owner, .own, .ret],
    [.poll_next (), .own], List.replicate 3 .owner, [.own, .ret]]

/-- One call more. -/
def calledAgain : List (Act Unit ℕ Unit) :=
  [.poll_next (), .own] ++ List.replicate 3 .owner ++ [.own, .ret]

/-- `None` has been yielded, but with an output left behind the flag is not up, and the hint
counts the output, also after one call more. With both yielded it is up and stays so. -/
theorem stream_contract_output_left_behind :
    (∃ s s' : State Unit ℕ Unit (AtomicWaker.cell Unit),
      Transition.run step State.new outputLeftBehind = some s ∧
        Transition.run step s calledAgain = some s' ∧ s.size_hint = (1, some 1) ∧ s'.len = 1 ∧
        ¬(Ended (AtomicWaker.cell Unit) outputLeftBehind ∧ s.queued_outputs.elems = []) ∧
        ∃ outs unwound, Deque.yields s'.events = Deque.yields s.events ++ outs ∧
          s'.in_progress_queue.hist.discarded = s.in_progress_queue.hist.discarded ++ unwound ∧
          outs.length + unwound.length = 0) ∧
    ∃ s s' : State Unit ℕ Unit (AtomicWaker.cell Unit),
      Transition.run step State.new bothYielded = some s ∧
        Transition.run step s calledAgain = some s' ∧ s.is_terminated = true ∧
        Ended (AtomicWaker.cell Unit) bothYielded ∧ s'.is_terminated = true ∧
        s'.size_hint = (0, some 0) := by
  -- a run, and what a call more comes to
  have hagain : ∀ (ls : List (Act Unit ℕ Unit)) (P P' : Pc ℕ Unit × (ℕ × Option ℕ) × Bool),
      (Transition.run step (State.new : State Unit ℕ Unit (AtomicWaker.cell Unit)) ls).map
        (fun s => (s.pc, s.size_hint, s.is_terminated)) = some P →
      (Transition.run step (State.new : State Unit ℕ Unit (AtomicWaker.cell Unit))
        (ls ++ calledAgain)).map (fun s => (s.pc, s.size_hint, s.is_terminated)) = some P' →
      ∃ s s' : State Unit ℕ Unit (AtomicWaker.cell Unit),
        Transition.run step State.new ls = some s ∧ Transition.run step s calledAgain = some s' ∧
        (s.pc, s.size_hint, s.is_terminated) = P ∧ (s'.pc, s'.size_hint, s'.is_terminated) = P' := by
    intro ls P P' hfirst hboth
    obtain ⟨s, hs, hP⟩ := Option.map_eq_some_iff.mp hfirst
    obtain ⟨s', hs', hP'⟩ := Option.map_eq_some_iff.mp hboth
    obtain ⟨s₁, hs₁, hs'⟩ := Transition.run_append_eq_some.mp hs'
    rw [hs] at hs₁
    cases hs₁
    exact ⟨s, s', hs, hs', hP, hP'⟩
  have hpush : ∀ a ∈ calledAgain, Act.isPush a = false := by simp [calledAgain, Act.isPush]
  constructor
  · obtain ⟨s, s', hs, hs', hat, hat'⟩ := hagain outputLeftBehind
      (.idle, (1, some 1), false) (.idle, (1, some 1), false) rfl rfl
    simp only [Prod.mk.injEq] at hat hat'
    obtain ⟨hpc, hhint, hdown⟩ := hat
    obtain ⟨hpc', hhint', -⟩ := hat'
    obtain ⟨hflag, -, -, hexact⟩ := stream_contract outputLeftBehind calledAgain s s' hs hpc hpush hs'
    obtain ⟨outs, unwound, houts, hunwound, hcount⟩ := hexact hpc'
    have hlen : s'.len = 1 := congrArg Prod.fst hhint'
    have htotal := (congrArg Prod.fst hcount).symm.trans (congrArg Prod.fst hhint)
    refine ⟨s, s', hs, hs', hhint, hlen, fun hboth => ?_, outs, unwound, houts, hunwound, ?_⟩
    · rw [hflag.mpr hboth] at hdown
      cases hdown
    · dsimp only at htotal
      omega
  · obtain ⟨s, s', hs, hs', hat, hat'⟩ := hagain bothYielded
      (.idle, (0, some 0), true) (.idle, (0, some 0), true) rfl rfl
    simp only [Prod.mk.injEq] at hat
    obtain ⟨hpc, -, hup⟩ := hat
    obtain ⟨hflag, -, hstays, -⟩ := stream_contract bothYielded calledAgain s s' hs hpc hpush hs'
    obtain ⟨hup', hhint', -⟩ := hstays hup
    exact ⟨s, s', hs, hs', hup, (hflag.mp hup).1, hup', hhint'⟩

end TokioStreamUtil.FuturesOrdered
