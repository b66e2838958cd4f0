/-
What a combinator may rely on while it holds a `FuturesUnordered`.

The combinators never drop the set while it is polled, so the invariant and the
books hold in every state they see (`Sound`), and the length of the set is what
was pushed and has not finished.
-/
import TokioStreamUtil.FuturesUnordered.ExactlyOnce
import TokioStreamUtil.FuturesUnordered.Frame

set_option autoImplicit false

namespace TokioStreamUtil.FuturesUnordered

variable {F O W : Type} {A : AtomicWaker W} {s s' : State F O W A}

/-- What holds of a set that is not dropped. -/
structure State.Sound (s : State F O W A) : Prop where
  inv : ∃ l, s.Inv l
  ledger : s.Ledger

/-- The futures pushed that have not finished. -/
def State.unfinished (s : State F O W A) : ℕ :=
  s.fresh - (s.hist.completed.length + s.hist.discarded.length)

namespace State.Sound

theorem new : (State.new : State F O W A).Sound := ⟨⟨[], State.inv_new⟩, ledger_new⟩

theorem move {a : Act F O W} (h : s.Sound) (hm : Move s a s') (ha : a ≠ .drop) : s'.Sound := by
  obtain ⟨l, hl⟩ := h.inv
  exact ⟨inv_move hl hm, ledger_move hl h.ledger hm ha⟩

theorem bound (h : s.Sound) :
    s.len + s.hist.completed.length + s.hist.discarded.length ≤ s.fresh := by
  obtain ⟨l, hl⟩ := h.inv
  exact len_bound hl h.ledger

theorem len_le (h : s.Sound) : s.len ≤ s.unfinished := by
  have hbound := h.bound
  unfold State.unfinished
  omega

theorem len_eq (h : s.Sound) (ho : s.owner = .idle) : s.len = s.unfinished := by
  obtain ⟨l, hl⟩ := h.inv
  have hbalance := len_balance hl h.ledger ho
  unfold State.unfinished
  omega

theorem is_empty_iff (h : s.Sound) : s.is_empty = true ↔ s.len = 0 := by
  obtain ⟨l, hl⟩ := h.inv
  rw [State.is_empty, State.len, hl.places.all.is_empty_iff, hl.places.all.len_eq,
    List.length_eq_zero_iff]

theorem unfinished_push (h : s.Sound) (i : ℕ) (fut : F) :
    (s.push i fut).unfinished = s.unfinished + 1 := by
  have hbound := h.bound
  show s.fresh + 1 - (s.hist.completed.length + s.hist.discarded.length) = s.fresh - _ + 1
  omega

end State.Sound

theorem Frame.unfinished (h : Frame s s') : s'.unfinished = s.unfinished := by
  unfold State.unfinished
  rw [h.fresh, h.completed, h.discarded]

/-- A future that answers finishes, and its output is on its way if it has one. -/
theorem unfinished_polled {lv : Locals W} {t : ℕ} (h : s.Sound)
    (ho : s.owner = .poll lv (.poll t)) (r : Polled F O) :
    (s.polled lv t r).unfinished + (s.polled lv t r).owner.carrying.length ≤ s.unfinished := by
  have hafter := (h.move (.polled r ho) nofun).bound
  cases r with
  | pending fut => exact le_refl s.unfinished
  | ready o =>
      show s.fresh - ((s.hist.completed ++ [(t, o)]).length + s.hist.discarded.length) + 1 ≤
        s.fresh - _
      have hbound : (s.polled lv t (.ready o)).len + (s.hist.completed ++ [(t, o)]).length +
        s.hist.discarded.length ≤ s.fresh := hafter
      rw [List.length_append, List.length_singleton] at hbound ⊢
      omega
  | unwind =>
      show s.fresh - (s.hist.completed.length + (s.hist.discarded ++ [t]).length) + 0 ≤ s.fresh - _
      rw [List.length_append]
      omega

/-! ## The futures in the set -/

/-- The set holds `fut`, in the task `t`: it was pushed and has not finished. -/
structure State.Holds (s : State F O W A) (t : ℕ) (fut : F) : Prop where
  pushed : t < s.fresh
  unfinished : t ∉ s.yielded ++ s.hist.discarded
  future : (s.tasks t).future = some fut

/-- Writing another cell keeps the future. -/
theorem future_kept_update {tasks : ℕ → Task F} {t u : ℕ} {y : Task F} {fut : F}
    (hy : y.future = (tasks t).future) (hf : (tasks u).future = some fut) :
    (Function.update tasks t y u).future = some fut := by
  by_cases hut : u = t
  · rw [hut, Function.update_self, hy, ← hut, hf]
  · rw [Function.update_of_ne hut, hf]

/-- Only the future of a retired task is dropped. -/
theorem future_kept {l : List ℕ} (hl : s.Inv l) {a : Act F O W} (hm : Move s a s')
    (ha : a.inner = true) {t : ℕ} {fut : F} (ht : s.hist.retired t = false)
    (hf : (s.tasks t).future = some fut) : (s'.tasks t).future = some fut := by
  have hdropping : ∀ u, s.owner.dropping = some u → t ≠ u := by
    rintro u hu rfl
    rw [hl.places.dropping_retired t hu] at ht
    cases ht
  cases hm with
  | push fut hi ho => cases ha
  | storeWoken hi => exact future_kept_update rfl hf
  | swapQueued hi =>
      unfold State.swapQueued
      split
      · exact hf
      · exact future_kept_update rfl hf
  | dropInner hi =>
      unfold State.dropInner
      dsimp only
      split
      · split
        · exact hf
        · exact hf
      · exact hf
  | dequeueEmpty ho hc => unfold State.dequeueEmpty; split <;> exact hf
  | resetQueued ho => exact future_kept_update rfl hf
  | clearWoken ho => exact future_kept_update rfl hf
  | polled r ho => cases ha
  | relink ho => unfold State.relink; split <;> exact hf
  | release ho => exact future_kept_update rfl hf
  | @dropFuture lv u prev r ho =>
      have hne : t ≠ u := hdropping u (by rw [ho]; rfl)
      exact (congrArg Task.future (Function.update_of_ne hne _ _)).trans hf
  | dropLoop ho => unfold State.dropLoop; split <;> [exact hf; (split <;> exact hf)]
  | dropRelease ho => exact future_kept_update rfl hf
  | @dropDropFuture u prev ho =>
      have hne : t ≠ u := hdropping u (by rw [ho]; rfl)
      exact (congrArg Task.future (Function.update_of_ne hne _ _)).trans hf
  | @dropDequeued d ho hc => cases d <;> exact hf
  | _ => exact hf

namespace State.Sound

theorem lt_of_finished (h : s.Sound) {t : ℕ} (ht : t ∈ s.yielded ++ s.hist.discarded) :
    t < s.fresh := by
  obtain ⟨l, hl⟩ := h.inv
  exact linked_lt hl h.ledger (List.mem_append_right l ht)

/-- A pushed future is in the set. -/
theorem holds_push (h : s.Sound) (i : ℕ) (fut : F) : (s.push i fut).Holds s.fresh fut := by
  refine ⟨Nat.lt_succ_self _, fun ht => absurd (h.lt_of_finished ht) (Nat.lt_irrefl _), ?_⟩
  show (Function.update s.tasks s.fresh _ s.fresh).future = some fut
  rw [Function.update_self]

end State.Sound

namespace State.Holds

variable {t : ℕ} {fut : F}

/-- A push keeps the others. -/
theorem push (h : s.Holds t fut) (i : ℕ) (x : F) : (s.push i x).Holds t fut :=
  ⟨Nat.lt_succ_of_lt h.pushed, h.unfinished,
    (congrArg Task.future (Function.update_of_ne (Nat.ne_of_lt h.pushed) _ _)).trans h.future⟩

/-- The machinery of the set keeps the futures. -/
theorem inner (h : s.Holds t fut) (hs : s.Sound) {a : Act F O W} (ha : a.inner = true)
    (hm : Move s a s') : s'.Holds t fut := by
  obtain ⟨l, hl⟩ := hs.inv
  have hframe := frame_move hm ha
  have hlive : s.hist.retired t = false := by
    by_contra hret
    exact h.unfinished ((hs.ledger.finished t).mpr (Or.inl (Bool.not_eq_false _ ▸ hret)))
  refine ⟨hframe.fresh ▸ h.pushed, ?_, future_kept hl hm ha hlive h.future⟩
  unfold State.yielded
  rw [hframe.completed, hframe.discarded]
  exact h.unfinished

/-- Another future answers. -/
theorem polled_of_ne (h : s.Holds t fut) {lv : Locals W} {u : ℕ} (hne : t ≠ u) (r : Polled F O) :
    (s.polled lv u r).Holds t fut := by
  cases r with
  | pending fut' =>
      exact ⟨h.pushed, h.unfinished,
        (congrArg Task.future (Function.update_of_ne hne _ _)).trans h.future⟩
  | ready o =>
      refine ⟨h.pushed, fun ht => h.unfinished ?_, h.future⟩
      have hmem : t ∈ (s.hist.completed ++ [(u, o)]).map Prod.fst ++ s.hist.discarded := ht
      simp only [List.map_append, List.map_cons, List.map_nil, List.mem_append,
        List.mem_singleton, hne, or_false] at hmem
      exact List.mem_append.mpr hmem
  | unwind =>
      refine ⟨h.pushed, fun ht => h.unfinished ?_, h.future⟩
      have hmem : t ∈ s.hist.completed.map Prod.fst ++ (s.hist.discarded ++ [u]) := ht
      simp only [List.mem_append, List.mem_singleton, hne, or_false] at hmem
      exact List.mem_append.mpr hmem

/-- The future answers pending. -/
theorem polled_pending (h : s.Holds t fut) (lv : Locals W) (fut' : F) :
    (s.polled lv t (.pending fut')).Holds t fut' := by
  refine ⟨h.pushed, h.unfinished, ?_⟩
  show (Function.update s.tasks t _ t).future = some fut'
  rw [Function.update_self]

/-- Between calls a set that holds a future is not empty. -/
theorem not_empty (h : s.Holds t fut) (hs : s.Sound) (ho : s.owner = .idle) :
    s.is_empty = false := by
  obtain ⟨l, hl⟩ := hs.inv
  have hlive : s.hist.retired t = false := by
    by_contra hret
    exact h.unfinished ((hs.ledger.finished t).mpr (Or.inl (Bool.not_eq_false _ ▸ hret)))
  have hmem : t ∈ l := by
    rw [hl.places.mem]
    exact ⟨h.pushed, hlive, by rw [ho]; nofun⟩
  rw [Bool.eq_false_iff, ne_eq]
  intro hempty
  rw [State.is_empty, hl.places.all.is_empty_iff] at hempty
  rw [hempty] at hmem
  cases hmem

end State.Holds

end TokioStreamUtil.FuturesUnordered
