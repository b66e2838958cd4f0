/-
A queue that has been drained stays drained.

With no output waiting, `poll_next` of the queue is that of its set.
-/
import TokioStreamUtil.FuturesUnordered.Drained
import TokioStreamUtil.FuturesOrdered.Delivery

set_option autoImplicit false

namespace TokioStreamUtil.FuturesOrdered

open FuturesUnordered (PollNext Polled move_of_step)

variable {F O W : Type} {A : AtomicWaker W} {s s' : State F O W A}

/-- `FuturesOrdered::is_empty`. -/
def State.is_empty (s : State F O W A) : Bool :=
  s.in_progress_queue.is_empty && s.queued_outputs.elems.isEmpty

/-- Where a call on an empty queue can be, with the call of the set. -/
def State.Place (calm : Prop) (s : State F O W A) : Prop :=
  match s.pc with
  | .loop _ => s.in_progress_queue.owner.isIdle = false
  | .done r => s.in_progress_queue.owner = .idle ∧ (r = .ready none ∨ (r = .pending ∧ ¬calm))
  | _ => s.in_progress_queue.owner = .idle

/-- The queue is empty, and `poll_next` is not called or on its way through it. -/
structure State.Drained (calm : Prop) (s : State F O W A) : Prop where
  set : s.in_progress_queue.Drained calm
  outputs : s.queued_outputs.peek = none
  place : s.Place calm

/-- A bound on the steps that are left until the next call has come to its end. -/
def drainedRank (s : State F O W A) : ℕ :=
  match s.pc with
  | .idle => FuturesUnordered.drainedRank s.in_progress_queue + 2
  | .peek _ => FuturesUnordered.drainedRank s.in_progress_queue + 1
  | .loop _ => FuturesUnordered.drainedRank s.in_progress_queue + 1
  | .done _ => 0

/-- The label is a step of the call. -/
def Act.ofCall : Act F O W → Bool
  | .own => true
  | .owner => true
  | .polled _ => true
  | _ => false

namespace State.Drained

variable {calm : Prop}

/-- A queue that is empty between calls. -/
theorem of_len {Agrees : F → O → Prop} {futs : List F} {outs : List O}
    (h : s.Delivery Agrees futs outs) (hpc : s.pc = .idle) (hlen : s.len = 0)
    (hp : s.in_progress_queue.pushing = ∅)
    (hcalm : calm → ∀ i t, ¬s.in_progress_queue.Enqueueing i t) : s.Drained calm := by
  obtain ⟨d, -, hrel⟩ := h.deque
  have hidle : s.in_progress_queue.owner = .idle :=
    FuturesUnordered.Owner.eq_idle (hrel.notLoop (by rw [hpc]; nofun))
  obtain ⟨hset, houtputs⟩ := Nat.add_eq_zero_iff.mp (show s.in_progress_queue.len +
    s.queued_outputs.len = 0 from hlen)
  refine ⟨.of_empty hrel.inv ?_ hidle hp hcalm, ?_, ?_⟩
  · exact (FuturesUnordered.State.Sound.mk hrel.inv hrel.ledger).is_empty_iff.mpr hset
  · exact List.head?_eq_none_iff.mpr (List.length_eq_zero_iff.mp houtputs)
  · unfold State.Place
    rw [hpc]
    exact hidle

/-- Between calls the set is not being polled. -/
theorem set_idle (h : s.Drained calm) (hpc : s.pc = .idle) :
    s.in_progress_queue.owner = .idle := by
  have hplace := h.place
  unfold State.Place at hplace
  rw [hpc] at hplace
  exact hplace

/-- The call begins. -/
theorem poll_next (h : s.Drained calm) {w : W} (hs : step s (.poll_next w) = some s') :
    s'.Drained calm ∧ drainedRank s' < drainedRank s := by
  simp only [step, Option.ite_none_right_eq_some, Option.some.injEq] at hs
  obtain ⟨⟨hpc, -⟩, rfl⟩ := hs
  have hplace := h.place
  unfold State.Place at hplace
  unfold drainedRank
  rw [Pc.eq_idle hpc] at hplace ⊢
  exact ⟨⟨h.set, h.outputs, hplace⟩, Nat.lt_succ_self _⟩

/-- The call of the set begins. -/
theorem pollSet (h : s.Drained calm) (w : W) (ho : s.in_progress_queue.owner = .idle) :
    (s.pollSet w).Drained calm ∧
      drainedRank (s.pollSet w) < FuturesUnordered.drainedRank s.in_progress_queue + 1 := by
  obtain ⟨hset, hlt⟩ := h.set.poll_next w ho
  exact ⟨⟨hset, h.outputs, rfl⟩, Nat.succ_lt_succ hlt⟩

/-- A step of `poll_next` itself. -/
theorem own (h : s.Drained calm) (hs : stepOwn s = some s') :
    s'.Drained calm ∧ drainedRank s' < drainedRank s := by
  have hplace := h.place
  unfold State.Place at hplace
  unfold stepOwn at hs
  split at hs
  · cases hs
  · rename_i w hpc
    rw [hpc] at hplace
    have hrank : drainedRank s = FuturesUnordered.drainedRank s.in_progress_queue + 1 := by
      unfold drainedRank
      rw [hpc]
    cases hs
    unfold State.peekQueued
    rw [h.outputs, hrank]
    exact h.pollSet w hplace
  · rename_i w hpc
    have hpos : 0 < drainedRank s := by
      unfold drainedRank
      rw [hpc]
      exact Nat.succ_pos _
    split at hs
    · rename_i lv r ho
      cases hs
      have hret := h.set.ret ho
      rcases h.set.result ho with rfl | ⟨rfl, hcalm⟩
      · exact ⟨⟨hret, h.outputs, rfl, Or.inl rfl⟩, hpos⟩
      · exact ⟨⟨hret, h.outputs, rfl, Or.inr ⟨rfl, hcalm⟩⟩, hpos⟩
    · cases hs
  · cases hs

/-- A step of the machinery of the set. -/
theorem inner (h : s.Drained calm) {a : FuturesUnordered.Act (Ordered F) (Ordered O) W}
    (ha : a.inner = true) (hs : stepSet s a = some s') :
    s'.Drained calm ∧ drainedRank s' + (if a.ofCall then 1 else 0) ≤ drainedRank s := by
  obtain ⟨q, hq, rfl⟩ := Option.map_eq_some_iff.mp hs
  have hm := move_of_step hq
  obtain ⟨hset, hle⟩ := h.set.inner hm ha
  have hidle := (FuturesUnordered.frame_move hm ha).idle
  have hplace := h.place
  unfold State.Place at hplace
  -- outside of the loop the set is not being polled
  have hother : s.in_progress_queue.owner = .idle → a.ofCall = false ∧ q.owner = .idle := by
    intro ho
    refine ⟨FuturesUnordered.not_ofCall_of_idle hm ha ho, FuturesUnordered.Owner.eq_idle ?_⟩
    rw [hidle, ho]
    rfl
  unfold drainedRank
  cases hpc : s.pc with
  | idle =>
      rw [hpc] at hplace
      exact ⟨⟨hset, h.outputs, (hother hplace).2⟩,
        Nat.add_right_comm .. ▸ Nat.add_le_add_right hle 2⟩
  | peek w =>
      rw [hpc] at hplace
      exact ⟨⟨hset, h.outputs, (hother hplace).2⟩,
        Nat.add_right_comm .. ▸ Nat.add_le_add_right hle 1⟩
  | loop w =>
      rw [hpc] at hplace
      exact ⟨⟨hset, h.outputs, hidle.trans hplace⟩,
        Nat.add_right_comm .. ▸ Nat.add_le_add_right hle 1⟩
  | done r =>
      rw [hpc] at hplace
      obtain ⟨hcount, ho⟩ := hother hplace.1
      refine ⟨⟨hset, h.outputs, ho, hplace.2⟩, ?_⟩
      rw [hcount]
      exact le_refl 0

/-- The call returns. -/
theorem ret (h : s.Drained calm) {r : PollNext O} (hpc : s.pc = .done r) :
    s.ret.Drained calm := by
  have hplace := h.place
  unfold State.Place at hplace
  rw [hpc] at hplace
  exact ⟨h.set, h.outputs, hplace.1⟩

/-- What a call comes to. -/
theorem result (h : s.Drained calm) {r : PollNext O} (hpc : s.pc = .done r) :
    r = .ready none ∨ (r = .pending ∧ ¬calm) := by
  have hplace := h.place
  unfold State.Place at hplace
  rw [hpc] at hplace
  exact hplace.2

/-- A call in progress is at its end, or can take its next step. -/
theorem live (h : s.Drained calm) (hpc : s.pc.isIdle = false) :
    (∃ r, s.pc = .done r) ∨ (∃ s', step s .own = some s') ∨ ∃ s', step s .owner = some s' := by
  have hplace := h.place
  unfold State.Place at hplace
  cases hat : s.pc with
  | idle => rw [hat] at hpc; cases hpc
  | done r => exact Or.inl ⟨r, rfl⟩
  | peek w => exact Or.inr (Or.inl ⟨s.peekQueued w, by simp [step, stepOwn, hat]⟩)
  | loop w =>
      rw [hat] at hplace
      rcases h.set.live hplace with ⟨lv, r, ho⟩ | ⟨q, hq⟩
      · refine Or.inr (Or.inl ⟨State.loopBody { s with
          in_progress_queue := s.in_progress_queue.ret lv r } w r, ?_⟩)
        simp [step, stepOwn, hat, ho]
      · exact Or.inr (Or.inr ⟨{ s with in_progress_queue := q }, by simp [step, stepSet, hq]⟩)

end State.Drained

end TokioStreamUtil.FuturesOrdered
