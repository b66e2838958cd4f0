/-
Which futures have finished, and which outputs have been handed out.

`Ledger` ties the history of completions, discards and outputs to the retired
flags and to the place of `poll_next`. It is about sets that are not dropped: the
drop retires tasks that have not finished.
-/
import TokioStreamUtil.FuturesUnordered.Invariant

set_option autoImplicit false

namespace TokioStreamUtil.FuturesUnordered

variable {F O W : Type} {A : AtomicWaker W}

/-! ## What a call of `poll_next` carries -/

/-- The task whose poll is over and which `release_task` has not retired yet. -/
def Owner.releasing : Owner O W → Option ℕ
  | .poll _ (.release t _) => some t
  | _ => none

/-- The result `poll_next` is going to return, once that is settled. -/
def Owner.result : Owner O W → Option (PollNext O)
  | .poll _ (.release _ r) => some r
  | .poll _ (.dropFuture _ _ r) => some r
  | .poll _ (.done r) => some r
  | _ => none

/-- The outputs in `Owner.result`. -/
def Owner.carrying (o : Owner O W) : List O :=
  match o.result with
  | none => []
  | some r => State.outputOf r

/-- Between calls no output is on its way. -/
theorem Owner.carrying_of_idle {o : Owner O W} (ho : o.isIdle = true) : o.carrying = [] := by
  rw [Owner.eq_idle ho]
  rfl

/-- The set has not been dropped. -/
def Owner.undropped : Owner O W → Bool
  | .idle => true
  | .poll _ _ => true
  | _ => false

/-- The books: `completed` are the futures that answered `Ready`, with their
outputs, `discarded` those that unwound, `outputs` what `poll_next` has returned. -/
structure Ledger (completed : List (ℕ × O)) (discarded : List ℕ) (outputs : List O)
    (retired : ℕ → Bool) (owner : Owner O W) (empty : Bool) : Prop where
  nodup : (completed.map Prod.fst ++ discarded).Nodup
  finished : ∀ t, t ∈ completed.map Prod.fst ++ discarded ↔
    retired t = true ∨ owner.releasing = some t
  handed : outputs ++ owner.carrying = completed.map Prod.snd
  undropped : owner.undropped = true
  ended : owner.result = some (.ready none) → empty = true

namespace Ledger

variable {completed : List (ℕ × O)} {discarded : List ℕ} {outputs : List O}
  {retired : ℕ → Bool} {owner owner' : Owner O W} {empty empty' : Bool}

/-- A move of the call that settles no result. -/
theorem advance (h : Ledger completed discarded outputs retired owner empty)
    (hres : owner.result = none) (hrel : owner'.releasing = owner.releasing)
    (hres' : owner'.result = none) (hund : owner'.undropped = true) :
    Ledger completed discarded outputs retired owner' empty' := by
  refine ⟨h.nodup, by rw [hrel]; exact h.finished, ?_, hund, ?_⟩
  · have hhanded := h.handed
    unfold Owner.carrying at hhanded ⊢
    rw [hres] at hhanded
    rw [hres']
    exact hhanded
  · intro hnone
    rw [hres'] at hnone
    cases hnone

/-- A call that is pending, or at the end of the stream, settles its result. -/
theorem settle (h : Ledger completed discarded outputs retired owner empty)
    {lv : Locals W} {r : PollNext O} (hres : owner.result = none) (hrel : owner.releasing = none)
    (hout : State.outputOf r = []) (hend : r = .ready none → empty = true) :
    Ledger completed discarded outputs retired (.poll lv (.done r)) empty := by
  refine ⟨h.nodup, ?_, ?_, rfl, ?_⟩
  · have hfin := h.finished
    rw [hrel] at hfin
    exact hfin
  · have hhanded := h.handed
    unfold Owner.carrying at hhanded ⊢
    rw [hres] at hhanded
    dsimp only [Owner.result]
    rw [hout]
    exact hhanded
  · intro hr
    exact hend (by simpa [Owner.result] using hr)

/-- The future of `t` answers `Ready(o)`. -/
theorem complete {lv lv' : Locals W} {t : ℕ}
    (h : Ledger completed discarded outputs retired (.poll lv (.poll t)) empty)
    (ht : retired t = false) (o : O) :
    Ledger (completed ++ [(t, o)]) discarded outputs retired
      (.poll lv' (.release t (.ready (some o)))) empty := by
  have hnot : t ∉ completed.map Prod.fst ++ discarded := by
    rw [h.finished, ht]
    simp [Owner.releasing]
  have hperm : ((completed ++ [(t, o)]).map Prod.fst ++ discarded).Perm
      (t :: (completed.map Prod.fst ++ discarded)) := by
    simp only [List.map_append, List.map_cons, List.map_nil, List.append_assoc, List.cons_append,
      List.nil_append]
    exact List.perm_middle
  refine ⟨?_, ?_, ?_, rfl, ?_⟩
  · rw [hperm.nodup_iff, List.nodup_cons]
    exact ⟨hnot, h.nodup⟩
  · intro u
    rw [hperm.mem_iff, List.mem_cons, h.finished u]
    simp only [Owner.releasing, reduceCtorEq, or_false, Option.some.injEq, eq_comm (a := t)]
    exact or_comm
  · have hhanded := h.handed
    simp only [Owner.carrying, Owner.result, List.append_nil] at hhanded
    simp [Owner.carrying, Owner.result, State.outputOf, hhanded]
  · simp [Owner.result]

/-- The future of `t` unwinds. -/
theorem discard {lv lv' : Locals W} {t : ℕ}
    (h : Ledger completed discarded outputs retired (.poll lv (.poll t)) empty)
    (ht : retired t = false) :
    Ledger completed (discarded ++ [t]) outputs retired (.poll lv' (.release t .unwound))
      empty := by
  have hnot : t ∉ completed.map Prod.fst ++ discarded := by
    rw [h.finished, ht]
    simp [Owner.releasing]
  refine ⟨?_, ?_, ?_, rfl, ?_⟩
  · rw [← List.append_assoc, List.nodup_append]
    refine ⟨h.nodup, by simp, ?_⟩
    intro u hu v hv
    rw [List.mem_singleton] at hv
    rintro rfl
    exact hnot (hv ▸ hu)
  · intro u
    rw [← List.append_assoc, List.mem_append, h.finished u, List.mem_singleton]
    simp only [Owner.releasing, reduceCtorEq, or_false, Option.some.injEq, eq_comm]
  · have hhanded := h.handed
    simp only [Owner.carrying, Owner.result, List.append_nil] at hhanded
    simp [Owner.carrying, Owner.result, State.outputOf, hhanded]
  · simp [Owner.result]

/-- `release_task` retires the finished task. -/
theorem retire {lv : Locals W} {t : ℕ} {r : PollNext O} (prev : Bool)
    (h : Ledger completed discarded outputs retired (.poll lv (.release t r)) empty) :
    Ledger completed discarded outputs (Function.update retired t true)
      (.poll lv (.dropFuture t prev r)) empty := by
  refine ⟨h.nodup, ?_, h.handed, rfl, h.ended⟩
  intro u
  rw [h.finished u]
  by_cases hut : u = t
  · simp [hut, Owner.releasing]
  · have hne : t ≠ u := fun heq => hut heq.symm
    simp [hut, hne, Owner.releasing]

/-- `poll_next` returns. -/
theorem ret {lv : Locals W} {r : PollNext O}
    (h : Ledger completed discarded outputs retired (.poll lv (.done r)) empty) :
    Ledger completed discarded (outputs ++ State.outputOf r) retired (.idle : Owner O W) empty := by
  refine ⟨h.nodup, h.finished, ?_, rfl, nofun⟩
  have hhanded := h.handed
  simpa [Owner.carrying, Owner.result] using hhanded

end Ledger

/-- The books of a state. -/
def State.Ledger (s : State F O W A) : Prop :=
  FuturesUnordered.Ledger s.hist.completed s.hist.discarded s.hist.outputs s.hist.retired s.owner
    s.is_empty

variable {s s' : State F O W A} {l : List ℕ} {t : ℕ}

theorem ledger_new : (State.new : State F O W A).Ledger :=
  ⟨List.nodup_nil, by simp [State.new, Owner.releasing], rfl, rfl, nofun⟩

/-- **The books balance after every move**, as long as the set is not dropped. -/
theorem ledger_move {a : Act F O W} (hl : s.Inv l) (h : s.Ledger) (hm : Move s a s')
    (ha : a ≠ .drop) : s'.Ledger := by
  have hund := h.undropped
  unfold State.Ledger at h
  cases hm with
  | push fut hi ho =>
      rw [ho] at h
      show FuturesUnordered.Ledger _ _ _ _ s.owner _
      rw [ho]
      exact h.advance rfl rfl rfl rfl
  | swapQueued hi => unfold State.swapQueued; split <;> exact h
  | dropInner hi =>
      unfold State.dropInner
      dsimp only
      split
      · rename_i ho
        rw [ho] at hund
        cases hund
      · exact h
  | poll_next w ho hp => rw [ho] at h; exact h.advance rfl rfl rfl rfl
  | register ho => rw [ho] at h; exact h.advance rfl rfl rfl rfl
  | dequeueEmpty ho hc =>
      rw [ho] at h
      unfold State.dequeueEmpty
      split
      · rename_i hempty
        exact h.settle rfl rfl rfl fun _ => hempty
      · exact h.settle rfl rfl rfl (by intro hr; cases hr)
  | dequeueInconsistent ho hc => rw [ho] at h; exact h.advance rfl rfl rfl rfl
  | dequeueData ho hc hf => rw [ho] at h; exact h.advance rfl rfl rfl rfl
  | unlink ho => rw [ho] at h; exact h.advance rfl rfl rfl rfl
  | resetQueued ho =>
      rw [ho] at h
      refine h.advance rfl ?_ ?_ rfl
      · dsimp only [State.resetQueued]; split <;> rfl
      · dsimp only [State.resetQueued]; split <;> rfl
  | clearWoken ho => rw [ho] at h; exact h.advance rfl rfl rfl rfl
  | polled r ho =>
      have hlive := (hl.places.held_live _ (by rw [ho]; rfl)).2
      rw [ho] at h
      cases r with
      | pending fut => exact h.advance rfl rfl rfl rfl
      | ready o => exact h.complete hlive o
      | unwind => exact h.discard hlive
  | loadWoken ho => rw [ho] at h; exact h.advance rfl rfl rfl rfl
  | relink ho =>
      rw [ho] at h
      unfold State.relink
      split
      · exact h.advance rfl rfl rfl rfl
      · exact h.advance rfl rfl rfl rfl
  | release ho => rw [ho] at h; exact h.retire _
  | dropFuture ho =>
      rw [ho] at h
      exact ⟨h.nodup, h.finished, h.handed, rfl, h.ended⟩
  | wakeParent ho => rw [ho] at h; exact h.settle rfl rfl rfl (by intro hr; cases hr)
  | ret ho => rw [ho] at h; exact h.ret
  | drop ho hp => exact absurd rfl ha
  | dropLoop ho => rw [ho] at hund; cases hund
  | dropRelease ho => rw [ho] at hund; cases hund
  | dropDropFuture ho => rw [ho] at hund; cases hund
  | dropDequeued ho hc => rw [ho] at hund; cases hund
  | _ => exact h

/-- The books balance in every state of a run without a drop. -/
theorem ledger_of_run {ls : List (Act F O W)} (hls : .drop ∉ ls)
    (h : Transition.run step State.new ls = some s) : (∃ l, s.Inv l) ∧ s.Ledger := by
  refine Transition.run_invariant_of_labels (I := fun s => (∃ l, s.Inv l) ∧ s.Ledger)
    (P := fun a => a ≠ .drop) ?_ ls State.new s ?_ ⟨⟨[], State.inv_new⟩, ledger_new⟩ h
  · rintro s a s' ha ⟨⟨l, hl⟩, hledger⟩ hs
    have hm := move_of_step hs
    exact ⟨inv_move hl hm, ledger_move hl hledger hm ha⟩
  · rintro a ha rfl
    exact hls ha

end TokioStreamUtil.FuturesUnordered
