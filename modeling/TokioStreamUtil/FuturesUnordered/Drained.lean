/-
A set that has been drained stays drained.

Between the calls and through every further `poll_next`, a set with no future in it and
nobody who pushes gives nothing: the call comes to its end with `Ready(None)`, or with
`Pending` when it has met an enqueue of a task that finished earlier. No such enqueue can
begin any more, so a set that is `calm` now gives `Ready(None)` from here on.
-/
import TokioStreamUtil.FuturesUnordered.Termination
import TokioStreamUtil.FuturesUnordered.ExactlyOnce

set_option autoImplicit false

namespace TokioStreamUtil.FuturesUnordered

open ReadyToRunQueue (Sys)

variable {F O W : Type} {A : AtomicWaker W} {s s' : State F O W A} {l : List ℕ}

/-- No thread is inside an enqueue. -/
def State.Unhurried (s : State F O W A) : Prop := ∀ i, s.ready.producers i = .idle

/-- Nobody enqueues, as far as the tasks tell. -/
theorem State.Inv.unhurried (hl : s.Inv l) (h : ∀ i t, ¬s.Enqueueing i t) : s.Unhurried := by
  intro i
  by_contra hne
  obtain ⟨t, ht⟩ := hl.calls.busy i hne
  exact h i t (hl.enqueueing_iff.mpr ht)

/-- Between calls only other threads move. -/
theorem others_of_idle {a : Act F O W} (hm : Move s a s') (ho : s.owner = .idle) : a ≠ .owner := by
  rintro rfl
  have hbusy := owner_not_idle hm
  rw [ho] at hbusy
  cases hbusy

theorem not_ofCall_of_idle {a : Act F O W} (hm : Move s a s') (ha : a.inner = true)
    (ho : s.owner = .idle) : a.ofCall = false := by
  have hother := others_of_idle hm ho
  cases a with
  | owner => exact absurd rfl hother
  | polled r => cases ha
  | _ => rfl

/-- Between calls of an empty set no enqueue begins: every flag is up. -/
theorem unhurried_others (hl : s.Inv l) (hempty : s.is_empty = true) (ho : s.owner = .idle)
    {a : Act F O W} (hm : Move s a s') (ha : a.inner = true) (h : s.Unhurried) :
    s'.Unhurried := by
  have hquiet := h
  have hother := others_of_idle hm ho
  cases hm with
  | push fut hi ho => cases ha
  | poll_next w ho hp => cases ha
  | polled r ho => cases ha
  | ret ho => cases ha
  | drop ho hp => cases ha
  | produce hp => exact absurd (h _) hp
  | @swapQueued i t hi =>
      have hnil : l = [] := hl.places.all.is_empty_iff.mp hempty
      subst hnil
      have ht := hl.calls.task_lt i t (Or.inr ⟨_, hi⟩)
      have hup := hl.queued_of_retired (hl.retired_of_nil (by rw [ho]; rfl) ht)
      unfold State.swapQueued
      rw [if_pos hup]
      exact hquiet
  | dropInner hi =>
      unfold State.dropInner
      dsimp only
      split
      · rename_i hgone
        rw [ho] at hgone
        cases hgone
      · exact hquiet
  | endPush hi hp => exact hquiet
  | upgrade hi ht ha => exact hquiet
  | upgradeFails ha => exact hquiet
  | storeWoken hi => exact hquiet
  | endEnqueue hi hp => exact hquiet
  | wakeWaker hi => exact hquiet
  | _ => exact absurd rfl hother

/-- The set is empty, and `poll_next` is not called or on its way through it. When it is
`calm`, nobody enqueues, and a call in progress comes to `Ready(None)`. -/
structure State.Drained (calm : Prop) (s : State F O W A) : Prop where
  inv : ∃ l, s.Inv l
  empty : s.is_empty = true
  quiet : s.pushing = ∅
  place : s.owner = .idle ∨ (s.owner.ofVacant = true ∧ s.InBudget)
  unhurried : calm → s.Unhurried
  call : calm → s.owner = .idle ∨ EmptyCall s

/-- A bound on the steps that are left until the next call has come to its end. -/
def drainedRank (s : State F O W A) : ℕ :=
  match s.owner with
  | .idle => 8 * s.leftover + 11
  | _ => callRank s

theorem drainedRank_of_vacant (h : s.owner.ofVacant = true) : drainedRank s = callRank s := by
  unfold drainedRank
  cases ho : s.owner with
  | idle => rw [ho] at h; cases h
  | _ => rfl

namespace State.Drained

variable {calm : Prop}

/-- A set that is empty between calls. -/
theorem of_empty (hinv : ∃ l, s.Inv l) (hempty : s.is_empty = true) (ho : s.owner = .idle)
    (hp : s.pushing = ∅) (hcalm : calm → ∀ i t, ¬s.Enqueueing i t) : s.Drained calm := by
  refine ⟨hinv, hempty, hp, Or.inl ho, fun hc => ?_, fun _ => Or.inl ho⟩
  obtain ⟨l, hl⟩ := hinv
  exact hl.unhurried (hcalm hc)

/-- The call begins. -/
theorem poll_next (h : s.Drained calm) (w : W) (ho : s.owner = .idle) :
    (s.poll_next w).Drained calm ∧ drainedRank (s.poll_next w) < drainedRank s := by
  obtain ⟨l, hl⟩ := h.inv
  have hlen : s.len = 0 :=
    hl.places.all.len_eq.trans
      (List.length_eq_zero_iff.mpr (hl.places.all.is_empty_iff.mp h.empty))
  refine ⟨⟨⟨l, hl.poll_next w ho h.quiet⟩, h.empty, h.quiet,
    Or.inr ⟨rfl, inBudget_poll_next s w⟩, h.unhurried, fun hc => Or.inr ?_⟩, ?_⟩
  · exact ⟨⟨l, hl.poll_next w ho h.quiet⟩, h.empty, h.unhurried hc, rfl, nofun⟩
  · have hidle : drainedRank s = 8 * s.leftover + 11 := by
      unfold drainedRank
      rw [ho]
    rw [hidle]
    show 16 * (s.len - 0) + 8 * s.leftover + 10 < _
    rw [hlen]
    omega

/-- **A step of the machinery.** It gives nothing, and uses the call up if it is one of
the call's own. -/
theorem inner (h : s.Drained calm) {a : Act F O W} (hm : Move s a s') (ha : a.inner = true) :
    s'.Drained calm ∧ drainedRank s' + (if a.ofCall then 1 else 0) ≤ drainedRank s := by
  obtain ⟨l, hl⟩ := h.inv
  have hinv := inv_move hl hm
  have hframe := frame_move hm ha
  have hret : a ≠ .ret := by
    rintro rfl
    cases ha
  rcases h.place with ho | ⟨hvacant, hbudget⟩
  · -- between calls only other threads move
    have hother := others_of_idle hm ho
    obtain ⟨hall, hleft⟩ := others_move hl hm ha hother
    have hidle : s'.owner = .idle := by
      refine Owner.eq_idle ?_
      rw [hframe.idle, ho]
      rfl
    refine ⟨⟨hinv, ?_, hframe.pushing h.quiet, Or.inl hidle, fun hc => ?_, fun _ => Or.inl hidle⟩,
      ?_⟩
    · unfold State.is_empty
      rw [hall]
      exact h.empty
    · exact unhurried_others hl h.empty ho hm ha (h.unhurried hc)
    · unfold drainedRank
      rw [hidle, ho, hleft, not_ofCall_of_idle hm ha ho]
      exact le_refl _
  · have hpolling := polling_of_vacant hvacant
    obtain ⟨hempty, hvacant'⟩ := vacant_move hl h.empty hvacant hm hret
    obtain ⟨hbudget', -, hle⟩ := rank_move hl hbudget hm hpolling hret
    have hcall : calm → EmptyCall s' := by
      intro hc
      rcases h.call hc with ho | hcall
      · rw [ho] at hvacant
        cases hvacant
      · exact (hcall.move hm hret).1
    refine ⟨⟨hinv, hempty, hframe.pushing h.quiet, Or.inr ⟨hvacant', hbudget'⟩,
      fun hc => (hcall hc).quiet, fun hc => Or.inr (hcall hc)⟩, ?_⟩
    rw [drainedRank_of_vacant hvacant, drainedRank_of_vacant hvacant']
    exact hle

/-- The call returns. -/
theorem ret (h : s.Drained calm) {lv : Locals W} {r : PollNext O}
    (ho : s.owner = .poll lv (.done r)) : (s.ret lv r).Drained calm := by
  obtain ⟨l, hl⟩ := h.inv
  exact ⟨inv_move hl (.ret ho), h.empty, h.quiet, Or.inl rfl, h.unhurried, fun _ => Or.inl rfl⟩

/-- What a call comes to. -/
theorem result (h : s.Drained calm) {lv : Locals W} {r : PollNext O}
    (ho : s.owner = .poll lv (.done r)) : r = .ready none ∨ (r = .pending ∧ ¬calm) := by
  rcases h.place with hidle | ⟨hvacant, -⟩
  · rw [hidle] at ho
    cases ho
  rw [ho] at hvacant
  rcases r with _ | _ | _
  · refine Or.inr ⟨rfl, fun hc => ?_⟩
    rcases h.call hc with hidle | hcall
    · rw [hidle] at ho
      cases ho
    · have hplace := hcall.place
      rw [ho] at hplace
      cases hplace
  · rename_i o
    cases o with
    | none => exact Or.inl rfl
    | some o => cases hvacant
  · cases hvacant

/-- No future is polled. -/
theorem not_polled (h : s.Drained calm) {lv : Locals W} {t : ℕ} : s.owner ≠ .poll lv (.poll t) := by
  intro ho
  rcases h.place with hidle | ⟨hvacant, -⟩
  · rw [hidle] at ho
    cases ho
  · rw [ho] at hvacant
    cases hvacant

/-- A call in progress is at its end, or can take its next step. -/
theorem live (h : s.Drained calm) (ho : s.owner.isIdle = false) :
    (∃ lv r, s.owner = .poll lv (.done r)) ∨ ∃ s', step s .owner = some s' := by
  obtain ⟨l, hl⟩ := h.inv
  rcases h.place with hidle | ⟨hvacant, -⟩
  · rw [hidle] at ho
    cases ho
  · rcases not_stuck hl (polling_of_vacant hvacant) with hdone | ⟨lv, t, ht⟩ | hnext
    · exact Or.inl hdone
    · exact absurd ht h.not_polled
    · exact Or.inr hnext

end State.Drained

end TokioStreamUtil.FuturesUnordered
