/-
A poll and a waker never have the shared word at the same time.

`Exclusive` ties the bits to the places of the poll and of the `wake_by_ref`
calls. It is stated for one operation of the word at a time, so that whatever
runs these operations keeps it.
-/
import TokioStreamUtil.FlattenUnordered.SharedPollState

set_option autoImplicit false

namespace TokioStreamUtil.FlattenUnordered

open SharedPollState (Act step wakerStep)
open Word (polling waking woken need)

variable {ι W : Type} {s s' : Sys ι W}

/-- Who has the word, and the bit that says so. -/
structure Exclusive (s : Sys ι W) : Prop where
  polling : polling s.state = s.poller.critical
  waking : waking s.state = true ↔ ∃ i, (s.wakers i).critical = true
  unique : ∀ i j, (s.wakers i).critical = true → (s.wakers j).critical = true → i = j
  apart : s.poller.critical = true → Word.waking s.state = false
  fresh : Word.waking s.state = true → woken s.state = false

namespace Exclusive

theorem new : Exclusive (Sys.new : Sys ι W) := by
  have hpoll : Word.polling NEED_TO_POLL_STREAM = false := by decide
  have hwake : Word.waking NEED_TO_POLL_STREAM = false := by decide
  refine ⟨hpoll, ⟨fun hon => ?_, ?_⟩, nofun, nofun, fun hon => ?_⟩
  · exact absurd hon (Bool.eq_false_iff.mp hwake)
  · rintro ⟨i, hi⟩
    cases hi
  · exact absurd hon (Bool.eq_false_iff.mp hwake)

/-- While nobody wakes, no call has the word. -/
theorem not_critical (h : Exclusive s) (hw : Word.waking s.state = false) (i : ι) :
    (s.wakers i).critical = false := by
  by_contra hcrit
  have hset := h.waking.mpr ⟨i, Bool.not_eq_false _ ▸ hcrit⟩
  rw [hw] at hset
  cases hset

/-- The word takes the value `v`, in which nobody wakes. -/
theorem settle (h : Exclusive s) (hw : Word.waking s.state = false) {v : Word} {p : Poller W}
    (hpolling : Word.polling v = p.critical) (hwaking : Word.waking v = false) :
    Exclusive { s with state := v, poller := p } := by
  have hnone := h.not_critical hw
  refine ⟨hpolling, ⟨fun hon => ?_, ?_⟩, h.unique, fun _ => hwaking, fun hon => ?_⟩
  · exact absurd hon (Bool.eq_false_iff.mp hwaking)
  · rintro ⟨i, hi⟩
    exact absurd hi (Bool.eq_false_iff.mp (hnone i))
  · exact absurd hon (Bool.eq_false_iff.mp hwaking)

theorem start_polling (h : Exclusive s) (w : W) : Exclusive (s.start_polling w) := by
  cases hw : Word.waking s.state with
  | true =>
      rw [Sys.start_polling_of_waking hw]
      exact h
  | false =>
      rw [Sys.start_polling_of_not_waking hw]
      have hpoll : Word.polling POLLING = true := by decide
      exact h.settle hw hpoll (by decide)

/-- Writing a cell is no operation of the word. -/
theorem replace_waker (h : Exclusive s) {k : WrappedWaker} {w : W} (hp : s.poller = .replace k w) :
    Exclusive (s.replace_waker k w) := by
  have hcrit : (s.replace_waker k w).poller.critical = s.poller.critical := by
    rw [hp]
    cases k <;> rfl
  refine ⟨?_, h.waking, h.unique, ?_, h.fresh⟩
  · rw [hcrit]
    exact h.polling
  · rw [hcrit]
    exact h.apart

theorem stop_polling (h : Exclusive s) (hp : s.poller.critical = true) (to_poll : Word)
    (will_be_woken : Bool) : Exclusive (s.stop_polling to_poll will_be_woken) := by
  obtain ⟨hpolling, hwaking⟩ := stop_polling_free to_poll will_be_woken s.state
  exact h.settle (h.apart hp) hpolling hwaking

theorem reset (h : Exclusive s) (hp : s.poller.critical = true) : Exclusive s.reset := by
  have hpoll : Word.polling NEED_TO_POLL_ALL = false := by decide
  have hwake : Word.waking NEED_TO_POLL_ALL = false := by decide
  exact h.settle (p := .idle) (h.apart hp) hpoll hwake

variable [DecidableEq ι]

/-- A call moves on without taking the word or giving it back. -/
theorem move (h : Exclusive s) {i : ι} {pc : Waker W}
    (hpc : pc.critical = (s.wakers i).critical) : Exclusive (s.setWaker i pc) := by
  have hsame : ∀ j, ((s.setWaker i pc).wakers j).critical = (s.wakers j).critical := by
    intro j
    by_cases hji : j = i
    · subst hji
      simp [Sys.setWaker, hpc]
    · simp [Sys.setWaker, hji]
  refine ⟨h.polling, ?_, ?_, h.apart, h.fresh⟩
  · simp only [hsame]
    exact h.waking
  · simp only [hsame]
    exact h.unique

theorem wake_by_ref (h : Exclusive s) (i : ι) (k : WrappedWaker) :
    Exclusive (s.wake_by_ref i k) := by
  obtain ⟨hpolling, hwoken, hwaking⟩ := start_waking_bits k s.state
  cases hfree : Word.polling s.state || Word.woken s.state || Word.waking s.state with
  | true =>
      rw [Sys.wake_by_ref_of_busy hfree]
      have hsame : Word.waking (SharedPollState.start_waking k.need_to_poll s.state).1 =
          Word.waking s.state := by
        rw [hwaking]
        cases hw : Word.waking s.state with
        | true => rfl
        | false =>
            rw [hw, Bool.or_false] at hfree
            rw [hfree]
            rfl
      refine ⟨hpolling.trans h.polling, ?_, h.unique, ?_, ?_⟩
      · show Word.waking _ = true ↔ _
        rw [hsame]
        exact h.waking
      · show _ → Word.waking _ = false
        rw [hsame]
        exact h.apart
      · show Word.waking _ = true → Word.woken _ = false
        rw [hsame, hwoken]
        exact h.fresh
  | false =>
      rw [Sys.wake_by_ref_of_free hfree]
      obtain ⟨hpw, hw⟩ := Bool.or_eq_false_iff.mp hfree
      obtain ⟨hp, hwo⟩ := Bool.or_eq_false_iff.mp hpw
      have hnone := h.not_critical hw
      have hout : s.poller.critical = false := h.polling.symm.trans hp
      rw [hp, hwo, hw] at hwaking
      have hown : ∀ j, (Function.update s.wakers i (.reading k) j).critical = true → j = i := by
        intro j hj
        by_contra hji
        rw [Function.update_of_ne hji, hnone j] at hj
        cases hj
      refine ⟨hpolling.trans h.polling, ⟨fun _ => ⟨i, ?_⟩, fun _ => hwaking⟩, ?_, ?_, ?_⟩
      · simp [Waker.critical]
      · intro j j' hj hj'
        exact (hown j hj).trans (hown j' hj').symm
      · intro hcrit
        rw [show s.poller.critical = true from hcrit] at hout
        cases hout
      · exact fun _ => hwoken.trans hwo

theorem stop_waking (h : Exclusive s) {i : ι} {inner_waker : Option W}
    (hi : s.wakers i = .stopping inner_waker) : Exclusive (s.stop_waking i inner_waker) := by
  obtain ⟨hpolling, hwaking, -⟩ := stop_waking_bits s.state
  have hcrit : (s.wakers i).critical = true := by rw [hi]; rfl
  have hnone : ∀ j, ((s.stop_waking i inner_waker).wakers j).critical = false := by
    intro j
    by_cases hji : j = i
    · subst hji
      rw [show (s.stop_waking j inner_waker).wakers j = _ from Function.update_self _ _ _]
      cases inner_waker <;> rfl
    · rw [show (s.stop_waking i inner_waker).wakers j = s.wakers j from Function.update_of_ne hji _ _]
      by_contra hj
      exact hji (h.unique j i (Bool.not_eq_false _ ▸ hj) hcrit)
  have hoff : Word.waking (s.stop_waking i inner_waker).state = false := hwaking
  refine ⟨hpolling.trans h.polling, ⟨fun hon => ?_, fun ⟨j, hj⟩ => ?_⟩, ?_, fun _ => hwaking, ?_⟩
  · exact absurd hon (Bool.eq_false_iff.mp hoff)
  · exact absurd hj (Bool.eq_false_iff.mp (hnone j))
  · exact fun j j' hj => absurd hj (Bool.eq_false_iff.mp (hnone j))
  · exact fun hon => absurd hon (Bool.eq_false_iff.mp hoff)

theorem wake (h : Exclusive s) {i : ι} {w : W} (hi : s.wakers i = .waking w) :
    Exclusive (s.wake i w) := by
  have hlog : Exclusive { s with log := s.log ++ [w] } :=
    ⟨h.polling, h.waking, h.unique, h.apart, h.fresh⟩
  have hcrit : (Waker.idle : Waker W).critical = (s.wakers i).critical := by
    rw [hi]
    rfl
  exact hlog.move hcrit

theorem wakerStep (h : Exclusive s) {i : ι} (hs : wakerStep s i = some s') : Exclusive s' := by
  unfold SharedPollState.wakerStep at hs
  cases hi : s.wakers i with
  | idle => rw [hi] at hs; cases hs
  | reading k =>
      rw [hi] at hs
      cases hs
      exact h.move (by rw [hi]; rfl)
  | stopping inner_waker =>
      rw [hi] at hs
      cases hs
      exact h.stop_waking hi
  | waking w =>
      rw [hi] at hs
      cases hs
      exact h.wake hi

end Exclusive

variable [DecidableEq ι]

/-- One step keeps the word exclusive. -/
theorem exclusive_step {a : Act ι W} (h : Exclusive s) (hs : step s a = some s') : Exclusive s' := by
  cases a with
  | start_polling w =>
      simp only [step] at hs
      split at hs
      · cases hs
        exact h.start_polling w
      · cases hs
  | replace_waker =>
      simp only [step] at hs
      split at hs
      · rename_i k w hp
        cases hs
        exact h.replace_waker hp
      · cases hs
  | stop_polling to_poll will_be_woken =>
      simp only [step] at hs
      split at hs
      · rename_i w hp
        split at hs
        · cases hs
          exact h.stop_polling (by rw [hp]; rfl) to_poll will_be_woken
        · cases hs
      · cases hs
  | reset =>
      simp only [step, Option.ite_none_right_eq_some, Option.some.injEq] at hs
      obtain ⟨hp, rfl⟩ := hs
      exact h.reset hp
  | wake_by_ref i k =>
      simp only [step] at hs
      split at hs
      · cases hs
        exact h.wake_by_ref i k
      · cases hs
  | waker i => exact h.wakerStep hs

/-- The word is exclusive in every reachable state. -/
theorem exclusive_of_reachable (h : Transition.Reachable step (Sys.new : Sys ι W) s) :
    Exclusive s :=
  h.invariant Exclusive.new fun _ _ _ hi hs => exclusive_step hi hs

/-- **The bits tell who has the word.** In every reachable state `POLLING` and
`WAKING` are not both set; `POLLING` is set exactly while the poll is between
`start_polling` and `stop_polling` or `reset`; `WAKING` is set exactly while a call,
and then only one, is between its `start_waking` and its `stop_waking`. So nobody
reads a cell while the poll may write one, and the assertion in `stop_waking` holds. -/
theorem polling_waking_exclusive (ι W : Type) [DecidableEq ι] (s : Sys ι W)
    (h : Transition.Reachable step (Sys.new : Sys ι W) s) :
    ¬ (polling s.state = true ∧ waking s.state = true) ∧
    (polling s.state = true ↔ s.poller.critical = true) ∧
    (waking s.state = true ↔ ∃ i, (s.wakers i).critical = true) ∧
    (∀ i j, (s.wakers i).critical = true → (s.wakers j).critical = true → i = j) ∧
    (∀ i k, s.wakers i = .reading k → ∀ k' w, s.poller ≠ .replace k' w) ∧
    (∀ i inner_waker, s.wakers i = .stopping inner_waker →
      SharedPollState.stop_waking_assert s.state) := by
  have hx := exclusive_of_reachable h
  have hapart : ∀ i, (s.wakers i).critical = true → s.poller.critical = false := by
    intro i hi
    by_contra hp
    have hoff := hx.apart (Bool.not_eq_false _ ▸ hp)
    rw [hx.waking.mpr ⟨i, hi⟩] at hoff
    cases hoff
  refine ⟨?_, by rw [hx.polling], hx.waking, hx.unique, ?_, ?_⟩
  · rintro ⟨hp, hw⟩
    rw [hx.polling] at hp
    rw [hx.apart hp] at hw
    cases hw
  · intro i k hi k' w hp
    have hout := hapart i (by rw [hi]; rfl)
    rw [hp] at hout
    cases hout
  · intro i inner_waker hi
    have hcrit : (s.wakers i).critical = true := by rw [hi]; rfl
    have hw := hx.waking.mpr ⟨i, hcrit⟩
    exact stop_waking_assert_of_bits s.state (hx.polling.trans (hapart i hcrit)) (hx.fresh hw) hw

/-- A poll has stored the need bit of the base; while call `0` wakes, call `1` only
adds its bit, so nobody but `0` has the word. -/
theorem polling_waking_exclusive_two_wakers : ∃ s : Sys ℕ Unit,
    Transition.run step Sys.new
      [.start_polling (), .replace_waker, .replace_waker, .stop_polling NEED_TO_POLL_STREAM false,
        .wake_by_ref 0 .stream, .waker 0, .wake_by_ref 1 .inner_streams] = some s ∧
    s.state = NEED_TO_POLL_ALL ||| WAKING ∧ ∀ i, (s.wakers i).critical = true → i = 0 := by
  have hrun : (Transition.run step (Sys.new : Sys ℕ Unit)
      [.start_polling (), .replace_waker, .replace_waker, .stop_polling NEED_TO_POLL_STREAM false,
        .wake_by_ref 0 .stream, .waker 0, .wake_by_ref 1 .inner_streams]).map
      (fun s => (s.state, (s.wakers 0).critical)) = some (NEED_TO_POLL_ALL ||| WAKING, true) := by
    decide +kernel
  obtain ⟨s, hs, hobs⟩ := Option.map_eq_some_iff.mp hrun
  obtain ⟨hstate, hcrit⟩ := Prod.mk.inj hobs
  obtain ⟨-, -, -, hunique, -, -⟩ := polling_waking_exclusive ℕ Unit s (.of_run hs)
  exact ⟨s, hs, hstate, fun i hi => hunique i 0 hi hcrit⟩

end TokioStreamUtil.FlattenUnordered
