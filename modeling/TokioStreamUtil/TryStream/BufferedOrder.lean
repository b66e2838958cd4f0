/-
`TryBuffered` keeps the order of its base.

Whatever the order in which the futures complete, their results come out in the order in
which the base gave them. An error of the base overtakes what is queued, and comes out of
the call that took it. When there is none, `TryBuffered` yields what `AndThen` does, which
runs one future at a time.
-/
import TokioStreamUtil.TryStream.BufferedBooks
import TokioStreamUtil.TryStream.OneAtATime

set_option autoImplicit false

namespace TokioStreamUtil

open FuturesUnordered.State (outputOf)

/-! ## One future at a time -/

namespace AndThen

open PollLoop

variable {E F T : Type}

/-- `AndThen` over a base of futures, with the closure that is the identity. -/
def inTurn (E F T : Type) : OneAtATime (Chained Unit F) F F E (Except E T) (Option (Except E T)) :=
  poll_next fun _ fut => (fut, ())

/-- The calls of `poll_next`. -/
abbrev Calls (E F T : Type) :=
  List (PollLoop.Call Unit (Option F) (OneAtATime.Answer F E (Except E T)) (TryPoll T E))

/-- What the base answered. -/
def ofBase : OneAtATime.Answer F E (Except E T) → Option (TryPoll F E)
  | .base r => some r
  | .future _ => none

/-- The elements of the base that have been taken, in order. -/
def elements (answers : List (OneAtATime.Answer F E (Except E T))) : List (Except E F) :=
  given (answers.filterMap ofBase)

/-- The items and errors that the calls have returned. -/
def yields (calls : Calls E F T) : List (Except E T) := given (results calls)

/-- A future comes to its value. -/
def Honest (value : F → Except E T) (s : State Unit (Chained Unit F) (Option F)
    (OneAtATime.Answer F E (Except E T)) (TryPoll T E)) :
    Act Unit (OneAtATime.Answer F E (Except E T)) → Prop
  | .answer (.future (.ready res)) => ∀ fut, s.self.future = some fut → res = value fut
  | _ => True

instance [DecidableEq E] [DecidableEq T] (value : F → Except E T) (s) (a) :
    Decidable (Honest value s a) :=
  match a with
  | .answer (.future (.ready res)) =>
      inferInstanceAs (Decidable (∀ fut ∈ s.self.future, res = value fut))
  | .answer (.future .pending) => isTrue trivial
  | .answer (.base _) => isTrue trivial
  | .call _ => isTrue trivial

variable (value : F → Except E T)

/-- What is still to come of the future in progress. -/
def owed (self : Chained Unit F) : List (Except E T) := self.future.toList.map value

/-- What came out, with what is still owed, is what comes of the elements taken. -/
def Account (self : Chained Unit F) (ys : List (Except E T))
    (answers : List (OneAtATime.Answer F E (Except E T))) : Prop :=
  ys ++ owed value self = (elements answers).map (· >>= value)

/-- Between calls. After `Ready(None)` no future is left. -/
structure Between (self : Chained Unit F) (calls : Calls E F T) : Prop where
  account : Account value self (yields calls) (answered calls)
  ended : (results calls).getLast? = some (.ready none) → self.future = none

/-- At the head of the loop. -/
def Within (self : Chained Unit F) (calls : Calls E F T) (_ : Unit)
    (asked : List (Option F × OneAtATime.Answer F E (Except E T))) : Prop :=
  Account value self (yields calls) (answered calls ++ asked.map Prod.snd)

theorem elements_append (l₁ l₂ : List (OneAtATime.Answer F E (Except E T))) :
    elements (l₁ ++ l₂) = elements l₁ ++ elements l₂ := by
  unfold elements
  rw [List.filterMap_append, given_append]

/-- A future is not an element. -/
theorem elements_future (answers : List (OneAtATime.Answer F E (Except E T)))
    (r : Poll (Except E T)) : elements (answers ++ [.future r]) = elements answers := by
  rw [elements_append]
  exact List.append_nil _

theorem yields_concat (calls : Calls E F T)
    (c : PollLoop.Call Unit (Option F) (OneAtATime.Answer F E (Except E T)) (TryPoll T E)) :
    yields (calls ++ [c]) = yields calls ++ given [c.result] := by
  unfold yields
  rw [results_concat, given_append]

variable {value} {self : Chained Unit F} {calls : Calls E F T} {k : Unit}
  {asked : List (Option F × OneAtATime.Answer F E (Except E T))}

/-- One round of the loop keeps the account. -/
theorem round {a : OneAtATime.Answer F E (Except E T)} {f : Flow (Chained Unit F) (TryPoll T E)}
    (h : Within value self calls k asked)
    (ha : ∀ res fut, a = .future (.ready res) → self.future = some fut → res = value fut)
    (hf : (inTurn E F T).machine.resume self a = some f) :
    f.Keeps (Between value) (Within value) calls k (asked ++ [(self.future, a)]) := by
  have hreturns : ∀ (r : TryPoll T E) (new : Chained Unit F),
      Account value new (yields calls ++ given [r])
        (answered calls ++ asked.map Prod.snd ++ [a]) →
      (r = .ready none → new.future = none) →
      Between value new (calls ++ [⟨k, asked ++ [(self.future, a)], r⟩]) := by
    intro r new hacc hend
    refine ⟨?_, fun hlast => hend ?_⟩
    · rw [yields_concat, answered_concat, List.map_append, ← List.append_assoc]
      exact hacc
    · rw [results_concat, List.getLast?_concat, Option.some.injEq] at hlast
      exact hlast
  unfold Within Account at h
  unfold OneAtATime.machine inTurn poll_next at hf
  dsimp only at hf
  cases hfut : self.future with
  | some fut =>
      rw [hfut] at hf
      unfold owed at h
      rw [hfut, Option.toList_some, List.map_singleton] at h
      rcases a with r | r
      · cases hf
      rcases r with _ | res
      · cases hf
        rw [← hfut]
        refine hreturns .pending self ?_ nofun
        unfold Account owed
        rw [elements_future, given_pending, List.append_nil, hfut]
        exact h
      · cases hf
        rw [← hfut]
        refine hreturns (.ready (some res)) _ ?_ fun _ => rfl
        unfold Account owed
        rw [elements_future, given_ready, ← h, ha res fut rfl hfut]
        exact List.append_nil _
  | none =>
      rw [hfut] at hf
      unfold owed at h
      rw [hfut, Option.toList_none, List.map_nil, List.append_nil] at h
      have htold : ∀ r : TryPoll F E,
          elements (answered calls ++ asked.map Prod.snd ++ [.base r]) =
            elements (answered calls ++ asked.map Prod.snd) ++ given [r] :=
        fun r => elements_append _ _
      rcases a with r | r
      · rcases r with _ | _ | e | fut
        · cases hf
          rw [← hfut]
          refine hreturns .pending self ?_ nofun
          unfold Account owed
          rw [htold, given_pending, given_pending, List.append_nil, List.append_nil, hfut, ← h]
          exact List.append_nil _
        · cases hf
          rw [← hfut]
          refine hreturns (.ready none) self ?_ fun _ => hfut
          unfold Account owed
          rw [htold, given_end, given_end, List.append_nil, List.append_nil, hfut, ← h]
          exact List.append_nil _
        · cases hf
          rw [← hfut]
          refine hreturns (.ready (some (.error e))) self ?_ nofun
          unfold Account owed
          rw [htold, given_ready, given_ready, List.map_append, ← h, hfut]
          exact List.append_nil _
        · cases hf
          show Account value _ _ _
          unfold Account owed
          rw [List.map_append, ← List.append_assoc]
          refine Eq.trans ?_ (congrArg _ (htold (.ready (some (.ok fut)))).symm)
          rw [given_ready, List.map_append, ← h]
          rfl
      · cases hf

/-- **`AndThen` yields, for each element of the base in turn, what comes of it.** -/
theorem in_turn {ls : List (Act Unit (OneAtATime.Answer F E (Except E T)))}
    {s : State Unit (Chained Unit F) (Option F) (OneAtATime.Answer F E (Except E T)) (TryPoll T E)}
    (hhonest : Transition.Along (inTurn E F T).machine.step (Honest value)
      (.start (Chained.new ())) ls)
    (hrun : (inTurn E F T).machine.run (Chained.new ()) ls = some s) (hidle : s.current = none)
    (hended : (results s.calls).getLast? = some (.ready none)) :
    yields s.calls = (elements (answered s.calls)).map (· >>= value) := by
  have hholds : s.Holds (Between value) (Within value) := by
    refine run_keeps_along (I := Between value) (J := Within value) ?_ ?_ ?_ hhonest hrun
    · exact ⟨rfl, nofun⟩
    · intro s k _ _ hs
      show Account value s.self (yields s.calls) (answered s.calls ++ [])
      rw [List.append_nil]
      exact Between.account hs
    · intro s k asked a f _ ha hs hf
      refine round hs (fun res fut hres hfut => ?_) hf
      subst hres
      exact ha fut hfut
  obtain ⟨haccount, hnone⟩ := hholds.idle hidle
  unfold Account owed at haccount
  rw [hnone hended, Option.toList_none, List.map_nil, List.append_nil] at haccount
  exact haccount

end AndThen

/-! ## The order of `TryBuffered` -/

namespace Buffered

variable {E T F W : Type} {A : AtomicWaker W}

/-- The results of futures come in the order of the base, each once, and all of them when
the stream ends; a call that takes an error from the base returns it. -/
structure Watched.InOrder {Q : InProgressQueue F (Except E T) W} (value : F → Except E T)
    (s : Watched Q) : Prop where
  call : ∀ c ∈ s.calls, outputOf c.result = fromQueue c.answers ++ (errors c.answers).map .error
  results : fromQueue s.log <+: (taken s.log).map value
  all : (∃ c ∈ s.calls, c.result = .ready none) → fromQueue s.log = (taken s.log).map value

/-- Every call has returned what it took from the queue, with the errors it took. -/
theorem yielded_eq {calls : List (Call E F T)}
    (h : ∀ c ∈ calls, outputOf c.result = fromQueue c.answers ++ (errors c.answers).map .error)
    (herrors : errors (calls.flatMap Call.answers) = []) :
    yielded calls = fromQueue (calls.flatMap Call.answers) := by
  induction calls with
  | nil => rfl
  | cons c calls ih =>
      rw [List.flatMap_cons, errors_append, List.append_eq_nil_iff] at herrors
      have hrest := ih (fun c hc => h c (List.mem_cons_of_mem _ hc)) herrors.2
      have hfirst := h c List.mem_cons_self
      rw [herrors.1, List.map_nil, List.append_nil] at hfirst
      rw [List.flatMap_cons, fromQueue_append, ← hrest, ← hfirst]
      rfl

end Buffered

open Buffered (Watched Allowed taken errors fromQueue yielded)

/-- **`TryBuffered` keeps the order of its base**, and without errors of the base it yields
what `AndThen` yields on the same futures. -/
theorem try_buffered_in_base_order {E T F W : Type} {A : AtomicWaker W} (value : F → Except E T)
    (n : Option ℕ) {ls : List (Buffered.Act (InProgressQueue.ordered F (Except E T) W A))}
    {s : Watched (InProgressQueue.ordered F (Except E T) W A)}
    (hallowed : Transition.Along Watched.step (Allowed InProgressQueue.orderedPolls
      InProgressQueue.orderedOverflows fun fut o => value fut = o) (Watched.new _ n) ls)
    (hrun : Transition.run Watched.step (Watched.new _ n) ls = some s) :
    s.InOrder value ∧ (errors s.log = [] →
      ∀ ls' s', Transition.Along (AndThen.inTurn E F T).machine.step (AndThen.Honest value)
          (.start (Chained.new ())) ls' →
        (AndThen.inTurn E F T).machine.run (Chained.new ()) ls' = some s' → s'.current = none →
        (PollLoop.results s'.calls).getLast? = some (.ready none) →
        AndThen.elements (PollLoop.answered s'.calls) = (taken s.log).map .ok →
        yielded s.calls <+: AndThen.yields s'.calls ∧
          ((∃ c ∈ s.calls, c.result = .ready none) → s.state.pc = .idle →
            yielded s.calls = AndThen.yields s'.calls)) := by
  have hsound := Watched.Sound.of_run (InProgressQueue.ordered_delivers _) hallowed hrun
  have hdelivered := hsound.queue.delivered
  have heq : fromQueue s.log = ((taken s.log).take (fromQueue s.log).length).map value := by
    rw [← List.forall₂_eq_eq_eq, List.forall₂_map_right_iff]
    exact hdelivered.flip.imp fun _ _ h => h.symm
  have hinit : fromQueue s.log <+: (taken s.log).map value := by
    rw [heq]
    exact (List.take_prefix _ _).map value
  have hall : (∃ c ∈ s.calls, c.result = .ready none) →
      fromQueue s.log = (taken s.log).map value := by
    intro hended
    rw [(hsound.finished hended).2, List.take_length] at heq
    exact heq
  refine ⟨⟨fun c hc => (hsound.settled c hc).item, hinit, hall⟩, ?_⟩
  intro herrors ls' s' hhonest hrun' hidle hended hsame
  have hturn := AndThen.in_turn hhonest hrun' hidle hended
  rw [hsame, List.map_map] at hturn
  have hlog : fromQueue s.log = yielded s.calls ++ fromQueue s.answers := by
    unfold Watched.log at herrors ⊢
    rw [Buffered.errors_append, List.append_eq_nil_iff] at herrors
    rw [Buffered.fromQueue_append,
      Buffered.yielded_eq (fun c hc => (hsound.settled c hc).item) herrors.1]
  have hyields : AndThen.yields s'.calls = (taken s.log).map value := hturn
  refine ⟨?_, fun hover hpc => ?_⟩
  · rw [hyields]
    exact (List.prefix_append _ _).trans (hlog ▸ hinit)
  · have hcurrent := hsound.current
    unfold Watched.Current at hcurrent
    rw [hpc] at hcurrent
    rw [show s.answers = [] from hcurrent] at hlog
    rw [hyields, ← hall hover, hlog]
    exact (List.append_nil _).symm

/-- Future 6 completes before future 5, which is woken later. The first call takes both
from the base, and `answers` as well if there are any. -/
def overtaken (answers : List (FuturesUnordered.PollNext (Except ℕ ℕ))) :
    List (Buffered.Act (InProgressQueue.ordered ℕ (Except ℕ ℕ) Unit (.cell Unit))) :=
  List.flatten [
    [.poll_next (), .base 0 (.ready (some (.ok 5)))], List.replicate 4 (.queue (.thread 0)),
    [.base 0 (.ready (some (.ok 6)))], List.replicate 4 (.queue (.thread 0)),
    answers.flatMap fun r => [.base 0 r, .ret, .poll_next ()],
    [.base 0 .pending, .queue .own], List.replicate 7 (.queue .owner),
    [.queue (.polled (.pending 5))], List.replicate 12 (.queue .owner),
    [.queue (.polled (.ready (.ok 6))), .queue .owner, .queue .owner, .queue .own],
    List.replicate 3 (.queue .owner),
    [.queue .own, .own, .ret, .queue (.wake 0 0)], List.replicate 8 (.queue (.thread 0)),
    [.poll_next (), .base 0 (.ready none), .queue .own], List.replicate 12 (.queue .owner),
    [.queue (.polled (.ready (.ok 5))), .queue .owner, .queue .owner, .queue .own, .own, .ret,
      .poll_next (), .own, .queue .own, .own, .ret, .poll_next (), .own, .queue .own],
    List.replicate 3 (.queue .owner), [.queue .own, .own, .ret]]

/-- `AndThen` over the same futures. -/
def inTurn : List (PollLoop.Act Unit (OneAtATime.Answer ℕ ℕ (Except ℕ ℕ))) :=
  [.call (), .answer (.base (.ready (some (.ok 5)))), .answer (.future .pending), .call (),
    .answer (.future (.ready (.ok 5))), .call (), .answer (.base (.ready (some (.ok 6)))),
    .answer (.future (.ready (.ok 6))), .call (), .answer (.base (.ready none))]

theorem try_buffered_in_base_order_overtaken :
    (∃ s, Transition.run Watched.step (Watched.new _ none)
        (overtaken [.ready (some (.error 7))]) = some s ∧
      s.InOrder .ok ∧ yielded s.calls = [.error 7, .ok 5, .ok 6]) ∧
    ∃ s s', Transition.run Watched.step (Watched.new _ none) (overtaken []) = some s ∧
      (AndThen.inTurn ℕ ℕ ℕ).machine.run (Chained.new ()) inTurn = some s' ∧
      yielded s.calls = AndThen.yields s'.calls ∧ yielded s.calls = [.ok 5, .ok 6] := by
  constructor
  · have hrun : (Transition.run Watched.step
        (Watched.new (InProgressQueue.ordered ℕ (Except ℕ ℕ) Unit (.cell Unit)) none)
        (overtaken [.ready (some (.error 7))])).map (fun s => yielded s.calls) =
          some [.error 7, .ok 5, .ok 6] := rfl
    obtain ⟨s, hs, hyielded⟩ := Option.map_eq_some_iff.mp hrun
    have horder := try_buffered_in_base_order (W := Unit) (A := .cell Unit)
      (Except.ok : ℕ → Except ℕ ℕ) none
      (Transition.along_of_isSome (by decide +kernel)) hs
    exact ⟨s, hs, horder.1, hyielded⟩
  · have hrun : (Transition.run Watched.step
        (Watched.new (InProgressQueue.ordered ℕ (Except ℕ ℕ) Unit (.cell Unit)) none)
        (overtaken [])).map (fun s => (yielded s.calls, errors s.log, taken s.log,
          s.calls.map Buffered.Call.result, s.state.pc)) =
          some ([.ok 5, .ok 6], [], [5, 6], [.pending, .ready (some (.ok 5)),
            .ready (some (.ok 6)), .ready none], .idle) := rfl
    have hrun' : ((AndThen.inTurn ℕ ℕ ℕ).machine.run (Chained.new ()) inTurn).map (fun s =>
        (s.current.isNone, (PollLoop.results s.calls).getLast?,
          AndThen.elements (PollLoop.answered s.calls))) =
          some (true, some (.ready none), [.ok 5, .ok 6]) := rfl
    obtain ⟨s, hs, hlast⟩ := Option.map_eq_some_iff.mp hrun
    obtain ⟨s', hs', hlast'⟩ := Option.map_eq_some_iff.mp hrun'
    simp only [Prod.mk.injEq] at hlast hlast'
    obtain ⟨hyielded, herrors, htaken, hresults, hpc⟩ := hlast
    obtain ⟨hidle, hended, helements⟩ := hlast'
    have hnone : ∃ c ∈ s.calls, c.result = .ready none := by
      refine List.mem_map.mp ?_
      rw [hresults]
      decide
    have horder := try_buffered_in_base_order (W := Unit) (A := .cell Unit)
      (Except.ok : ℕ → Except ℕ ℕ) none
      (Transition.along_of_isSome (by decide +kernel)) hs
    have hsame := horder.2 herrors inTurn s' (Transition.along_of_isSome (by decide +kernel)) hs'
      (Option.isNone_iff_eq_none.mp hidle) hended (by rw [helements, htaken]; rfl)
    exact ⟨s, s', hs, hs', hsame.2 hnone hpc, hyielded⟩

end TokioStreamUtil
