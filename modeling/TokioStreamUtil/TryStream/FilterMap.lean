/-
`TryFilter` as a `TryFilterMap`.

A predicate makes a closure for `TryFilterMap`, whose future holds the item and resolves
to it or to `None`. The two adaptors then go through the same calls: a state of the one
is the image of a state of the other, and so is each step.
-/
import TokioStreamUtil.TryStream.Listwise

set_option autoImplicit false

namespace TokioStreamUtil

open PollLoop OneAtATime

variable {φ Fut T U E E' : Type}

namespace TryFilterMap

/-- The function that resolves to the item or to `None`, as the predicate says. -/
def ofPredicate (call : φ → T → Fut × φ) (f : φ) (item : T) : (Fut × T) × φ :=
  (((call f item).1, item), (call f item).2)

/-- The predicate's future and its item, as `TryFilter` keeps them. -/
def asFilter (self : TryFilterMap φ (Fut × T)) : TryFilter φ Fut T where
  f := self.f
  pending_fut := self.pending.map Prod.fst
  pending_item := self.pending.map Prod.snd

/-- What the predicate has answered. Its future does not fail. -/
def answerAsFilter : Answer T E (Except E (Option T)) → Answer T E Bool
  | .base r => .base r
  | .future (.ready (.ok item)) => .future (.ready item.isSome)
  | .future _ => .future .pending

/-- A state of `TryFilter`. -/
abbrev imageState :
    Run (TryFilterMap φ (Fut × T)) (Fut × T) T E (Except E (Option T)) (Except E T) →
      Run (TryFilter φ Fut T) Fut T E Bool (Except E T) :=
  State.map asFilter (Option.map Prod.fst) answerAsFilter

/-- The future in progress answers as the predicate's does: its item, or `None`. -/
def AsPredicate (s : Run (TryFilterMap φ (Fut × T)) (Fut × T) T E (Except E (Option T)) (Except E T)) :
    Act Unit (Answer T E (Except E (Option T))) → Prop
  | .answer (.future (.ready res)) =>
      ∀ fut item, s.self.pending = some (fut, item) → res = .ok none ∨ res = .ok (some item)
  | _ => True

variable (call : φ → T → Fut × φ)
  {s : Run (TryFilterMap φ (Fut × T)) (Fut × T) T E (Except E (Option T)) (Except E T)}

/-- A round of the one is a round of the other. -/
theorem resume_asFilter {x : Answer T E (Except E (Option T))} (h : AsPredicate s (.answer x)) :
    (TryFilter.poll_next (E := E) call).machine.resume s.self.asFilter (answerAsFilter x) =
      ((poll_next (E := E) (U := T) (ofPredicate call)).machine.resume s.self x).map
        (Flow.map asFilter) := by
  obtain ⟨⟨f, pending⟩, calls, current⟩ := s
  cases pending with
  | none =>
      rcases x with (_ | _ | e | item) | _ | e | item <;> rfl
  | some p =>
      obtain ⟨fut, item⟩ := p
      rcases x with r | _ | res
      · rfl
      · rfl
      · rcases h fut item rfl with rfl | rfl <;> rfl

/-- So is a step. -/
theorem step_asFilter {a : Act Unit (Answer T E (Except E (Option T)))} (h : AsPredicate s a) :
    (TryFilter.poll_next (E := E) call).machine.step (imageState s) (a.map answerAsFilter) =
      ((poll_next (E := E) (U := T) (ofPredicate call)).machine.step s a).map imageState := by
  refine step_map (fun _ => rfl) rfl fun x hx => ?_
  subst hx
  exact resume_asFilter call h

/-- Every step of `TryFilter` comes from one. -/
theorem step_lift {b : Act Unit (Answer T E Bool)}
    {t : Run (TryFilter φ Fut T) Fut T E Bool (Except E T)}
    (h : (TryFilter.poll_next (E := E) call).machine.step (imageState s) b = some t) :
    ∃ a s', AsPredicate s a ∧ a.map answerAsFilter = b ∧
      (poll_next (E := E) (U := T) (ofPredicate call)).machine.step s a = some s' ∧
      imageState s' = t := by
  -- an allowed label that stands for `b` is enough
  have hfrom : ∀ a, AsPredicate s a → a.map answerAsFilter = b → ∃ a s', AsPredicate s a ∧
      a.map answerAsFilter = b ∧
      (poll_next (E := E) (U := T) (ofPredicate call)).machine.step s a = some s' ∧
      imageState s' = t := by
    intro a ha hb
    have hstep := step_asFilter call ha
    rw [hb, h] at hstep
    obtain ⟨s', hs', hmap⟩ := Option.map_eq_some_iff.mp hstep.symm
    exact ⟨a, s', ha, hb, hs', hmap⟩
  rcases b with k | r | _ | res
  · exact hfrom (.call k) trivial rfl
  · exact hfrom (.answer (.base r)) trivial rfl
  · exact hfrom (.answer (.future .pending)) trivial rfl
  · obtain ⟨⟨f, pending⟩, calls, current⟩ := s
    cases pending with
    | none =>
        cases current <;> cases h
    | some p =>
        obtain ⟨fut, item⟩ := p
        cases res with
        | true =>
            refine hfrom (.answer (.future (.ready (.ok (some item))))) ?_ rfl
            rintro fut' item' ⟨⟩
            exact Or.inr rfl
        | false =>
            refine hfrom (.answer (.future (.ready (.ok none)))) ?_ rfl
            intro fut' item' _
            exact Or.inl rfl

/-- The two adaptors have done the same, call by call. -/
structure Agree (s : Run (TryFilter φ Fut T) Fut T E Bool (Except E T))
    (s' : Run (TryFilterMap φ (Fut × T)) (Fut × T) T E (Except E (Option T)) (Except E T)) :
    Prop where
  /-- The same calls, with the same results. -/
  calls : s.calls = s'.calls.map (Call.map (Option.map Prod.fst) answerAsFilter)
  results : results s.calls = results s'.calls
  current : s.current.isSome = s'.current.isSome
  is_terminated : ∀ b, s.self.is_terminated b = s'.self.is_terminated b
  size_hint : ∀ (MAX : ℕ) (hint : SizeHint MAX), s.self.size_hint hint = s'.self.size_hint hint

theorem agree_image : Agree (imageState s) s where
  calls := rfl
  results := by
    unfold PollLoop.results
    exact List.map_map
  current := Option.isSome_map
  is_terminated := by
    intro b
    unfold TryFilter.is_terminated TryFilterMap.is_terminated
    rw [show (imageState s).self.pending_fut.isNone = s.self.pending.isNone from Option.isNone_map]
  size_hint := by
    intro MAX hint
    unfold TryFilter.size_hint TryFilterMap.size_hint
    rw [show (imageState s).self.pending_item.isSome = s.self.pending.isSome from Option.isSome_map]

end TryFilterMap

open TryFilterMap

/-- Every run of `TryFilter` is one of the `TryFilterMap` of its predicate, call by call,
and the other way about. -/
def GoTogether (E : Type) (call : φ → T → Fut × φ) (f : φ) : Prop :=
  (∀ ls s, (TryFilter.poll_next (E := E) call).machine.run (TryFilter.new f) ls = some s →
    ∃ ls' s', Transition.Along (TryFilterMap.poll_next (E := E) (U := T) (ofPredicate call)).machine.step
        AsPredicate (.start (TryFilterMap.new f)) ls' ∧
      ls'.map (Act.map answerAsFilter) = ls ∧
      (TryFilterMap.poll_next (E := E) (ofPredicate call)).machine.run (TryFilterMap.new f) ls' = some s' ∧
      Agree s s') ∧
  ∀ ls' s', Transition.Along (TryFilterMap.poll_next (E := E) (U := T) (ofPredicate call)).machine.step
      AsPredicate (.start (TryFilterMap.new f)) ls' →
    (TryFilterMap.poll_next (E := E) (ofPredicate call)).machine.run (TryFilterMap.new f) ls' = some s' →
    ∃ s, (TryFilter.poll_next (E := E) call).machine.run (TryFilter.new f)
        (ls'.map (Act.map answerAsFilter)) = some s ∧ Agree s s'

theorem goTogether (E : Type) (call : φ → T → Fut × φ) (f : φ) : GoTogether E call f := by
  constructor
  · intro ls s hrun
    obtain ⟨ls', s', halong, hls, hrun', rfl⟩ := Transition.run_lift (P := AsPredicate) imageState
      (Act.map answerAsFilter) (fun s b t h => step_lift call h)
      (s := .start (TryFilterMap.new f)) hrun
    exact ⟨ls', s', halong, hls, hrun', agree_image⟩
  · intro ls' s' halong hrun'
    refine ⟨imageState s', ?_, agree_image⟩
    have hmap := Transition.run_map imageState (Act.map answerAsFilter)
      (fun s a h => step_asFilter call h) halong
    exact hmap.trans (congrArg (Option.map imageState) hrun')

/-- **The four adaptors compute list functions.** In every state of every run of the
four, for every closure and every placement of the pending answers: what has been
returned is what the rule of the adaptor makes of what the base has given and the
futures have resolved to, and the closure and the futures have each had their turn
once. `TryFilter` goes through the same calls as the `TryFilterMap` of its predicate. -/
theorem adaptors_compute_list_functions (φ Fut T U E E' : Type) (f : φ) :
    (∀ call : φ → T → Fut × φ,
      (∀ ls s, (TryFilter.poll_next (E := E) call).machine.run (TryFilter.new f) ls = some s →
        Computes (TryFilter.rule T E) call TryFilter.f f s) ∧
      (∀ ls s, (TryFilterMap.poll_next (E := E) (U := U) call).machine.run (TryFilterMap.new f) ls = some s →
        Computes (TryFilterMap.rule T U E) call TryFilterMap.f f s) ∧
      (∀ ls s, (AndThen.poll_next (E := E) (U := U) call).machine.run (Chained.new f) ls = some s →
        Computes (AndThen.rule T U E) call Chained.f f s) ∧
      GoTogether E call f) ∧
    ∀ call : φ → E → Fut × φ, ∀ ls s,
      (OrElse.poll_next call : OneAtATime _ Fut T E (Except E' T) _).machine.run (Chained.new f) ls = some s →
        Computes (OrElse.rule T E E') call Chained.f f s := by
  refine ⟨fun call => ⟨?_, ?_, ?_, goTogether E call f⟩, fun call ls s hrun => ?_⟩
  · exact fun ls s hrun => (TryFilter.follows call).computes ⟨rfl, rfl⟩ hrun
  · exact fun ls s hrun => (TryFilterMap.follows call).computes ⟨rfl, rfl⟩ hrun
  · exact fun ls s hrun => (AndThen.follows call).computes ⟨rfl, rfl⟩ hrun
  · exact (OrElse.follows call).computes ⟨rfl, rfl⟩ hrun

/-- Two items and an error, with a closure that counts its calls. -/
def filtered : List (Act Unit (Answer ℕ ℕ Bool)) :=
  [.call (), .answer (.base (.ready (some (.ok 5)))), .answer (.future .pending),
    .call (), .answer (.future (.ready true)),
    .call (), .answer (.base (.ready (some (.error 7)))),
    .call (), .answer (.base (.ready (some (.ok 6)))), .answer (.future (.ready false)),
    .answer (.base (.ready none))]

theorem adaptors_compute_list_functions_filtered :
    ∃ s, (TryFilter.poll_next (E := ℕ) fun n item => ((n, item), n + 1)).machine.run
        (TryFilter.new 0) filtered = some s ∧
      returned s.calls = [some (.ok 5), some (.error 7), none] ∧ s.self.f = 2 ∧
      Computes (TryFilter.rule ℕ ℕ) (fun n item => ((n, item), n + 1)) TryFilter.f 0 s := by
  have hrun : ((TryFilter.poll_next (E := ℕ) fun n item => ((n, item), n + 1)).machine.run
      (TryFilter.new 0) filtered).map (fun s => (returned s.calls, s.self.f)) =
      some ([some (.ok 5), some (.error 7), none], 2) := rfl
  obtain ⟨s, hs, hseen⟩ := Option.map_eq_some_iff.mp hrun
  obtain ⟨hreturned, hf⟩ := Prod.mk.inj hseen
  exact ⟨s, hs, hreturned, hf,
    ((adaptors_compute_list_functions ℕ (ℕ × ℕ) ℕ ℕ ℕ ℕ 0).1 _).1 filtered s hs⟩

end TokioStreamUtil
