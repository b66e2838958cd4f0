/-
`TryFlatten`: the streams of the base, one after the other.

An inner stream that fails is dropped with its error, so the items that it has behind
the error never come out.
-/
import TokioStreamUtil.TryStream.Poll

set_option autoImplicit false

namespace TokioStreamUtil

open PollLoop

/-- `TryFlatten`, without the base. -/
structure TryFlatten (I : Type) where
  next : Option I
  deriving DecidableEq

namespace TryFlatten

variable {I T E E' : Type}

/-- The base answers, or the inner stream does and is left as `st`. -/
inductive Answer (I T E E' : Type) where
  | base (r : TryPoll I E)
  | inner (r : TryPoll T E') (st : I)

/-- `TryFlatten::new`. -/
def new (I : Type) : TryFlatten I := { next := none }

/-- The body of the loop, on the answer of the inner stream. -/
def onInner (self : TryFlatten I) (st : I) : TryPoll T E' → Flow (TryFlatten I) (TryPoll T E')
  | .pending => .ret .pending { self with next := some st }
  | .ready (some (.ok item)) => .ret (.ready (some (.ok item))) { self with next := some st }
  | .ready (some (.error e)) => .ret (.ready (some (.error e))) { self with next := none }
  | .ready none => .again { self with next := none }

/-- The body of the loop, on the answer of the base. -/
def onBase (into : E → E') (self : TryFlatten I) : TryPoll I E → Flow (TryFlatten I) (TryPoll T E')
  | .pending => .ret .pending self
  | .ready (some (.ok s)) => .again { self with next := some s }
  | .ready (some (.error e)) => .ret (.ready (some (.error (into e)))) self
  | .ready none => .ret (.ready none) self

/-- `TryFlatten::poll_next`. The inner stream is polled if there is one, the base
otherwise. -/
def machine (T : Type) (into : E → E') :
    Machine Unit (TryFlatten I) (Option I) (Answer I T E E') (TryPoll T E') where
  enter := fun _ self => .again self
  asks := fun self => self.next
  resume := fun self a =>
    match self.next, a with
    | some _, .inner r st => some (self.onInner st r)
    | none, .base r => some (self.onBase into r)
    | _, _ => none

/-- `FusedStream::is_terminated`, over that of the base. -/
def is_terminated (self : TryFlatten I) (stream_is_terminated : Bool) : Bool :=
  self.next.isNone && stream_is_terminated

/-! ## What comes out of an inner stream -/

/-- The items up to the first error, and that error. -/
def cut : List (Except E' T) → List (Except E' T)
  | [] => []
  | .ok item :: items => .ok item :: cut items
  | .error e :: _ => [.error e]

/-- Nothing comes behind an error. -/
def EndsAtError (items : List (Except E' T)) : Prop :=
  ∀ before e after, items = before ++ .error e :: after → after = []

theorem cut_prefix (items : List (Except E' T)) : cut items <+: items := by
  induction items with
  | nil => exact List.prefix_rfl
  | cons item items ih =>
      cases item with
      | ok x => exact List.prefix_cons_inj _ |>.mpr ih
      | error e => exact ⟨items, rfl⟩

theorem cut_eq_iff (items : List (Except E' T)) : cut items = items ↔ EndsAtError items := by
  induction items with
  | nil =>
      refine ⟨fun _ before e after heq => ?_, fun _ => rfl⟩
      exact absurd heq.symm (List.append_ne_nil_of_right_ne_nil _ (List.cons_ne_nil _ _))
  | cons item items ih =>
      cases item with
      | ok x =>
          rw [cut, List.cons.injEq, ih]
          constructor
          · rintro ⟨-, h⟩ before e after heq
            cases before with
            | nil => cases heq
            | cons y before => exact h before e after (List.cons.inj heq).2
          · exact fun h => ⟨rfl, fun before e after heq =>
              h (.ok x :: before) e after (congrArg (.ok x :: ·) heq)⟩
      | error e =>
          rw [cut, List.cons.injEq]
          constructor
          · rintro ⟨-, rfl⟩ before e' after heq
            cases before with
            | nil => exact (List.cons.inj heq).2.symm
            | cons y before =>
                exact absurd (List.cons.inj heq).2.symm
                  (List.append_ne_nil_of_right_ne_nil _ (List.cons_ne_nil _ _))
          · exact fun h => ⟨rfl, (h [] e items rfl).symm⟩

theorem length_flatMap_le_of_prefix {α β : Type} {f g : α → List β} {l : List α}
    (h : ∀ x ∈ l, f x <+: g x) : (l.flatMap f).length ≤ (l.flatMap g).length := by
  induction l with
  | nil => exact le_refl _
  | cons x l ih =>
      rw [List.flatMap_cons, List.flatMap_cons, List.length_append, List.length_append]
      exact Nat.add_le_add (h x List.mem_cons_self).length_le
        (ih fun y hy => h y (List.mem_cons_of_mem x hy))

/-- Prefixes put together are the whole just if each is. -/
theorem flatMap_eq_iff_of_prefix {α β : Type} {f g : α → List β} {l : List α}
    (h : ∀ x ∈ l, f x <+: g x) : l.flatMap f = l.flatMap g ↔ ∀ x ∈ l, f x = g x := by
  refine ⟨fun heq => ?_, fun heq => List.flatMap_congr heq⟩
  induction l with
  | nil => exact fun x hx => absurd hx List.not_mem_nil
  | cons x l ih =>
      have hx := h x List.mem_cons_self
      have hl := fun y hy => h y (List.mem_cons_of_mem x hy)
      have hrest := length_flatMap_le_of_prefix hl
      rw [List.flatMap_cons, List.flatMap_cons] at heq
      -- neither part is longer on the left, so they split at the same place
      have hlen := congrArg List.length heq
      rw [List.length_append, List.length_append] at hlen
      have hle := hx.length_le
      obtain ⟨hfirst, hothers⟩ := List.append_inj heq (by omega)
      intro y hy
      rcases List.mem_cons.mp hy with rfl | hy
      · exact hfirst
      · exact ih hl hothers y hy

/-! ## The run -/

/-- The calls of `poll_next`. -/
abbrev Calls (I T E E' : Type) := List (Call Unit (Option I) (Answer I T E E') (TryPoll T E'))

/-- What the base answered. -/
def Answer.ofBase : Answer I T E E' → Option (TryPoll I E)
  | .base r => some r
  | .inner _ _ => none

/-- The elements of the base that have been taken, in order. -/
def elements (answers : List (Answer I T E E')) : List (Except E I) :=
  given (answers.filterMap Answer.ofBase)

/-- The items and errors that the calls have returned. -/
def yields (calls : Calls I T E E') : List (Except E' T) := given (results calls)

theorem elements_append (l₁ l₂ : List (Answer I T E E')) :
    elements (l₁ ++ l₂) = elements l₁ ++ elements l₂ := by
  unfold elements
  rw [List.filterMap_append, given_append]

/-- What comes out for an element of the base, when `items` come out of a stream. -/
def through (into : E → E') (items : I → List (Except E' T)) : Except E I → List (Except E' T)
  | .ok st => items st
  | .error e => [.error (into e)]

/-- The inner streams answer from the items that they have, and are left with the rest. -/
def Honest (items : I → List (Except E' T))
    (s : State Unit (TryFlatten I) (Option I) (Answer I T E E') (TryPoll T E')) :
    Act Unit (Answer I T E E') → Prop
  | .answer (.inner r st') => ∀ st, s.self.next = some st → Gives items st r st'
  | _ => True

variable (into : E → E') (items : I → List (Except E' T))

/-- What is still to come out of the inner stream that is being polled. -/
def rest (self : TryFlatten I) : List (Except E' T) :=
  match self.next with
  | some st => cut (items st)
  | none => []

/-- What came out, with what is still to come of the inner stream, is what comes out for
the elements taken. -/
def Account (self : TryFlatten I) (ys : List (Except E' T)) (answers : List (Answer I T E E')) :
    Prop :=
  ys ++ self.rest items = (elements answers).flatMap (through into fun st => cut (items st))

/-- Between calls. After `Ready(None)` no inner stream is left. -/
structure Between (flat : TryFlatten I) (calls : Calls I T E E') : Prop where
  account : flat.Account into items (yields calls) (answered calls)
  ended : (results calls).getLast? = some (.ready none) → flat.next = none

/-- At the head of the loop. -/
def Within (self : TryFlatten I) (calls : Calls I T E E') (_ : Unit)
    (asked : List (Option I × Answer I T E E')) : Prop :=
  self.Account into items (yields calls) (answered calls ++ asked.map Prod.snd)

variable {into items} {self : TryFlatten I} {calls : Calls I T E E'} {k : Unit}
  {asked : List (Option I × Answer I T E E')}

theorem yields_concat (calls : Calls I T E E')
    (c : Call Unit (Option I) (Answer I T E E') (TryPoll T E')) :
    yields (calls ++ [c]) = yields calls ++ given [c.result] := by
  unfold yields
  rw [results_concat, given_append]

/-- A call that ends adds its item to what came out. -/
theorem ret_keeps {r : TryPoll T E'} (hended : r = .ready none → self.next = none)
    (h : self.Account into items (yields calls ++ given [r])
      (answered calls ++ asked.map Prod.snd)) :
    (Flow.ret r self).Keeps (Between into items) (Within into items) calls k asked := by
  refine ⟨?_, fun hlast => hended ?_⟩
  · rw [yields_concat, answered_concat]
    exact h
  · rwa [results_concat, List.getLast?_concat, Option.some.injEq] at hlast

/-- **One answer of the inner stream**: what comes out leaves what is still to come. -/
theorem onInner_keeps {st st' : I} {r : TryPoll T E'} (hnext : self.next = some st)
    (hgives : Gives items st r st') (h : self.Within into items calls k asked) :
    (self.onInner st' r).Keeps (Between into items) (Within into items) calls k
      (asked ++ [(some st, .inner r st')]) := by
  have helements : elements (answered calls ++ (asked ++ [(some st, Answer.inner r st')]).map Prod.snd) =
      elements (answered calls ++ asked.map Prod.snd) := by
    rw [List.map_append, ← List.append_assoc, elements_append]
    exact List.append_nil _
  have hbefore : yields calls ++ cut (items st) =
      (elements (answered calls ++ asked.map Prod.snd)).flatMap
        (through into fun st => cut (items st)) := by
    rw [← h, rest, hnext]
  rcases r with _ | _ | e | item
  · refine ret_keeps nofun ?_
    unfold Account
    rw [helements, ← hbefore, given_pending, List.append_nil]
    exact congrArg (fun l => yields calls ++ cut l) hgives
  · show Account into items _ _ _
    unfold Account
    rw [helements, ← hbefore, (hgives : items st = [])]
    rfl
  · refine ret_keeps nofun ?_
    unfold Account
    rw [helements, ← hbefore, (hgives : items st = .error e :: items st'), given_ready]
    exact List.append_nil _
  · refine ret_keeps nofun ?_
    unfold Account
    rw [helements, ← hbefore, (hgives : items st = .ok item :: items st'), given_ready, cut,
      List.append_assoc]
    rfl

/-- **One answer of the base**: a stream brings what it has, an error comes out. -/
theorem onBase_keeps {r : TryPoll I E} (hnext : self.next = none)
    (h : self.Within into items calls k asked) :
    (self.onBase into r).Keeps (Between into items) (Within into items) calls k
      (asked ++ [(none, .base r)]) := by
  have helements : elements (answered calls ++ (asked ++ [(none, Answer.base r)]).map Prod.snd) =
      elements (answered calls ++ asked.map Prod.snd) ++ given [r] := by
    rw [List.map_append, ← List.append_assoc, elements_append]
    rfl
  have hbefore : yields calls =
      (elements (answered calls ++ asked.map Prod.snd)).flatMap
        (through into fun st => cut (items st)) := by
    rw [← h, rest, hnext]
    exact (List.append_nil _).symm
  have hrest : self.rest items = [] := by
    unfold rest
    rw [hnext]
  rcases r with _ | _ | e | st
  · refine ret_keeps nofun ?_
    unfold Account
    rw [helements, hrest, given_pending, given_pending, List.append_nil, List.append_nil,
      List.append_nil]
    exact hbefore
  · refine ret_keeps (fun _ => hnext) ?_
    unfold Account
    rw [helements, hrest, given_end, given_end, List.append_nil, List.append_nil, List.append_nil]
    exact hbefore
  · refine ret_keeps nofun ?_
    unfold Account
    rw [helements, hrest, given_ready, given_ready, List.append_nil, List.flatMap_append, ← hbefore]
    rfl
  · show Account into items _ _ _
    unfold Account
    rw [helements, given_ready, List.flatMap_append, ← hbefore, List.flatMap_singleton]
    rfl

theorem holds_of_run {ls : List (Act Unit (Answer I T E E'))}
    {s : State Unit (TryFlatten I) (Option I) (Answer I T E E') (TryPoll T E')}
    (hhonest : Transition.Along (machine T into).step (Honest items) (.start (new I)) ls)
    (hrun : (machine T into).run (new I) ls = some s) :
    s.Holds (Between into items) (Within into items) := by
  refine run_keeps_along (show Between into items (new I) [] from ⟨rfl, fun _ => rfl⟩) (fun s k _ _ h => ?_) (fun s k asked a f _ ha h hf => ?_) hhonest hrun
  · show Within into items s.self s.calls k []
    unfold Within
    rw [List.map_nil, List.append_nil]
    exact h.account
  · unfold machine at hf
    dsimp only at hf
    split at hf
    · rename_i st r st' hnext
      cases hf
      rw [show (machine T into).asks s.self = some st from hnext]
      exact onInner_keeps hnext (ha st hnext) h
    · rename_i r hnext
      cases hf
      rw [show (machine T into).asks s.self = none from hnext]
      exact onBase_keeps hnext h
    · cases hf

end TryFlatten

open TryFlatten (Answer elements yields through EndsAtError Honest)

/-- **When `TryFlatten` yields everything.** For all inner streams and all answers of the
base, whenever `Ready(None)` has been returned: what was yielded is, for the elements of
the base in order, the converted error or all that the inner stream had, just if no
inner stream that was taken had an item behind an error. -/
theorem try_flatten_whole_iff {I T E E' : Type} (into : E → E') (items : I → List (Except E' T))
    (ls : List (Act Unit (Answer I T E E')))
    (s : State Unit (TryFlatten I) (Option I) (Answer I T E E') (TryPoll T E'))
    (hhonest : Transition.Along (TryFlatten.machine T into).step (Honest items)
      (.start (TryFlatten.new I)) ls)
    (hrun : (TryFlatten.machine T into).run (TryFlatten.new I) ls = some s)
    (hidle : s.current = none) (hended : (results s.calls).getLast? = some (.ready none)) :
    yields s.calls = (elements (answered s.calls)).flatMap (through into items) ↔
      ∀ st, .ok st ∈ elements (answered s.calls) → EndsAtError (items st) := by
  have hbetween := (TryFlatten.holds_of_run hhonest hrun).idle hidle
  have hyields : yields s.calls =
      (elements (answered s.calls)).flatMap (through into fun st => TryFlatten.cut (items st)) := by
    rw [← hbetween.account, TryFlatten.rest, hbetween.ended hended]
    exact (List.append_nil _).symm
  rw [hyields, TryFlatten.flatMap_eq_iff_of_prefix]
  · constructor
    · exact fun h st hst => (TryFlatten.cut_eq_iff _).mp (h (.ok st) hst)
    · intro h element helement
      cases element with
      | ok st => exact (TryFlatten.cut_eq_iff _).mpr (h st helement)
      | error e => rfl
  · intro element _
    cases element with
    | ok st => exact TryFlatten.cut_prefix _
    | error e => exact List.prefix_rfl

/-- The base gives a stream with an error and an item behind it, and ends. -/
def itemBehindError : List (Act Unit (Answer (List (Except ℕ ℕ)) ℕ ℕ ℕ)) :=
  [.call (), .answer (.base (.ready (some (.ok [.error 7, .ok 2])))),
    .answer (.inner (.ready (some (.error 7))) [.ok 2]), .call (), .answer (.base (.ready none))]

/-- The items of the stream are the list that stands for it. -/
theorem itemBehindError_honest :
    Transition.Along (TryFlatten.machine ℕ id).step (Honest id)
      (.start (TryFlatten.new (List (Except ℕ ℕ)))) itemBehindError := by
  refine ⟨trivial, fun s₁ h₁ => ⟨trivial, fun s₂ h₂ => ⟨?_, fun _ _ => ⟨trivial, fun _ _ =>
    ⟨trivial, fun _ _ => trivial⟩⟩⟩⟩⟩
  cases h₁
  cases h₂
  intro st hst
  cases hst
  rfl

theorem itemBehindError_run :
    ∃ s, (TryFlatten.machine ℕ id).run (TryFlatten.new _) itemBehindError = some s ∧
      s.current = none ∧ (results s.calls).getLast? = some (.ready none) ∧
      yields s.calls = [.error 7] ∧
      elements (answered s.calls) = [.ok [.error 7, .ok 2]] := by
  have hrun : ((TryFlatten.machine ℕ id).run (TryFlatten.new _) itemBehindError).map
      (fun s => (s.current, results s.calls, elements (answered s.calls))) =
      some (none, [.ready (some (.error 7)), .ready none], [.ok [.error 7, .ok 2]]) := rfl
  obtain ⟨s, hs, hseen⟩ := Option.map_eq_some_iff.mp hrun
  obtain ⟨hidle, hrest⟩ := Prod.mk.inj hseen
  obtain ⟨hresults, helements⟩ := Prod.mk.inj hrest
  refine ⟨s, hs, hidle, ?_, ?_, helements⟩
  · rw [hresults]
    rfl
  · unfold yields
    rw [hresults]
    rfl

theorem try_flatten_whole_iff_item_behind_error :
    ∃ s, (TryFlatten.machine ℕ id).run (TryFlatten.new _) itemBehindError = some s ∧
      (yields s.calls = (elements (answered s.calls)).flatMap (through id id) ↔
        ∀ st, .ok st ∈ elements (answered s.calls) → EndsAtError (id st)) := by
  obtain ⟨s, hs, hidle, hended, -, -⟩ := itemBehindError_run
  exact ⟨s, hs, try_flatten_whole_iff id id itemBehindError s itemBehindError_honest hs hidle hended⟩

/-- The item behind the error of the inner stream does not come out. -/
theorem try_flatten_drops_rest :
    ¬ ∀ (items : List (Except ℕ ℕ) → List (Except ℕ ℕ)) (ls : List (Act Unit _))
      (s : State Unit (TryFlatten (List (Except ℕ ℕ))) _ (Answer _ ℕ ℕ ℕ) (TryPoll ℕ ℕ)),
      Transition.Along (TryFlatten.machine ℕ id).step (Honest items)
        (.start (TryFlatten.new _)) ls →
      (TryFlatten.machine ℕ id).run (TryFlatten.new _) ls = some s → s.current = none →
      (results s.calls).getLast? = some (.ready none) →
      yields s.calls = (elements (answered s.calls)).flatMap (through id items) := by
  intro hclaim
  obtain ⟨s, hs, hidle, hended, hyields, helements⟩ := itemBehindError_run
  have heq := hclaim id itemBehindError s itemBehindError_honest hs hidle hended
  rw [hyields, helements] at heq
  exact absurd (congrArg List.length heq) (by decide)

end TokioStreamUtil
