/-
The adaptors that consume a stream and resolve once.

`TryAll` and `TryAny` keep a flag of their own and raise it on every way out. `TryForward`
drops its sink only on the way out without an error. `TryCollect` and `TryConcat` read
their flag off the base, which an error does not end.
-/
import TokioStreamUtil.TryStream.TryForward
import TokioStreamUtil.TryStream.OneAtATime

set_option autoImplicit false

namespace TokioStreamUtil

open PollLoop

variable {φ Fut T E C : Type}

/-! ## `TryAll` and `TryAny` -/

/-- What polling a future comes to. `panicked` is the panic of a poll after completion. -/
inductive Outcome (α : Type) where
  | poll (r : Poll α)
  | panicked
  deriving DecidableEq

/-- `TryAll` and `TryAny`, without the base. -/
structure Quantifier (φ Fut : Type) where
  f : φ
  done : Bool
  future : Option Fut

namespace Quantifier

/-- `TryAll::new` and `TryAny::new`. -/
def new (f : φ) : Quantifier φ Fut := { f := f, done := false, future := none }

/-- The head of the loop. -/
def head (self : Quantifier φ Fut) : Flow (Quantifier φ Fut) (Outcome (Except E Bool)) :=
  if self.future.isNone && self.done then .ret .panicked self else .again self

/-- The future has resolved. The answer `decides` ends the loop. -/
def onFuture (decides : Bool) (self : Quantifier φ Fut) (acc : Bool) :
    Flow (Quantifier φ Fut) (Outcome (Except E Bool)) :=
  if acc = decides then
    .ret (.poll (.ready (.ok decides))) { self with future := none, done := true }
  else { self with future := none }.head

/-- The base has answered. -/
def onBase (decides : Bool) (call : φ → T → Fut × φ) (self : Quantifier φ Fut) :
    Option (Except E T) → Flow (Quantifier φ Fut) (Outcome (Except E Bool))
  | some (.ok item) => .again { self with future := some (call self.f item).1, f := (call self.f item).2 }
  | some (.error err) => .ret (.poll (.ready (.error err))) { self with done := true }
  | none => .ret (.poll (.ready (.ok !decides))) { self with done := true }

/-- `poll` of the two. -/
def machine (decides : Bool) (call : φ → T → Fut × φ) :
    Machine Unit (Quantifier φ Fut) (Option Fut) (OneAtATime.Answer T E Bool)
      (Outcome (Except E Bool)) where
  enter := fun _ self => self.head
  asks := Quantifier.future
  resume := fun self a =>
    match self.future, a with
    | some _, .future .pending => some (.ret (.poll .pending) self)
    | some _, .future (.ready acc) => some (self.onFuture decides acc)
    | none, .base .pending => some (.ret (.poll .pending) self)
    | none, .base (.ready item) => some (self.onBase decides call item)
    | _, _ => none

/-- `FusedFuture::is_terminated` of the two. -/
def is_terminated (self : Quantifier φ Fut) : Bool := self.done && self.future.isNone

end Quantifier

/-- `TryAll::poll`: the first `false` decides. -/
def TryAll.machine (call : φ → T → Fut × φ) :
    Machine Unit (Quantifier φ Fut) (Option Fut) (OneAtATime.Answer T E Bool)
      (Outcome (Except E Bool)) := Quantifier.machine false call

/-- `TryAny::poll`: the first `true` decides. -/
def TryAny.machine (call : φ → T → Fut × φ) :
    Machine Unit (Quantifier φ Fut) (Option Fut) (OneAtATime.Answer T E Bool)
      (Outcome (Except E Bool)) := Quantifier.machine true call

/-! ## `TryCollect` and `TryConcat` -/

/-- `TryCollect`, without the base. -/
structure TryCollect (C : Type) where
  items : C
  deriving DecidableEq

namespace TryCollect

/-- `TryCollect::new`. -/
def new (default : C) : TryCollect C := { items := default }

/-- `TryCollect::poll`, for a collection with `default` and with `extend` by one item. -/
def machine (E : Type) (default : C) (extend : C → T → C) :
    Machine Unit (TryCollect C) Unit (TryPoll T E) (Poll (Except E C)) where
  enter := fun _ self => .again self
  asks := fun _ => ()
  resume := fun self r =>
    match r with
    | .ready (some (.ok item)) => some (.again { items := extend self.items item })
    | .ready (some (.error e)) => some (.ret (.ready (.error e)) self)
    | .ready none => some (.ret (.ready (.ok self.items)) { items := default })
    | .pending => some (.ret .pending self)

/-- `FusedFuture::is_terminated` of `TryCollect`, over that of the base. -/
def is_terminated (_ : TryCollect C) (stream_is_terminated : Bool) : Bool := stream_is_terminated

end TryCollect

/-- `TryConcat`, without the base. -/
structure TryConcat (T : Type) where
  accum : Option T
  deriving DecidableEq

namespace TryConcat

/-- `TryConcat::new`. -/
def new (T : Type) : TryConcat T := { accum := none }

/-- `TryConcat::poll`, for items with `default` and `extend`. -/
def machine (E : Type) (default : T) (extend : T → T → T) :
    Machine Unit (TryConcat T) Unit (TryPoll T E) (Poll (Except E T)) where
  enter := fun _ self => .again self
  asks := fun _ => ()
  resume := fun self r =>
    match r with
    | .ready (some (.ok x)) =>
        match self.accum with
        | some a => some (.again { accum := some (extend a x) })
        | none => some (.again { accum := some x })
    | .ready (some (.error e)) => some (.ret (.ready (.error e)) self)
    | .ready none => some (.ret (.ready (.ok (self.accum.getD default))) { accum := none })
    | .pending => some (.ret .pending self)

/-- `FusedFuture::is_terminated` of `TryConcat`, over that of the base. -/
def is_terminated (self : TryConcat T) (stream_is_terminated : Bool) : Bool :=
  stream_is_terminated && self.accum.isNone

end TryConcat

/-! ## The flag after a poll that resolved -/

/-- A base whose flag is up just when it has returned `None`. -/
def baseEnded (answers : List (TryPoll T E)) : Bool := answers.any fun r =>
  match r with
  | .ready none => true
  | _ => false

/-- An answer of the base that is an error. -/
def isError : TryPoll T E → Bool
  | .ready (some (.error _)) => true
  | _ => false

/-- The `Ok` items of the base since its last `None`. -/
def sinceEnd (answers : List (TryPoll T E)) : List T :=
  answers.foldl (fun items r =>
    match r with
    | .ready (some (.ok x)) => items ++ [x]
    | .ready none => []
    | _ => items) []

theorem baseEnded_append (l₁ l₂ : List (TryPoll T E)) :
    baseEnded (l₁ ++ l₂) = (baseEnded l₁ || baseEnded l₂) := List.any_append

theorem sinceEnd_append_item (answers : List (TryPoll T E)) (x : T) :
    sinceEnd (answers ++ [.ready (some (.ok x))]) = sinceEnd answers ++ [x] := by
  unfold sinceEnd
  rw [List.foldl_append]
  rfl

theorem sinceEnd_append_end (answers : List (TryPoll T E)) :
    sinceEnd (answers ++ [.ready none]) = [] := by
  unfold sinceEnd
  rw [List.foldl_append]
  rfl

theorem sinceEnd_append_error (answers : List (TryPoll T E)) (e : E) :
    sinceEnd (answers ++ [.ready (some (.error e))]) = sinceEnd answers := by
  unfold sinceEnd
  rw [List.foldl_append]
  rfl

theorem sinceEnd_append_pending (answers : List (TryPoll T E)) :
    sinceEnd (answers ++ [.pending]) = sinceEnd answers := by
  unfold sinceEnd
  rw [List.foldl_append]
  rfl

namespace Quantifier

/-- The calls of `poll`. -/
abbrev Calls (Fut T E : Type) :=
  List (Call Unit (Option Fut) (OneAtATime.Answer T E Bool) (Outcome (Except E Bool)))

/-- After a poll that resolved the flag is up. -/
def Flagged (s : Quantifier φ Fut) (calls : Calls Fut T E) : Prop :=
  ∀ c ∈ calls.getLast?, ∀ r, c.result = .poll (.ready r) → s.is_terminated = true

/-- A stretch that resolves only under the flag. -/
theorem flagged_of {fl : Flow (Quantifier φ Fut) (Outcome (Except E Bool))} {calls : Calls Fut T E}
    {k : Unit} {asked : List (Option Fut × OneAtATime.Answer T E Bool)}
    (h : ∀ r s, fl = .ret (.poll (.ready r)) s → s.is_terminated = true) :
    fl.Keeps Flagged (fun _ _ _ _ => True) calls k asked := by
  cases fl with
  | again s => exact trivial
  | ret r s =>
      intro c hc r' hr'
      rw [List.getLast?_concat, Option.mem_some_iff] at hc
      subst hc
      exact h r' s (congrArg (Flow.ret · s) hr')

theorem head_never_resolves {self : Quantifier φ Fut} {r : Except E Bool} {s : Quantifier φ Fut} :
    self.head ≠ .ret (.poll (.ready r)) s := by
  unfold head
  split
  · rintro ⟨⟩
  · rintro ⟨⟩

/-- Every way out raises the flag. -/
theorem flagged (decides : Bool) (call : φ → T → Fut × φ) {f : φ}
    {ls : List (Act Unit (OneAtATime.Answer T E Bool))}
    {s : State Unit (Quantifier φ Fut) (Option Fut) (OneAtATime.Answer T E Bool)
      (Outcome (Except E Bool))}
    (hrun : (machine decides call).run (new f) ls = some s) (hs : s.current = none) :
    Flagged s.self s.calls := by
  refine (run_keeps (J := fun _ _ _ _ => True) (I := Flagged) ?_ ?_ ?_ hrun).idle hs
  · intro c hc
    cases hc
  · intro self calls k _
    exact flagged_of fun r s h => absurd h head_never_resolves
  · intro self calls k asked a fl _ hresume
    refine flagged_of fun r s hfl => ?_
    subst hfl
    unfold machine at hresume
    dsimp only at hresume
    cases hfut : self.future with
    | some fut =>
        rw [hfut] at hresume
        rcases a with r' | _ | acc
        · cases hresume
        · cases hresume
        · have hfl := Option.some.inj hresume
          unfold onFuture at hfl
          split at hfl
          · cases hfl
            rfl
          · exact absurd hfl head_never_resolves
    | none =>
        rw [hfut] at hresume
        rcases a with (_ | _ | err | item) | r'
        · cases hresume
        · cases hresume
          unfold is_terminated
          rw [hfut]
          rfl
        · cases hresume
          unfold is_terminated
          rw [hfut]
          rfl
        · cases hresume
        · cases hresume

end Quantifier

namespace TryForward

/-- After a poll that resolved, the flag is up just when nothing failed in it. -/
def Flagged (fw : Forward T) (calls : Calls T E) : Prop :=
  ∀ c ∈ calls.getLast?, ∀ r, c.result = .poll (.ready r) →
    (fw.is_terminated = true ↔ ∀ p ∈ c.asked, p.2.fails = false)

/-- In a poll that asks, the sink is there and nothing has failed yet, and a base that
has ended is not asked. -/
structure Unfailed (fw : Forward T) (_ : Calls T E) (_ : Unit) (asked : Log T E) : Prop where
  sink : fw.sink = true
  asked : ∀ p ∈ asked, p.2.fails = false
  running : fw.ask = .poll_next → fw.stream.is_terminated = false

variable {fw : Forward T} {calls : Calls T E} {k : Unit} {asked : Log T E} {q : Ask T}
  {a : Answer T E}

/-- A poll that does not resolve. -/
theorem flagged_pending {r : Reply E} (hr : ∀ r', r ≠ .poll (.ready r')) :
    (Flow.ret r fw).Keeps Flagged Unfailed calls k asked := by
  intro c hc r' hr'
  rw [List.getLast?_concat, Option.mem_some_iff] at hc
  subst hc
  exact absurd hr' (hr r')

/-- A poll that something fails in leaves the sink there. -/
theorem flagged_error (hsink : fw.sink = true) (ha : a.fails = true) (e : E) :
    (Flow.ret (.poll (.ready (.error e))) fw).Keeps Flagged Unfailed calls k (asked ++ [(q, a)]) := by
  intro c hc r' _
  rw [List.getLast?_concat, Option.mem_some_iff] at hc
  subst hc
  refine iff_of_false ?_ fun hall => ?_
  · unfold Forward.is_terminated
    rw [hsink]
    exact Bool.false_ne_true
  · rw [hall (q, a) (List.mem_append_right _ List.mem_cons_self)] at ha
    cases ha

/-- The base is polled, or the sink closed. -/
theorem flagged_pollStream (hsink : fw.sink = true) (hasked : ∀ p ∈ asked, p.2.fails = false) :
    (fw.pollStream).Keeps Flagged Unfailed calls k asked := by
  unfold Forward.pollStream
  split
  · exact ⟨hsink, hasked, by rintro ⟨⟩⟩
  · rename_i hrunning
    exact ⟨hsink, hasked, fun _ => Bool.not_eq_true _ ▸ hrunning⟩

/-- The head of the loop. -/
theorem flagged_head (hasked : ∀ p ∈ asked, p.2.fails = false) :
    (fw.head).Keeps Flagged Unfailed calls k asked := by
  unfold Forward.head
  split
  · rename_i hsink
    split
    · exact ⟨hsink, hasked, by rintro ⟨⟩⟩
    · exact flagged_pollStream hsink hasked
  · exact flagged_pending (by rintro r ⟨⟩)

theorem fails_concat (hasked : ∀ p ∈ asked, p.2.fails = false) (ha : a.fails = false) :
    ∀ p ∈ asked ++ [(q, a)], p.2.fails = false := by
  intro p hp
  rcases List.mem_append.mp hp with hp | hp
  · exact hasked p hp
  · obtain rfl := List.mem_singleton.mp hp
    exact ha

/-- One answer. -/
theorem flagged_resume {fl : Flow (Forward T) (Reply E)} (h : Unfailed fw calls k asked)
    (hresume : (machine T E).resume fw a = some fl) :
    fl.Keeps Flagged Unfailed calls k (asked ++ [((machine T E).asks fw, a)]) := by
  obtain ⟨hsink, hasked, hrunning⟩ := h
  unfold machine at hresume ⊢
  dsimp only at hresume ⊢
  cases hask : fw.ask with
  | poll_ready =>
      rw [hask] at hresume
      rcases a with (_ | e | _) | r | r
      · cases hresume
        exact flagged_pending (by rintro r ⟨⟩)
      · cases hresume
        exact flagged_error hsink rfl e
      · cases hresume
        unfold Forward.onReady
        dsimp only
        split
        · exact ⟨hsink, fails_concat hasked rfl, by rintro ⟨⟩⟩
        · exact flagged_pending (by rintro r ⟨⟩)
      · cases hresume
      · cases hresume
  | start_send item =>
      rw [hask] at hresume
      rcases a with r | (e | _) | r
      · cases hresume
      · cases hresume
        exact flagged_error hsink rfl e
      · cases hresume
        exact flagged_pollStream hsink (fails_concat hasked rfl)
      · cases hresume
  | poll_next =>
      rw [hask] at hresume
      rcases a with r | r | r
      · cases hresume
      · cases hresume
      · obtain rfl := Option.some.inj hresume
        have hstream := hrunning hask
        rcases r with _ | _ | e | item
        · rw [IntoFuseStream.poll_pending hstream]
          exact ⟨hsink, fails_concat hasked rfl, by rintro ⟨⟩⟩
        · rw [IntoFuseStream.poll_end hstream]
          exact ⟨hsink, fails_concat hasked rfl, by rintro ⟨⟩⟩
        · rw [IntoFuseStream.poll_item hstream]
          exact flagged_error hsink rfl e
        · rw [IntoFuseStream.poll_item hstream]
          exact flagged_head (fails_concat hasked rfl)
  | poll_flush =>
      rw [hask] at hresume
      rcases a with (_ | e | _) | r | r
      · cases hresume
        exact flagged_pending (by rintro r ⟨⟩)
      · cases hresume
        exact flagged_error hsink rfl e
      · cases hresume
        exact flagged_pending (by rintro r ⟨⟩)
      · cases hresume
      · cases hresume
  | poll_close =>
      rw [hask] at hresume
      rcases a with (_ | e | _) | r | r
      · cases hresume
        exact flagged_pending (by rintro r ⟨⟩)
      · cases hresume
        exact flagged_error hsink rfl e
      · cases hresume
        intro c hc r' _
        rw [List.getLast?_concat, Option.mem_some_iff] at hc
        subst hc
        exact iff_of_true rfl (fails_concat hasked rfl)
      · cases hresume
      · cases hresume

theorem flagged {ls : List (Act Unit (Answer T E))} {s : Run T E}
    (hrun : (machine T E).run (Forward.new T) ls = some s) (hs : s.current = none) :
    Flagged s.self s.calls := by
  refine (run_keeps (I := Flagged) (J := Unfailed) ?_ ?_ ?_ hrun).idle hs
  · intro c hc
    cases hc
  · intro fw calls k _
    exact flagged_head fun p hp => by cases hp
  · intro fw calls k asked a fl h hresume
    exact flagged_resume h hresume

end TryForward

/-- In a poll that still asks, the base has given `Ok` items only. -/
def OnlyItems (asked : List (Unit × TryPoll T E)) : Prop :=
  ∀ p ∈ asked, ∃ item, p.2 = .ready (some (.ok item))

namespace OnlyItems

variable {asked : List (Unit × TryPoll T E)}

theorem nil : OnlyItems ([] : List (Unit × TryPoll T E)) := fun _ hp => by cases hp

theorem concat (h : OnlyItems asked) (item : T) :
    OnlyItems (asked ++ [((), .ready (some (.ok item)))]) := by
  intro p hp
  rcases List.mem_append.mp hp with hp | hp
  · exact h p hp
  · obtain rfl := List.mem_singleton.mp hp
    exact ⟨item, rfl⟩

theorem not_ended (h : OnlyItems asked) : baseEnded (asked.map Prod.snd) = false := by
  unfold baseEnded
  rw [List.any_eq_false]
  intro r hr
  obtain ⟨p, hp, rfl⟩ := List.mem_map.mp hr
  obtain ⟨item, hitem⟩ := h p hp
  rw [hitem]
  exact Bool.false_ne_true

theorem no_error (h : OnlyItems asked) {r : TryPoll T E} (hr : isError r = false) :
    ∀ p ∈ asked ++ [((), r)], isError p.2 = false := by
  intro p hp
  rcases List.mem_append.mp hp with hp | hp
  · obtain ⟨item, hitem⟩ := h p hp
    rw [hitem]
    rfl
  · obtain rfl := List.mem_singleton.mp hp
    exact hr

/-- What the base has answered by the end of the poll. -/
theorem ended (h : OnlyItems asked) (before : List (TryPoll T E)) (r : TryPoll T E) :
    baseEnded (before ++ (asked ++ [((), r)]).map Prod.snd) = (baseEnded before || baseEnded [r]) := by
  rw [List.map_append, baseEnded_append, baseEnded_append, h.not_ended, Bool.false_or]
  rfl

end OnlyItems

namespace TryCollect

/-- After a poll that resolved: the base has ended just when it did not fail in the poll,
or had ended before. -/
def Flagged (_ : TryCollect C) (calls : List (Call Unit Unit (TryPoll T E) (Poll (Except E C)))) :
    Prop :=
  ∀ earlier c r, calls = earlier ++ [c] → c.result = .ready r →
    (baseEnded (answered calls) = true ↔
      (∀ p ∈ c.asked, isError p.2 = false) ∨ baseEnded (answered earlier) = true)

theorem flagged {default : C} {extend : C → T → C} {ls : List (Act Unit (TryPoll T E))}
    {s : State Unit (TryCollect C) Unit (TryPoll T E) (Poll (Except E C))}
    (hrun : (machine E default extend).run (new default) ls = some s) (hs : s.current = none) :
    Flagged s.self s.calls := by
  refine (run_keeps (I := Flagged) (J := fun _ _ _ asked => OnlyItems asked) ?_ ?_ ?_ hrun).idle hs
  · intro earlier c r heq _
    exact absurd heq.symm (List.append_ne_nil_of_right_ne_nil _ (List.cons_ne_nil _ _))
  · intro self calls k _
    exact OnlyItems.nil
  · intro self calls k asked a fl h hresume
    rcases a with _ | _ | e | item
    · cases hresume
      intro earlier c r heq hr
      obtain ⟨-, hc⟩ := List.append_inj' heq rfl
      obtain rfl := (List.cons.inj hc).1
      cases hr
    · cases hresume
      intro earlier c r heq _
      obtain ⟨rfl, hc⟩ := List.append_inj' heq rfl
      obtain rfl := (List.cons.inj hc).1
      rw [answered_concat, h.ended]
      exact iff_of_true (Bool.or_true _) (Or.inl (h.no_error rfl))
    · cases hresume
      intro earlier c r heq _
      obtain ⟨rfl, hc⟩ := List.append_inj' heq rfl
      obtain rfl := (List.cons.inj hc).1
      rw [answered_concat, h.ended]
      rw [show baseEnded [(.ready (some (.error e)) : TryPoll T E)] = false from rfl, Bool.or_false]
      refine (or_iff_right fun hall => ?_).symm
      cases hall _ (List.mem_append_right _ List.mem_cons_self)
    · cases hresume
      exact h.concat item

end TryCollect

namespace TryConcat

/-- Between polls: something is accumulated just when the base has given an item since
its last `None`. After a poll that resolved, the flag is up just when the base did not
fail in the poll, or had ended before and has given nothing since. -/
structure Flagged (s : TryConcat T) (calls : List (Call Unit Unit (TryPoll T E) (Poll (Except E T)))) :
    Prop where
  accum : s.accum = none ↔ sinceEnd (answered calls) = []
  flag : ∀ earlier c r, calls = earlier ++ [c] → c.result = .ready r →
    (s.is_terminated (baseEnded (answered calls)) = true ↔
      (∀ p ∈ c.asked, isError p.2 = false) ∨
        baseEnded (answered earlier) = true ∧ sinceEnd (answered calls) = [])

/-- In a poll that still asks. -/
structure Asking (s : TryConcat T) (calls : List (Call Unit Unit (TryPoll T E) (Poll (Except E T))))
    (_ : Unit) (asked : List (Unit × TryPoll T E)) : Prop where
  accum : s.accum = none ↔ sinceEnd (answered calls ++ asked.map Prod.snd) = []
  items : OnlyItems asked

theorem flagged {default : T} {extend : T → T → T} {ls : List (Act Unit (TryPoll T E))}
    {s : State Unit (TryConcat T) Unit (TryPoll T E) (Poll (Except E T))}
    (hrun : (machine E default extend).run (new T) ls = some s) (hs : s.current = none) :
    Flagged s.self s.calls := by
  refine (run_keeps (I := Flagged) (J := Asking) ?_ ?_ ?_ hrun).idle hs
  · refine ⟨iff_of_true rfl rfl, fun earlier c r heq _ => ?_⟩
    exact absurd heq.symm (List.append_ne_nil_of_right_ne_nil _ (List.cons_ne_nil _ _))
  · intro self calls k h
    refine ⟨?_, .nil⟩
    rw [List.map_nil, List.append_nil]
    exact h.accum
  · intro self calls k asked a fl ⟨haccum, hitems⟩ hresume
    have hmap : ∀ r : TryPoll T E, answered calls ++ (asked ++ [((), r)]).map Prod.snd =
        answered calls ++ asked.map Prod.snd ++ [r] := by
      intro r
      rw [List.map_append, List.append_assoc]
      rfl
    rcases a with _ | _ | e | item
    · cases hresume
      refine ⟨?_, fun earlier c r heq hr => ?_⟩
      · rw [answered_concat]
        dsimp only
        rw [hmap, sinceEnd_append_pending]
        exact haccum
      · obtain ⟨-, hc⟩ := List.append_inj' heq rfl
        obtain rfl := (List.cons.inj hc).1
        cases hr
    · cases hresume
      refine ⟨?_, fun earlier c r heq _ => ?_⟩
      · rw [answered_concat]
        dsimp only
        rw [hmap, sinceEnd_append_end]
        exact iff_of_true rfl rfl
      · obtain ⟨rfl, hc⟩ := List.append_inj' heq rfl
        obtain rfl := (List.cons.inj hc).1
        refine iff_of_true ?_ (Or.inl (hitems.no_error rfl))
        unfold is_terminated
        rw [answered_concat, hitems.ended, show baseEnded [(.ready none : TryPoll T E)] = true from rfl,
          Bool.or_true]
        rfl
    · cases hresume
      have hsince : sinceEnd (answered (calls ++ [⟨k, asked ++ [((), .ready (some (.error e)))],
          (.ready (.error e) : Poll (Except E T))⟩])) = sinceEnd (answered calls ++ asked.map Prod.snd) := by
        rw [answered_concat]
        dsimp only
        rw [hmap, sinceEnd_append_error]
      refine ⟨haccum.trans (by rw [← hsince]), fun earlier c r heq _ => ?_⟩
      obtain ⟨rfl, hc⟩ := List.append_inj' heq rfl
      obtain rfl := (List.cons.inj hc).1
      have hended : baseEnded (answered (calls ++ [⟨k, asked ++ [((), .ready (some (.error e)))],
          (.ready (.error e) : Poll (Except E T))⟩])) = baseEnded (answered calls) := by
        rw [answered_concat, hitems.ended]
        exact Bool.or_false _
      show self.is_terminated (baseEnded (answered (calls ++ [_]))) = true ↔ _ ∨ _ ∧ sinceEnd (answered (calls ++ [_])) = []
      rw [hended, hsince, ← haccum]
      unfold is_terminated
      rw [Bool.and_eq_true, Option.isNone_iff_eq_none]
      refine (or_iff_right fun hall => ?_).symm
      cases hall _ (List.mem_append_right _ List.mem_cons_self)
    · have hmore : sinceEnd (answered calls ++
          (asked ++ [((), (Poll.ready (some (.ok item)) : TryPoll T E))]).map Prod.snd) ≠ [] := by
        rw [hmap, sinceEnd_append_item]
        exact List.append_ne_nil_of_right_ne_nil _ (List.cons_ne_nil _ _)
      unfold machine at hresume
      dsimp only at hresume
      split at hresume
      · cases hresume
        exact ⟨iff_of_false (by rintro ⟨⟩) hmore, hitems.concat item⟩
      · cases hresume
        exact ⟨iff_of_false (by rintro ⟨⟩) hmore, hitems.concat item⟩

end TryConcat

/-- **When the flag is right.** In every run, after a poll `c` that has resolved: the
flag of `TryAll` and `TryAny` is up; that of `TryForward` just when nothing failed in the
poll; that of `TryCollect` just when the base did not fail in it, or had ended before;
that of `TryConcat` just when the base did not fail in it, or had ended before and has
given no item since. The base of the last two is one whose flag is up just when it has
returned `None`. -/
theorem flag_after_resolving_iff (φ Fut T E C : Type) :
    (∀ (call : φ → T → Fut × φ) f ls s,
      (TryAll.machine (E := E) call).run (Quantifier.new f) ls = some s → s.current = none →
      ∀ earlier c r, s.calls = earlier ++ [c] → c.result = .poll (.ready r) →
        s.self.is_terminated = true) ∧
    (∀ (call : φ → T → Fut × φ) f ls s,
      (TryAny.machine (E := E) call).run (Quantifier.new f) ls = some s → s.current = none →
      ∀ earlier c r, s.calls = earlier ++ [c] → c.result = .poll (.ready r) →
        s.self.is_terminated = true) ∧
    (∀ ls s, (TryForward.machine T E).run (TryForward.Forward.new T) ls = some s → s.current = none →
      ∀ earlier c r, s.calls = earlier ++ [c] → c.result = .poll (.ready r) →
        (s.self.is_terminated = true ↔ ∀ p ∈ c.asked, p.2.fails = false)) ∧
    (∀ (default : C) (extend : C → T → C) ls s,
      (TryCollect.machine E default extend).run (TryCollect.new default) ls = some s →
      s.current = none → ∀ earlier c r, s.calls = earlier ++ [c] → c.result = .ready r →
        (s.self.is_terminated (baseEnded (answered s.calls)) = true ↔
          (∀ p ∈ c.asked, isError p.2 = false) ∨ baseEnded (answered earlier) = true)) ∧
    ∀ (default : T) (extend : T → T → T) ls s,
      (TryConcat.machine E default extend).run (TryConcat.new T) ls = some s →
      s.current = none → ∀ earlier c r, s.calls = earlier ++ [c] → c.result = .ready r →
        (s.self.is_terminated (baseEnded (answered s.calls)) = true ↔
          (∀ p ∈ c.asked, isError p.2 = false) ∨
            baseEnded (answered earlier) = true ∧ sinceEnd (answered s.calls) = []) := by
  refine ⟨?_, ?_, ?_, ?_, ?_⟩
  · intro call f ls s hrun hs earlier c r heq hr
    refine Quantifier.flagged false call hrun hs c ?_ r hr
    rw [heq]
    exact List.getLast?_concat
  · intro call f ls s hrun hs earlier c r heq hr
    refine Quantifier.flagged true call hrun hs c ?_ r hr
    rw [heq]
    exact List.getLast?_concat
  · intro ls s hrun hs earlier c r heq hr
    refine TryForward.flagged hrun hs c ?_ r hr
    rw [heq]
    exact List.getLast?_concat
  · intro default extend ls s hrun hs earlier c r heq hr
    exact TryCollect.flagged hrun hs earlier c r heq hr
  · intro default extend ls s hrun hs earlier c r heq hr
    exact (TryConcat.flagged hrun hs).flag earlier c r heq hr

/-- An error of the base resolves the poll, and the flag is down after it. -/
theorem flag_down_after_error :
    (∃ s, (TryForward.machine ℕ ℕ).run (TryForward.Forward.new ℕ)
        [.call (), .answer (.base (.ready (some (.error 7))))] = some s ∧
      results s.calls = [.poll (.ready (.error 7))] ∧ s.self.is_terminated = false) ∧
    (∃ s, (TryCollect.machine ℕ ([] : List ℕ) fun items item => items ++ [item]).run
        (TryCollect.new []) [.call (), .answer (.ready (some (.error 7)))] = some s ∧
      results s.calls = [.ready (.error 7)] ∧
      s.self.is_terminated (baseEnded (answered s.calls)) = false) ∧
    ∃ s, (TryConcat.machine ℕ ([] : List ℕ) fun a x => a ++ x).run (TryConcat.new (List ℕ))
        [.call (), .answer (.ready (some (.error 7)))] = some s ∧
      results s.calls = [.ready (.error 7)] ∧
      s.self.is_terminated (baseEnded (answered s.calls)) = false :=
  ⟨⟨_, rfl, rfl, rfl⟩, ⟨_, rfl, rfl, rfl⟩, ⟨_, rfl, rfl, rfl⟩⟩

/-- An item and the end. -/
theorem flag_up_after_end :
    ∃ s, (TryConcat.machine ℕ ([] : List ℕ) fun a x => a ++ x).run (TryConcat.new (List ℕ))
        [.call (), .answer (.ready (some (.ok [1]))), .answer (.ready none)] = some s ∧
      s.self.is_terminated (baseEnded (answered s.calls)) = true := by
  have hrun : ((TryConcat.machine ℕ ([] : List ℕ) fun a x => a ++ x).run (TryConcat.new (List ℕ))
      [.call (), .answer (.ready (some (.ok [1]))), .answer (.ready none)]).map
        (fun s => (s.current, s.calls)) =
      some (none, [⟨(), [((), .ready (some (.ok [1]))), ((), .ready none)], .ready (.ok [1])⟩]) := rfl
  obtain ⟨s, hs, hseen⟩ := Option.map_eq_some_iff.mp hrun
  obtain ⟨hidle, hcalls⟩ := Prod.mk.inj hseen
  refine ⟨s, hs, ?_⟩
  refine ((flag_after_resolving_iff ℕ ℕ (List ℕ) ℕ ℕ).2.2.2.2 [] (fun a x => a ++ x) _ s hs hidle []
    _ _ hcalls rfl).mpr (Or.inl ?_)
  intro p hp
  rcases List.mem_cons.mp hp with rfl | hp
  · rfl
  · obtain rfl := List.mem_singleton.mp hp
    rfl

end TokioStreamUtil
