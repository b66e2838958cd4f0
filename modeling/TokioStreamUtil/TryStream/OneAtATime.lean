/-
The adaptors that run one future at a time.

`TryFilter`, `TryFilterMap`, `AndThen`, `OrElse`, `TryTakeWhile` and `TrySkipWhile`
share one loop: a round polls the future in progress if there is one, and else the
base, whose next item may become a future through the closure. `TryUnfold` has no base:
its closure makes a future of the state it holds.

A closure has a state of its own, which a call of it may change.
-/
import TokioStreamUtil.TryStream.Poll
import TokioStreamUtil.Lib.FusedLoop

set_option autoImplicit false

namespace TokioStreamUtil

open PollLoop

/-! ## The loop they share -/

/-- The base answers, or the future in progress does. -/
inductive OneAtATime.Answer (T E R : Type) where
  | base (r : TryPoll T E)
  | future (r : Poll R)

/-- The parts of the text that differ: what stands before the loop, which future a
round polls, and what it does with the output of the future or the item of the base. -/
structure OneAtATime (σ Fut T E R ρ : Type) where
  start : σ → Flow σ (Poll ρ)
  pending : σ → Option Fut
  onFuture : σ → R → Flow σ (Poll ρ)
  onBase : σ → Option (Except E T) → Flow σ (Poll ρ)

/-- `poll_next` of the adaptors. -/
def OneAtATime.machine {σ Fut T E R ρ : Type} (B : OneAtATime σ Fut T E R ρ) :
    Machine Unit σ (Option Fut) (OneAtATime.Answer T E R) (Poll ρ) where
  enter := fun _ self => B.start self
  asks := B.pending
  resume := fun self a =>
    match B.pending self, a with
    | some _, .future .pending => some (.ret .pending self)
    | some _, .future (.ready res) => some (B.onFuture self res)
    | none, .base .pending => some (.ret .pending self)
    | none, .base (.ready item) => some (B.onBase self item)
    | _, _ => none

/-- The state between two steps of an adaptor. -/
abbrev OneAtATime.Run (σ Fut T E R ρ : Type) :=
  State Unit σ (Option Fut) (OneAtATime.Answer T E R) (Poll (Option ρ))

/-- What the base has answered. -/
def OneAtATime.baseAnswers {Fut T E R : Type} (log : List (Option Fut × OneAtATime.Answer T E R)) :
    List (TryPoll T E) :=
  log.filterMap fun x =>
    match x.2 with
    | .base r => some r
    | .future _ => none

/-- What the futures have answered. -/
def OneAtATime.futureAnswers {Fut T E R : Type}
    (log : List (Option Fut × OneAtATime.Answer T E R)) : List (Poll R) :=
  log.filterMap fun x =>
    match x.2 with
    | .base _ => none
    | .future r => some r

namespace OneAtATime

section

variable {Fut T E R : Type} (l₁ l₂ : List (Option Fut × Answer T E R)) (q : Option Fut)

@[simp] theorem baseAnswers_append : baseAnswers (l₁ ++ l₂) = baseAnswers l₁ ++ baseAnswers l₂ :=
  List.filterMap_append

@[simp] theorem baseAnswers_base (r : TryPoll T E) :
    baseAnswers [(q, (.base r : Answer T E R))] = [r] := rfl

@[simp] theorem baseAnswers_future (r : Poll R) :
    baseAnswers [(q, (.future r : Answer T E R))] = [] := rfl

@[simp] theorem futureAnswers_append :
    futureAnswers (l₁ ++ l₂) = futureAnswers l₁ ++ futureAnswers l₂ := List.filterMap_append

end

end OneAtATime

variable {φ Fut S T U E E' : Type}

/-! ## The adaptors -/

/-- `TryFilter`, without the base. -/
structure TryFilter (φ Fut T : Type) where
  f : φ
  pending_fut : Option Fut
  pending_item : Option T

/-- `TryFilter::new`. -/
def TryFilter.new (f : φ) : TryFilter φ Fut T :=
  { f := f, pending_fut := none, pending_item := none }

/-- `TryFilter::poll_next`. -/
def TryFilter.poll_next (call : φ → T → Fut × φ) :
    OneAtATime (TryFilter φ Fut T) Fut T E Bool (Option (Except E T)) where
  start := .again
  pending := TryFilter.pending_fut
  onFuture := fun self res =>
    if res then
      .ret (.ready (self.pending_item.map .ok)) { self with pending_fut := none, pending_item := none }
    else .again { self with pending_fut := none, pending_item := none }
  onBase := fun self item =>
    match item with
    | some (.ok item) =>
        .again
          { f := (call self.f item).2
            pending_fut := some (call self.f item).1
            pending_item := some item }
    | some (.error e) => .ret (.ready (some (.error e))) self
    | none => .ret (.ready none) self

/-- `FusedStream::is_terminated` of `TryFilter`, over that of the base. -/
def TryFilter.is_terminated (self : TryFilter φ Fut T) (stream_is_terminated : Bool) : Bool :=
  self.pending_fut.isNone && stream_is_terminated

/-- `TryFilterMap`, without the base. -/
structure TryFilterMap (φ Fut : Type) where
  f : φ
  pending : Option Fut

/-- `TryFilterMap::new`. -/
def TryFilterMap.new (f : φ) : TryFilterMap φ Fut := { f := f, pending := none }

/-- `TryFilterMap::poll_next`. -/
def TryFilterMap.poll_next (call : φ → T → Fut × φ) :
    OneAtATime (TryFilterMap φ Fut) Fut T E (Except E (Option U)) (Option (Except E U)) where
  start := .again
  pending := TryFilterMap.pending
  onFuture := fun self res =>
    match res with
    | .ok (some val) => .ret (.ready (some (.ok val))) { self with pending := none }
    | .ok none => .again { self with pending := none }
    | .error e => .ret (.ready (some (.error e))) { self with pending := none }
  onBase := fun self item =>
    match item with
    | some (.ok item) => .again { f := (call self.f item).2, pending := some (call self.f item).1 }
    | some (.error e) => .ret (.ready (some (.error e))) self
    | none => .ret (.ready none) self

/-- `FusedStream::is_terminated` of `TryFilterMap`, over that of the base. -/
def TryFilterMap.is_terminated (self : TryFilterMap φ Fut) (stream_is_terminated : Bool) : Bool :=
  self.pending.isNone && stream_is_terminated

/-- `AndThen` and `OrElse`, without the base. -/
structure Chained (φ Fut : Type) where
  future : Option Fut
  f : φ

/-- `AndThen::new` and `OrElse::new`. -/
def Chained.new (f : φ) : Chained φ Fut := { future := none, f := f }

/-- `AndThen::poll_next`. -/
def AndThen.poll_next (call : φ → T → Fut × φ) :
    OneAtATime (Chained φ Fut) Fut T E (Except E U) (Option (Except E U)) where
  start := .again
  pending := Chained.future
  onFuture := fun self item => .ret (.ready (some item)) { self with future := none }
  onBase := fun self item =>
    match item with
    | some (.ok item) => .again { future := some (call self.f item).1, f := (call self.f item).2 }
    | some (.error e) => .ret (.ready (some (.error e))) self
    | none => .ret (.ready none) self

/-- `OrElse::poll_next`. -/
def OrElse.poll_next (call : φ → E → Fut × φ) :
    OneAtATime (Chained φ Fut) Fut T E (Except E' T) (Option (Except E' T)) where
  start := .again
  pending := Chained.future
  onFuture := fun self item => .ret (.ready (some item)) { self with future := none }
  onBase := fun self item =>
    match item with
    | some (.ok item) => .ret (.ready (some (.ok item))) self
    | some (.error e) => .again { future := some (call self.f e).1, f := (call self.f e).2 }
    | none => .ret (.ready none) self

/-- `FusedStream::is_terminated` of `AndThen` and `OrElse`, over that of the base. -/
def Chained.is_terminated (self : Chained φ Fut) (stream_is_terminated : Bool) : Bool :=
  self.future.isNone && stream_is_terminated

/-- `TryTakeWhile`, without the base. -/
structure TryTakeWhile (φ Fut T : Type) where
  f : φ
  pending_fut : Option Fut
  pending_item : Option T
  done_taking : Bool

/-- `TryTakeWhile::new`. -/
def TryTakeWhile.new (f : φ) : TryTakeWhile φ Fut T :=
  { f := f, pending_fut := none, pending_item := none, done_taking := false }

/-- `TryTakeWhile::poll_next`. -/
def TryTakeWhile.poll_next (call : φ → T → Fut × φ) :
    OneAtATime (TryTakeWhile φ Fut T) Fut T E (Except E Bool) (Option (Except E T)) where
  start := fun self => if self.done_taking then .ret (.ready none) self else .again self
  pending := TryTakeWhile.pending_fut
  onFuture := fun self take =>
    match take with
    | .ok true =>
        .ret (.ready (self.pending_item.map .ok))
          { self with pending_fut := none, pending_item := none }
    | .ok false =>
        .ret (.ready none)
          { self with pending_fut := none, pending_item := none, done_taking := true }
    | .error e =>
        .ret (.ready (some (.error e)))
          { self with pending_fut := none, pending_item := none, done_taking := true }
  onBase := fun self item =>
    match item with
    | some (.ok item) =>
        .again
          { self with
            f := (call self.f item).2
            pending_fut := some (call self.f item).1
            pending_item := some item }
    | some (.error e) => .ret (.ready (some (.error e))) { self with done_taking := true }
    | none => .ret (.ready none) { self with done_taking := true }

/-- `FusedStream::is_terminated` of `TryTakeWhile`, over that of the base. -/
def TryTakeWhile.is_terminated (self : TryTakeWhile φ Fut T) (stream_is_terminated : Bool) : Bool :=
  self.done_taking || self.pending_item.isNone && stream_is_terminated

/-- `TrySkipWhile`, without the base. -/
structure TrySkipWhile (φ Fut T : Type) where
  f : φ
  pending_fut : Option Fut
  pending_item : Option T
  done_skipping : Bool

/-- `TrySkipWhile::new`. -/
def TrySkipWhile.new (f : φ) : TrySkipWhile φ Fut T :=
  { f := f, pending_fut := none, pending_item := none, done_skipping := false }

/-- `TrySkipWhile::poll_next`. After skipping, a call is one poll of the base, whose
answer it returns. -/
def TrySkipWhile.poll_next (call : φ → T → Fut × φ) :
    OneAtATime (TrySkipWhile φ Fut T) Fut T E (Except E Bool) (Option (Except E T)) where
  start := .again
  pending := fun self => if self.done_skipping then none else self.pending_fut
  onFuture := fun self skipped =>
    match skipped with
    | .ok true => .again { self with pending_fut := none, pending_item := none }
    | .ok false =>
        .ret (.ready (self.pending_item.map .ok))
          { self with pending_fut := none, pending_item := none, done_skipping := true }
    | .error e =>
        .ret (.ready (some (.error e)))
          { self with pending_fut := none, pending_item := none, done_skipping := true }
  onBase := fun self item =>
    if self.done_skipping then .ret (.ready item) self
    else
      match item with
      | some (.ok item) =>
          .again
            { self with
              f := (call self.f item).2
              pending_fut := some (call self.f item).1
              pending_item := some item }
      | some (.error e) => .ret (.ready (some (.error e))) { self with done_skipping := true }
      | none => .ret (.ready none) { self with done_skipping := true }

/-- `FusedStream::is_terminated` of `TrySkipWhile`, over that of the base. -/
def TrySkipWhile.is_terminated (self : TrySkipWhile φ Fut T) (stream_is_terminated : Bool) : Bool :=
  self.pending_item.isNone && stream_is_terminated

/-- `TryUnfold`. -/
structure TryUnfold (φ Fut S : Type) where
  f : φ
  state : Option S
  fut : Option Fut

/-- `try_unfold(init, f)`. -/
def TryUnfold.new (init : S) (f : φ) : TryUnfold φ Fut S :=
  { f := f, state := some init, fut := none }

/-- The state is taken out and becomes a future. -/
def TryUnfold.take (call : φ → S → Fut × φ) (self : TryUnfold φ Fut S) : TryUnfold φ Fut S :=
  match self.state with
  | some state => { f := (call self.f state).2, state := none, fut := some (call self.f state).1 }
  | none => self

/-- `TryUnfold::poll_next`. -/
def TryUnfold.machine (call : φ → S → Fut × φ) :
    Machine Unit (TryUnfold φ Fut S) (Option Fut) (Poll (Except E (Option (T × S))))
      (TryPoll T E) where
  enter := fun _ self =>
    match (self.take call).fut with
    | none => .ret (.ready none) (self.take call)
    | some _ => .again (self.take call)
  asks := TryUnfold.fut
  resume := fun self a =>
    match a with
    | .pending => some (.ret .pending self)
    | .ready (.ok (some (item, next_state))) =>
        some (.ret (.ready (some (.ok item))) { self with state := some next_state, fut := none })
    | .ready (.ok none) => some (.ret (.ready none) { self with fut := none })
    | .ready (.error e) => some (.ret (.ready (some (.error e))) { self with fut := none })

/-- `FusedStream::is_terminated` of `TryUnfold`. -/
def TryUnfold.is_terminated (self : TryUnfold φ Fut S) : Bool :=
  self.state.isNone && self.fut.isNone

end TokioStreamUtil
