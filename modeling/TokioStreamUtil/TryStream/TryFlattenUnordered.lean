/-
`TryFlattenUnordered`: `FlattenUnordered` over a `TryStream` of `TryStream`s.

The base is wrapped twice: it is fused, and its errors become streams of a single
item. The flow controller takes those apart again at once, so none of them gets
into the bucket. A step is a step of `FlattenUnordered`, on the answers that the
wrappers make of those of the base and of the inner streams.
-/
import TokioStreamUtil.FlattenUnordered.Items

set_option autoImplicit false

namespace TokioStreamUtil

open FuturesUnordered (PollNext)
open FlattenUnordered

/-- The same answer, of a stream that wraps the one that gave it. -/
def FlattenUnordered.StreamPolled.map {I J T : Type} (f : I → J) : StreamPolled I T → StreamPolled J T
  | .pending st => .pending (f st)
  | .item x st => .item x (f st)
  | .ended => .ended
  | .unwind => .unwind

/-! ## The wrappers -/

/-- `EitherStream`. -/
inductive EitherStream (L R : Type) where
  | Left (l : L)
  | Right (r : R)

/-- `EitherStream::poll_next`, from those of the two sides. -/
def EitherStream.poll_next {L R T : Type} (left : L → StreamPolled L T) (right : R → StreamPolled R T) :
    EitherStream L R → StreamPolled (EitherStream L R) T
  | .Left l => (left l).map .Left
  | .Right r => (right r).map .Right

/-- `Single`. -/
structure Single (T : Type) where
  item : Option T

namespace Single

variable {T : Type}

/-- `Single::new`. -/
def new (val : T) : Single T := { item := some val }

/-- `Single::next_immediate`, with what is left. -/
def next_immediate (self : Single T) : Option T × Single T := (self.item, { item := none })

/-- `Single::poll_next`. -/
def poll_next (self : Single T) : StreamPolled (Single T) T :=
  match self.next_immediate with
  | (some x, rest) => .item x rest
  | (none, _) => .ended

end Single

/-- What the base gives: an inner stream, or an error in a stream of its own. -/
abbrev BaseStreamItem (I E' T : Type) := EitherStream I (Single (Except E' T))

/-- The same answer, with another item. -/
def FuturesUnordered.PollNext.map {T U : Type} (f : T → U) : PollNext T → PollNext U
  | .pending => .pending
  | .ready item => .ready (item.map f)
  | .unwound => .unwound

namespace NestedTryStreamIntoEither

variable {I E E' T : Type} (into : E → E')

/-- A stream is emitted as it is, an error is converted and wrapped. -/
def wrap : Except E I → BaseStreamItem I E' T
  | .ok stream => .Left stream
  | .error e => .Right (Single.new (.error (into e)))

/-- `NestedTryStreamIntoEither::poll_next` over the fused base, when the base would
answer `r`. -/
def poll_next (stream : IntoFuseStream) (r : PollNext (Except E I)) :
    IntoFuseStream × PollNext (BaseStreamItem I E' T) :=
  let (stream, r) := stream.poll_next r
  (stream, r.map (wrap into))

theorem poll_next_of_running {stream : IntoFuseStream} (h : stream.is_terminated = false)
    (r : PollNext (Except E I)) :
    (poll_next (T := T) into stream r).2 = r.map (wrap into) := by
  unfold poll_next
  dsimp only
  rw [IntoFuseStream.poll_next_of_running h]

theorem poll_next_of_terminated {stream : IntoFuseStream} (h : stream.is_terminated = true)
    (r : PollNext (Except E I)) : (poll_next (T := T) into stream r).2 = .ready none := by
  unfold poll_next
  dsimp only
  rw [IntoFuseStream.poll_next_of_terminated h]
  rfl

end NestedTryStreamIntoEither

/-- `PropagateBaseStreamError::next_step`. To unwrap an empty `Single` unwinds. -/
def PropagateBaseStreamError.next_step {I E' T : Type} :
    BaseStreamItem I E' T → Option (FlowStep (BaseStreamItem I E' T) (Except E' T))
  | .Left st => some (.Continue (.Left st))
  | .Right err => err.next_immediate.1.map .Return

/-! ## The machine -/

namespace TryFlattenUnordered

/-- The adaptor. -/
structure State (I E' T W : Type) (A : AtomicWaker WrappedWaker) where
  inner : FlattenUnordered.State (BaseStreamItem I E' T) (Except E' T) W A
  stream : IntoFuseStream

/-- The labels bring the answers of the base, and of the inner streams. -/
abbrev Act (I E E' T W : Type) := FlattenUnordered.Act (Except E I) I (Except E' T) W

variable {I E E' T W : Type} {A : AtomicWaker WrappedWaker} (into : E → E')

namespace State

/-- `TryFlattenUnordered::new`. -/
def new (I E' T W : Type) (A : AtomicWaker WrappedWaker) (limit : Option ℕ) : State I E' T W A where
  inner := FlattenUnordered.State.new _ _ W A limit
  stream := IntoFuseStream.new

/-- The stream in the bucket that is being polled. -/
def polling (s : State I E' T W A) : Option (BaseStreamItem I E' T) :=
  match s.inner.inner_streams.owner with
  | .poll _ (.poll t) => (s.inner.inner_streams.tasks t).future.bind PollStreamFut.stream
  | _ => none

/-- What the step `a` is for `FlattenUnordered`. -/
def label (s : State I E' T W A) :
    Act I E E' T W → FlattenUnordered.Act (BaseStreamItem I E' T) (BaseStreamItem I E' T) (Except E' T) W
  | .base i r => .base i (NestedTryStreamIntoEither.poll_next into s.stream r).2
  | .inner r =>
      .inner (match s.polling with
        | some st => st.poll_next (fun _ => r) Single.poll_next
        | none => .ended)
  | .poll_next w => .poll_next w
  | .own i => .own i
  | .owner => .owner
  | .wakeTask i t => .wakeTask i t
  | .thread i => .thread i
  | .call i => .call i
  | .wake_by_ref i k => .wake_by_ref i k
  | .waker c => .waker c
  | .ret => .ret

/-- The fused base after the step `a`. -/
def streamAfter (s : State I E' T W A) : Act I E E' T W → IntoFuseStream
  | .base _ r => (s.stream.poll_next r).1
  | _ => s.stream

end State

/-- One step. -/
def step (s : State I E' T W A) (a : Act I E E' T W) : Option (State I E' T W A) :=
  (FlattenUnordered.step PropagateBaseStreamError.next_step s.inner (s.label into a)).map fun inner =>
    { inner := inner, stream := s.streamAfter a }

/-! ## Its labels -/

/-- What becomes of an item of the base in the end: a stream is taken, an error is
converted and returned. -/
def propagate : Except E I → Option (FlowStep I (Except E' T))
  | .ok stream => some (.Continue stream)
  | .error e => some (.Return (.error (into e)))

/-- The stream is one that the base gave, not an error. -/
def FromBase (st : BaseStreamItem I E' T) : Prop := ∃ stream, st = .Left stream

variable {s s' : State I E' T W A} {a : Act I E E' T W}

/-- Without unwinding, the wrappers do not unwind. -/
theorem label_unwinds (ha : a.unwinds (propagate (T := T) into) = false) :
    (s.label into a).unwinds PropagateBaseStreamError.next_step = false := by
  cases a with
  | base i r =>
      unfold State.label
      dsimp only
      cases hstream : s.stream.is_terminated with
      | true =>
          rw [NestedTryStreamIntoEither.poll_next_of_terminated into hstream]
          rfl
      | false =>
          rw [NestedTryStreamIntoEither.poll_next_of_running into hstream]
          rcases r with _ | (_ | (e | stream)) | _
          · rfl
          · rfl
          · rfl
          · rfl
          · cases ha
  | inner r =>
      unfold State.label
      dsimp only
      split
      · rename_i st hst
        cases st with
        | Left stream =>
            cases r with
            | unwind => cases ha
            | _ => rfl
        | Right err => rcases err with ⟨_ | x⟩ <;> rfl
      · rfl
  | _ => rfl

/-- A stream that is polled is one of the base. -/
theorem fromBase_of_polling {st : BaseStreamItem I E' T}
    (hstreams : ∀ t fut, (s.inner.inner_streams.tasks t).future = some fut →
      ∃ st, fut.stream = some st ∧ FromBase st)
    (hst : s.polling = some st) : FromBase st := by
  unfold State.polling at hst
  split at hst
  · obtain ⟨fut, hf, hstream⟩ := Option.bind_eq_some_iff.mp hst
    obtain ⟨st', hst', hfrom⟩ := hstreams _ fut hf
    rw [hst'] at hstream
    cases hstream
    exact hfrom
  · cases hst

/-- When no stream is polled, nobody is asked. -/
theorem asked_of_not_polling (h : s.polling = none) : s.inner.asked = [] := by
  unfold State.polling at h
  unfold FlattenUnordered.State.asked
  split at h
  · rename_i lv t ho
    rw [ho]
    dsimp only
    cases hf : (s.inner.inner_streams.tasks t).future with
    | none => rfl
    | some fut =>
        rw [hf] at h
        change fut.stream = none at h
        rcases fut with ⟨stream, source⟩
        cases h
        rfl
  · rename_i hno
    split
    · rename_i lv t ho
      exact absurd ho (hno lv t)
    · rfl

/-- Only streams of the base are taken. -/
theorem label_brings
    (hstreams : ∀ t fut, (s.inner.inner_streams.tasks t).future = some fut →
      ∃ st, fut.stream = some st ∧ FromBase st) :
    (s.label into a).Brings PropagateBaseStreamError.next_step FromBase := by
  cases a with
  | base i r =>
      unfold State.label FlattenUnordered.Act.Brings
      dsimp only
      split
      · rename_i item heq
        intro st hst
        rcases item with stream | err
        · cases hst
          exact ⟨stream, rfl⟩
        · obtain ⟨x, -, hx⟩ := Option.map_eq_some_iff.mp hst
          cases hx
      all_goals trivial
  | inner r =>
      unfold State.label
      dsimp only
      split
      · rename_i st hst
        obtain ⟨stream, rfl⟩ := fromBase_of_polling hstreams hst
        cases r with
        | pending st => exact ⟨st, rfl⟩
        | item x st => exact ⟨st, rfl⟩
        | _ => trivial
      · trivial
  | _ => trivial

/-- The errors of the base are returned, converted. -/
theorem label_returns (hrunning : ∀ i r, a = .base i r → s.stream.is_terminated = false) :
    (s.label into a).returns PropagateBaseStreamError.next_step =
      a.returns (propagate (T := T) into) := by
  cases a with
  | base i r =>
      unfold State.label
      dsimp only
      rw [NestedTryStreamIntoEither.poll_next_of_running into (hrunning i r rfl)]
      rcases r with _ | (_ | (e | stream)) | _ <;> rfl
  | _ => rfl

/-! ## Every item, exactly once -/

/-- The base is asked while neither wrapper has seen its end. -/
theorem running_of_fused (h : s.stream.is_terminated = true → s.inner.is_stream_done = true)
    {s' : FlattenUnordered.State _ _ W A}
    (hm : FlattenUnordered.Move PropagateBaseStreamError.next_step s.inner (s.label into a) s') :
    ∀ i r, a = .base i r → s.stream.is_terminated = false := by
  rintro i r rfl
  by_contra hterminated
  rw [Bool.not_eq_false] at hterminated
  obtain ⟨l, hb⟩ := asks_base hm
  have hdone := h hterminated
  rw [hb.running] at hdone
  cases hdone

/-- When the fused base has ended, the combinator knows. -/
theorem fused_step (h : s.stream.is_terminated = true → s.inner.is_stream_done = true)
    (hs : step into s a = some s') :
    s'.stream.is_terminated = true → s'.inner.is_stream_done = true := by
  obtain ⟨inner, hinner, rfl⟩ := Option.map_eq_some_iff.mp hs
  have hm := FlattenUnordered.move_of_step hinner
  have hrunning := running_of_fused into h hm
  intro hterminated
  cases a with
  | base i r =>
      rcases IntoFuseStream.end_of_terminated hterminated with hbefore | rfl
      · rw [hrunning i r rfl] at hbefore
        cases hbefore
      · have hend : FlattenUnordered.Move PropagateBaseStreamError.next_step s.inner
            (.base i (.ready none)) inner := by
          unfold State.label at hm
          dsimp only at hm
          rw [NestedTryStreamIntoEither.poll_next_of_running into (hrunning i _ rfl)] at hm
          exact hm
        cases hend with
        | baseEnds hb hpush => rfl
        | baseUnwinds hb hr => rcases hr with hr | ⟨item, hr, -⟩ <;> cases hr
  | _ => exact done_move (h hterminated) hm

/-- The books of the adaptor. -/
structure State.Books (s : State I E' T W A) : Prop where
  inner : s.inner.Books FromBase
  fused : s.stream.is_terminated = true → s.inner.is_stream_done = true

/-- The streams in the bucket are those of the base. -/
theorem State.Books.fromBase (h : s.Books) (t : ℕ)
    (fut : PollStreamFut (BaseStreamItem I E' T))
    (hf : (s.inner.inner_streams.tasks t).future = some fut) :
    ∃ st, fut.stream = some st ∧ FromBase st :=
  (h.inner.streams.tasks t fut hf).stream

theorem books_new (limit : Option ℕ) : (State.new I E' T W A limit).Books :=
  ⟨FlattenUnordered.books_new FromBase limit, nofun⟩

/-- **A step keeps the books**, and returns the converted error that it brings. -/
theorem books_step (h : s.Books) (ha : a.unwinds (propagate (T := T) into) = false)
    (hs : step into s a = some s') :
    s'.Books ∧ Origin.base.gave s'.inner.hist.events =
      Origin.base.gave s.inner.hist.events ++ a.returns (propagate into) := by
  obtain ⟨inner, hinner, rfl⟩ := Option.map_eq_some_iff.mp hs
  have hm := FlattenUnordered.move_of_step hinner
  have hrunning := running_of_fused into h.fused hm
  refine ⟨⟨FlattenUnordered.books_move h.inner (label_unwinds into ha)
    (label_brings into h.fromBase) hm, fused_step into h.fused hs⟩, ?_⟩
  rw [gave_base_move hm, label_returns into hrunning]

/-- The wrappers say what the base and the streams in them say. -/
theorem says_label (hrunning : ∀ i r, a = .base i r → s.stream.is_terminated = false)
    (hstreams : ∀ t fut, (s.inner.inner_streams.tasks t).future = some fut →
      ∃ st, fut.stream = some st ∧ FromBase st) :
    s.inner.says PropagateBaseStreamError.next_step (s.label into a) =
      s.inner.says (propagate (T := T) into) a := by
  cases a with
  | base i r =>
      unfold State.label
      dsimp only
      rw [NestedTryStreamIntoEither.poll_next_of_running into (hrunning i r rfl)]
      rcases r with _ | (_ | (e | stream)) | _ <;> rfl
  | inner r =>
      unfold State.label
      dsimp only
      cases hpolling : s.polling with
      | none =>
          -- nobody is asked, so nobody answers
          have hnone : s.inner.asked = [] := asked_of_not_polling hpolling
          unfold FlattenUnordered.State.says
          rw [hnone]
          cases r <;> rfl
      | some st =>
          obtain ⟨stream, rfl⟩ := fromBase_of_polling hstreams hpolling
          cases r <;> rfl
  | _ => rfl

/-- **A step writes down what the environment says in it.** -/
theorem answers_step (hfused : s.stream.is_terminated = true → s.inner.is_stream_done = true)
    (hstreams : ∀ t fut, (s.inner.inner_streams.tasks t).future = some fut →
      ∃ st, fut.stream = some st ∧ FromBase st)
    (hs : step into s a = some s') :
    answers s'.inner.hist.events =
      answers s.inner.hist.events ++ s.inner.says (propagate into) a := by
  obtain ⟨inner, hinner, rfl⟩ := Option.map_eq_some_iff.mp hs
  have hm := FlattenUnordered.move_of_step hinner
  rw [answers_move hm, says_label into (running_of_fused into hfused hm) hstreams]

/-! ## Runs in which polls unwind -/

/-- What the adaptor knows of its wrappers, whoever unwinds. -/
structure State.Wrapped (s : State I E' T W A) : Prop where
  taken : s.inner.Taken FromBase fun _ => True
  fused : s.stream.is_terminated = true → s.inner.is_stream_done = true

theorem wrapped_new (limit : Option ℕ) : (State.new I E' T W A limit).Wrapped :=
  ⟨Taken.new _ _, by rintro ⟨⟩⟩

theorem State.Wrapped.stream (h : s.Wrapped) (t : ℕ)
    (fut : PollStreamFut (BaseStreamItem I E' T))
    (hf : (s.inner.inner_streams.tasks t).future = some fut) :
    ∃ st, fut.stream = some st ∧ FromBase st :=
  (h.taken.tasks t fut hf).stream

theorem wrapped_step (hinv : s.inner.Inv) (h : s.Wrapped) (hs : step into s a = some s') :
    s'.Wrapped := by
  refine ⟨?_, fused_step into h.fused hs⟩
  obtain ⟨inner, hinner, rfl⟩ := Option.map_eq_some_iff.mp hs
  exact taken_move hinv h.taken (fun _ _ => trivial) (label_brings into h.stream)
    (FlattenUnordered.move_of_step hinner)

end TryFlattenUnordered

open TryFlattenUnordered (propagate)

variable {B I E E' T W : Type} {A : AtomicWaker WrappedWaker}

/-- **Every item comes out exactly once, and the end is the end.** In every run in
which no poll unwinds, of `FlattenUnordered` with any flow controller and of
`TryFlattenUnordered`, with any limit: after every call, the items yielded from the
base are those the flow controller returned for it, and the items yielded from an
inner stream are those it has given, in its order; the base of `TryFlattenUnordered`
returns its errors, converted. What a stream has given, and whether it has ended, is
what it has answered, step by step: the answers in the history are those that the
labels bring. A stream that was taken stays until it answers `Ready(None)`.
`Ready(None)` comes after the end of the base and of every stream taken, and only
`Ready(None)` comes after it. -/
theorem every_item_exactly_once (next_step : B → Option (FlowStep I T)) (into : E → E')
    (limit : Option ℕ) :
    (∀ (ls : List (Act B I T W)) (s : FlattenUnordered.State I T W A),
      (∀ a ∈ ls, a.unwinds next_step = false) →
      Transition.run (FlattenUnordered.step next_step) (.new I T W A limit) ls = some s →
      s.Delivers ∧
        Origin.base.gave s.hist.events = ls.flatMap (Act.returns next_step) ∧
        ∀ a s', FlattenUnordered.step next_step s a = some s' →
          answers s'.hist.events = answers s.hist.events ++ s.says next_step a) ∧
    (∀ (ls : List (TryFlattenUnordered.Act I E E' T W)) (s : TryFlattenUnordered.State I E' T W A),
      (∀ a ∈ ls, a.unwinds (propagate into) = false) →
      Transition.run (TryFlattenUnordered.step into) (.new I E' T W A limit) ls = some s →
      s.inner.Delivers ∧
        Origin.base.gave s.inner.hist.events = ls.flatMap (Act.returns (propagate into)) ∧
        ∀ a s', TryFlattenUnordered.step into s a = some s' →
          answers s'.inner.hist.events =
            answers s.inner.hist.events ++ s.inner.says (propagate into) a) := by
  refine ⟨fun ls s hls hrun => ?_, fun ls s hls hrun => ?_⟩
  · obtain ⟨hbooks, hgave⟩ := Transition.run_append_of_labels
      (I := FlattenUnordered.State.Books fun _ => True)
      (fun s a s' ha h hs =>
        have hm := FlattenUnordered.move_of_step hs
        ⟨books_move h ha (a.brings_any next_step) hm, gave_base_move hm⟩)
      ls _ s hls (books_new _ limit) hrun
    exact ⟨hbooks.delivers, hgave, fun a s' hs => answers_move (FlattenUnordered.move_of_step hs)⟩
  · obtain ⟨hbooks, hgave⟩ := Transition.run_append_of_labels
      (fun s a s' ha h hs => TryFlattenUnordered.books_step into h ha hs)
      ls _ s hls (TryFlattenUnordered.books_new limit) hrun
    exact ⟨hbooks.inner.delivers, hgave, fun a s' hs =>
      TryFlattenUnordered.answers_step into hbooks.fused hbooks.fromBase hs⟩

/-- An error of the base, an error and an item of the one inner stream, its end and
that of the base, with a bucket of one. -/
def errorsThenItem : List (TryFlattenUnordered.Act Unit ℕ (ℕ × Bool) ℕ Unit) :=
  let call := [.poll_next ()] ++ List.replicate 4 (.own 0)
  let polled (r : StreamPolled Unit (Except (ℕ × Bool) ℕ)) :=
    [.own 0] ++ List.replicate 12 .owner ++ [.inner r, .owner, .owner, .own 0]
  let pushed := List.replicate 4 (.thread 0)
  List.flatten
    [call, [.base 0 (.ready (some (.error 3))), .own 0, .own 0, .ret],
      call, [.base 0 (.ready (some (.ok ())))], pushed, [.own 0],
      polled (.item (.error (9, false)) ()), pushed, [.own 0, .ret],
      call, [.own 0], polled (.item (.ok 8) ()), pushed, [.own 0, .ret],
      call, [.own 0], polled .ended, [.own 0, .own 0, .ret],
      call, [.base 0 (.ready none), .own 0, .own 0, .owner, .owner, .owner, .own 0, .own 0, .ret]]

/-- An item that the flow controller returns. -/
def oneReturn : List (Act ℕ Unit ℕ Unit) :=
  [.poll_next ()] ++ List.replicate 4 (.own 0) ++ [.base 0 (.ready (some 5)), .own 0, .own 0, .ret]

theorem every_item_exactly_once_errors_then_item :
    (∃ s : FlattenUnordered.State Unit ℕ Unit (AtomicWaker.cell WrappedWaker),
      Transition.run (FlattenUnordered.step fun n => some (.Return n)) (.new _ _ _ _ (some 1))
        oneReturn = some s ∧ s.Delivers ∧ Origin.base.gave s.hist.events = [5]) ∧
    ∃ s : TryFlattenUnordered.State Unit (ℕ × Bool) ℕ Unit (AtomicWaker.cell WrappedWaker),
      Transition.run (TryFlattenUnordered.step fun e => (e, true)) (.new _ _ _ _ _ (some 1))
        errorsThenItem = some s ∧ s.inner.Delivers ∧
        Origin.base.gave s.inner.hist.events = [.error (3, true)] ∧
        yielded s.inner.hist.events =
          [⟨.error (3, true), .base⟩, ⟨.error (9, false), .inner 0⟩, ⟨.ok 8, .inner 0⟩] := by
  have hevery := every_item_exactly_once (A := AtomicWaker.cell WrappedWaker) (W := Unit)
    (fun n => some (.Return n) : ℕ → Option (FlowStep Unit ℕ)) (fun e : ℕ => (e, true)) (some 1)
  refine ⟨?_, ?_⟩
  · have hrun : (Transition.run (FlattenUnordered.step fun n => some (.Return n))
        (.new Unit ℕ Unit (AtomicWaker.cell WrappedWaker) (some 1)) oneReturn).isSome = true := by
      decide +kernel
    obtain ⟨s, hs⟩ := Option.isSome_iff_exists.mp hrun
    obtain ⟨hdelivers, hgave, -⟩ := hevery.1 oneReturn s (by decide) hs
    exact ⟨s, hs, hdelivers, hgave⟩
  · have hrun : (Transition.run (TryFlattenUnordered.step fun e => (e, true))
        (.new Unit (ℕ × Bool) ℕ Unit (AtomicWaker.cell WrappedWaker) (some 1)) errorsThenItem).map
        (fun s => yielded s.inner.hist.events) =
        some [⟨.error (3, true), .base⟩, ⟨.error (9, false), .inner 0⟩, ⟨.ok 8, .inner 0⟩] := by
      decide +kernel
    obtain ⟨s, hs, hyielded⟩ := Option.map_eq_some_iff.mp hrun
    obtain ⟨hdelivers, hgave, -⟩ := hevery.2 errorsThenItem s (by decide) hs
    exact ⟨s, hs, hdelivers, hgave, hyielded⟩

end TokioStreamUtil
