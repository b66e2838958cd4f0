/-
`FlattenUnordered`, one atomic operation at a time.

`poll_next` is followed through the shared word, the base stream, the bucket of
inner streams and the return. The bucket is a `FuturesUnordered` whose parent
waker is one of the two wrapped wakers, so a wake that reaches the bucket goes on
as a `wake_by_ref` call on the shared word. The base stream, the inner streams,
the flow controller and everybody who holds a waker are the environment.
-/
import TokioStreamUtil.FlattenUnordered.SharedPollState
import TokioStreamUtil.FuturesUnordered.Model
import TokioStreamUtil.TryStream.IntoFuseStream

set_option autoImplicit false

namespace TokioStreamUtil

open FuturesUnordered (Polled PollNext)

namespace FlattenUnordered

/-! ## Inner streams and the flow controller -/

/-- What `poll_next` of an inner stream does: pending, an item, both with the
stream that is left, the end, or it unwinds. -/
inductive StreamPolled (I T : Type) where
  | pending (st : I)
  | item (x : T) (st : I)
  | ended
  | unwind

/-- `PollStreamFut`. `source` is history: which stream of the base this is. -/
structure PollStreamFut (I : Type) where
  stream : Option I
  source : ℕ

/-- `PollStreamFut::poll`, when its stream answers `r`. -/
def PollStreamFut.poll {I T : Type} (self : PollStreamFut I) (r : StreamPolled I T) :
    Polled (PollStreamFut I) (Option (T × PollStreamFut I)) :=
  match self.stream with
  | none => .ready none
  | some _ =>
      match r with
      | .pending st => .pending { self with stream := some st }
      | .item x st => .ready (some (x, { self with stream := some st }))
      | .ended => .ready none
      | .unwind => .unwind

/-- `FlowStep`. -/
inductive FlowStep (C R : Type) where
  | Continue (c : C)
  | Return (r : R)

/-- Where an item comes from: the base, or one of the streams it gave. -/
inductive Origin where
  | base
  | inner (source : ℕ)
  deriving DecidableEq

/-- An item. `origin` is history. -/
structure Item (T : Type) where
  value : T
  origin : Origin
  deriving DecidableEq

/-- What has happened: the base was polled (`pending`, `returned`, `taken`,
`base_done`), an inner stream answered (`produced`, `ended`), or `poll_next` came
to a result. -/
inductive Event (T : Type) where
  | pending
  | returned (x : T)
  | taken (source : ℕ)
  | base_done
  | produced (source : ℕ) (x : T)
  | ended (source : ℕ)
  | result (r : PollNext (Item T))
  deriving DecidableEq

/-! ## The state -/

/-- Who calls a wrapped waker: `poll_next` itself, or another thread. -/
inductive Caller where
  | poll
  | thread (i : ℕ)
  deriving DecidableEq

/-- The local variables of `poll_next`. -/
structure Locals (T W : Type) where
  waker : W
  poll_state_value : Word
  need_to_poll_next : Word
  next_item : Option (Item T)

/-- Where `poll_next` stands: not called, in the loop around `start_polling`,
replacing the wakers, in the loop over the base, before the bucket is polled,
inside its `poll_next`, before `stop_polling`, before the outer waker is called,
or about to return `r`. -/
inductive Pc (T W : Type) where
  | idle
  | start (w : W)
  | replace (l : Locals T W)
  | base (l : Locals T W)
  | inner (l : Locals T W)
  | innerPoll (l : Locals T W)
  | finish (l : Locals T W)
  | wake (w : W)
  | done (w : W) (r : PollNext T)

/-- What has happened so far. No transition reads it. -/
structure History (T W : Type) where
  events : List (Event T)
  /-- The waker and the result of the last `poll_next` call that returned. -/
  last : Option (W × PollNext T)
  /-- The number of outer wakers called when `poll_next` was last called. -/
  calledAt : ℕ
  /-- The same, at its last `stop_polling`. -/
  stoppedAt : ℕ
  /-- What the last `start_polling` that succeeded returned. -/
  claimed : Word
  /-- `poll_next` has polled the base, and the bucket, since then. -/
  basePolled : Bool
  innerPolled : Bool
  /-- The number of streams the base has given. -/
  sources : ℕ
  /-- The stream in the task answered `Pending` when it was last polled. -/
  pended : ℕ → Bool
  /-- The base answered pending when it was last polled, and its waker has been
  called since. -/
  basePended : Bool
  baseWoken : Bool

/-- The state. `calls i` are the wrapped wakers that thread `i` still has to call
in the wake it is inside. -/
structure State (I T W : Type) (A : AtomicWaker WrappedWaker) where
  inner_streams :
    FuturesUnordered.State (PollStreamFut I) (Option (T × PollStreamFut I)) WrappedWaker A
  poll_state : Sys Caller W
  limit : Option NonZeroUsize
  is_stream_done : Bool
  pc : Pc T W
  calls : ℕ → List WrappedWaker
  hist : History T W

variable {B I T W : Type} {A : AtomicWaker WrappedWaker}

/-- A step of the bucket. -/
abbrev InnerAct (I T : Type) :=
  FuturesUnordered.Act (PollStreamFut I) (Option (T × PollStreamFut I)) WrappedWaker

namespace State

/-- `FlattenUnordered::new`. -/
def new (I T W : Type) (A : AtomicWaker WrappedWaker) (limit : Option ℕ) : State I T W A where
  inner_streams := FuturesUnordered.State.new
  poll_state := Sys.new
  limit := limit.bind NonZeroUsize.new
  is_stream_done := false
  pc := .idle
  calls := fun _ => []
  hist :=
    { events := []
      last := none
      calledAt := 0
      stoppedAt := 0
      claimed := NONE
      basePolled := false
      innerPolled := false
      sources := 0
      pended := fun _ => false
      basePended := false
      baseWoken := false }

/-- `is_exceeded_limit`. -/
def is_exceeded_limit (s : State I T W A) : Bool :=
  match s.limit with
  | some limit => decide (limit.1 ≤ s.inner_streams.len)
  | none => false

/-- Moves `poll_next`. -/
def setPc (s : State I T W A) (pc : Pc T W) : State I T W A := { s with pc := pc }

/-- Adds to the history. -/
def record (s : State I T W A) (e : Event T) : State I T W A :=
  { s with hist := { s.hist with events := s.hist.events ++ [e] } }

/-- The bucket takes the step `a`. -/
def stepInner (s : State I T W A) (a : InnerAct I T) : Option (State I T W A) :=
  (FuturesUnordered.step s.inner_streams a).map fun q => { s with inner_streams := q }

/-- `wake_by_ref` on the wrapped waker `k` begins. -/
def wake_by_ref (s : State I T W A) (c : Caller) (k : WrappedWaker) : State I T W A :=
  { s with
    poll_state := s.poll_state.wake_by_ref c k
    hist := { s.hist with baseWoken := s.hist.baseWoken || k == .stream } }

/-! ## `poll_next` -/

/-- The call. -/
def poll_next (s : State I T W A) (w : W) : State I T W A :=
  { s with
    pc := .start w
    hist := { s.hist with calledAt := s.poll_state.log.length } }

/-- One round of the loop around `start_polling`. -/
def start_polling (s : State I T W A) (w : W) : State I T W A :=
  match (SharedPollState.start_polling s.poll_state.state).2 with
  | some value =>
      { s with
        poll_state := s.poll_state.start_polling w
        pc := .replace
          { waker := w
            poll_state_value := value
            need_to_poll_next := NONE
            next_item := none }
        hist := { s.hist with claimed := value, basePolled := false, innerPolled := false } }
  -- a wake is in progress: the loop goes round again
  | none => { s with poll_state := s.poll_state.start_polling w }

/-- `replace_waker` on one of the wrapped wakers, or on to the base. -/
def replace_waker (s : State I T W A) (l : Locals T W) : State I T W A :=
  match s.poll_state.poller with
  | .replace k w => { s with poll_state := s.poll_state.replace_waker k w }
  | _ => s.setPc (.base l)

/-- The bomb: `poll_next` unwinds. -/
def unwind (s : State I T W A) (l : Locals T W) : State I T W A :=
  { s with poll_state := s.poll_state.reset, pc := .done l.waker .unwound }.record (.result .unwound)

/-- The head of the loop over the base, when it does not poll the base. -/
def baseHead (s : State I T W A) (l : Locals T W) : Option (State I T W A) :=
  if l.poll_state_value &&& NEED_TO_POLL_STREAM ≠ NONE then
    if s.is_exceeded_limit || s.is_stream_done then
      -- a base that is not done is polled again once there is room
      some (s.setPc (.inner
        (if s.is_stream_done then l
          else { l with need_to_poll_next := l.need_to_poll_next ||| NEED_TO_POLL_STREAM })))
    else none
  else some (s.setPc (.inner l))

/-- `FlowStep::Return(item)`. -/
def baseReturn (s : State I T W A) (l : Locals T W) (x : T) : State I T W A :=
  (s.record (.returned x)).setPc (.inner
    { l with
      -- the bucket is not polled in this call, so what was claimed of it is handed on
      need_to_poll_next := l.need_to_poll_next |||
        (NEED_TO_POLL_STREAM ||| (l.poll_state_value &&& NEED_TO_POLL_INNER_STREAMS))
      poll_state_value := l.poll_state_value &&& ~~~NEED_TO_POLL_INNER_STREAMS
      next_item := some { value := x, origin := .base } })

/-- `FlowStep::Continue(inner_stream)`: a push, on thread `i`. -/
def baseContinue (s : State I T W A) (l : Locals T W) (i : ℕ) (inner_stream : I) :
    Option (State I T W A) :=
  (s.stepInner (.push i { stream := some inner_stream, source := s.hist.sources })).map fun s' =>
    { s' with
      -- the loop goes on, and the new stream is polled in this call
      pc := .base { l with poll_state_value := l.poll_state_value ||| NEED_TO_POLL_INNER_STREAMS }
      hist := { s.hist with
        events := s.hist.events ++ [.taken s.hist.sources]
        sources := s.hist.sources + 1 } }

/-- The body of the loop over the base, on its answer. The flow controller is
`next_step`, where `none` says that it unwinds. -/
def baseBody (next_step : B → Option (FlowStep I T)) (s : State I T W A) (l : Locals T W) (i : ℕ) :
    PollNext B → Option (State I T W A)
  | .ready (some item) =>
      match next_step item with
      | some (.Return x) => some (s.baseReturn l x)
      | some (.Continue inner_stream) => s.baseContinue l i inner_stream
      | none => some (s.unwind l)
  -- the loop goes round once more and finds the base done
  | .ready none => some ({ s with is_stream_done := true }.record .base_done)
  | .pending =>
      some (({ s with hist := { s.hist with basePended := true, baseWoken := false } }.record
        .pending).setPc (.inner l))
  | .unwound => some (s.unwind l)

/-- `inner_streams.poll_next(cx)`, if that is called. -/
def innerHead (s : State I T W A) (l : Locals T W) : Option (State I T W A) :=
  if l.poll_state_value &&& NEED_TO_POLL_INNER_STREAMS ≠ NONE then
    (s.stepInner (.poll_next .inner_streams)).map fun s' =>
      { s' with pc := .innerPoll l, hist := { s.hist with innerPolled := true } }
  else some (s.setPc (.finish l))

/-- The match on the result of the bucket. The rest of a stream that gave an item
is pushed, on thread `i`. -/
def innerBody (s : State I T W A) (l : Locals T W) (i : ℕ) :
    PollNext (Option (T × PollStreamFut I)) → Option (State I T W A)
  | .ready (some (some (x, next_item_fut))) =>
      (s.stepInner (.push i next_item_fut)).map fun s' =>
        s'.setPc (.finish
          { l with
            next_item := some { value := x, origin := .inner next_item_fut.source }
            need_to_poll_next := l.need_to_poll_next ||| NEED_TO_POLL_INNER_STREAMS })
  -- one stream has ended; there may be others
  | .ready (some none) =>
      some (s.setPc (.finish
        { l with need_to_poll_next := l.need_to_poll_next ||| NEED_TO_POLL_INNER_STREAMS }))
  | .ready none => some (s.setPc (.finish l))
  | .pending => some (s.setPc (.finish l))
  | .unwound => some (s.unwind l)

/-- `force_wake`, before `stop_polling`. -/
def force_wake (s : State I T W A) (l : Locals T W) : Bool :=
  (l.need_to_poll_next &&& NEED_TO_POLL_STREAM ≠ NONE && !s.is_exceeded_limit) ||
    l.need_to_poll_next &&& NEED_TO_POLL_INNER_STREAMS ≠ NONE

/-- `stop_polling` and what is left of `poll_next`: it is ready if it has an item or
nothing is left, and else wakes itself if something changed meanwhile. -/
def stop_polling (s : State I T W A) (l : Locals T W) : State I T W A :=
  let force_wake := s.force_wake l || (s.poll_state.state &&& NEED_TO_POLL_ALL ≠ NONE)
  let is_done := s.is_stream_done && s.inner_streams.is_empty
  let s' :=
    { s with
      poll_state := s.poll_state.stop_polling l.need_to_poll_next (s.force_wake l)
      hist := { s.hist with stoppedAt := s.poll_state.log.length } }
  if l.next_item.isSome || is_done then
    (s'.record (.result (.ready l.next_item))).setPc
      (.done l.waker (.ready (l.next_item.map Item.value)))
  else
    (s'.record (.result .pending)).setPc
      (if force_wake then .wake l.waker else .done l.waker .pending)

/-- `cx.waker().wake_by_ref()`. -/
def wake (s : State I T W A) (w : W) : State I T W A :=
  { s with
    poll_state := { s.poll_state with log := s.poll_state.log ++ [w] }
    pc := .done w .pending }

/-- `poll_next` returns `r`. -/
def ret (s : State I T W A) (w : W) (r : PollNext T) : State I T W A :=
  { s with pc := .idle, hist := { s.hist with last := some (w, r) } }

/-- Whether the last answer of the stream in the task `t` is `Pending`. -/
def pends (s : State I T W A) (t : ℕ) (b : Bool) : State I T W A :=
  { s with hist := { s.hist with pended := Function.update s.hist.pended t b } }

/-- The stream of the future in the task `t` has answered `r`. This is written down
from the answer itself, whatever `PollStreamFut::poll` makes of it. -/
def answered (s : State I T W A) (t : ℕ) (fut : PollStreamFut I) (r : StreamPolled I T) :
    State I T W A :=
  match fut.stream, r with
  | some _, .pending _ => s.pends t true
  | some _, .item x _ => (s.pends t false).record (.produced fut.source x)
  | some _, .ended => (s.pends t false).record (.ended fut.source)
  | some _, .unwind => s.pends t false
  -- a future that holds no stream asks nobody
  | none, _ => s

end State

/-! ## The step function -/

/-- Who moves. `own`, `base`, `inner` and `owner` are steps of `poll_next`: its own,
taken over on thread `i` when it pushes, the answers of the base and of the inner
stream it polls, and those inside the bucket. `wakeTask`, `thread`, `call` and
`wake_by_ref` are steps of thread `i`: it wakes the task `t`, moves inside the
bucket, goes on to the next wrapped waker of that wake, or calls a wrapped waker
of its own accord. `waker` is a step of a `wake_by_ref` call. -/
inductive Act (B I T W : Type) where
  | poll_next (w : W)
  | own (i : ℕ)
  | base (i : ℕ) (r : PollNext B)
  | inner (r : StreamPolled I T)
  | owner
  | wakeTask (i t : ℕ)
  | thread (i : ℕ)
  | call (i : ℕ)
  | wake_by_ref (i : ℕ) (k : WrappedWaker)
  | waker (c : Caller)
  | ret

/-- `poll_next` is not inside a call of a wrapped waker, nor of a push. -/
def pollFree (s : State I T W A) : Bool :=
  (s.poll_state.wakers .poll).isIdle && decide (s.inner_streams.pushing = ∅)

/-- Thread `i` is not inside a call of a wrapped waker. -/
def callsDone (s : State I T W A) (i : ℕ) : Bool :=
  (s.calls i).isEmpty && (s.poll_state.wakers (.thread i)).isIdle

/-- The next step of `poll_next` that asks nobody. -/
def stepOwn (s : State I T W A) (i : ℕ) : Option (State I T W A) :=
  match s.pc with
  | .start w => some (s.start_polling w)
  | .replace l => some (s.replace_waker l)
  | .base l => s.baseHead l
  | .inner l => s.innerHead l
  | .innerPoll l =>
      match s.inner_streams.owner with
      | .poll lv (.done r) =>
          { s with inner_streams := s.inner_streams.ret lv r }.innerBody l i r
      | _ => none
  | .finish l => some (s.stop_polling l)
  | .wake w => some (s.wake w)
  | _ => none

/-- The base is polled and answers. -/
def stepBase (next_step : B → Option (FlowStep I T)) (s : State I T W A) (i : ℕ) (r : PollNext B) :
    Option (State I T W A) :=
  match s.pc with
  | .base l =>
      if l.poll_state_value &&& NEED_TO_POLL_STREAM ≠ NONE ∧ s.is_exceeded_limit = false ∧
          s.is_stream_done = false then
        { s with hist := { s.hist with basePolled := true, basePended := false } }.baseBody
          next_step l i r
      else none
  | _ => none

/-- The inner stream that the bucket polls answers. -/
def stepStream (s : State I T W A) (r : StreamPolled I T) : Option (State I T W A) :=
  match s.inner_streams.owner with
  | .poll lv (.poll t) =>
      match (s.inner_streams.tasks t).future with
      | some fut =>
          some ({ s with inner_streams := s.inner_streams.polled lv t (fut.poll r) }.answered t fut r)
      | none => none
  | _ => none

/-- The bucket's `poll_next` moves, and calls the wrapped waker if it yields. -/
def stepOwner (s : State I T W A) : Option (State I T W A) :=
  (s.stepInner .owner).map fun s' =>
    (s.inner_streams.wakes .owner).foldl (fun s' k => s'.wake_by_ref .poll k) s'

/-- Thread `i` moves inside the bucket, and takes up the wrapped wakers it has to call. -/
def stepThread (s : State I T W A) (i : ℕ) : Option (State I T W A) :=
  (s.stepInner (.thread i)).map fun s' =>
    { s' with calls := Function.update s.calls i (s.inner_streams.wakes (.thread i)) }

/-- One step. -/
def step (next_step : B → Option (FlowStep I T)) (s : State I T W A) :
    Act B I T W → Option (State I T W A)
  | .poll_next w =>
      match s.pc with
      | .idle => some (s.poll_next w)
      | _ => none
  | .own i => if pollFree s then stepOwn s i else none
  | .base i r => if pollFree s then stepBase next_step s i r else none
  | .inner r => if pollFree s then stepStream s r else none
  | .owner => if pollFree s then stepOwner s else none
  | .wakeTask i t => if callsDone s i then s.stepInner (.wake i t) else none
  | .thread i => if callsDone s i then stepThread s i else none
  | .call i =>
      match s.calls i with
      | [] => none
      | k :: ks =>
          if (s.poll_state.wakers (.thread i)).isIdle then
            some ({ s with calls := Function.update s.calls i ks }.wake_by_ref (.thread i) k)
          else none
  | .wake_by_ref i k =>
      if callsDone s i ∧ s.inner_streams.threads i = .idle then
        some (s.wake_by_ref (.thread i) k)
      else none
  | .waker c =>
      (SharedPollState.wakerStep s.poll_state c).map fun ps => { s with poll_state := ps }
  | .ret =>
      match s.pc with
      | .done w r => some (s.ret w r)
      | _ => none

end FlattenUnordered

end TokioStreamUtil
