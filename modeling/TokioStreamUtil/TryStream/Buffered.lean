/-
`TryBuffered` and `TryBufferUnordered`.

The two `poll_next` functions are the same text over two queues, `FuturesOrdered`
and `FuturesUnordered`. The machine below is that text, with what it uses of the
queue as a parameter.
-/
import TokioStreamUtil.FuturesOrdered.Model
import TokioStreamUtil.TryStream.IntoFuseStream

set_option autoImplicit false

namespace TokioStreamUtil

open FuturesUnordered (Polled PollNext)

/-! ## The queues -/

/-- A queue of futures as an adaptor uses it. `push`, `poll_next` and `ret` label
the calls and the return of `poll_next`; a label in `runs` is a step of a call in
progress, of a waker or of a future. -/
structure InProgressQueue (F O W : Type) where
  State : Type
  Act : Type
  step : State → Act → Option State
  new : State
  len : State → ℕ
  /-- No push is in progress. -/
  quiet : State → Bool
  /-- What `poll_next` is about to return. -/
  result : State → Option (PollNext O)
  push : ℕ → F → Act
  poll_next : W → Act
  ret : Act
  runs : Act → Bool

namespace InProgressQueue

variable (F O W : Type) (A : AtomicWaker W)

/-- `FuturesUnordered`, filled by `push`. -/
def unordered : InProgressQueue F O W where
  State := FuturesUnordered.State F O W A
  Act := FuturesUnordered.Act F O W
  step := FuturesUnordered.step
  new := FuturesUnordered.State.new
  len := FuturesUnordered.State.len
  quiet := fun q => decide (q.pushing = ∅)
  result := fun q =>
    match q.owner with
    | .poll _ (.done r) => some r
    | _ => none
  push := .push
  poll_next := .poll_next
  ret := .ret
  runs := fun
    | .wake _ _ => true
    | .thread _ => true
    | .owner => true
    | .polled _ => true
    | _ => false

/-- `FuturesOrdered`, filled by `push_back`. -/
def ordered : InProgressQueue F O W where
  State := FuturesOrdered.State F O W A
  Act := FuturesOrdered.Act F O W
  step := FuturesOrdered.step
  new := FuturesOrdered.State.new
  len := FuturesOrdered.State.len
  quiet := fun q => decide (q.in_progress_queue.pushing = ∅)
  result := fun q =>
    match q.pc with
    | .done r => some r
    | _ => none
  push := .push_back
  poll_next := .poll_next
  ret := .ret
  runs := fun
    | .own => true
    | .wake _ _ => true
    | .thread _ => true
    | .owner => true
    | .polled _ => true
    | _ => false

end InProgressQueue

namespace Buffered

/-! ## The state -/

/-- Where `poll_next` stands: not called, at the head of the loop that fills the
queue, inside the queue's `poll_next`, or about to return `r`. -/
inductive Pc (O W : Type) where
  | idle
  | fill (w : W) (in_progress_queue_len : ℕ)
  | queue (w : W)
  | done (r : PollNext O)

variable {E T F W : Type}

/-- The adaptor over a base of `Result<F, E>` items, where the futures have
outputs `Result<T, E>`. `taken` is history: how many futures the base has given
since `poll_next` was last called. -/
structure State (Q : InProgressQueue F (Except E T) W) where
  stream : IntoFuseStream
  in_progress_queue : Q.State
  max : Option NonZeroUsize
  pc : Pc (Except E T) W
  taken : ℕ

variable {Q : InProgressQueue F (Except E T) W}

namespace State

/-- `new(stream, n)`. -/
def new (Q : InProgressQueue F (Except E T) W) (n : Option ℕ) : State Q where
  stream := IntoFuseStream.new
  in_progress_queue := Q.new
  max := n.bind NonZeroUsize.new
  pc := .idle
  taken := 0

/-- The futures the adaptor manages. -/
def len (s : State Q) : ℕ := Q.len s.in_progress_queue

/-- The call: the length of the queue is read once. -/
def poll_next (s : State Q) (w : W) : State Q :=
  { s with pc := .fill w (Q.len s.in_progress_queue), taken := 0 }

/-- The condition of the loop. -/
def belowMax (s : State Q) (in_progress_queue_len : ℕ) : Bool :=
  match s.max with
  | some max => decide (in_progress_queue_len < max)
  | none => true

/-- The adaptor has come to its result. -/
def settle (s : State Q) (r : PollNext (Except E T)) : State Q := { s with pc := .done r }

/-- `in_progress_queue.poll_next(cx)` is called. -/
def pollQueue (s : State Q) (w : W) : Option (State Q) :=
  (Q.step s.in_progress_queue (Q.poll_next w)).map fun q =>
    { s with in_progress_queue := q, pc := .queue w }

/-- `in_progress_queue.push(fut.into_future())`, on thread `i`. -/
def push (s : State Q) (i : ℕ) (fut : F) : Option (State Q) :=
  (Q.step s.in_progress_queue (Q.push i fut)).map fun q =>
    { s with in_progress_queue := q, taken := s.taken + 1 }

/-- The body of the loop, on what the fused base answers. -/
def fillBody (s : State Q) (w : W) (i : ℕ) : PollNext (Except E F) → Option (State Q)
  | .ready (some (.ok fut)) => s.push i fut
  | .ready (some (.error e)) => some (s.settle (.ready (some (.error e))))
  | .ready none => s.pollQueue w
  | .pending => s.pollQueue w
  | .unwound => some (s.settle .unwound)

/-- One round of the loop: the fused base is polled, its stream would answer `r`. -/
def fillRound (s : State Q) (w : W) (i : ℕ) (r : PollNext (Except E F)) : Option (State Q) :=
  { s with stream := (s.stream.poll_next r).1 }.fillBody w i (s.stream.poll_next r).2

/-- What becomes of the result of the queue. -/
def conclude (s : State Q) : PollNext (Except E T) → PollNext (Except E T)
  | .ready none => if s.stream.is_terminated then .ready none else .pending
  | r => r

end State

/-! ## The step function -/

/-- Who moves. `base i r` is the answer of the base to a poll, taken over on
thread `i`; `own` is a step of `poll_next` that asks nobody. -/
inductive Act (Q : InProgressQueue F (Except E T) W) where
  | poll_next (w : W)
  | own
  | base (i : ℕ) (r : PollNext (Except E F))
  | queue (a : Q.Act)
  | ret

/-- The next step of `poll_next`, where it does not wait for the base. -/
def stepOwn (s : State Q) : Option (State Q) :=
  match s.pc with
  | .fill w in_progress_queue_len =>
      if Q.quiet s.in_progress_queue then
        if s.belowMax in_progress_queue_len then
          if s.stream.is_terminated then s.fillRound w 0 (.ready none) else none
        else s.pollQueue w
      else none
  | .queue _ =>
      match Q.result s.in_progress_queue with
      | some r =>
          (Q.step s.in_progress_queue Q.ret).map fun q =>
            { s with in_progress_queue := q }.settle (s.conclude r)
      | none => none
  | _ => none

/-- The base answers. -/
def stepBase (s : State Q) (i : ℕ) (r : PollNext (Except E F)) : Option (State Q) :=
  match s.pc with
  | .fill w in_progress_queue_len =>
      if Q.quiet s.in_progress_queue ∧ s.belowMax in_progress_queue_len ∧
          s.stream.is_terminated = false then
        s.fillRound w i r
      else none
  | _ => none

/-- One step. -/
def step (s : State Q) : Act Q → Option (State Q)
  | .poll_next w =>
      match s.pc with
      | .idle => some (s.poll_next w)
      | _ => none
  | .own => stepOwn s
  | .base i r => stepBase s i r
  | .queue a =>
      if Q.runs a then
        (Q.step s.in_progress_queue a).map fun q => { s with in_progress_queue := q }
      else none
  | .ret =>
      match s.pc with
      | .done _ => some { s with pc := .idle }
      | _ => none

end Buffered

/-! ## The two adaptors -/

section

variable (E T F W : Type) (A : AtomicWaker W)

/-- `TryBuffered`. -/
abbrev TryBuffered := Buffered.State (InProgressQueue.ordered F (Except E T) W A)

/-- `TryBufferUnordered`. -/
abbrev TryBufferUnordered := Buffered.State (InProgressQueue.unordered F (Except E T) W A)

/-- `TryBuffered::new`. -/
def TryBuffered.new (n : Option ℕ) : TryBuffered E T F W A := Buffered.State.new _ n

/-- `TryBufferUnordered::new`. -/
def TryBufferUnordered.new (n : Option ℕ) : TryBufferUnordered E T F W A := Buffered.State.new _ n

end

end TokioStreamUtil
