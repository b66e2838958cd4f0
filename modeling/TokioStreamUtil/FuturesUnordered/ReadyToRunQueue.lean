/-
`futures_unordered::ready_to_run_queue`, one atomic operation at a time.

The queue is the intrusive MPSC queue of the source: nodes carry their own
`next_ready_to_run` pointer, producers append at `head`, the one consumer
removes at `tail`, and a stub node keeps the chain from ever being empty.
`enqueue` and `dequeue` below are the bodies of the two source functions cut at
every load, store and swap of a shared cell; `Sys` puts any number of producers
and the consumer side by side, and `step` lets any of them move next.

`Sys` also keeps the history the properties speak about: the nodes swapped into
`head` so far, the nodes returned so far, and the stretch of the former that
`tail` has not left yet (`chain`). No transition reads it.
-/
import TokioStreamUtil.Lib.BrokenChain
import TokioStreamUtil.Lib.Transition
import Mathlib.Data.List.Basic

set_option autoImplicit false

namespace TokioStreamUtil.ReadyToRunQueue

/-! ## Nodes, pointers and program counters -/

/-- A node of the queue: the stub of the queue, or a task. Tasks are numbered. -/
inductive Node where
  | stub
  | task (t : ℕ)
  deriving DecidableEq, Repr

/-- The shared cells: `head`, `tail`, and `next_ready_to_run` of every node. -/
structure Queue where
  head : Node
  tail : Node
  next_ready_to_run : Node → Option Node

/-- What `dequeue` returns. -/
inductive Dequeue where
  | Data (n : Node)
  | Empty
  | Inconsistent
  deriving DecidableEq, Repr

/-- Where a call of `enqueue(n)` stands: which atomic operation it does next. -/
inductive EnqueuePc where
  | idle
  | clear (n : Node)
  | swap (n : Node)
  | store (prev n : Node)
  deriving DecidableEq, Repr

/-- The node an `enqueue` call in progress is about. -/
def EnqueuePc.node : EnqueuePc → Option Node
  | .idle => none
  | .clear n => some n
  | .swap n => some n
  | .store _ n => some n

/-- Where a call of `dequeue` stands. `stub e` is its own `enqueue(self.stub())`. -/
inductive DequeuePc where
  | idle
  | start
  | skip
  | loadHead
  | stub (e : EnqueuePc)
  | reload
  | done (d : Dequeue)
  deriving DecidableEq, Repr

/-! ## The two operations, one atomic step each -/

/-- `ReadyToRunQueue::enqueue`: clear the node's own pointer, swap it into
`head`, make the node that was there point to it. -/
def enqueue (q : Queue) : EnqueuePc → Queue × EnqueuePc
  | .idle => (q, .idle)
  | .clear n =>
      ({ q with next_ready_to_run := Function.update q.next_ready_to_run n none }, .swap n)
  | .swap n => ({ q with head := n }, .store q.head n)
  | .store prev n =>
      ({ q with next_ready_to_run := Function.update q.next_ready_to_run prev (some n) }, .idle)

/-- The test `!next.is_null()` with the move of `tail` and the `Data` it guards. -/
def advance (q : Queue) (otherwise : DequeuePc) : Queue × DequeuePc :=
  match q.next_ready_to_run q.tail with
  | some n => ({ q with tail := n }, .done (.Data q.tail))
  | none => (q, otherwise)

/-- `ReadyToRunQueue::dequeue`. The local `tail` of the source always equals the
cell `tail`, which only the consumer touches, so it is read from there. -/
def dequeue (q : Queue) : DequeuePc → Queue × DequeuePc
  | .idle => (q, .idle)
  | .start =>
      if q.tail = .stub then
        match q.next_ready_to_run q.tail with
        | none => (q, .done .Empty)
        | some n => ({ q with tail := n }, .skip)
      else advance q .loadHead
  | .skip => advance q .loadHead
  | .loadHead =>
      if q.head = q.tail then (q, .stub (.clear .stub)) else (q, .done .Inconsistent)
  | .stub e =>
      ((enqueue q e).1, if (enqueue q e).2 = .idle then .reload else .stub (enqueue q e).2)
  | .reload => advance q (.done .Inconsistent)
  | .done d => (q, .done d)

/-! ## The system of producers and consumer -/

/-- The queue, its producers and its consumer. `chain`, `swapped`, `returned`
and `enqueued` are history: the nodes from `tail` to `head`, every node ever
swapped into `head`, every node ever returned, and whether a task has been
handed to `enqueue` and not been returned since. -/
structure Sys (ι : Type) where
  queue : Queue
  producers : ι → EnqueuePc
  consumer : DequeuePc
  chain : List Node
  swapped : List Node
  returned : List Node
  enqueued : ℕ → Bool

variable {ι : Type} [DecidableEq ι]

namespace Sys

/-- `FuturesUnordered::new`: the stub alone. -/
def new : Sys ι where
  queue := { head := .stub, tail := .stub, next_ready_to_run := fun _ => none }
  producers := fun _ => .idle
  consumer := .idle
  chain := [.stub]
  swapped := [.stub]
  returned := []
  enqueued := fun _ => false

/-- The node the next step of an `enqueue` call swaps into `head`, if any. -/
def swaps : EnqueuePc → List Node
  | .swap n => [n]
  | _ => []

/-- The stub `enqueue` running inside a `dequeue` call. -/
def stubPc : DequeuePc → EnqueuePc
  | .stub e => e
  | _ => .idle

/-- Producer `i` calls `enqueue` on the task `t`. -/
def beginEnqueue (s : Sys ι) (i : ι) (t : ℕ) : Sys ι :=
  { s with
    producers := Function.update s.producers i (.clear (.task t))
    enqueued := Function.update s.enqueued t true }

/-- The next atomic step of producer `i`. -/
def produce (s : Sys ι) (i : ι) : Sys ι :=
  { s with
    queue := (enqueue s.queue (s.producers i)).1
    producers := Function.update s.producers i (enqueue s.queue (s.producers i)).2
    chain := s.chain ++ swaps (s.producers i)
    swapped := s.swapped ++ swaps (s.producers i) }

/-- The consumer calls `dequeue`. -/
def beginDequeue (s : Sys ι) : Sys ι := { s with consumer := .start }

/-- The node a step that ends a `dequeue` call with `pc` returns. -/
def delivers : DequeuePc → List Node
  | .done (.Data n) => [n]
  | _ => []

/-- Clears the flag of the tasks among `ns`. -/
def release (enqueued : ℕ → Bool) (ns : List Node) : ℕ → Bool :=
  fun t => enqueued t && !(ns.contains (.task t))

/-- The next atomic step of the consumer. -/
def consume (s : Sys ι) : Sys ι :=
  { s with
    queue := (dequeue s.queue s.consumer).1
    consumer := (dequeue s.queue s.consumer).2
    chain := (if (dequeue s.queue s.consumer).1.tail = s.queue.tail then s.chain
      else s.chain.tail) ++ swaps (stubPc s.consumer)
    swapped := s.swapped ++ swaps (stubPc s.consumer)
    returned := s.returned ++ delivers (dequeue s.queue s.consumer).2
    enqueued := release s.enqueued (delivers (dequeue s.queue s.consumer).2) }

/-- The caller takes the result of a finished `dequeue` call. -/
def endDequeue (s : Sys ι) : Sys ι := { s with consumer := .idle }

end Sys

/-- A `dequeue` call is in progress and not finished. -/
def DequeuePc.running : DequeuePc → Bool
  | .idle => false
  | .done _ => false
  | _ => true

/-- The labels: who moves. -/
inductive Act (ι : Type) where
  | enqueue (i : ι) (t : ℕ)
  | produce (i : ι)
  | dequeue
  | consume
  | ret

/-- Any producer and the consumer may move at any time. A task is enqueued again
only after `dequeue` has returned it: that is the contract of the queue, which
`FuturesUnordered` meets through the `queued` flag. -/
def step (s : Sys ι) : Act ι → Option (Sys ι)
  | .enqueue i t =>
      if s.producers i = .idle ∧ s.enqueued t = false then some (s.beginEnqueue i t) else none
  | .produce i => if s.producers i = .idle then none else some (s.produce i)
  | .dequeue => if s.consumer = .idle then some s.beginDequeue else none
  | .consume => if s.consumer.running then some s.consume else none
  | .ret =>
      match s.consumer with
      | .done _ => some s.endDequeue
      | _ => none

end TokioStreamUtil.ReadyToRunQueue
