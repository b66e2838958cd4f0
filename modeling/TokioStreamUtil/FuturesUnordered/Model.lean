/-
`FuturesUnordered`, one atomic operation at a time.

The state holds the tasks, the list of all tasks, the ready to run queue with
its pointers, the parent waker, and where every call in progress stands: the
exclusive calls (`poll_next`, the drop of the set, the drop of the queue) in
`owner`, the shared ones (`push` and `Task::wake_by_ref`, any number of them on
any threads) in `threads`. A label of `Act` says who moves next, and, for the
steps the crate does not control, what happens: which future is pushed, which
waker is called, and what a polled future answers.

What is atomic: every access to a cell that another thread may touch at the same
time is a step of its own. The list of all tasks is touched by `link` only while
shared, and `link` is one step here; `poll_next` and the drop own it.
-/
import TokioStreamUtil.FuturesUnordered.ReadyToRunQueue
import TokioStreamUtil.FuturesUnordered.AllList
import Mathlib.Data.Finset.Basic

set_option autoImplicit false

namespace TokioStreamUtil

open ReadyToRunQueue (Node)

/-! ## The parent waker

`futures_util::task::AtomicWaker` is not part of this crate. It is a parameter:
a state, and what `register` and `wake` do to it. -/

/-- The interface of `AtomicWaker`: `wake` returns the wakers it calls. -/
structure AtomicWaker (W : Type) where
  State : Type
  new : State
  register : State → W → State
  wake : State → State × List W

/-- What the documentation of `AtomicWaker` promises: the first `wake` after
`register(w)`, or racing with it, wakes `w`. -/
def AtomicWaker.Contract {W : Type} (A : AtomicWaker W) : Prop :=
  ∀ s w, w ∈ (A.wake (A.register s w)).2

/-- One cell, as `AtomicWaker` behaves when nothing runs at the same time:
`register` fills it, `wake` empties it and wakes what was there. -/
def AtomicWaker.cell (W : Type) : AtomicWaker W where
  State := Option W
  new := none
  register := fun _ w => some w
  wake := fun s => (none, s.toList)

theorem AtomicWaker.cell_contract (W : Type) : (AtomicWaker.cell W).Contract := by
  intro s w
  simp [AtomicWaker.cell]

namespace FuturesUnordered

/-! ## Tasks, results and program counters -/

/-- The cells of a `Task` outside the two lists. -/
structure Task (F : Type) where
  future : Option F
  queued : Bool
  woken : Bool

/-- What `Future::poll` does: pending with a new state, ready, or it unwinds. -/
inductive Polled (F O : Type) where
  | pending (fut : F)
  | ready (o : O)
  | unwind

/-- What `poll_next` does: `Poll::Pending`, `Poll::Ready(o)`, or it unwinds. -/
inductive PollNext (O : Type) where
  | pending
  | ready (o : Option O)
  | unwound
  deriving DecidableEq

/-- The local variables of `poll_next`. -/
structure Locals (W : Type) where
  waker : W
  len : ℕ
  polled : ℕ
  yielded : ℕ

/-- Where `poll_next` stands. -/
inductive PollPc (O : Type) where
  | register
  | dequeue
  | unlink (t : ℕ)
  | reset (t : ℕ)
  | clearWoken (t : ℕ)
  | poll (t : ℕ)
  | loadWoken (t : ℕ)
  | relink (t : ℕ)
  | release (t : ℕ) (r : PollNext O)
  | dropFuture (t : ℕ) (prev : Bool) (r : PollNext O)
  | wake
  | done (r : PollNext O)
  | assertFailed

/-- Where the drop of the set stands. -/
inductive DropPc where
  | loop
  | release (t : ℕ)
  | dropFuture (t : ℕ) (prev : Bool)

/-- The exclusive call in progress. After the drop of the set the queue lives
until the last `upgrade`d reference is gone (`dropped`), then its own destructor
runs (`dropQueue`) and ends (`gone`), or aborts. -/
inductive Owner (O W : Type) where
  | idle
  | poll (l : Locals W) (pc : PollPc O)
  | drop (pc : DropPc)
  | dropped
  | dropQueue
  | gone
  | aborted

/-- Where a `Task::wake_by_ref` call stands, after `upgrade` has succeeded. -/
inductive WakePc where
  | storeWoken
  | swapQueued
  | enqueue
  | wake
  | dropInner
  deriving DecidableEq

/-- A shared call in progress: a `push` inside its `enqueue`, or a `wake_by_ref`. -/
inductive Thread where
  | idle
  | push (t : ℕ)
  | wake (t : ℕ) (pc : WakePc)
  deriving DecidableEq

/-- What has happened so far. No transition reads it. -/
structure History (O W : Type) where
  /-- The futures whose poll returned `Ready`, with their outputs, in order. -/
  completed : List (ℕ × O)
  /-- The futures whose poll unwound. -/
  discarded : List ℕ
  /-- The outputs returned by `poll_next`, in order. -/
  outputs : List O
  /-- `release_task` has set the flag of the task for good. -/
  retired : ℕ → Bool
  /-- How often the owning reference of the task has been given back. -/
  freed : ℕ → ℕ
  /-- A `wake_by_ref` has swapped the flag since `poll_next` last reset it. -/
  notified : ℕ → Bool
  /-- The last `enqueue` of the task was made by a `wake_by_ref`. -/
  byWake : ℕ → Bool
  /-- The parent wakers woken so far, in order. -/
  log : List W
  /-- The length of `log` when a parent waker was last registered. -/
  registeredAt : ℕ
  /-- The waker and the result of the last `poll_next` call that returned. -/
  last : Option (W × PollNext O)

/-- The state of the set, of its queue, and of all calls in progress. -/
structure State (F O W : Type) (A : AtomicWaker W) where
  tasks : ℕ → Task F
  all : AllList
  ready : ReadyToRunQueue.Sys ℕ
  waker : A.State
  is_terminated : Bool
  /-- The number of tasks allocated so far. -/
  fresh : ℕ
  owner : Owner O W
  threads : ℕ → Thread
  /-- The threads inside `push`. -/
  pushing : Finset ℕ
  /-- The threads that hold a strong reference to the queue. -/
  holders : Finset ℕ
  hist : History O W

variable {F O W : Type} {A : AtomicWaker W}

namespace State

/-- `FuturesUnordered::new`. -/
def new : State F O W A where
  tasks := fun _ => { future := none, queued := true, woken := false }
  all := AllList.new
  ready := ReadyToRunQueue.Sys.new
  waker := A.new
  is_terminated := false
  fresh := 0
  owner := .idle
  threads := fun _ => .idle
  pushing := ∅
  holders := ∅
  hist :=
    { completed := []
      discarded := []
      outputs := []
      retired := fun _ => false
      freed := fun _ => 0
      notified := fun _ => false
      byWake := fun _ => false
      log := []
      registeredAt := 0
      last := none }

/-- `FuturesUnordered::len`. -/
def len (s : State F O W A) : ℕ := s.all.len

/-- `FuturesUnordered::is_empty`. -/
def is_empty (s : State F O W A) : Bool := s.all.is_empty

/-- Replaces the cells of task `t`. -/
def setTask (s : State F O W A) (t : ℕ) (x : Task F) : State F O W A :=
  { s with tasks := Function.update s.tasks t x }

/-- Moves thread `i`. -/
def setThread (s : State F O W A) (i : ℕ) (th : Thread) : State F O W A :=
  { s with threads := Function.update s.threads i th }

/-- Moves the exclusive call. -/
def setOwner (s : State F O W A) (o : Owner O W) : State F O W A := { s with owner := o }

/-! ## `push` and `Task::wake_by_ref` -/

/-- `push`: allocate the task, clear `is_terminated`, link it, begin the enqueue. -/
def push (s : State F O W A) (i : ℕ) (fut : F) : State F O W A :=
  { s with
    tasks := Function.update s.tasks s.fresh { future := some fut, queued := true, woken := false }
    all := s.all.link s.fresh
    ready := s.ready.beginEnqueue i s.fresh
    is_terminated := false
    fresh := s.fresh + 1
    threads := Function.update s.threads i (.push s.fresh)
    pushing := insert i s.pushing
    hist := { s.hist with byWake := Function.update s.hist.byWake s.fresh false } }

/-- The next step of the `enqueue` that thread `i` is inside. -/
def produce (s : State F O W A) (i : ℕ) : State F O W A := { s with ready := s.ready.produce i }

/-- The `push` of thread `i` returns. -/
def endPush (s : State F O W A) (i : ℕ) : State F O W A :=
  { s with threads := Function.update s.threads i .idle, pushing := s.pushing.erase i }

/-- `wake_by_ref` on task `t`: `upgrade` succeeds. -/
def upgrade (s : State F O W A) (i t : ℕ) : State F O W A :=
  { s with
    threads := Function.update s.threads i (.wake t .storeWoken)
    holders := insert i s.holders }

/-- `arc_self.woken.store(true)`. -/
def storeWoken (s : State F O W A) (i t : ℕ) : State F O W A :=
  (s.setTask t { s.tasks t with woken := true }).setThread i (.wake t .swapQueued)

/-- `arc_self.queued.swap(true)` with the branch on the previous value: enqueue
the task if the flag was down, otherwise only drop the upgraded reference. -/
def swapQueued (s : State F O W A) (i t : ℕ) : State F O W A :=
  if (s.tasks t).queued then
    -- somebody else has enqueued it, or `release_task` has retired it
    { s with
      threads := Function.update s.threads i (.wake t .dropInner)
      hist := { s.hist with notified := Function.update s.hist.notified t true } }
  else
    { s with
      tasks := Function.update s.tasks t { s.tasks t with queued := true }
      ready := s.ready.beginEnqueue i t
      threads := Function.update s.threads i (.wake t .enqueue)
      hist :=
        { s.hist with
          notified := Function.update s.hist.notified t true
          byWake := Function.update s.hist.byWake t true } }

/-- `enqueue` returned; `inner.waker.wake()` is next. -/
def endEnqueue (s : State F O W A) (i t : ℕ) : State F O W A := s.setThread i (.wake t .wake)

/-- `inner.waker.wake()`. -/
def wakeWaker (s : State F O W A) (i t : ℕ) : State F O W A :=
  { s with
    waker := (A.wake s.waker).1
    threads := Function.update s.threads i (.wake t .dropInner)
    hist := { s.hist with log := s.hist.log ++ (A.wake s.waker).2 } }

/-- `inner` is dropped at the end of `wake_by_ref`. The last reference to the
queue of a set that is gone runs the destructor of the queue. -/
def dropInner (s : State F O W A) (i : ℕ) : State F O W A :=
  let s' := { s with threads := Function.update s.threads i .idle, holders := s.holders.erase i }
  match s.owner with
  | .dropped =>
      -- the set has let go of the queue before, so this may be the last reference
      if s.holders.erase i = ∅ then { s' with owner := .dropQueue, ready := s.ready.beginDequeue }
      else s'
  | _ => s'

/-! ## `poll_next` -/

/-- The call: `len` is read, the counters start at zero. -/
def poll_next (s : State F O W A) (w : W) : State F O W A :=
  s.setOwner (.poll { waker := w, len := s.len, polled := 0, yielded := 0 } .register)

/-- `self.ready_to_run_queue.waker.register(cx.waker())`, then the first `dequeue`. -/
def register (s : State F O W A) (l : Locals W) : State F O W A :=
  { s with
    waker := A.register s.waker l.waker
    ready := s.ready.beginDequeue
    owner := .poll l .dequeue
    hist := { s.hist with registeredAt := s.hist.log.length } }

/-- The next step of `dequeue`. -/
def consume (s : State F O W A) : State F O W A := { s with ready := s.ready.consume }

/-- `Dequeue::Empty`: the end of the stream if there is no task, else pending. -/
def dequeueEmpty (s : State F O W A) (l : Locals W) : State F O W A :=
  if s.is_empty then
    -- the flag goes up only where `None` is yielded
    { s with
      ready := s.ready.endDequeue
      is_terminated := true
      owner := .poll l (.done (.ready none)) }
  else { s with ready := s.ready.endDequeue, owner := .poll l (.done .pending) }

/-- `Dequeue::Inconsistent`: wake the parent and return pending. -/
def dequeueInconsistent (s : State F O W A) (l : Locals W) : State F O W A :=
  { s with ready := s.ready.endDequeue, owner := .poll l .wake }

/-- The task has no future any more: take over its reference, drop it, go on. -/
def dequeueReleased (s : State F O W A) (n : Node) : State F O W A :=
  { s with
    ready := s.ready.endDequeue.beginDequeue
    hist :=
      { s.hist with
        freed := match n with
          | .stub => s.hist.freed
          | .task t => Function.update s.hist.freed t (s.hist.freed t + 1) } }

/-- The task has a future: it is about to be unlinked and polled. -/
def dequeueData (s : State F O W A) (l : Locals W) (t : ℕ) : State F O W A :=
  { s with ready := s.ready.endDequeue, owner := .poll l (.unlink t) }

/-- The match on the result of `dequeue`, and on the future of the task. -/
def dequeued (s : State F O W A) (l : Locals W) : ReadyToRunQueue.Dequeue → State F O W A
  | .Empty => s.dequeueEmpty l
  | .Inconsistent => s.dequeueInconsistent l
  | .Data .stub => s.dequeueReleased .stub
  | .Data (.task t) =>
      match (s.tasks t).future with
      -- `continue`: the future has gone away while the task was in the queue
      | none => s.dequeueReleased (.task t)
      | some _ => s.dequeueData l t

/-- `self.unlink(task)`. -/
def unlink (s : State F O W A) (l : Locals W) (t : ℕ) : State F O W A :=
  { s with all := s.all.unlink t, owner := .poll l (.reset t) }

/-- `let prev = task.queued.swap(false); assert!(prev)`. -/
def resetQueued (s : State F O W A) (l : Locals W) (t : ℕ) : State F O W A :=
  { s with
    tasks := Function.update s.tasks t { s.tasks t with queued := false }
    owner := .poll l (if (s.tasks t).queued then .clearWoken t else .assertFailed)
    hist := { s.hist with notified := Function.update s.hist.notified t false } }

/-- `task.woken.store(false)`; the future is polled next. -/
def clearWoken (s : State F O W A) (l : Locals W) (t : ℕ) : State F O W A :=
  (s.setTask t { s.tasks t with woken := false }).setOwner (.poll l (.poll t))

/-- `future.poll(&mut cx)` returns, or unwinds. A finished or unwound future is
released by the bomb on the way out. -/
def polled (s : State F O W A) (l : Locals W) (t : ℕ) : Polled F O → State F O W A
  | .pending fut =>
      (s.setTask t { s.tasks t with future := some fut }).setOwner
        (.poll { l with polled := l.polled + 1 } (.loadWoken t))
  | .ready o =>
      -- the bomb still has the task when `poll_next` returns
      { s with
        owner := .poll { l with polled := l.polled + 1 } (.release t (.ready (some o)))
        hist := { s.hist with completed := s.hist.completed ++ [(t, o)] } }
  | .unwind =>
      -- `polled += 1` is behind the call that unwinds
      { s with
        owner := .poll l (.release t .unwound)
        hist := { s.hist with discarded := s.hist.discarded ++ [t] } }

/-- `yielded += task.woken.load() as usize`. -/
def loadWoken (s : State F O W A) (l : Locals W) (t : ℕ) : State F O W A :=
  s.setOwner
    (.poll { l with yielded := l.yielded + (if (s.tasks t).woken then 1 else 0) } (.relink t))

/-- `bomb.queue.link(task)`, then yield after two yields or a full round. -/
def relink (s : State F O W A) (l : Locals W) (t : ℕ) : State F O W A :=
  if l.yielded ≥ 2 ∨ l.polled = l.len then
    -- `len` is the length at the call, when this task was still linked
    { s with all := s.all.link t, owner := .poll l .wake }
  else
    { s with
      all := s.all.link t
      ready := s.ready.beginDequeue
      owner := .poll l .dequeue }

/-- `release_task`: the flag is set for good. -/
def retire (s : State F O W A) (t : ℕ) (o : Owner O W) : State F O W A :=
  { s with
    tasks := Function.update s.tasks t { s.tasks t with queued := true }
    owner := o
    hist := { s.hist with retired := Function.update s.hist.retired t true } }

/-- `release_task`: the future is dropped, and the reference too unless the task
is still in the ready to run queue (`prev`). -/
def dropFuture (s : State F O W A) (t : ℕ) (prev : Bool) (o : Owner O W) : State F O W A :=
  { s with
    tasks := Function.update s.tasks t { s.tasks t with future := none }
    owner := o
    hist :=
      { s.hist with
        -- with `prev` the reference goes over to the queue
        freed := if prev then s.hist.freed
          else Function.update s.hist.freed t (s.hist.freed t + 1) } }

/-- `cx.waker().wake_by_ref()` before `Poll::Pending`. -/
def wakeParent (s : State F O W A) (l : Locals W) : State F O W A :=
  { s with
    owner := .poll l (.done .pending)
    hist := { s.hist with log := s.hist.log ++ [l.waker] } }

/-- The outputs a result hands out. -/
def outputOf : PollNext O → List O
  | .ready (some o) => [o]
  | _ => []

/-- `poll_next` returns `r` to its caller. -/
def ret (s : State F O W A) (l : Locals W) (r : PollNext O) : State F O W A :=
  { s with
    owner := .idle
    hist :=
      { s.hist with
        last := some (l.waker, r)
        outputs := s.hist.outputs ++ outputOf r } }

/-! ## The drop of the set and of the queue -/

/-- One test of `while !head_all.is_null()`: unlink the head, or let go of the
queue, whose destructor runs at once if nobody else holds it. -/
def dropLoop (s : State F O W A) : State F O W A :=
  match s.all.head_all with
  | some t => { s with all := s.all.unlink t, owner := .drop (.release t) }
  | none =>
      -- the reference of the set is dropped; a wake in progress may hold another
      if s.holders = ∅ then { s with owner := .dropQueue, ready := s.ready.beginDequeue }
      else { s with owner := .dropped }

/-- `ReadyToRunQueue::drop`: one round of its loop. -/
def dropDequeued (s : State F O W A) : ReadyToRunQueue.Dequeue → State F O W A
  | .Empty => { s with ready := s.ready.endDequeue, owner := .gone }
  | .Inconsistent => { s with ready := s.ready.endDequeue, owner := .aborted }
  | .Data n => s.dequeueReleased n

end State

/-! ## The step function -/

/-- Who moves, and what the environment decides. -/
inductive Act (F O W : Type) where
  | push (i : ℕ) (fut : F)
  | wake (i t : ℕ)
  | thread (i : ℕ)
  | poll_next (w : W)
  | owner
  | polled (r : Polled F O)
  | ret
  | drop

/-- The next step of the shared call on thread `i`. -/
def threadStep (s : State F O W A) (i : ℕ) : Option (State F O W A) :=
  match s.threads i with
  | .idle => none
  | .push _ => if s.ready.producers i = .idle then some (s.endPush i) else some (s.produce i)
  | .wake t .storeWoken => some (s.storeWoken i t)
  | .wake t .swapQueued => some (s.swapQueued i t)
  | .wake t .enqueue =>
      if s.ready.producers i = .idle then some (s.endEnqueue i t) else some (s.produce i)
  | .wake t .wake => some (s.wakeWaker i t)
  | .wake _ .dropInner => some (s.dropInner i)

/-- The next step of `poll_next`, where it does not wait for a future or its caller. -/
def pollStep (s : State F O W A) (l : Locals W) : PollPc O → Option (State F O W A)
  | .register => some (s.register l)
  | .dequeue =>
      match s.ready.consumer with
      | .idle => none
      | .done d => some (s.dequeued l d)
      | _ => some s.consume
  | .unlink t => some (s.unlink l t)
  | .reset t => some (s.resetQueued l t)
  | .clearWoken t => some (s.clearWoken l t)
  | .poll _ => none
  | .loadWoken t => some (s.loadWoken l t)
  | .relink t => some (s.relink l t)
  | .release t r => some (s.retire t (.poll l (.dropFuture t (s.tasks t).queued r)))
  | .dropFuture t prev r => some (s.dropFuture t prev (.poll l (.done r)))
  | .wake => some (s.wakeParent l)
  | .done _ => none
  | .assertFailed => none

/-- The next step of the exclusive call. -/
def ownerStep (s : State F O W A) : Option (State F O W A) :=
  match s.owner with
  | .poll l pc => pollStep s l pc
  | .drop .loop => some s.dropLoop
  | .drop (.release t) => some (s.retire t (.drop (.dropFuture t (s.tasks t).queued)))
  | .drop (.dropFuture t prev) => some (s.dropFuture t prev (.drop .loop))
  | .dropQueue =>
      match s.ready.consumer with
      | .idle => none
      | .done d => some (s.dropDequeued d)
      | _ => some s.consume
  | _ => none

/-- The set is there and no exclusive call is in progress. -/
def Owner.isIdle : Owner O W → Bool
  | .idle => true
  | _ => false

/-- The queue is still there, so that `upgrade` succeeds: the set holds it, or
another thread does. -/
def queueAlive (s : State F O W A) : Bool :=
  match s.owner with
  | .dropped => decide (s.holders ≠ ∅)
  | .dropQueue => false
  | .gone => false
  | .aborted => false
  | _ => true

/-- One step. Shared calls start on idle threads; `push` needs a set that nobody
borrows exclusively, `poll_next` and the drop need one that nobody borrows. -/
def step (s : State F O W A) : Act F O W → Option (State F O W A)
  | .push i fut =>
      if s.threads i = .idle ∧ s.owner.isIdle then some (s.push i fut) else none
  | .wake i t =>
      if s.threads i = .idle ∧ t < s.fresh then
        -- `upgrade` fails once the queue is gone, and `wake_by_ref` returns
        if queueAlive s then some (s.upgrade i t) else some s
      else none
  | .thread i => threadStep s i
  | .poll_next w =>
      if s.owner.isIdle ∧ s.pushing = ∅ then some (s.poll_next w) else none
  | .owner => ownerStep s
  | .polled r =>
      match s.owner with
      | .poll l (.poll t) => some (s.polled l t r)
      | _ => none
  | .ret =>
      match s.owner with
      | .poll l (.done r) => some (s.ret l r)
      | _ => none
  | .drop => if s.owner.isIdle ∧ s.pushing = ∅ then some (s.setOwner (.drop .loop)) else none

/-- The wakers that the step `a` calls: those of `inner.waker.wake()`, or the one
`poll_next` was called with. -/
def State.wakes (s : State F O W A) : Act F O W → List W
  | .thread i =>
      match s.threads i with
      | .wake _ .wake => (A.wake s.waker).2
      | _ => []
  | .owner =>
      match s.owner with
      | .poll l .wake => [l.waker]
      | _ => []
  | _ => []

/-- `extend`: one `push` after the other. The calls share no atomic step, so a
run of `extend` is a run of its pushes. -/
def extendActs (i : ℕ) (futs : List F) : List (Act F O W) :=
  futs.flatMap fun fut => [.push i fut, .thread i, .thread i, .thread i, .thread i]

end FuturesUnordered

end TokioStreamUtil
