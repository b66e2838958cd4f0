/-
`FuturesOrdered`: `FuturesUnordered` with a number on every future.

The set runs the machine of `FuturesUnordered` on futures wrapped in `Ordered`,
whose outputs carry the number of the future. `push_back`, `push_front` and
`poll_next` are exclusive; the wakers of the tasks run at any time. Numbers are
`i64` and wrap.
-/
import TokioStreamUtil.FuturesUnordered.Model
import TokioStreamUtil.Lib.MaxHeap

set_option autoImplicit false

namespace TokioStreamUtil

open FuturesUnordered (Polled PollNext Thread)

/-! ## Numbers and wrapped futures -/

/-- The value an `i64` computation that gives `x` leaves. -/
def i64 (x : ℤ) : ℤ := x.bmod Int64.size

/-- `Ordered<T>`: a future or a future's output, with its number. -/
structure Ordered (T : Type) where
  data : T
  index : ℤ
  deriving DecidableEq

namespace Ordered

variable {T : Type}

/-- `Ord for Ordered<T>`: the heap is a max heap, so compare backwards. -/
def cmp (self other : Ordered T) : Ordering := compare other.index self.index

/-- `self` is at least as great as `other`. -/
def Ge (self other : Ordered T) : Prop := self.cmp other ≠ .lt

instance : DecidableRel (Ge (T := T)) := fun a b => inferInstanceAs (Decidable (a.cmp b ≠ .lt))

theorem ge_iff {a b : Ordered T} : a.Ge b ↔ a.index ≤ b.index := by
  unfold Ge cmp
  rw [ne_eq, compare_lt_iff_lt, not_lt]

instance : Std.Total (Ge (T := T)) where
  total a b := by
    rw [ge_iff, ge_iff]
    exact le_total a.index b.index

instance : IsTrans (Ordered T) Ge where
  trans a b c := by
    rw [ge_iff, ge_iff, ge_iff]
    exact le_trans

end Ordered

/-- `Future for Ordered<T>`: the answer of the future, with the number. -/
def Ordered.poll {F O : Type} (index : ℤ) : Polled F O → Polled (Ordered F) (Ordered O)
  | .pending fut => .pending ⟨fut, index⟩
  | .ready o => .ready ⟨o, index⟩
  | .unwind => .unwind

namespace FuturesOrdered

/-! ## The state -/

/-- Where `poll_next` stands: not called, before the look at `queued_outputs`,
inside the loop over the set, or about to return `r`. -/
inductive Pc (O W : Type) where
  | idle
  | peek (w : W)
  | loop (w : W)
  | done (r : PollNext O)

def Pc.isIdle {O W : Type} : Pc O W → Bool
  | .idle => true
  | _ => false

theorem Pc.eq_idle {O W : Type} {pc : Pc O W} (h : pc.isIdle = true) : pc = .idle := by
  cases pc with
  | idle => rfl
  | _ => cases h

/-- What a caller sees. A future is named by its task; `result r` is the result
of a `poll_next` call. -/
inductive Event (O : Type) where
  | push_back (t : ℕ)
  | push_front (t : ℕ)
  | completed (t : ℕ) (o : O)
  | result (r : PollNext O)
  deriving DecidableEq

/-- The state of the queue and of the call in progress. `events` and `index` are
history: what has happened, and the number each future was pushed with. -/
structure State (F O W : Type) (A : AtomicWaker W) where
  in_progress_queue : FuturesUnordered.State (Ordered F) (Ordered O) W A
  queued_outputs : MaxHeap (Ordered O) Ordered.Ge
  next_incoming_index : ℤ
  next_outgoing_index : ℤ
  pc : Pc O W
  events : List (Event O)
  index : ℕ → ℤ

variable {F O W : Type} {A : AtomicWaker W}

namespace State

/-- `FuturesOrdered::new`. -/
def new : State F O W A where
  in_progress_queue := FuturesUnordered.State.new
  queued_outputs := MaxHeap.empty
  next_incoming_index := 0
  next_outgoing_index := 0
  pc := .idle
  events := []
  index := fun _ => 0

/-- `FuturesOrdered::len`. -/
def len (s : State F O W A) : ℕ := s.in_progress_queue.len + s.queued_outputs.len

/-- `self.in_progress_queue.push(wrapped)`, on thread `i`. -/
def push (s : State F O W A) (i : ℕ) (wrapped : Ordered F) : State F O W A :=
  { s with
    in_progress_queue := s.in_progress_queue.push i wrapped
    index := Function.update s.index s.in_progress_queue.fresh wrapped.index }

/-- `FuturesOrdered::push_back`. -/
def push_back (s : State F O W A) (i : ℕ) (future : F) : State F O W A :=
  { s.push i { data := future, index := s.next_incoming_index } with
    next_incoming_index := i64 (s.next_incoming_index + 1)
    events := s.events ++ [.push_back s.in_progress_queue.fresh] }

/-- `FuturesOrdered::push_front`. -/
def push_front (s : State F O W A) (i : ℕ) (future : F) : State F O W A :=
  { s.push i { data := future, index := i64 (s.next_outgoing_index - 1) } with
    next_outgoing_index := i64 (s.next_outgoing_index - 1)
    events := s.events ++ [.push_front s.in_progress_queue.fresh] }

/-- `poll_next` has come to its result. -/
def settle (s : State F O W A) (r : PollNext O) : State F O W A :=
  { s with pc := .done r, events := s.events ++ [.result r] }

/-- `poll_next` returns. -/
def ret (s : State F O W A) : State F O W A := { s with pc := .idle }

/-- `in_progress_queue.poll_next(cx)` is called. -/
def pollSet (s : State F O W A) (w : W) : State F O W A :=
  { s with in_progress_queue := s.in_progress_queue.poll_next w, pc := .loop w }

/-- The look at `queued_outputs` before the loop. -/
def peekQueued (s : State F O W A) (w : W) : State F O W A :=
  match s.queued_outputs.peek with
  | some next_output =>
      if next_output.index = s.next_outgoing_index then
        { s with
          next_outgoing_index := i64 (s.next_outgoing_index + 1)
          queued_outputs := s.queued_outputs.pop }.settle (.ready (some next_output.data))
      else s.pollSet w
  | none => s.pollSet w

/-- The body of the loop, on the answer `r` of the set. -/
def loopBody (s : State F O W A) (w : W) : PollNext (Ordered O) → State F O W A
  | .ready (some output) =>
      if output.index = s.next_outgoing_index then
        { s with next_outgoing_index := i64 (s.next_outgoing_index + 1) }.settle
          (.ready (some output.data))
      else { s with queued_outputs := s.queued_outputs.push output }.pollSet w
  | .pending => s.settle .pending
  | .ready none => s.settle (.ready none)
  | .unwound => s.settle .unwound

end State

/-! ## The step function -/

/-- Who moves. `wake`, `thread` and `owner` are steps of the set: a waker is
called, a shared call moves, the call of its `poll_next` moves. `own` is a step
of `FuturesOrdered::poll_next` itself. -/
inductive Act (F O W : Type) where
  | push_back (i : ℕ) (future : F)
  | push_front (i : ℕ) (future : F)
  | poll_next (w : W)
  | own
  | wake (i t : ℕ)
  | thread (i : ℕ)
  | owner
  | polled (r : Polled F O)
  | ret

/-- A step of the set. -/
def stepSet (s : State F O W A) (a : FuturesUnordered.Act (Ordered F) (Ordered O) W) :
    Option (State F O W A) :=
  (FuturesUnordered.step s.in_progress_queue a).map fun q => { s with in_progress_queue := q }

/-- The future that the set polls answers `r`. -/
def stepPolled (s : State F O W A) (r : Polled F O) : Option (State F O W A) :=
  match s.in_progress_queue.owner with
  | .poll lv (.poll t) =>
      match (s.in_progress_queue.tasks t).future with
      | some fut =>
          some { s with
            in_progress_queue := s.in_progress_queue.polled lv t (Ordered.poll fut.index r)
            events :=
              match r with
              | .ready o => s.events ++ [.completed t o]
              | _ => s.events }
      | none => none
  | _ => none

/-- The next step of `FuturesOrdered::poll_next`, when it does not wait for the set. -/
def stepOwn (s : State F O W A) : Option (State F O W A) :=
  match s.pc with
  | .idle => none
  | .peek w => some (s.peekQueued w)
  | .loop w =>
      match s.in_progress_queue.owner with
      | .poll lv (.done r) =>
          some ({ s with in_progress_queue := s.in_progress_queue.ret lv r }.loopBody w r)
      | _ => none
  | .done _ => none

/-- One step. The exclusive calls wait for each other. -/
def step (s : State F O W A) : Act F O W → Option (State F O W A)
  | .push_back i future =>
      if s.pc.isIdle ∧ s.in_progress_queue.pushing = ∅ ∧ s.in_progress_queue.threads i = .idle then
        some (s.push_back i future)
      else none
  | .push_front i future =>
      if s.pc.isIdle ∧ s.in_progress_queue.pushing = ∅ ∧ s.in_progress_queue.threads i = .idle then
        some (s.push_front i future)
      else none
  | .poll_next w =>
      if s.pc.isIdle ∧ s.in_progress_queue.pushing = ∅ then some { s with pc := .peek w } else none
  | .own => stepOwn s
  | .wake i t => stepSet s (.wake i t)
  | .thread i => stepSet s (.thread i)
  | .owner => stepSet s .owner
  | .polled r => stepPolled s r
  | .ret =>
      match s.pc with
      | .done _ => some s.ret
      | _ => none

/-- `extend`: one `push_back` after the other. -/
def extendActs (i : ℕ) (futures : List F) : List (Act F O W) :=
  futures.flatMap fun future =>
    [.push_back i future, .thread i, .thread i, .thread i, .thread i]

end FuturesOrdered

end TokioStreamUtil
