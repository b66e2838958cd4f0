/-
The list of all tasks under shared references.

`push` takes `&self`, and so do `len` and `iter_pin_ref`: any number of threads may be
inside them at once. Here `link`, `atomic_load_head_and_len_all` and
`IterPinRef::next` are followed one access of shared memory at a time, over the
fields of `AllList`. What takes the set exclusively happens only while nobody borrows
it, and in one step, as `AllList` has it.
-/
import TokioStreamUtil.Lib.Transition
import TokioStreamUtil.FuturesUnordered.AllList
import Mathlib.Data.Finset.Basic

set_option autoImplicit false

namespace TokioStreamUtil.FuturesUnordered.Shared

/-! ## The state -/

/-- Who calls `atomic_load_head_and_len_all`. -/
inductive Caller where
  | len
  | iter_pin_ref
  deriving DecidableEq

/-- `IterPinRef`. -/
structure IterPinRef where
  task : Option ℕ
  len : ℕ
  deriving DecidableEq

/-- `IterPinRef::size_hint`. -/
def IterPinRef.size_hint (it : IterPinRef) : ℕ × Option ℕ := (it.len, some it.len)

/-- Where a thread stands. In `link` of `task`: about to swap `head_all`, spinning on the
old head, about to read its length, to write the own one, to store `next_all`, and
to write `prev_all` of the old head. In `atomic_load_head_and_len_all`: about to load
`head_all`, spinning on the head, about to read its length. About to return from `len`,
or in possession of an iterator; `head` and `yielded` are history: the head that was
loaded, and the tasks whose futures `next` has returned. -/
inductive Pc where
  | idle
  | link (task : ℕ)
  | spin (task next : ℕ)
  | readLen (task next : ℕ)
  | writeLen (task : ℕ) (next : Option ℕ) (new_len : ℕ)
  | storeNext (task : ℕ) (next : Option ℕ)
  | writePrev (task next : ℕ)
  | loadHead (c : Caller)
  | spinHead (c : Caller) (head : ℕ)
  | readHeadLen (c : Caller) (head : ℕ)
  | len (head : Option ℕ) (len : ℕ)
  | iter (head : Option ℕ) (it : IterPinRef) (yielded : List ℕ)
  | overflowed
  deriving DecidableEq

/-- What has happened so far. No transition reads it, but to tell the tasks of the set
from the others. -/
structure History where
  /-- The number of swaps of `head_all`. -/
  swaps : ℕ
  /-- When the task was last swapped in, if it is in the set. -/
  swapped : ℕ → Option ℕ

/-- The state of the list and of all calls under shared references. -/
structure State (F : Type) where
  all : AllList
  future : ℕ → Option F
  /-- The number of tasks allocated so far. -/
  fresh : ℕ
  threads : ℕ → Pc
  /-- The threads that borrow the set. -/
  borrows : Finset ℕ
  hist : History

variable {F : Type}

namespace State

/-- `FuturesUnordered::new`. -/
def new : State F where
  all := AllList.new
  future := fun _ => none
  fresh := 0
  threads := fun _ => .idle
  borrows := ∅
  hist := { swaps := 0, swapped := fun _ => none }

/-- Moves thread `i`. -/
def setThread (s : State F) (i : ℕ) (pc : Pc) : State F :=
  { s with threads := Function.update s.threads i pc }

/-- Thread `i` gives its reference back. -/
def release (s : State F) (i : ℕ) : State F :=
  { s with threads := Function.update s.threads i .idle, borrows := s.borrows.erase i }

/-- The history of a swap. -/
def swap (s : State F) (t : ℕ) : History :=
  { swaps := s.hist.swaps + 1, swapped := Function.update s.hist.swapped t (some s.hist.swaps) }

/-! ## `push` -/

/-- `push` allocates the task and calls `link`. -/
def push (s : State F) (i : ℕ) (future : F) : State F :=
  { s with
    future := Function.update s.future s.fresh (some future)
    fresh := s.fresh + 1
    threads := Function.update s.threads i (.link s.fresh)
    borrows := insert i s.borrows }

/-- `head_all.swap(ptr)`. -/
def swapHead (s : State F) (i t : ℕ) : State F :=
  { s with
    all := { s.all with head_all := some t }
    threads := Function.update s.threads i
      (match s.all.head_all with
        | none => .writeLen t none 1
        | some next => .spin t next)
    hist := s.swap t }

/-- `spin_next_all` loads `next_all` once: does it leave the loop? -/
def ready (s : State F) (t : ℕ) : Bool := decide (s.all.next_all t ≠ .pending)

/-- One round of the loop that waits for the old head. -/
def spin (s : State F) (i t next : ℕ) : State F :=
  if s.ready next then s.setThread i (.readLen t next) else s

/-- The length of the old head is read. -/
def readLen (s : State F) (i t next : ℕ) : State F :=
  s.setThread i (.writeLen t (some next) (s.all.len_all next + 1))

/-- The own length is written. -/
def writeLen (s : State F) (i t : ℕ) (next : Option ℕ) (new_len : ℕ) : State F :=
  { s with
    all := { s.all with len_all := Function.update s.all.len_all t new_len }
    threads := Function.update s.threads i (.storeNext t next) }

/-- `next_all` is stored. -/
def storeNext (s : State F) (i t : ℕ) (next : Option ℕ) : State F :=
  let s' := { s with all := { s.all with next_all := Function.update s.all.next_all t (.ptr next) } }
  match next with
  | none => s'.release i
  | some n => s'.setThread i (.writePrev t n)

/-- `prev_all` of the old head is written, and `link` returns. -/
def writePrev (s : State F) (i t next : ℕ) : State F :=
  { s with
    all := { s.all with prev_all := Function.update s.all.prev_all next (some t) } }.release i

/-! ## `len` and `iter_pin_ref` -/

/-- `len` or `iter_pin_ref` is called. -/
def begin (s : State F) (i : ℕ) (c : Caller) : State F :=
  { s with threads := Function.update s.threads i (.loadHead c), borrows := insert i s.borrows }

/-- `atomic_load_head_and_len_all` returns to its caller. -/
def loaded (c : Caller) (head : Option ℕ) (len : ℕ) : Pc :=
  match c with
  | .len => .len head len
  | .iter_pin_ref => .iter head { task := head, len := len } []

/-- `head_all.load()`. -/
def loadHead (s : State F) (i : ℕ) (c : Caller) : State F :=
  s.setThread i
    (match s.all.head_all with
      | none => loaded c none 0
      | some head => .spinHead c head)

/-- One round of the loop that waits for the head. -/
def spinHead (s : State F) (i : ℕ) (c : Caller) (head : ℕ) : State F :=
  if s.ready head then s.setThread i (.readHeadLen c head) else s

/-- The length of the head is read. -/
def readHeadLen (s : State F) (i : ℕ) (c : Caller) (head : ℕ) : State F :=
  s.setThread i (loaded c (some head) (s.all.len_all head))

/-- `IterPinRef::next`, as far as one round of its loop: it returns `None`, spins, or
returns the future of the task and counts down. -/
def next (s : State F) (i : ℕ) (head : Option ℕ) (it : IterPinRef) (yielded : List ℕ) : State F :=
  match it.task with
  | none => s
  | some t =>
      match s.all.next_all t with
      | .pending => s
      | .ptr next =>
          s.setThread i
            (if it.len = 0 then .overflowed
              else .iter head { task := next, len := it.len - 1 } (yielded ++ [t]))

/-! ## Exclusive operations -/

/-- A task is unlinked. -/
def unlink (s : State F) (t : ℕ) : State F :=
  { s with
    all := s.all.unlink t
    hist := { s.hist with swapped := Function.update s.hist.swapped t none } }

/-- A task is linked again. -/
def relink (s : State F) (t : ℕ) : State F :=
  { s with all := s.all.link t, hist := s.swap t }

/-- The future of a task is changed, by a poll or through `iter_pin_mut`. -/
def setFuture (s : State F) (t : ℕ) (future : F) : State F :=
  { s with future := Function.update s.future t (some future) }

/-- The future of a task is dropped. -/
def dropFuture (s : State F) (t : ℕ) : State F :=
  { s with future := Function.update s.future t none }

end State

/-! ## The step function -/

/-- Who moves. Thread `i` calls `push`, `len` or `iter_pin_ref`, takes its next step, or
gives up what it got; or the owner does something while nobody borrows the set. -/
inductive Act (F : Type) where
  | push (i : ℕ) (future : F)
  | begin (i : ℕ) (c : Caller)
  | thread (i : ℕ)
  | leave (i : ℕ)
  | unlink (t : ℕ)
  | relink (t : ℕ)
  | setFuture (t : ℕ) (future : F)
  | dropFuture (t : ℕ)

/-- The next step of thread `i`, inside its call or of its iterator. -/
def stepThread (s : State F) (i : ℕ) : Option (State F) :=
  match s.threads i with
  | .link t => some (s.swapHead i t)
  | .spin t next => some (s.spin i t next)
  | .readLen t next => some (s.readLen i t next)
  | .writeLen t next new_len => some (s.writeLen i t next new_len)
  | .storeNext t next => some (s.storeNext i t next)
  | .writePrev t next => some (s.writePrev i t next)
  | .loadHead c => some (s.loadHead i c)
  | .spinHead c head => some (s.spinHead i c head)
  | .readHeadLen c head => some (s.readHeadLen i c head)
  | .iter head it yielded => some (s.next i head it yielded)
  | _ => none

/-- What thread `i` has got from its call, and may give up. -/
def Pc.returned : Pc → Bool
  | .len _ _ => true
  | .iter _ _ _ => true
  | _ => false

/-- One step. -/
def step (s : State F) : Act F → Option (State F)
  | .push i future => if s.threads i = .idle then some (s.push i future) else none
  | .begin i c => if s.threads i = .idle then some (s.begin i c) else none
  | .thread i => stepThread s i
  | .leave i => if (s.threads i).returned then some (s.release i) else none
  | .unlink t =>
      if s.borrows = ∅ ∧ (s.hist.swapped t).isSome then some (s.unlink t) else none
  | .relink t =>
      if s.borrows = ∅ ∧ s.hist.swapped t = none ∧ (s.future t).isSome then some (s.relink t)
      else none
  | .setFuture t future =>
      if s.borrows = ∅ ∧ (s.future t).isSome then some (s.setFuture t future) else none
  | .dropFuture t =>
      if s.borrows = ∅ ∧ s.hist.swapped t = none then some (s.dropFuture t) else none

end TokioStreamUtil.FuturesUnordered.Shared
