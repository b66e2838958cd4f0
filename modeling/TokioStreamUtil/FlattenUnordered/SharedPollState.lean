/-
`SharedPollState`, the word that a poll and its wakers share.

The five bits say what has to be polled and who is at work. A poll holds the word
from `start_polling` to `stop_polling`, a waker from a successful `start_waking`
to `stop_waking`; in between they touch the cells that hold the outer waker. Every
read-modify-write operation is one step, and so is every access to a cell.
-/
import TokioStreamUtil.Lib.Transition
import Mathlib.Logic.Function.Basic

set_option autoImplicit false

namespace TokioStreamUtil.FlattenUnordered

/-! ## The word -/

/-- The value of the `AtomicU8`. -/
abbrev Word := BitVec 8

/-- There is nothing to poll and nobody is at work. -/
def NONE : Word := 0

/-- Inner streams need to be polled. -/
def NEED_TO_POLL_INNER_STREAMS : Word := 1

/-- The base stream needs to be polled. -/
def NEED_TO_POLL_STREAM : Word := 0b10

def NEED_TO_POLL_ALL : Word := NEED_TO_POLL_INNER_STREAMS ||| NEED_TO_POLL_STREAM

/-- The stream is being polled. -/
def POLLING : Word := 0b100

/-- The stream is being woken. -/
def WAKING : Word := 0b1000

/-- The stream was woken and will be polled. -/
def WOKEN : Word := 0b10000

/-- `AtomicU8::fetch_update`: the new value, and the previous one, as an error if
`f` declines. -/
def fetch_update (value : Word) (f : Word → Option Word) : Word × Except Word Word :=
  match f value with
  | some next_value => (next_value, .ok value)
  | none => (value, .error value)

namespace SharedPollState

/-- `start_polling`: fails while a waker is at work. -/
def start_polling (value : Word) : Word × Option Word :=
  let (next_value, previous) := fetch_update value fun value =>
    if value &&& WAKING = NONE then some POLLING else none
  (next_value, previous.toOption)

/-- `start_waking`: adds `to_poll`, and starts waking unless somebody is at work
or the stream is woken already. -/
def start_waking (to_poll value : Word) : Word × Option Word :=
  let (next_value, previous) := fetch_update value fun value =>
    let next_value := value ||| to_poll
    let next_value :=
      if value &&& (WOKEN ||| POLLING) = NONE then next_value ||| WAKING else next_value
    if next_value ≠ value then some next_value else none
  match previous.toOption with
  | some value =>
      if value &&& (WOKEN ||| POLLING ||| WAKING) = NONE then (next_value, some value)
      else (next_value, none)
  | none => (next_value, none)

/-- `stop_polling`, with the previous value. -/
def stop_polling (to_poll : Word) (will_be_woken : Bool) (value : Word) : Word × Word :=
  let needs := value &&& NEED_TO_POLL_ALL
  let next_value := if needs ≠ NONE ∨ will_be_woken then to_poll ||| WOKEN else to_poll
  ((next_value ||| needs) &&& ~~~POLLING &&& ~~~WAKING, value)

/-- `stop_waking`, with the previous value. -/
def stop_waking (value : Word) : Word × Word :=
  let (next_value, previous) := fetch_update value fun value =>
    let next_value := (value &&& ~~~WAKING) ||| WOKEN
    if next_value ≠ value then some next_value else none
  match previous with
  | .ok value => (next_value, value)
  | .error value => (next_value, value)

/-- The assertion in `stop_waking`, on the previous value. -/
def stop_waking_assert (value : Word) : Prop := value &&& (WOKEN ||| POLLING ||| WAKING) = WAKING

/-- `reset`. -/
def reset (value : Word) : Word × Word := (NEED_TO_POLL_ALL, value)

end SharedPollState

/-! ## The bits -/

/-- The two `WrappedWaker`s. -/
inductive WrappedWaker where
  | stream
  | inner_streams
  deriving DecidableEq

/-- `WrappedWaker::need_to_poll`. -/
def WrappedWaker.need_to_poll : WrappedWaker → Word
  | .stream => NEED_TO_POLL_STREAM
  | .inner_streams => NEED_TO_POLL_INNER_STREAMS

namespace Word

def polling (value : Word) : Bool := value &&& POLLING ≠ NONE
def waking (value : Word) : Bool := value &&& WAKING ≠ NONE
def woken (value : Word) : Bool := value &&& WOKEN ≠ NONE

/-- The need bit of waker `k` is set. -/
def need (k : WrappedWaker) (value : Word) : Bool := value &&& k.need_to_poll ≠ NONE

end Word

/-- The index of the need bit. -/
def WrappedWaker.bit : WrappedWaker → ℕ
  | .stream => 1
  | .inner_streams => 0

/-- Only need bits are set. -/
def Word.NeedsOnly (value : Word) : Prop := value &&& NEED_TO_POLL_ALL = value

section Bits

open SharedPollState Word

variable (k k' : WrappedWaker)

/-- A mask of one bit. -/
theorem bit_eq (i : ℕ) (hi : i < 8) (value : Word) :
    decide (value &&& BitVec.twoPow 8 i ≠ NONE) = value.getLsbD i := by
  have hpow : BitVec.twoPow 8 i ≠ NONE := by
    intro hzero
    have hbit := congrArg (fun v : Word => v.getLsbD i) hzero
    simp [NONE, hi] at hbit
  rw [BitVec.and_twoPow]
  cases value.getLsbD i with
  | true => simpa using hpow
  | false => rfl

theorem polling_eq_bit (value : Word) : polling value = value.getLsbD 2 :=
  bit_eq 2 (by decide) value

theorem waking_eq_bit (value : Word) : waking value = value.getLsbD 3 :=
  bit_eq 3 (by decide) value

theorem woken_eq_bit (value : Word) : woken value = value.getLsbD 4 :=
  bit_eq 4 (by decide) value

theorem need_eq_bit (value : Word) : need k value = value.getLsbD k.bit := by
  cases k with
  | stream => exact bit_eq 1 (by decide) value
  | inner_streams => exact bit_eq 0 (by decide) value

theorem need_iff {value : Word} : need k value = true ↔ value &&& k.need_to_poll ≠ NONE :=
  decide_eq_true_iff

theorem need_or (v w : Word) : need k (v ||| w) = (need k v || need k w) := by
  simp only [need_eq_bit, BitVec.getLsbD_or]

theorem need_and (v w : Word) : need k (v &&& w) = (need k v && need k w) := by
  simp only [need_eq_bit, BitVec.getLsbD_and]

theorem need_all : need k NEED_TO_POLL_ALL = true := by
  cases k <;> decide

/-- A mask of several bits. -/
theorem and_or_eq_none {v a b : Word} :
    v &&& (a ||| b) = NONE ↔ v &&& a = NONE ∧ v &&& b = NONE := by
  rw [BitVec.and_or_distrib_left]
  exact BitVec.or_eq_zero_iff

/-- Some need bit is set. -/
theorem needs_iff (value : Word) : (value &&& NEED_TO_POLL_ALL ≠ NONE) ↔
    (need .stream value || need .inner_streams value) = true := by
  unfold NEED_TO_POLL_ALL
  rw [ne_eq, and_or_eq_none, Bool.or_eq_true, need_iff, need_iff, not_and_or, or_comm]
  rfl

/-- Nobody is at work. -/
theorem free_iff (value : Word) : value &&& (WOKEN ||| POLLING) = NONE ↔
    (polling value || woken value) = false := by
  unfold polling woken
  rw [and_or_eq_none, Bool.or_eq_false_iff, decide_eq_false_iff_not, decide_eq_false_iff_not,
    not_not, not_not, and_comm]

theorem NeedsOnly.or {v w : Word} (hv : NeedsOnly v) (hw : NeedsOnly w) : NeedsOnly (v ||| w) := by
  unfold NeedsOnly at *
  rw [BitVec.and_or_distrib_right, hv, hw]

theorem NeedsOnly.and (v : Word) {w : Word} (hw : NeedsOnly w) : NeedsOnly (v &&& w) := by
  unfold NeedsOnly at *
  rw [BitVec.and_assoc, hw]

/-- No other bit is set. -/
theorem NeedsOnly.woken (v : Word) (h : v &&& NEED_TO_POLL_ALL = v) : Word.woken v = false := by
  have hall : NEED_TO_POLL_ALL.getLsbD 4 = false := by decide
  rw [woken_eq_bit, ← h, BitVec.getLsbD_and, hall, Bool.and_false]

theorem start_polling_of_waking (value : Word) (h : waking value = true) :
    start_polling value = (value, none) := by
  have hmask : ¬value &&& WAKING = NONE := of_decide_eq_true h
  simp [start_polling, fetch_update, hmask, Except.toOption]

theorem start_polling_of_not_waking (value : Word) (h : waking value = false) :
    start_polling value = (POLLING, some value) := by
  have hmask : value &&& WAKING = NONE := not_not.mp (of_decide_eq_false h)
  simp [start_polling, fetch_update, hmask, Except.toOption]

/-- What `start_waking` stores, and when it succeeds: a value that is not stored
because it is there already has somebody at work in it. -/
theorem start_waking_eq (to_poll value : Word) :
    start_waking to_poll value =
      (if value &&& (WOKEN ||| POLLING) = NONE then value ||| to_poll ||| WAKING
        else value ||| to_poll,
      if value &&& (WOKEN ||| POLLING ||| WAKING) = NONE then some value else none) := by
  have hsplit : value &&& (WOKEN ||| POLLING ||| WAKING) = NONE ↔
      value &&& (WOKEN ||| POLLING) = NONE ∧ value &&& WAKING = NONE := and_or_eq_none
  unfold start_waking fetch_update
  by_cases hidle : value &&& (WOKEN ||| POLLING) = NONE
  · by_cases hnew : value ||| to_poll ||| WAKING = value
    · have hbusy : ¬value &&& WAKING = NONE := by
        rw [← hnew, BitVec.and_or_distrib_right, BitVec.and_self]
        exact fun hnone => absurd (BitVec.or_eq_zero_iff.mp hnone).2 (by decide)
      simp [hsplit, hidle, hnew, hbusy, Except.toOption]
    · by_cases hfree : value &&& WAKING = NONE <;> simp [hsplit, hidle, hnew, hfree, Except.toOption]
  · by_cases hnew : value ||| to_poll = value <;> simp [hsplit, hidle, hnew, Except.toOption]

/-- `start_waking` takes the word if nobody has it. -/
theorem start_waking_bits (value : Word) :
    polling (start_waking k.need_to_poll value).1 = polling value ∧
    woken (start_waking k.need_to_poll value).1 = woken value ∧
    waking (start_waking k.need_to_poll value).1 =
      (waking value || !(polling value || woken value)) := by
  have h2 : k.need_to_poll.getLsbD 2 = false := by cases k <;> rfl
  have h3 : k.need_to_poll.getLsbD 3 = false := by cases k <;> rfl
  have h4 : k.need_to_poll.getLsbD 4 = false := by cases k <;> rfl
  have hw2 : WAKING.getLsbD 2 = false := by decide
  have hw3 : WAKING.getLsbD 3 = true := by decide
  have hw4 : WAKING.getLsbD 4 = false := by decide
  rw [start_waking_eq]
  dsimp only
  split
  · rename_i hnone
    rw [(free_iff value).mp hnone]
    simp only [polling_eq_bit, woken_eq_bit, waking_eq_bit, BitVec.getLsbD_or, h2, h3, h4, hw2,
      hw3, hw4, Bool.or_false, Bool.or_true, Bool.not_false, and_self]
  · rename_i hnone
    rw [free_iff, Bool.not_eq_false] at hnone
    rw [hnone]
    simp only [polling_eq_bit, woken_eq_bit, waking_eq_bit, BitVec.getLsbD_or, h2, h3, h4,
      Bool.or_false, Bool.not_true, and_self]

theorem start_waking_need (value : Word) :
    need k' (start_waking k.need_to_poll value).1 = (need k' value || k' == k) := by
  have hmask : k.need_to_poll.getLsbD k'.bit = (k' == k) := by cases k <;> cases k' <;> rfl
  have hwaking : WAKING.getLsbD k'.bit = false := by cases k' <;> rfl
  rw [start_waking_eq, need_eq_bit, need_eq_bit]
  dsimp only
  split
  · rw [BitVec.getLsbD_or, BitVec.getLsbD_or, hmask, hwaking, Bool.or_false]
  · rw [BitVec.getLsbD_or, hmask]

/-- Who gets `Some` has taken the word. -/
theorem start_waking_won (value : Word) : (start_waking k.need_to_poll value).2 =
    if polling value || woken value || waking value then none else some value := by
  have hfree : value &&& (WOKEN ||| POLLING ||| WAKING) = NONE ↔
      ¬(polling value || woken value || waking value) = true := by
    have hwaking : value &&& WAKING = NONE ↔ waking value = false := by
      rw [waking, decide_eq_false_iff_not, not_not]
    rw [and_or_eq_none, free_iff, hwaking, Bool.not_eq_true, ← Bool.or_eq_false_iff]
  rw [start_waking_eq]
  simp only [hfree, ite_not]

/-- What `stop_waking` stores. -/
theorem stop_waking_value (value : Word) :
    (stop_waking value).1 = (value &&& ~~~WAKING) ||| WOKEN := by
  unfold stop_waking fetch_update
  by_cases hnew : (value &&& ~~~WAKING) ||| WOKEN = value <;> simp [hnew]

theorem stop_waking_bits (value : Word) :
    polling (stop_waking value).1 = polling value ∧ waking (stop_waking value).1 = false ∧
    woken (stop_waking value).1 = true := by
  rw [stop_waking_value]
  simp [polling_eq_bit, woken_eq_bit, waking_eq_bit, WAKING, WOKEN]

theorem stop_waking_need (value : Word) : need k (stop_waking value).1 = need k value := by
  have hwaking : (~~~WAKING).getLsbD k.bit = true := by cases k <;> rfl
  have hwoken : WOKEN.getLsbD k.bit = false := by cases k <;> rfl
  rw [stop_waking_value, need_eq_bit, need_eq_bit, BitVec.getLsbD_or, BitVec.getLsbD_and, hwaking,
    hwoken, Bool.and_true, Bool.or_false]

/-- The assertion is about the three bits. -/
theorem stop_waking_assert_of_bits (value : Word) (hpolling : polling value = false)
    (hwoken : woken value = false) (hwaking : waking value = true) : stop_waking_assert value := by
  have hfree : value &&& (WOKEN ||| POLLING) = NONE := by
    rw [free_iff, hpolling, hwoken]
    rfl
  unfold stop_waking_assert
  rw [BitVec.and_or_distrib_left, hfree]
  show 0#8 ||| value &&& BitVec.twoPow 8 3 = BitVec.twoPow 8 3
  rw [BitVec.zero_or, BitVec.and_twoPow, if_pos ((waking_eq_bit value).symm.trans hwaking)]
variable (to_poll : Word) (will_be_woken : Bool) (value : Word)

/-- `stop_polling` leaves nobody at work. -/
theorem stop_polling_free :
    polling (stop_polling to_poll will_be_woken value).1 = false ∧
    waking (stop_polling to_poll will_be_woken value).1 = false := by
  have hpolling : (~~~POLLING).getLsbD 2 = false := by decide
  have hwaking : (~~~WAKING).getLsbD 3 = false := by decide
  rw [polling_eq_bit, waking_eq_bit]
  unfold stop_polling
  simp only [BitVec.getLsbD_and, hpolling, hwaking, Bool.and_false, Bool.false_and, and_self]

/-- The stream counts as woken if somebody has been at work meanwhile. -/
theorem stop_polling_woken (h : NeedsOnly to_poll) :
    woken (stop_polling to_poll will_be_woken value).1 =
      (will_be_woken || need .stream value || need .inner_streams value) := by
  have hpolling : (~~~POLLING).getLsbD 4 = true := by decide
  have hwaking : (~~~WAKING).getLsbD 4 = true := by decide
  have hall : NEED_TO_POLL_ALL.getLsbD 4 = false := by decide
  have hwoken : WOKEN.getLsbD 4 = true := by decide
  have hto : to_poll.getLsbD 4 = false := by
    rw [← woken_eq_bit]
    exact NeedsOnly.woken to_poll h
  rw [woken_eq_bit, Bool.or_assoc]
  unfold stop_polling
  simp only [BitVec.getLsbD_and, BitVec.getLsbD_or, hpolling, hwaking, hall, Bool.and_true,
    Bool.and_false, Bool.or_false, needs_iff]
  cases will_be_woken with
  | true => simp [hwoken]
  | false =>
      cases hneeds : need .stream value || need .inner_streams value with
      | true => simp [hwoken]
      | false => simpa using hto

/-- The need bits of both sides are kept. -/
theorem stop_polling_need :
    need k (stop_polling to_poll will_be_woken value).1 = (need k to_poll || need k value) := by
  have hpolling : need k (~~~POLLING) = true := by cases k <;> decide
  have hwaking : need k (~~~WAKING) = true := by cases k <;> decide
  have hwoken : need k WOKEN = false := by cases k <;> decide
  unfold stop_polling
  dsimp only
  rw [need_and, need_and, need_or, need_and, hpolling, hwaking, need_all, Bool.and_true,
    Bool.and_true, Bool.and_true]
  split
  · rw [need_or, hwoken, Bool.or_false]
  · rfl

end Bits

/-! ## The protocol

`Sys ι W` is the word, the two cells, the poll in progress and the `wake_by_ref`
calls, one for each `i : ι`. -/

/-- Where the poll stands, as far as the word is concerned: outside, writing the
cell of `k`, or past that. `w` is the outer waker it was called with. -/
inductive Poller (W : Type) where
  | idle
  | replace (k : WrappedWaker) (w : W)
  | polling (w : W)

/-- The poll has the word. -/
def Poller.critical {W : Type} : Poller W → Bool
  | .idle => false
  | _ => true

/-- Where a `wake_by_ref` call stands after its `start_waking` succeeded: before
it reads the cell of `k`, before `stop_waking` with what it read, before the call
of the outer waker. -/
inductive Waker (W : Type) where
  | idle
  | reading (k : WrappedWaker)
  | stopping (inner_waker : Option W)
  | waking (w : W)

/-- The call has the word. -/
def Waker.critical {W : Type} : Waker W → Bool
  | .reading _ => true
  | .stopping _ => true
  | _ => false

/-- No call is in progress. -/
def Waker.isIdle {W : Type} : Waker W → Bool
  | .idle => true
  | _ => false

/-- The state. `log` is history: the outer wakers called so far. -/
structure Sys (ι W : Type) where
  state : Word
  inner_waker : WrappedWaker → Option W
  poller : Poller W
  wakers : ι → Waker W
  log : List W

variable {ι W : Type}

namespace Sys

/-- The state in which `FlattenUnordered` is built. -/
def new : Sys ι W where
  state := NEED_TO_POLL_STREAM
  inner_waker := fun _ => none
  poller := .idle
  wakers := fun _ => .idle
  log := []

/-- Moves the call of `i`. -/
def setWaker [DecidableEq ι] (s : Sys ι W) (i : ι) (pc : Waker W) : Sys ι W :=
  { s with wakers := Function.update s.wakers i pc }

/-- One attempt of a poll to start. -/
def start_polling (s : Sys ι W) (w : W) : Sys ι W :=
  match SharedPollState.start_polling s.state with
  | (next_value, some _) => { s with state := next_value, poller := .replace .stream w }
  | (next_value, none) => { s with state := next_value }

/-- `WrappedWaker::replace_waker`, of the base stream's waker first. -/
def replace_waker (s : Sys ι W) (k : WrappedWaker) (w : W) : Sys ι W :=
  { s with
    inner_waker := Function.update s.inner_waker k (some w)
    poller :=
      match k with
      | .stream => .replace .inner_streams w
      | .inner_streams => .polling w }

/-- `stop_polling`. -/
def stop_polling (s : Sys ι W) (to_poll : Word) (will_be_woken : Bool) : Sys ι W :=
  { s with
    state := (SharedPollState.stop_polling to_poll will_be_woken s.state).1
    poller := .idle }

/-- The bomb of a poll that unwinds. -/
def reset (s : Sys ι W) : Sys ι W :=
  { s with state := (SharedPollState.reset s.state).1, poller := .idle }

variable [DecidableEq ι]

/-- `WrappedWaker::wake_by_ref` on waker `k` begins with `start_waking`. -/
def wake_by_ref (s : Sys ι W) (i : ι) (k : WrappedWaker) : Sys ι W :=
  match SharedPollState.start_waking k.need_to_poll s.state with
  | (next_value, some _) => { s with state := next_value }.setWaker i (.reading k)
  | (next_value, none) => { s with state := next_value }

/-- The bomb of `wake_by_ref` is dropped: `stop_waking`. -/
def stop_waking (s : Sys ι W) (i : ι) (inner_waker : Option W) : Sys ι W :=
  { s with state := (SharedPollState.stop_waking s.state).1 }.setWaker i
    (match inner_waker with
    | some w => .waking w
    | none => .idle)

/-- `inner_waker.wake()`. -/
def wake (s : Sys ι W) (i : ι) (w : W) : Sys ι W :=
  { s with log := s.log ++ [w] }.setWaker i .idle

end Sys

namespace Sys

variable {s : Sys ι W}

theorem start_polling_of_waking (h : Word.waking s.state = true) (w : W) :
    s.start_polling w = s := by
  unfold start_polling
  rw [FlattenUnordered.start_polling_of_waking s.state h]

theorem start_polling_of_not_waking (h : Word.waking s.state = false) (w : W) :
    s.start_polling w = { s with state := POLLING, poller := .replace .stream w } := by
  unfold start_polling
  rw [FlattenUnordered.start_polling_of_not_waking s.state h]

variable [DecidableEq ι]

/-- Somebody is at work, or the stream is woken: only the need bit is added. -/
theorem wake_by_ref_of_busy
    (h : (Word.polling s.state || Word.woken s.state || Word.waking s.state) = true) (i : ι)
    (k : WrappedWaker) :
    s.wake_by_ref i k =
      { s with state := (SharedPollState.start_waking k.need_to_poll s.state).1 } := by
  have hwon := start_waking_won k s.state
  rw [h, if_pos rfl] at hwon
  unfold wake_by_ref
  rw [← Prod.eta (SharedPollState.start_waking k.need_to_poll s.state), hwon]

/-- Otherwise the call takes the word. -/
theorem wake_by_ref_of_free
    (h : (Word.polling s.state || Word.woken s.state || Word.waking s.state) = false) (i : ι)
    (k : WrappedWaker) :
    s.wake_by_ref i k =
      { s with
        state := (SharedPollState.start_waking k.need_to_poll s.state).1
        wakers := Function.update s.wakers i (.reading k) } := by
  have hwon := start_waking_won k s.state
  rw [h, if_neg Bool.false_ne_true] at hwon
  unfold wake_by_ref
  rw [← Prod.eta (SharedPollState.start_waking k.need_to_poll s.state), hwon]
  rfl

end Sys

namespace SharedPollState

variable [DecidableEq ι]

/-- Who moves. -/
inductive Act (ι W : Type) where
  | start_polling (w : W)
  | replace_waker
  | stop_polling (to_poll : Word) (will_be_woken : Bool)
  | reset
  | wake_by_ref (i : ι) (k : WrappedWaker)
  | waker (i : ι)

/-- The next step of the `wake_by_ref` call of `i`. -/
def wakerStep (s : Sys ι W) (i : ι) : Option (Sys ι W) :=
  match s.wakers i with
  | .idle => none
  | .reading k => some (s.setWaker i (.stopping (s.inner_waker k)))
  | .stopping inner_waker => some (s.stop_waking i inner_waker)
  | .waking w => some (s.wake i w)

/-- One step. There is one poll at a time, and a poll stores need bits only. -/
def step (s : Sys ι W) : Act ι W → Option (Sys ι W)
  | .start_polling w =>
      match s.poller with
      | .idle => some (s.start_polling w)
      | _ => none
  | .replace_waker =>
      match s.poller with
      | .replace k w => some (s.replace_waker k w)
      | _ => none
  | .stop_polling to_poll will_be_woken =>
      match s.poller with
      | .polling _ =>
          if to_poll &&& NEED_TO_POLL_ALL = to_poll then
            some (s.stop_polling to_poll will_be_woken)
          else none
      | _ => none
  | .reset => if s.poller.critical then some s.reset else none
  | .wake_by_ref i k =>
      match s.wakers i with
      | .idle => some (s.wake_by_ref i k)
      | _ => none
  | .waker i => wakerStep s i

end SharedPollState

end TokioStreamUtil.FlattenUnordered
