/-
What the adaptors that poll one stream at a time share.

These adaptors are sequential: nobody else has a hand in a call. A call is a loop
that polls the base and whatever the adaptor holds, and the environment answers.
None of its polls unwinds here.
-/
import TokioStreamUtil.Lib.PollLoop
import TokioStreamUtil.TryStream.IntoFuseStream

set_option autoImplicit false

namespace TokioStreamUtil

open FuturesUnordered (PollNext)

/-- `core::task::Poll`. -/
inductive Poll (α : Type) where
  | pending
  | ready (a : α)
  deriving DecidableEq

/-- What polling a `TryStream` comes to. -/
abbrev TryPoll (T E : Type) := Poll (Option (Except E T))

namespace Poll

variable {α : Type}

/-- The item of a poll, if there is one. -/
def item : Poll (Option α) → Option α
  | .ready item => item
  | .pending => none

/-- What the poll is ready with. -/
def value : Poll α → Option α
  | .pending => none
  | .ready a => some a

/-- The same answer of a stream that could have unwound. -/
def toPollNext : Poll (Option α) → PollNext α
  | .pending => .pending
  | .ready item => .ready item

end Poll

/-- The items among the answers of a stream, in order. -/
def given {α : Type} (answers : List (Poll (Option α))) : List α := answers.filterMap Poll.item

@[simp] theorem given_append {α : Type} (l₁ l₂ : List (Poll (Option α))) :
    given (l₁ ++ l₂) = given l₁ ++ given l₂ := List.filterMap_append

@[simp] theorem given_ready {α : Type} (x : α) : given [.ready (some x)] = [x] := rfl

@[simp] theorem given_end {α : Type} : given [(.ready none : Poll (Option α))] = [] := rfl

@[simp] theorem given_pending {α : Type} : given [(.pending : Poll (Option α))] = [] := rfl

/-- The items that come before the first end. -/
def untilEnd {α : Type} : List (Poll (Option α)) → List α
  | [] => []
  | .pending :: rs => untilEnd rs
  | .ready (some x) :: rs => x :: untilEnd rs
  | .ready none :: _ => []

/-- Nothing counts after the end. -/
theorem untilEnd_append_of_mem {α : Type} {l₁ : List (Poll (Option α))} (h : .ready none ∈ l₁)
    (l₂ : List (Poll (Option α))) : untilEnd (l₁ ++ l₂) = untilEnd l₁ := by
  induction l₁ with
  | nil => cases h
  | cons r l₁ ih =>
      rcases r with _ | _ | x
      · exact ih ((List.mem_cons.mp h).resolve_left (by rintro ⟨⟩))
      · rfl
      · exact congrArg (x :: ·) (ih ((List.mem_cons.mp h).resolve_left (by rintro ⟨⟩)))

theorem untilEnd_append_of_not_mem {α : Type} {l₁ : List (Poll (Option α))}
    (h : .ready none ∉ l₁) (l₂ : List (Poll (Option α))) :
    untilEnd (l₁ ++ l₂) = untilEnd l₁ ++ untilEnd l₂ := by
  induction l₁ with
  | nil => rfl
  | cons r l₁ ih =>
      rw [List.mem_cons, not_or] at h
      rcases r with _ | _ | x
      · exact ih h.2
      · exact absurd rfl h.1
      · exact congrArg (x :: ·) (ih h.2)

@[simp] theorem untilEnd_concat_pending {α : Type} (l : List (Poll (Option α))) :
    untilEnd (l ++ [.pending]) = untilEnd l := by
  by_cases h : .ready none ∈ l
  · rw [untilEnd_append_of_mem h]
  · rw [untilEnd_append_of_not_mem h]
    exact List.append_nil _

@[simp] theorem untilEnd_concat_end {α : Type} (l : List (Poll (Option α))) :
    untilEnd (l ++ [.ready none]) = untilEnd l := by
  by_cases h : .ready none ∈ l
  · rw [untilEnd_append_of_mem h]
  · rw [untilEnd_append_of_not_mem h]
    exact List.append_nil _

theorem untilEnd_concat_item {α : Type} {l : List (Poll (Option α))} (h : .ready none ∉ l) (x : α) :
    untilEnd (l ++ [.ready (some x)]) = untilEnd l ++ [x] := untilEnd_append_of_not_mem h _

/-- The end is the last, or came before. -/
theorem end_mem_concat {α : Type} {l : List (Poll (Option α))} {r : Poll (Option α)} :
    .ready none ∈ l ++ [r] ↔ .ready none ∈ l ∨ r = .ready none := by
  rw [List.mem_append, List.mem_singleton]
  exact or_congr_right eq_comm

theorem untilEnd_length_le {α : Type} (l₁ l₂ : List (Poll (Option α))) :
    (untilEnd l₁).length ≤ (untilEnd (l₁ ++ l₂)).length := by
  by_cases h : .ready none ∈ l₁
  · rw [untilEnd_append_of_mem h]
  · rw [untilEnd_append_of_not_mem h, List.length_append]
    exact Nat.le_add_right _ _

/-- A stream that has the items `items st` still to give is left as `st'` by a poll that
it answers by the first argument. -/
def Gives {α I : Type} (items : I → List α) (st : I) : Poll (Option α) → I → Prop
  | .pending, st' => items st' = items st
  | .ready (some x), st' => items st = x :: items st'
  | .ready none, _ => items st = []

namespace IntoFuseStream

variable {T : Type}

/-- `IntoFuseStream::poll_next`, when the wrapped stream answers `r` without unwinding. -/
def poll (self : IntoFuseStream) (r : Poll (Option T)) : IntoFuseStream × Poll (Option T) :=
  if self.terminated then (self, .ready none)
  else
    match r with
    | .ready none => ({ terminated := true }, .ready none)
    | r => (self, r)

/-- It is `poll_next`, on an answer that does not unwind. -/
theorem poll_eq_poll_next (self : IntoFuseStream) (r : Poll (Option T)) :
    self.poll_next r.toPollNext = ((self.poll r).1, (self.poll r).2.toPollNext) := by
  unfold poll poll_next
  split
  · rfl
  · rcases r with _ | _ | x <;> rfl

@[simp] theorem poll_item {self : IntoFuseStream} (h : self.is_terminated = false) (x : T) :
    self.poll (.ready (some x)) = (self, .ready (some x)) := by
  unfold poll
  rw [if_neg (Bool.eq_false_iff.mp (show self.terminated = false from h))]

@[simp] theorem poll_pending {self : IntoFuseStream} (h : self.is_terminated = false) :
    self.poll (.pending : Poll (Option T)) = (self, .pending) := by
  unfold poll
  rw [if_neg (Bool.eq_false_iff.mp (show self.terminated = false from h))]

@[simp] theorem poll_end {self : IntoFuseStream} (h : self.is_terminated = false) :
    self.poll (.ready none : Poll (Option T)) = ({ terminated := true }, .ready none) := by
  unfold poll
  rw [if_neg (Bool.eq_false_iff.mp (show self.terminated = false from h))]

end IntoFuseStream

end TokioStreamUtil
