/-
What the adaptors over a `TryStream` share: the fused base and optional limits.

A base stream is part of the environment. Whenever an adaptor polls it, a label
brings the answer.
-/
import TokioStreamUtil.FuturesUnordered.Model

set_option autoImplicit false

namespace TokioStreamUtil

open FuturesUnordered (PollNext)

/-- `NonZeroUsize`. -/
abbrev NonZeroUsize := { n : ℕ // 0 < n }

/-- `NonZeroUsize::new`. -/
def NonZeroUsize.new (n : ℕ) : Option NonZeroUsize :=
  if h : 0 < n then some ⟨n, h⟩ else none

theorem NonZeroUsize.new_pos {n : ℕ} (h : 0 < n) : NonZeroUsize.new n = some ⟨n, h⟩ := dif_pos h

/-- `IntoFuseStream`, without the stream it wraps. -/
structure IntoFuseStream where
  terminated : Bool
  deriving DecidableEq

namespace IntoFuseStream

/-- `IntoFuseStream::new`. -/
def new : IntoFuseStream := { terminated := false }

/-- `FusedStream::is_terminated`. -/
def is_terminated (self : IntoFuseStream) : Bool := self.terminated

/-- `IntoFuseStream::poll_next`, when the wrapped stream would answer `r`. A
terminated stream is not asked. -/
def poll_next {T : Type} (self : IntoFuseStream) (r : PollNext T) : IntoFuseStream × PollNext T :=
  if self.terminated then (self, .ready none)
  else
    match r with
    | .ready none => ({ terminated := true }, .ready none)
    | r => (self, r)

/-- A stream that is not terminated passes on every answer. -/
theorem poll_next_of_running {T : Type} {self : IntoFuseStream} (h : self.is_terminated = false)
    (r : PollNext T) : (self.poll_next r).2 = r := by
  unfold poll_next
  rw [if_neg (Bool.eq_false_iff.mp (show self.terminated = false from h))]
  split <;> rfl

/-- A terminated stream has ended. -/
theorem poll_next_of_terminated {T : Type} {self : IntoFuseStream} (h : self.is_terminated = true)
    (r : PollNext T) : (self.poll_next r).2 = .ready none := by
  unfold poll_next
  rw [if_pos (show self.terminated = true from h)]

/-- A stream is terminated by its end. -/
theorem end_of_terminated {T : Type} {self : IntoFuseStream} {r : PollNext T}
    (h : (self.poll_next r).1.is_terminated = true) : self.is_terminated = true ∨ r = .ready none := by
  unfold poll_next at h
  split at h
  · exact Or.inl h
  · split at h
    · exact Or.inr rfl
    · exact Or.inl h

end IntoFuseStream

end TokioStreamUtil
