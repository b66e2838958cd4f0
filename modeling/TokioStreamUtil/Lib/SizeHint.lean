/-
Bounds on how many items are still to come.

The bounds are machine words. A hint brackets a number of items that came when the
number is at most the upper bound, if there is one, and, once no more can come, at
least the lower bound. Adding to a hint saturates below and gives up above, and
neither makes a bound wrong.
-/
import Mathlib.Data.Nat.Notation

set_option autoImplicit false

/-- The words up to `MAX`. -/
abbrev Usize (MAX : ℕ) := { n : ℕ // n ≤ MAX }

namespace Usize

variable {MAX : ℕ}

/-- The word `0`. -/
def zero : Usize MAX := ⟨0, Nat.zero_le MAX⟩

/-- Addition that stops at `MAX`. -/
def saturating_add (a : Usize MAX) (b : ℕ) : Usize MAX :=
  ⟨min (a.val + b) MAX, Nat.min_le_right _ _⟩

/-- Addition that gives up beyond `MAX`. -/
def checked_add (a : Usize MAX) (b : ℕ) : Option (Usize MAX) :=
  if h : a.val + b ≤ MAX then some ⟨a.val + b, h⟩ else none

/-- Division. -/
def div (a : Usize MAX) (b : ℕ) : Usize MAX := 
  ⟨a.val / b, Nat.le_trans (Nat.div_le_self _ _) a.property⟩

theorem saturating_add_le (a : Usize MAX) (b : ℕ) : (a.saturating_add b).val ≤ a.val + b :=
  Nat.min_le_left _ _

theorem eq_of_checked_add {a c : Usize MAX} {b : ℕ} (h : a.checked_add b = some c) :
    c.val = a.val + b := by
  unfold checked_add at h
  split at h
  · cases h
    rfl
  · cases h

theorem checked_add_zero (a : Usize MAX) : a.checked_add 0 = some a := by
  unfold checked_add
  rw [dif_pos (show a.val + 0 ≤ MAX from a.property)]
  rfl

end Usize

/-- A lower bound, and perhaps an upper one. -/
abbrev SizeHint (MAX : ℕ) := Usize MAX × Option (Usize MAX)

namespace SizeHint

variable {MAX : ℕ}

/-- The hint is right about the `n` items that came: no fewer, if they have ended, and
no more. -/
structure Brackets (hint : SizeHint MAX) (ended : Prop) (n : ℕ) : Prop where
  lower : ended → hint.1.val ≤ n
  upper : ∀ u, hint.2 = some u → n ≤ u.val

variable {hint : SizeHint MAX} {ended ended' : Prop} {m n k : ℕ}

/-- `k` more may come than the hint knows of. -/
theorem Brackets.le_of_checked_add (h : hint.Brackets ended n) (hmn : m ≤ n + k) {u : Usize MAX}
    (hu : (hint.2.bind fun x => x.checked_add k) = some u) : m ≤ u.val := by
  obtain ⟨x, hx, hadd⟩ := Option.bind_eq_some_iff.mp hu
  have hle := h.upper x hx
  rw [Usize.eq_of_checked_add hadd]
  omega

/-- Some of what the hint speaks of, and `k` more, may be lost. -/
theorem Brackets.lossy (h : hint.Brackets ended n) (hmn : m ≤ n + k) :
    Brackets (Usize.zero, hint.2.bind fun x => x.checked_add k) ended' m where
  lower := fun _ => Nat.zero_le m
  upper := fun _ hu => h.le_of_checked_add hmn hu

/-- All that the hint speaks of comes, and `k` more. -/
theorem Brackets.exact (h : hint.Brackets ended n) (hended : ended' → ended ∧ m = n + k)
    (hmn : m ≤ n + k) :
    Brackets (hint.1.saturating_add k, hint.2.bind fun x => x.checked_add k) ended' m where
  lower := by
    intro hm
    obtain ⟨hn, rfl⟩ := hended hm
    exact Nat.le_trans (Usize.saturating_add_le _ _) (Nat.add_le_add_right (h.lower hn) k)
  upper := fun _ hu => h.le_of_checked_add hmn hu

end SizeHint
