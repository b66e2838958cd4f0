/-
Lists whose elements are settled one at a time.

An element passes, or a function with a state of its own starts a task for it, and what
the task resolves to decides what becomes of the element. The list may hold marks
(`none`), which pass too. The tasks run one at a time: the next is started when the one
before it has resolved.
-/
import Mathlib.Data.List.Basic

set_option autoImplicit false

namespace OneByOne

/-- An element passes as `y`, or a task is started on `a`. -/
inductive Treatment (A Y : Type*) where
  | pass (y : Y)
  | start (a : A)

/-- The treatment of an element, and what becomes of it when its task resolves. -/
structure Rule (X A R Y : Type*) where
  treat : X → Treatment A Y
  emit : A → R → Option Y

variable {X A R Y F φ : Type*}

namespace Rule

variable (L : Rule X A R Y)

/-- What the tasks are started on, in order. -/
def started : List (Option X) → List A
  | [] => []
  | none :: xs => started xs
  | some x :: xs =>
      match L.treat x with
      | .pass _ => started xs
      | .start a => a :: started xs

/-- What becomes of the elements when the tasks resolve to `rs`, in order. An open task
holds back what comes after it. -/
def outputs : List (Option X) → List R → List (Option Y)
  | [], _ => []
  | none :: xs, rs => none :: outputs xs rs
  | some x :: xs, rs =>
      match L.treat x with
      | .pass y => some y :: outputs xs rs
      | .start a =>
          match rs with
          | [] => []
          | r :: rs => (L.emit a r).toList.map some ++ outputs xs rs

variable {L}

section

variable {x : X} {y : Y} {a : A}

theorem started_pass (h : L.treat x = .pass y) (xs : List (Option X)) :
    L.started (some x :: xs) = L.started xs := by
  rw [started, h]

theorem started_start (h : L.treat x = .start a) (xs : List (Option X)) :
    L.started (some x :: xs) = a :: L.started xs := by
  rw [started, h]

theorem outputs_pass (h : L.treat x = .pass y) (xs : List (Option X)) (rs : List R) :
    L.outputs (some x :: xs) rs = some y :: L.outputs xs rs := by
  simp only [outputs, h]

theorem outputs_open (h : L.treat x = .start a) (xs : List (Option X)) :
    L.outputs (some x :: xs) [] = [] := by
  simp only [outputs, h]

theorem outputs_resolved (h : L.treat x = .start a) (xs : List (Option X)) (r : R) (rs : List R) :
    L.outputs (some x :: xs) (r :: rs) = (L.emit a r).toList.map some ++ L.outputs xs rs := by
  simp only [outputs, h]

end

theorem started_append (xs ys : List (Option X)) :
    L.started (xs ++ ys) = L.started xs ++ L.started ys := by
  induction xs with
  | nil => rfl
  | cons x xs ih =>
      cases x with
      | none => exact ih
      | some x =>
          rw [List.cons_append]
          cases hx : L.treat x with
          | pass y => rw [started_pass hx, started_pass hx, ih]
          | start a => rw [started_start hx, started_start hx, ih, List.cons_append]

/-- When the first tasks have all resolved, the rest of the list is on its own. -/
theorem outputs_append {xs : List (Option X)} {rs : List R} (h : (L.started xs).length = rs.length)
    (ys : List (Option X)) (rs' : List R) :
    L.outputs (xs ++ ys) (rs ++ rs') = L.outputs xs rs ++ L.outputs ys rs' := by
  induction xs generalizing rs with
  | nil =>
      obtain rfl := List.length_eq_zero_iff.mp h.symm
      rfl
  | cons x xs ih =>
      cases x with
      | none => exact congrArg (none :: ·) (ih h)
      | some x =>
          rw [List.cons_append]
          cases hx : L.treat x with
          | pass y =>
              rw [started_pass hx] at h
              rw [outputs_pass hx, outputs_pass hx, ih h, List.cons_append]
          | start a =>
              rw [started_start hx] at h
              cases rs with
              | nil => cases h
              | cons r rs =>
                  rw [List.cons_append, outputs_resolved hx, outputs_resolved hx,
                    ih (Nat.succ.inj h), List.append_assoc]

end Rule

/-! ## Tasks of a function with a state -/

/-- The tasks that `call` starts, from the state `f`. -/
def tasks (call : φ → A → F × φ) : φ → List A → List F
  | _, [] => []
  | f, a :: as => (call f a).1 :: tasks call (call f a).2 as

/-- The state `call` is left in. -/
def stateAfter (call : φ → A → F × φ) : φ → List A → φ := List.foldl fun f a => (call f a).2

theorem stateAfter_concat (call : φ → A → F × φ) (f : φ) (as : List A) (a : A) :
    stateAfter call f (as ++ [a]) = (call (stateAfter call f as) a).2 := by
  unfold stateAfter
  rw [List.foldl_append]
  rfl

@[simp] theorem tasks_length (call : φ → A → F × φ) (f : φ) (as : List A) :
    (tasks call f as).length = as.length := by
  induction as generalizing f with
  | nil => rfl
  | cons a as ih => exact congrArg Nat.succ (ih _)

theorem tasks_concat (call : φ → A → F × φ) (f : φ) (as : List A) (a : A) :
    tasks call f (as ++ [a]) = tasks call f as ++ [(call (stateAfter call f as) a).1] := by
  induction as generalizing f with
  | nil => rfl
  | cons b as ih => exact congrArg ((call f b).1 :: ·) (ih _)

/-- No task is open when all that were started have resolved. -/
theorem open_none {call : φ → A → F × φ} {f : φ} {as : List A} {n : ℕ} (h : as.length = n) :
    (tasks call f as)[n]? = none := by
  exact List.getElem?_eq_none (Nat.le_of_eq ((tasks_length call f as).trans h))

/-- The open task is the last. -/
theorem open_last {call : φ → A → F × φ} {f : φ} {as : List A} {n : ℕ} (h : as.length = n) (a : A) :
    (tasks call f (as ++ [a]))[n]? = some (call (stateAfter call f as) a).1 := by
  have hlen : (tasks call f as).length = n := (tasks_length call f as).trans h
  rw [tasks_concat, ← hlen]
  exact List.getElem?_concat_length

/-! ## Up to the first mark -/

/-- The elements before the first mark. -/
def beforeMark : List (Option Y) → List Y
  | some y :: ys => y :: beforeMark ys
  | _ => []

theorem beforeMark_append_some (ys : List Y) (zs : List (Option Y)) :
    beforeMark (ys.map some ++ zs) = ys ++ beforeMark zs := by
  induction ys with
  | nil => rfl
  | cons y ys ih => exact congrArg (y :: ·) ih

namespace Rule

variable (L : Rule X A R Y)

/-- What becomes of a list without marks. -/
def yields : List X → List R → List Y
  | [], _ => []
  | x :: xs, rs =>
      match L.treat x with
      | .pass y => y :: yields xs rs
      | .start a =>
          match rs with
          | [] => []
          | r :: rs => (L.emit a r).toList ++ yields xs rs

/-- A mark comes out where it went in, so up to the first one only what stands before it
counts. -/
theorem beforeMark_outputs (xs : List (Option X)) (rs : List R) :
    beforeMark (L.outputs xs rs) = L.yields (beforeMark xs) rs := by
  induction xs generalizing rs with
  | nil => rfl
  | cons x xs ih =>
      cases x with
      | none => rfl
      | some x =>
          cases hx : L.treat x with
          | pass y =>
              rw [outputs_pass hx]
              simp only [beforeMark, yields, hx, ih]
          | start a =>
              cases rs with
              | nil =>
                  rw [outputs_open hx]
                  simp only [beforeMark, yields, hx]
              | cons r rs =>
                  rw [outputs_resolved hx, beforeMark_append_some, ih]
                  simp only [beforeMark, yields, hx]

end Rule

end OneByOne
