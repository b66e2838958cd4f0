/-
A max heap by its documented behaviour.

`push` adds an element, `peek` shows a greatest one, `pop` removes the one `peek`
shows. The elements are kept from the greatest down, which the structure carries
as a field, so `peek` is the head. Nothing about a heap's shape in memory is
said: a user of a heap sees only the order.
-/
import Mathlib.Data.List.Sort

set_option autoImplicit false

/-- A max heap for the order `ge`, from the greatest element down. -/
structure MaxHeap (α : Type*) (ge : α → α → Prop) where
  elems : List α
  sorted : elems.Pairwise ge

namespace MaxHeap

variable {α : Type*} {ge : α → α → Prop}

/-- The empty heap. -/
def empty : MaxHeap α ge := ⟨[], List.Pairwise.nil⟩

/-- How many elements there are. -/
def len (h : MaxHeap α ge) : ℕ := h.elems.length

/-- A greatest element. -/
def peek (h : MaxHeap α ge) : Option α := h.elems.head?

/-- The heap without the element that `peek` shows. -/
def pop (h : MaxHeap α ge) : MaxHeap α ge := ⟨h.elems.tail, h.sorted.tail⟩

/-- The heap with one more element. -/
def push [DecidableRel ge] [Std.Total ge] [IsTrans α ge] (h : MaxHeap α ge) (x : α) :
    MaxHeap α ge :=
  ⟨h.elems.orderedInsert ge x, h.sorted.orderedInsert x h.elems⟩

theorem elems_of_peek {h : MaxHeap α ge} {x : α} (hx : h.peek = some x) :
    h.elems = x :: h.pop.elems := by
  unfold peek at hx
  show h.elems = x :: h.elems.tail
  cases he : h.elems with
  | nil => rw [he] at hx; cases hx
  | cons y ys =>
      rw [he] at hx
      cases hx
      rfl

/-- `pop` takes one element out of a heap that is not empty. -/
theorem len_pop {h : MaxHeap α ge} {x : α} (hx : h.peek = some x) : h.len = h.pop.len + 1 :=
  congrArg List.length (elems_of_peek hx)

theorem elems_of_peek_none {h : MaxHeap α ge} (hx : h.peek = none) : h.elems = [] :=
  List.head?_eq_none_iff.mp hx

/-- What `peek` shows is at least as great as every other element. -/
theorem ge_of_peek {h : MaxHeap α ge} {x y : α} (hx : h.peek = some x) (hy : y ∈ h.pop.elems) :
    ge x y := by
  have hsorted := h.sorted
  rw [elems_of_peek hx, List.pairwise_cons] at hsorted
  exact hsorted.1 y hy

section Push

variable [DecidableRel ge] [Std.Total ge] [IsTrans α ge]

theorem push_perm (h : MaxHeap α ge) (x : α) : (h.push x).elems.Perm (x :: h.elems) :=
  List.perm_orderedInsert ge x h.elems

theorem len_push (h : MaxHeap α ge) (x : α) : (h.push x).len = h.len + 1 :=
  (h.push_perm x).length_eq

@[simp] theorem mem_push {h : MaxHeap α ge} {x y : α} :
    y ∈ (h.push x).elems ↔ y = x ∨ y ∈ h.elems := by
  rw [(h.push_perm x).mem_iff, List.mem_cons]

end Push

end MaxHeap
