/-
Doubly linked lists given by two pointer functions.

`DoublyLinked next prev l` says that the pointers spell out the list `l`: at
every node `next` is the node after it and `prev` the node before it. The two
operations proved here are the ones intrusive lists perform in constant time:
pushing a node at the front and taking any node out. Both are stated for
arbitrary new pointer functions through what they must be on the nodes of the
list, so that it does not matter in which order an implementation writes them.
-/
import Mathlib.Data.List.Basic
import Mathlib.Data.List.Nodup

set_option autoImplicit false

variable {ν : Type*}

/-- The pointers `next` and `prev` spell out the list `l`. -/
structure DoublyLinked (next prev : ν → Option ν) (l : List ν) : Prop where
  nodup : l.Nodup
  links : ∀ a x b, l = a ++ x :: b → next x = b.head? ∧ prev x = a.getLast?

namespace DoublyLinked

variable {next prev next' prev' : ν → Option ν} {l a b : List ν} {x : ν}

theorem nil (next prev : ν → Option ν) : DoublyLinked next prev [] where
  nodup := List.nodup_nil
  links := by intro a x b h; simp at h

/-- A node is pushed at the front: it points to the old first node and back. -/
theorem push_front (h : DoublyLinked next prev l) (hx : x ∉ l) (hnext : next' x = l.head?)
    (hprev : prev' x = none) (hnext' : ∀ y ∈ l, next' y = next y)
    (hfirst : ∀ y, l.head? = some y → prev' y = some x)
    (hprev' : ∀ y ∈ l, l.head? ≠ some y → prev' y = prev y) :
    DoublyLinked next' prev' (x :: l) where
  nodup := List.nodup_cons.mpr ⟨hx, h.nodup⟩
  links := by
    intro a y b hsplit
    cases a with
    | nil =>
        simp only [List.nil_append, List.cons.injEq] at hsplit
        obtain ⟨rfl, rfl⟩ := hsplit
        exact ⟨hnext, hprev⟩
    | cons z a =>
        simp only [List.cons_append, List.cons.injEq] at hsplit
        obtain ⟨rfl, hl⟩ := hsplit
        have hy : y ∈ l := by rw [hl]; simp
        obtain ⟨hny, hpy⟩ := h.links a y b hl
        refine ⟨by rw [hnext' y hy, hny], ?_⟩
        cases a with
        | nil => rw [hfirst y (by rw [hl]; rfl)]; rfl
        | cons w a =>
            have hne : l.head? ≠ some y := by
              rw [hl]
              simp only [List.cons_append, List.head?_cons, ne_eq, Option.some.injEq]
              rintro rfl
              have hnodup := h.nodup
              rw [hl, List.cons_append, List.nodup_cons] at hnodup
              exact hnodup.1 (by simp)
            rw [hprev' y hy hne, hpy, List.getLast?_cons_cons]

/-- A node is taken out: its two neighbours point to each other. -/
theorem remove (h : DoublyLinked next prev (a ++ x :: b))
    (hnext : ∀ y, a.getLast? = some y → next' y = b.head?)
    (hnext' : ∀ y, y ≠ x → a.getLast? ≠ some y → next' y = next y)
    (hprev : ∀ y, b.head? = some y → prev' y = a.getLast?)
    (hprev' : ∀ y, y ≠ x → b.head? ≠ some y → prev' y = prev y) :
    DoublyLinked next' prev' (a ++ b) where
  nodup := by
    have hnodup := h.nodup
    grind [List.nodup_append, List.nodup_cons]
  links := by
    intro a' y b' hsplit
    have hnodup := h.nodup
    have hyx : y ≠ x := by
      rintro rfl
      have hmem : y ∈ a ++ b := by rw [hsplit]; simp
      grind [List.nodup_append, List.nodup_cons]
    rcases List.append_eq_append_iff.mp hsplit with ⟨c, rfl, hb⟩ | ⟨c, rfl, hc⟩
    · -- `y` lies behind the node taken out
      obtain ⟨hny, hpy⟩ := h.links (a ++ x :: c) y b' (by rw [hb]; simp)
      have hlast : a.getLast? ≠ some y := by
        intro hlast
        have hya := List.mem_of_getLast? hlast
        grind [List.nodup_append, List.nodup_cons]
      refine ⟨by rw [hnext' y hyx hlast, hny], ?_⟩
      cases c with
      | nil => rw [hprev y (by rw [hb]; rfl), List.append_nil]
      | cons z c =>
          have hhead : b.head? ≠ some y := by
            rw [hb]
            simp only [List.cons_append, List.head?_cons, ne_eq, Option.some.injEq]
            rintro rfl
            grind [List.nodup_append, List.nodup_cons]
          rw [hprev' y hyx hhead, hpy]
          simp [List.getLast?_append]
    · cases c with
      | nil =>
          -- `y` is the node right behind it
          simp only [List.nil_append] at hc
          obtain ⟨hny, hpy⟩ := h.links (a' ++ [x]) y b' (by rw [← hc]; simp)
          have hlast : a'.getLast? ≠ some y := by
            intro hlast
            have hya := List.mem_of_getLast? hlast
            grind [List.nodup_append, List.nodup_cons]
          simp only [List.append_nil] at hnext' hprev
          refine ⟨by rw [hnext' y hyx hlast, hny], ?_⟩
          rw [hprev y (by rw [← hc]; rfl)]
      | cons z c =>
          -- `y` lies before it
          simp only [List.cons_append, List.cons.injEq] at hc
          obtain ⟨rfl, rfl⟩ := hc
          obtain ⟨hny, hpy⟩ := h.links a' y (c ++ x :: b) (by simp)
          have hhead : b.head? ≠ some y := by
            intro hhead
            have hyb := List.mem_of_head? hhead
            grind [List.nodup_append, List.nodup_cons]
          refine ⟨?_, by rw [hprev' y hyx hhead, hpy]⟩
          cases c with
          | nil => rw [hnext y (by simp)]; rfl
          | cons w c =>
              have hlast : (a' ++ y :: w :: c).getLast? ≠ some y := by
                intro hlast
                have hyc : y ∈ w :: c := by
                  have hl : (w :: c).getLast? = some y := by
                    rw [← hlast]
                    simp [List.getLast?_append, List.getLast?_cons]
                  exact List.mem_of_getLast? hl
                grind [List.nodup_append, List.nodup_cons]
              rw [hnext' y hyx hlast, hny]
              rfl

/-- The pointers spell out one list from a given node on. -/
theorem unique {l' : List ν} (h : DoublyLinked next prev l) (h' : DoublyLinked next prev l')
    (hhead : l.head? = l'.head?) : l = l' := by
  -- by induction on what is left of the first list
  have hall : ∀ b a b' a', l = a ++ b → l' = a' ++ b' → b.head? = b'.head? → b = b' := by
    intro b
    induction b with
    | nil =>
        intro a b' a' _ _ hb
        exact (List.head?_eq_none_iff.mp hb.symm).symm
    | cons x b ih =>
        intro a b' a' hl hl' hb
        cases b' with
        | nil => cases hb
        | cons y b' =>
            obtain rfl : x = y := Option.some.inj hb
            have hnext : b.head? = b'.head? :=
              (h.links a x b hl).1.symm.trans (h'.links a' x b' hl').1
            rw [ih (a ++ [x]) b' (a' ++ [x]) (by rw [hl]; simp) (by rw [hl']; simp) hnext]
  exact hall l [] l' [] rfl rfl hhead

end DoublyLinked
