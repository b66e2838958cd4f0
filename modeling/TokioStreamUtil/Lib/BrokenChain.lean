/-
Singly linked chains some of whose links are still to be written.

A node is appended to such a chain in two moves: first it becomes the last node,
then, later, the node before it is made to point to it. Between the two moves
the link is a *hole*. Several holes may be open at once. `BrokenChain next hole
l` says that following `next` along `l` works everywhere except at the holes,
where the pointer is still null; the lemmas say what each move on such a chain
does: appending a node opens a hole, writing a link fills one, and the first
node may leave as soon as its own link is written.

Nodes and pointers are arbitrary: `next : ν → Option ν` over any type `ν`.
-/
import Mathlib.Data.List.Basic
import Mathlib.Data.List.Nodup
import Mathlib.Logic.Function.Basic

set_option autoImplicit false

variable {ν : Type*}

/-! ## Neighbours in a list -/

/-- `b` comes right after `a` in `l`. -/
def Neighbours (l : List ν) (a b : ν) : Prop :=
  ∃ i : ℕ, l[i]? = some a ∧ l[i + 1]? = some b

namespace Neighbours

variable {l : List ν} {a b c n : ν}

theorem mem_left (h : Neighbours l a b) : a ∈ l := by
  obtain ⟨i, hi, -⟩ := h
  exact List.mem_of_getElem? hi

theorem mem_right (h : Neighbours l a b) : b ∈ l := by
  obtain ⟨i, -, hi⟩ := h
  exact List.mem_of_getElem? hi

theorem right_unique (hl : l.Nodup) (hb : Neighbours l a b) (hc : Neighbours l a c) : b = c := by
  obtain ⟨i, hi, hib⟩ := hb
  obtain ⟨j, hj, hjc⟩ := hc
  have hlt : i < l.length := by grind
  have hij : i = j := (List.getElem?_inj hlt hl).mp (hi.trans hj.symm)
  subst hij
  rw [hib, Option.some.injEq] at hjc
  exact hjc

theorem cons_iff : Neighbours (n :: l) a b ↔ (a = n ∧ l.head? = some b) ∨ Neighbours l a b := by
  constructor
  · rintro ⟨i, hi, hib⟩
    cases i with
    | zero =>
        left
        rw [List.head?_eq_getElem?]
        grind
    | succ i => right; exact ⟨i, by grind, by grind⟩
  · rintro (⟨rfl, hb⟩ | ⟨i, hi, hib⟩)
    · rw [List.head?_eq_getElem?] at hb
      exact ⟨0, rfl, by grind⟩
    · exact ⟨i + 1, by grind, by grind⟩

theorem concat_iff :
    Neighbours (l ++ [n]) a b ↔ Neighbours l a b ∨ (l.getLast? = some a ∧ b = n) := by
  constructor
  · rintro ⟨i, hi, hib⟩
    by_cases h : i + 1 < l.length
    · left; exact ⟨i, by grind, by grind⟩
    · right
      have hlen : i + 1 = l.length := by grind
      refine ⟨?_, by grind⟩
      rw [List.getLast?_eq_getElem?]
      grind
  · rintro (⟨i, hi, hib⟩ | ⟨ha, rfl⟩)
    · exact ⟨i, by grind, by grind⟩
    · have hne : l ≠ [] := by rintro rfl; simp at ha
      have hpos : 0 < l.length := List.length_pos_iff.mpr hne
      rw [List.getLast?_eq_getElem?] at ha
      exact ⟨l.length - 1, by grind, by grind⟩

end Neighbours

/-! ## Chains with holes -/

/-- `l` is linked by `next` except at the pairs in `hole`, whose link is still null. -/
structure BrokenChain (next : ν → Option ν) (hole : ν → ν → Prop) (l : List ν) : Prop where
  nodup : l.Nodup
  linked : ∀ a b, Neighbours l a b → next a = some b ∨ hole a b
  holes : ∀ a b, hole a b → Neighbours l a b ∧ next a = none
  last : ∀ z, l.getLast? = some z → next z = none

namespace BrokenChain

variable {next : ν → Option ν} {hole hole' : ν → ν → Prop} {l : List ν} {a b n p : ν}

theorem singleton (hn : next n = none) : BrokenChain next (fun _ _ => False) [n] where
  nodup := List.nodup_singleton n
  linked := by
    rintro a b ⟨i, -, hib⟩
    simp at hib
  holes := by simp
  last := by simp [hn]

theorem congr_hole (h : BrokenChain next hole l) (hiff : ∀ a b, hole' a b ↔ hole a b) :
    BrokenChain next hole' l where
  nodup := h.nodup
  linked := fun a b hab => (h.linked a b hab).imp_right (hiff a b).mpr
  holes := fun a b hab => h.holes a b ((hiff a b).mp hab)
  last := h.last

/-- Nothing outside the chain matters to it. -/
theorem congr_next {next' : ν → Option ν} (h : BrokenChain next hole l)
    (heq : ∀ a ∈ l, next' a = next a) : BrokenChain next' hole l where
  nodup := h.nodup
  linked := by
    intro a b hab
    rw [heq a hab.mem_left]
    exact h.linked a b hab
  holes := by
    intro a b hab
    have hn := h.holes a b hab
    rw [heq a hn.1.mem_left]
    exact hn
  last := by
    intro z hz
    rw [heq z (List.mem_of_getLast? hz)]
    exact h.last z hz

/-- Appending a node whose own link is null opens one hole, between the old last
node and the new one. -/
theorem push_back (h : BrokenChain next hole l) (hp : l.getLast? = some p) (hn : n ∉ l)
    (hnull : next n = none) :
    BrokenChain next (fun a b => hole a b ∨ (a = p ∧ b = n)) (l ++ [n]) where
  nodup := by
    rw [List.nodup_append]
    refine ⟨h.nodup, List.nodup_singleton n, ?_⟩
    intro a ha b hb hab
    rw [List.mem_singleton] at hb
    exact hn (hb ▸ hab ▸ ha)
  linked := by
    intro a b hab
    rcases Neighbours.concat_iff.mp hab with hab | ⟨ha, rfl⟩
    · exact (h.linked a b hab).imp_right Or.inl
    · rw [hp, Option.some.injEq] at ha
      exact Or.inr (Or.inr ⟨ha.symm, rfl⟩)
  holes := by
    rintro a b (hab | ⟨rfl, rfl⟩)
    · exact ⟨Neighbours.concat_iff.mpr (Or.inl (h.holes a b hab).1), (h.holes a b hab).2⟩
    · exact ⟨Neighbours.concat_iff.mpr (Or.inr ⟨hp, rfl⟩), h.last a hp⟩
  last := by
    intro z hz
    rw [List.getLast?_concat, Option.some.injEq] at hz
    exact hz ▸ hnull

/-- Writing the link of a hole fills that hole and no other. -/
theorem fill [DecidableEq ν] (h : BrokenChain next hole l) (hab : hole a b) :
    BrokenChain (Function.update next a (some b)) (fun x y => hole x y ∧ x ≠ a) l where
  nodup := h.nodup
  linked := by
    intro x y hxy
    by_cases hx : x = a
    · subst hx
      have hy : y = b := hxy.right_unique h.nodup (h.holes x b hab).1
      left
      rw [Function.update_self, hy]
    · rw [Function.update_of_ne hx]
      exact (h.linked x y hxy).imp_right fun hh => ⟨hh, hx⟩
  holes := by
    rintro x y ⟨hxy, hx⟩
    rw [Function.update_of_ne hx]
    exact h.holes x y hxy
  last := by
    intro z hz
    have hza : z ≠ a := by
      rintro rfl
      obtain ⟨i, hi, hib⟩ := (h.holes z b hab).1
      rw [List.getLast?_eq_getElem?] at hz
      have hlt : i < l.length := by grind
      have hii := (List.getElem?_inj hlt h.nodup).mp (hi.trans hz.symm)
      have hlt' : i + 1 < l.length := by grind
      omega
    rw [Function.update_of_ne hza]
    exact h.last z hz

/-- The first node leaves once its link is written; the node it points to is the
one behind it. -/
theorem pop_front (h : BrokenChain next hole (a :: l)) (hab : next a = some b) :
    BrokenChain next hole l ∧ l.head? = some b := by
  have hne : l ≠ [] := by
    rintro rfl
    have hnull : next a = none := h.last a rfl
    rw [hab] at hnull
    cases hnull
  obtain ⟨c, l', rfl⟩ := List.exists_cons_of_ne_nil hne
  have hc : Neighbours (a :: c :: l') a c := Neighbours.cons_iff.mpr (Or.inl ⟨rfl, rfl⟩)
  have hbc : b = c := by
    rcases h.linked a c hc with hac | hac
    · rw [hab, Option.some.injEq] at hac
      exact hac
    · have hnull := (h.holes a c hac).2
      rw [hab] at hnull
      cases hnull
  refine ⟨⟨(List.nodup_cons.mp h.nodup).2, ?_, ?_, ?_⟩, by rw [hbc]; rfl⟩
  · intro x y hxy
    exact h.linked x y (Neighbours.cons_iff.mpr (Or.inr hxy))
  · intro x y hxy
    obtain ⟨hn, hnull⟩ := h.holes x y hxy
    refine ⟨?_, hnull⟩
    rcases Neighbours.cons_iff.mp hn with ⟨rfl, -⟩ | hn
    · rw [hab] at hnull
      cases hnull
    · exact hn
  · intro z hz
    exact h.last z (by rw [List.getLast?_cons_cons]; exact hz)

/-- A null link at the first node: it is the only node, or its link is a hole. -/
theorem head_null (h : BrokenChain next hole (a :: l)) (hnull : next a = none) :
    l = [] ∨ ∃ b, l.head? = some b ∧ hole a b := by
  cases l with
  | nil => exact Or.inl rfl
  | cons c l =>
      right
      have hc : Neighbours (a :: c :: l) a c := Neighbours.cons_iff.mpr (Or.inl ⟨rfl, rfl⟩)
      refine ⟨c, rfl, ?_⟩
      rcases h.linked a c hc with hac | hac
      · rw [hnull] at hac
        cases hac
      · exact hac

end BrokenChain
