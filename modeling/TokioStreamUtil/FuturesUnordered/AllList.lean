/-
The list of all tasks of a `FuturesUnordered`: `head_all`, `next_all`,
`prev_all` and `len_all`, with `link` and `unlink` as the source writes them.

`AllList.Rep s l` says that the pointers spell out the list `l`, head first.
Lengths are stored per node and refreshed only at the head, so the invariant
says the head's length is exact and every other node's length is at least the
number of nodes from it to the end.
-/
import TokioStreamUtil.Lib.DoublyLinked
import Mathlib.Logic.Function.Basic

set_option autoImplicit false

namespace TokioStreamUtil

/-- A value of `next_all`: the reserved pending value (the address of the stub),
or a pointer to a task, null included. -/
inductive NextAll where
  | pending
  | ptr (t : Option ℕ)
  deriving DecidableEq, Repr

/-- The task a `next_all` value points to. -/
def NextAll.task : NextAll → Option ℕ
  | .pending => none
  | .ptr t => t

theorem NextAll.eq_ptr {x : NextAll} {n : Option ℕ} (hx : x ≠ .pending) (hn : x.task = n) :
    x = .ptr n := by
  cases x with
  | pending => exact absurd rfl hx
  | ptr m => exact congrArg NextAll.ptr hn

/-- The fields of the list of all tasks, over tasks numbered by allocation. -/
structure AllList where
  head_all : Option ℕ
  next_all : ℕ → NextAll
  prev_all : ℕ → Option ℕ
  len_all : ℕ → ℕ

namespace AllList

/-- No task yet; a task starts with `next_all` pending and `prev_all` null. -/
def new : AllList where
  head_all := none
  next_all := fun _ => .pending
  prev_all := fun _ => none
  len_all := fun _ => 0

/-- `FuturesUnordered::link`, run without another `link` in between. -/
def link (s : AllList) (t : ℕ) : AllList :=
  let next := s.head_all
  let new_len := match next with
    | none => 1
    | some n => s.len_all n + 1
  { head_all := some t
    next_all := Function.update s.next_all t (.ptr next)
    prev_all := match next with
      | none => s.prev_all
      | some n => Function.update s.prev_all n (some t)
    len_all := Function.update s.len_all t new_len }

/-- `FuturesUnordered::unlink`. -/
def unlink (s : AllList) (t : ℕ) : AllList :=
  let new_len := match s.head_all with
    | none => 0
    | some h => s.len_all h - 1
  let next := s.next_all t
  let prev := s.prev_all t
  let next_all := Function.update s.next_all t .pending
  let prev_all := Function.update s.prev_all t none
  let head_all := match prev with
    | none => next.task
    | some _ => s.head_all
  { head_all
    next_all := match prev with
      | none => next_all
      | some p => Function.update next_all p next
    prev_all := match next.task with
      | none => prev_all
      | some n => Function.update prev_all n prev
    len_all := match head_all with
      | none => s.len_all
      | some h => Function.update s.len_all h new_len }

/-- `FuturesUnordered::len`. -/
def len (s : AllList) : ℕ :=
  match s.head_all with
  | none => 0
  | some t => s.len_all t

/-- `FuturesUnordered::is_empty`. -/
def is_empty (s : AllList) : Bool := s.head_all.isNone

/-- The pointers spell out `l`, the head's length is that of `l`, the length of
any other node is at least what is left from it on, and tasks outside the list
are in the unlinked state. -/
structure Rep (s : AllList) (l : List ℕ) : Prop where
  head : s.head_all = l.head?
  linked : DoublyLinked (fun t => (s.next_all t).task) s.prev_all l
  ready : ∀ t ∈ l, s.next_all t ≠ .pending
  outside : ∀ t, t ∉ l → s.next_all t = .pending ∧ s.prev_all t = none
  len_head : ∀ t, l.head? = some t → s.len_all t = l.length
  len_rest : ∀ a t b, l = a ++ t :: b → b.length + 1 ≤ s.len_all t

variable {s : AllList} {l : List ℕ} {t : ℕ}

/-! ### What `unlink` writes

`n` and `p` are the neighbours of the task. -/

section Unlink

variable {n p : Option ℕ}

theorem unlink_head_all (hnext : s.next_all t = .ptr n) (hprev : s.prev_all t = p) :
    (s.unlink t).head_all = p.elim n fun _ => s.head_all := by
  simp only [unlink, hnext, hprev, NextAll.task]
  cases p with
  | none => rfl
  | some q => rfl

theorem unlink_next_all (hnext : s.next_all t = .ptr n) (hprev : s.prev_all t = p) (y : ℕ) :
    (s.unlink t).next_all y =
      if p = some y then .ptr n else if y = t then .pending else s.next_all y := by
  simp only [unlink, hnext, hprev]
  cases p with
  | none => by_cases hyt : y = t <;> simp [hyt]
  | some q =>
      by_cases hyq : y = q
      · simp [hyq]
      · have hqy : q ≠ y := Ne.symm hyq
        by_cases hyt : y = t <;> simp_all

theorem unlink_prev_all (hnext : s.next_all t = .ptr n) (hprev : s.prev_all t = p) (y : ℕ) :
    (s.unlink t).prev_all y =
      if n = some y then p else if y = t then none else s.prev_all y := by
  simp only [unlink, hnext, hprev, NextAll.task]
  cases n with
  | none => by_cases hyt : y = t <;> simp [hyt]
  | some m =>
      by_cases hym : y = m
      · simp [hym]
      · have hmy : m ≠ y := Ne.symm hym
        by_cases hyt : y = t <;> simp_all

/-- Only the new head gets a length: that of the old head less one. -/
theorem unlink_len_all (s : AllList) (t y : ℕ) :
    (s.unlink t).len_all y =
      if (s.unlink t).head_all = some y then s.len - 1 else s.len_all y := by
  have hdef : (s.unlink t).len_all = match (s.unlink t).head_all with
      | none => s.len_all
      | some m => Function.update s.len_all m
          (match s.head_all with
            | none => 0
            | some h => s.len_all h - 1) := rfl
  have hlen : (match s.head_all with
      | none => 0
      | some h => s.len_all h - 1) = s.len - 1 := by
    unfold len
    cases s.head_all with
    | none => rfl
    | some h => rfl
  rw [hdef, hlen]
  cases (s.unlink t).head_all with
  | none => simp
  | some m =>
      by_cases hym : y = m
      · simp [hym]
      · simp [hym, Ne.symm hym]

end Unlink

theorem rep_new : Rep new [] where
  head := rfl
  linked := DoublyLinked.nil _ _
  ready := by simp
  outside := fun _ _ => ⟨rfl, rfl⟩
  len_head := by simp
  len_rest := by intro a t b h; simp at h

namespace Rep

/-- The pointers alone tell which tasks are on the list. -/
theorem mem_iff (h : Rep s l) : t ∈ l ↔ s.next_all t ≠ .pending := by
  refine ⟨h.ready t, fun hne => ?_⟩
  by_contra hout
  exact hne (h.outside t hout).1

theorem len_eq (h : Rep s l) : s.len = l.length := by
  unfold len
  rw [h.head]
  cases l with
  | nil => rfl
  | cons t l => exact h.len_head t rfl

theorem is_empty_iff (h : Rep s l) : s.is_empty = true ↔ l = [] := by
  unfold is_empty
  rw [h.head]
  cases l <;> simp

/-- `link` puts the task in front. -/
theorem link (h : Rep s l) (ht : t ∉ l) : Rep (s.link t) (t :: l) where
  head := rfl
  linked := by
    refine h.linked.push_front ht ?_ ?_ ?_ ?_ ?_
    · simp [AllList.link, NextAll.task, h.head]
    · simp only [AllList.link, h.head]
      cases hl : l.head? with
      | none => exact (h.outside t ht).2
      | some n =>
          have hnt : t ≠ n := by rintro rfl; exact ht (List.mem_of_head? hl)
          simpa [hnt] using (h.outside t ht).2
    · intro y hy
      have hyt : y ≠ t := by rintro rfl; exact ht hy
      simp [AllList.link, hyt]
    · intro y hy
      simp [AllList.link, h.head, hy]
    · intro y hy hne
      simp only [AllList.link, h.head]
      cases hl : l.head? with
      | none => rfl
      | some n =>
          have hyn : y ≠ n := by rintro rfl; exact hne hl
          simp [hyn]
  ready := by
    intro y hy
    by_cases hyt : y = t
    · simp [AllList.link, hyt]
    · have hyl : y ∈ l := (List.mem_cons.mp hy).resolve_left hyt
      simpa [AllList.link, hyt] using h.ready y hyl
  outside := by
    intro y hy
    obtain ⟨hyt, hyl⟩ := not_or.mp (fun hor => hy (List.mem_cons.mpr hor))
    refine ⟨by simpa [AllList.link, hyt] using (h.outside y hyl).1, ?_⟩
    simp only [AllList.link, h.head]
    cases hl : l.head? with
    | none => exact (h.outside y hyl).2
    | some n =>
        have hyn : y ≠ n := by rintro rfl; exact hyl (List.mem_of_head? hl)
        simpa [hyn] using (h.outside y hyl).2
  len_head := by
    intro y hy
    simp only [List.head?_cons, Option.some.injEq] at hy
    subst hy
    simp only [AllList.link, Function.update_self, List.length_cons, h.head]
    cases hl : l.head? with
    | none => rw [List.head?_eq_none_iff] at hl; simp [hl]
    | some n => simp [h.len_head n hl]
  len_rest := by
    intro a y b hsplit
    cases a with
    | nil =>
        simp only [List.nil_append, List.cons.injEq] at hsplit
        obtain ⟨rfl, rfl⟩ := hsplit
        simp only [AllList.link, Function.update_self, h.head]
        cases hl : l.head? with
        | none => rw [List.head?_eq_none_iff] at hl; simp [hl]
        | some n => simp [h.len_head n hl]
    | cons z a =>
        simp only [List.cons_append, List.cons.injEq] at hsplit
        obtain ⟨rfl, hl⟩ := hsplit
        have hyt : y ≠ t := by rintro rfl; exact ht (by rw [hl]; simp)
        simpa [AllList.link, hyt] using h.len_rest a y b hl

/-- `unlink` takes the task out, wherever it stands. -/
theorem unlink {a b : List ℕ} (h : Rep s (a ++ t :: b)) : Rep (s.unlink t) (a ++ b) := by
  obtain ⟨hnext, hprev⟩ := h.linked.links a t b rfl
  have hnodup := h.linked.nodup
  have hta : t ∉ a ∧ t ∉ b := by grind [List.nodup_append, List.nodup_cons]
  have hready : s.next_all t = .ptr b.head? := NextAll.eq_ptr (h.ready t (by simp)) hnext
  have hnextall := unlink_next_all hready hprev
  have hprevall := unlink_prev_all hready hprev
  have hnewhead : (s.unlink t).head_all = (a ++ b).head? := by
    rw [unlink_head_all hready hprev]
    cases a with
    | nil => rfl
    | cons z a => simp [h.head, List.getLast?_cons]
  have hlen : ∀ y, (s.unlink t).len_all y =
      if (a ++ b).head? = some y then (a ++ b).length else s.len_all y := by
    intro y
    rw [unlink_len_all, hnewhead, h.len_eq]
    simp
  refine ⟨hnewhead, ?_, ?_, ?_, ?_, ?_⟩
  · refine h.linked.remove ?_ ?_ ?_ ?_
    · intro y hy
      simp [hnextall, hy, NextAll.task]
    · intro y hyt hy
      simp [hnextall, hy, hyt]
    · intro y hy
      simp [hprevall, hy]
    · intro y hyt hy
      simp [hprevall, hy, hyt]
  · intro y hy
    have hyt : y ≠ t := by rintro rfl; grind
    rw [hnextall, if_neg hyt]
    split
    · exact NextAll.noConfusion
    · exact h.ready y (by grind)
  · intro y hy
    rw [hnextall, hprevall]
    have hya : a.getLast? ≠ some y := fun hl => hy (by grind [List.mem_of_getLast?])
    have hyb : b.head? ≠ some y := fun hl => hy (by grind [List.mem_of_head?])
    rw [if_neg hya, if_neg hyb]
    by_cases hyt : y = t
    · simp [hyt]
    · simp only [hyt, if_false]
      exact h.outside y (by grind)
  · intro y hy
    rw [hlen, if_pos hy]
  · intro c y d hsplit
    rw [hlen]
    split
    · rw [hsplit]
      simp
    · rcases List.append_eq_append_iff.mp hsplit with ⟨e, rfl, hb⟩ | ⟨e, rfl, hd⟩
      · exact h.len_rest (a ++ t :: e) y d (by rw [hb]; simp)
      · cases e with
        | nil =>
            simp only [List.nil_append] at hd
            exact h.len_rest (c ++ [t]) y d (by rw [← hd]; simp)
        | cons z e =>
            simp only [List.cons_append, List.cons.injEq] at hd
            obtain ⟨rfl, rfl⟩ := hd
            have hle := h.len_rest c y (e ++ t :: b) (by simp)
            simp only [List.length_append, List.length_cons] at hle ⊢
            omega

theorem unique {l' : List ℕ} (h : Rep s l) (h' : Rep s l') : l = l' :=
  h.linked.unique h'.linked (h.head.symm.trans h'.head)

end Rep

/-- Every list without repetitions is spelled out by some pointers. -/
theorem exists_rep (l : List ℕ) (hl : l.Nodup) : ∃ s, Rep s l := by
  induction l with
  | nil => exact ⟨new, rep_new⟩
  | cons t l ih =>
      obtain ⟨hout, hl⟩ := List.nodup_cons.mp hl
      obtain ⟨s, hs⟩ := ih hl
      exact ⟨s.link t, hs.link hout⟩

end AllList

end TokioStreamUtil
