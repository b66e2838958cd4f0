/-
`IntoIter`, the iterator that owns a `FuturesUnordered`.

`next` takes the future of the head out of its task and moves `head_all` on. It does not
unlink the task and does not release it, so the pointers and the lengths of the list are
only what `AllList.Chain` says from then on. Wakes of the old tasks go on meanwhile. The
drop of the iterator drops the set, when no waker is left.
-/
import TokioStreamUtil.FuturesUnordered.Model
import Mathlib.Tactic.Common

set_option autoImplicit false

namespace TokioStreamUtil

/-! ## The list under the iterator -/

namespace AllList

/-- What `IntoIter::next` does to the list: `head_all` moves on. -/
def advance (s : AllList) : AllList :=
  match s.head_all with
  | none => s
  | some t =>
      { s with
        head_all := (s.next_all t).task
        prev_all := match (s.next_all t).task with
          | none => s.prev_all
          | some n => Function.update s.prev_all n none }

/-- The pointers spell out `l`, and every length is at least what is left from its node
on: the head's need not be exact. -/
structure Chain (s : AllList) (l : List ℕ) : Prop where
  head : s.head_all = l.head?
  linked : DoublyLinked (fun t => (s.next_all t).task) s.prev_all l
  ready : ∀ t ∈ l, s.next_all t ≠ .pending
  len_rest : ∀ a t b, l = a ++ t :: b → b.length + 1 ≤ s.len_all t

variable {s : AllList} {l : List ℕ} {t : ℕ}

theorem Rep.chain (h : Rep s l) : Chain s l := ⟨h.head, h.linked, h.ready, h.len_rest⟩

namespace Chain

/-- The head points to the rest and has nothing before it. -/
theorem of_cons (h : Chain s (t :: l)) :
    s.head_all = some t ∧ s.next_all t = .ptr l.head? ∧ s.prev_all t = none := by
  obtain ⟨hnext, hprev⟩ := h.linked.links [] t l rfl
  exact ⟨h.head, NextAll.eq_ptr (h.ready t List.mem_cons_self) hnext, hprev⟩

theorem advance (h : Chain s (t :: l)) : Chain s.advance l := by
  obtain ⟨hhead, hnext, hprev⟩ := h.of_cons
  have hprevall : ∀ y, s.advance.prev_all y = if l.head? = some y then none else s.prev_all y := by
    intro y
    simp only [AllList.advance, hhead, hnext, NextAll.task]
    cases hl : l.head? with
    | none => simp
    | some n =>
        by_cases hyn : y = n
        · simp [hyn]
        · have hny : n ≠ y := Ne.symm hyn
          simp [hyn, hny]
  have hnextall : s.advance.next_all = s.next_all := by simp only [AllList.advance, hhead]
  have hlen : s.advance.len_all = s.len_all := by simp only [AllList.advance, hhead]
  refine ⟨?_, ?_, ?_, ?_⟩
  · simp only [AllList.advance, hhead, hnext, NextAll.task]
  · rw [hnextall]
    refine h.linked.remove (a := []) (x := t) (by simp) (fun y _ _ => rfl) ?_ ?_
    · intro y hy
      rw [hprevall, if_pos hy]
      rfl
    · intro y _ hy
      rw [hprevall, if_neg hy]
  · intro y hy
    rw [hnextall]
    exact h.ready y (List.mem_cons_of_mem t hy)
  · intro a y b hl
    rw [hlen]
    exact h.len_rest (t :: a) y b (by rw [hl]; rfl)

/-- `unlink` of the head, whose length may be out of date. -/
theorem unlink (h : Chain s (t :: l)) : Chain (s.unlink t) l := by
  obtain ⟨hhead, hnext, hprev⟩ := h.of_cons
  have hnodup := List.nodup_cons.mp h.linked.nodup
  have hnextall := unlink_next_all hnext hprev
  have hprevall := unlink_prev_all hnext hprev
  have hnewhead : (s.unlink t).head_all = l.head? := unlink_head_all hnext hprev
  have hne : ∀ y ∈ l, y ≠ t := by
    rintro y hy rfl
    exact hnodup.1 hy
  refine ⟨hnewhead, ?_, ?_, ?_⟩
  · refine h.linked.remove (a := []) (x := t) (by simp) ?_ ?_ ?_
    · intro y hyt _
      simp [hnextall, hyt]
    · intro y hy
      simp [hprevall, hy]
    · intro y hyt hy
      simp [hprevall, hyt, hy]
  · intro y hy
    simpa [hnextall, hne y hy] using h.ready y (List.mem_cons_of_mem t hy)
  · intro a y b hl
    have hrest := h.len_rest (t :: a) y b (by rw [hl]; rfl)
    rw [unlink_len_all, hnewhead]
    split
    · have hwhole := h.len_rest [] t l rfl
      have hlen : s.len = s.len_all t := by simp only [len, hhead]
      rw [hl] at hwhole
      simp only [List.length_append, List.length_cons] at hwhole
      omega
    · exact hrest

end Chain

end AllList

namespace FuturesUnordered

variable {F O W : Type} {A : AtomicWaker W}

/-! ## The iterator -/

/-- `futures_unordered::IntoIter`. `handed` and `dropped` are history: the futures that
`next` has returned, and those that the drop of the set has dropped, with their tasks. -/
structure IntoIter (F O W : Type) (A : AtomicWaker W) where
  len : ℕ
  inner : State F O W A
  handed : List (ℕ × F)
  dropped : List (ℕ × F)

/-- `FuturesUnordered::into_iter`. -/
def State.into_iter (s : State F O W A) : IntoIter F O W A where
  len := match s.all.head_all with
    | none => 0
    | some t => s.all.len_all t
  inner := s
  handed := []
  dropped := []

/-- The futures in the set, with their tasks. -/
def State.futures (s : State F O W A) : List (ℕ × F) :=
  (List.range s.fresh).filterMap fun t => (s.tasks t).future.map fun fut => (t, fut)

/-- The future that the next step of the drop drops. -/
def State.drops (s : State F O W A) : List (ℕ × F) :=
  match s.owner with
  | .drop (.dropFuture t _) => (s.tasks t).future.toList.map fun fut => (t, fut)
  | _ => []

namespace IntoIter

/-- `IntoIter::next`. It panics (`none`) where a task has no future to `unwrap`, or the
length is used up. -/
def next (i : IntoIter F O W A) : Option (Option F × IntoIter F O W A) :=
  match i.inner.all.head_all with
  | none => some (none, i)
  | some t =>
      match (i.inner.tasks t).future, i.len with
      | some fut, len + 1 =>
          some (some fut,
            { len := len
              inner :=
                { i.inner with
                  all := i.inner.all.advance
                  tasks := Function.update i.inner.tasks t
                    { i.inner.tasks t with future := none } }
              handed := i.handed ++ [(t, fut)]
              dropped := i.dropped })
      | _, _ => none

/-- What happens to an iterator: `next`, wakes on other threads until it is dropped, and
the drop, which comes when no waker is left. -/
inductive Act where
  | next
  | wake (j t : ℕ)
  | thread (j : ℕ)
  | drop
  | owner

/-- One step. -/
def step (i : IntoIter F O W A) : Act → Option (IntoIter F O W A)
  | .next => if i.inner.owner.isIdle then i.next.map Prod.snd else none
  | .wake j t =>
      if i.inner.owner.isIdle then
        (FuturesUnordered.step i.inner (.wake j t)).map fun s => { i with inner := s }
      else none
  | .thread j =>
      if i.inner.owner.isIdle then
        (FuturesUnordered.step i.inner (.thread j)).map fun s => { i with inner := s }
      else none
  | .drop =>
      if i.inner.holders = ∅ then
        (FuturesUnordered.step i.inner .drop).map fun s => { i with inner := s }
      else none
  | .owner =>
      (FuturesUnordered.step i.inner .owner).map fun s =>
        { i with inner := s, dropped := i.dropped ++ i.inner.drops }

end IntoIter

end FuturesUnordered

end TokioStreamUtil
