/-
The invariant of the list under shared references.

The tasks of the set are a list `l`, the task swapped in last in front. A task of it
whose `next_all` is pending is `Cut` off: a thread is in `link` with it, between the
swap and the store. Lengths are exact for the tasks from the front down to the head of
`b`, the list as the last exclusive operation left it, and nobody reads another.
-/
import TokioStreamUtil.FuturesUnordered.Shared

set_option autoImplicit false

/-! ## Suffixes -/

namespace List

variable {α : Type*} {l y z : List α} {t : α}

/-- In a list without repetitions a suffix is given by its first element. -/
theorem suffix_tail_unique (hl : l.Nodup) (h : (t :: y) <:+ l) (h' : (t :: z) <:+ l) : y = z := by
  have hunique : ∀ {u v : List α}, (t :: u) <:+ l → (t :: v) <:+ l → (t :: u) <:+ (t :: v) →
      u = v := by
    intro u v _ hv huv
    rcases List.suffix_cons_iff.mp huv with heq | hin
    · exact (List.cons.inj heq).2
    · have hnodup := List.nodup_cons.mp (hv.sublist.nodup hl)
      exact absurd (hin.subset List.mem_cons_self) hnodup.1
  rcases List.suffix_or_suffix_of_suffix h h' with hsuffix | hsuffix
  · exact hunique h h' hsuffix
  · exact (hunique h' h hsuffix).symm

/-- Every element is the first of a suffix. -/
theorem exists_suffix_of_mem (ht : t ∈ l) : ∃ y, (t :: y) <:+ l := by
  obtain ⟨a, y, rfl⟩ := List.append_of_mem ht
  exact ⟨y, List.suffix_append a (t :: y)⟩

/-- The elements behind the first of a suffix make one. -/
theorem suffix_of_cons_suffix (h : (t :: y) <:+ l) : y <:+ l := (List.suffix_cons t y).trans h

end List

namespace TokioStreamUtil.FuturesUnordered.Shared

variable {F : Type}

/-! ## The order of the swaps -/

/-- `t` was swapped in later than `u`. -/
def History.Later (hist : History) (t u : ℕ) : Prop :=
  ∃ i j, hist.swapped t = some i ∧ hist.swapped u = some j ∧ j < i

/-- The latest swap of `t` is no later than that of `h`, and both are in the set. -/
def History.noLater (hist : History) (h t : ℕ) : Bool :=
  match hist.swapped t, hist.swapped h with
  | some i, some j => decide (i ≤ j)
  | _, _ => false

/-- `l` are the tasks of the set, in reverse swap order. -/
structure Order (hist : History) (l : List ℕ) : Prop where
  sorted : l.Pairwise hist.Later
  mem : ∀ t, t ∈ l ↔ (hist.swapped t).isSome = true
  clock : ∀ t i, hist.swapped t = some i → i < hist.swaps

theorem History.Later.irrefl {hist : History} {t : ℕ} (h : hist.Later t t) : False := by
  obtain ⟨i, j, hi, hj, hlt⟩ := h
  rw [hi] at hj
  cases hj
  exact Nat.lt_irrefl i hlt

namespace Order

variable {hist : History} {l y : List ℕ} {t h : ℕ}

theorem new : Order { swaps := 0, swapped := fun _ => none } [] :=
  ⟨List.Pairwise.nil, fun _ => by simp, fun _ _ hi => nomatch hi⟩

theorem nodup (h : Order hist l) : l.Nodup :=
  h.sorted.imp fun hlater => by
    rintro rfl
    exact hlater.irrefl

/-- The task `t` is swapped in. -/
theorem swap (h : Order hist l) (ht : t ∉ l) :
    Order { swaps := hist.swaps + 1, swapped := Function.update hist.swapped t (some hist.swaps) }
      (t :: l) := by
  have hother : ∀ u ∈ l, Function.update hist.swapped t (some hist.swaps) u = hist.swapped u := by
    intro u hu
    have hne : u ≠ t := by
      rintro rfl
      exact ht hu
    exact Function.update_of_ne hne _ _
  refine ⟨List.pairwise_cons.mpr ⟨fun u hu => ?_, ?_⟩, fun u => ?_, fun u i hi => ?_⟩
  · obtain ⟨j, hj⟩ := Option.isSome_iff_exists.mp ((h.mem u).mp hu)
    exact ⟨hist.swaps, j, Function.update_self _ _ _, (hother u hu).trans hj, h.clock u j hj⟩
  · refine h.sorted.imp_of_mem fun hu hv hlater => ?_
    obtain ⟨i, j, hi, hj, hlt⟩ := hlater
    exact ⟨i, j, (hother _ hu).trans hi, (hother _ hv).trans hj, hlt⟩
  · by_cases hut : u = t
    · simp [hut]
    · simp [hut, h.mem u]
  · change Function.update hist.swapped t (some hist.swaps) u = some i at hi
    by_cases hut : u = t
    · rw [hut, Function.update_self] at hi
      cases hi
      exact Nat.lt_succ_self _
    · rw [Function.update_of_ne hut] at hi
      exact Nat.lt_succ_of_lt (h.clock u i hi)

/-- The task `t` is unlinked. -/
theorem remove {a y : List ℕ} (h : Order hist (a ++ t :: y)) :
    Order { hist with swapped := Function.update hist.swapped t none } (a ++ y) := by
  have hsub : (a ++ y).Sublist (a ++ t :: y) := (List.sublist_cons_self t y).append_left a
  have hnodup := h.nodup
  have hnot : t ∉ a ++ y := by
    have hperm : (a ++ t :: y).Perm (t :: (a ++ y)) := List.perm_middle
    exact (List.nodup_cons.mp (hperm.nodup_iff.mp hnodup)).1
  have hother : ∀ u ∈ a ++ y, Function.update hist.swapped t none u = hist.swapped u := by
    intro u hu
    have hne : u ≠ t := by
      rintro rfl
      exact hnot hu
    exact Function.update_of_ne hne _ _
  refine ⟨?_, fun u => ?_, fun u i hi => ?_⟩
  · refine (h.sorted.sublist hsub).imp_of_mem fun hu hv hlater => ?_
    obtain ⟨i, j, hi, hj, hlt⟩ := hlater
    exact ⟨i, j, (hother _ hu).trans hi, (hother _ hv).trans hj, hlt⟩
  · by_cases hut : u = t
    · subst hut
      simpa using hnot
    · have hmem := h.mem u
      simp only [List.mem_append, List.mem_cons, hut, false_or] at hmem ⊢
      simpa [hut] using hmem
  · change Function.update hist.swapped t none u = some i at hi
    by_cases hut : u = t
    · rw [hut, Function.update_self] at hi
      cases hi
    · rw [Function.update_of_ne hut] at hi
      exact h.clock u i hi

/-- From `h` on there are the tasks whose latest swap is no later than that of `h`. -/
theorem mem_suffix_iff (ho : Order hist l) (hsuffix : (h :: y) <:+ l) :
    t ∈ h :: y ↔ hist.noLater h t = true := by
  obtain ⟨a, rfl⟩ := hsuffix
  obtain ⟨j, hj⟩ := Option.isSome_iff_exists.mp
    ((ho.mem h).mp (List.mem_append_right a List.mem_cons_self))
  obtain ⟨-, hsorted, hbefore⟩ := List.pairwise_append.mp ho.sorted
  unfold History.noLater
  rw [hj]
  constructor
  · intro ht
    rcases List.mem_cons.mp ht with rfl | ht
    · rw [hj]
      exact decide_eq_true (le_refl j)
    · obtain ⟨j', i, hj', hi, hlt⟩ := (List.pairwise_cons.mp hsorted).1 t ht
      rw [hj] at hj'
      cases hj'
      rw [hi]
      exact decide_eq_true hlt.le
  · intro ht
    split at ht
    · rename_i i j' hi hj'
      cases hj'
      have hmem := (ho.mem t).mpr (by rw [hi]; rfl)
      rcases List.mem_append.mp hmem with hta | hty
      · obtain ⟨i', j', hi', hj', hlt⟩ := hbefore t hta h List.mem_cons_self
        rw [hi] at hi'
        rw [hj] at hj'
        cases hi'
        cases hj'
        exact absurd (of_decide_eq_true ht) (Nat.not_le.mpr hlt)
      · exact hty
    · cases ht

/-- Two neighbours, the one in front was swapped in later. -/
theorem later (ho : Order hist l) {u : ℕ} (hsuffix : (t :: u :: y) <:+ l) : hist.Later t u :=
  (List.pairwise_cons.mp (ho.sorted.sublist hsuffix.sublist)).1 u List.mem_cons_self

end Order

/-! ## The pointers -/

/-- The pointers and the lengths spell out `l`, but for the tasks that are `cut` off
and those whose `prev_all` is still to be written. Lengths are exact down to the head
of `b`. -/
structure Spells (all : AllList) (l b : List ℕ) (cut : ℕ → Prop) (behind : ℕ → ℕ → Prop) : Prop where
  head : all.head_all = l.head?
  next : ∀ t y, (t :: y) <:+ l →
    all.next_all t = .ptr y.head? ∨ all.next_all t = .pending ∧ cut t
  prev : ∀ p t y, (p :: t :: y) <:+ l →
    all.prev_all t = some p ∨ all.prev_all t = none ∧ behind p t
  first : ∀ t y, l = t :: y → all.prev_all t = none
  linked : ∀ t u y, (t :: u :: y) <:+ l → all.next_all t ≠ .pending → all.next_all u ≠ .pending
  outside : ∀ t, t ∉ l → all.next_all t = .pending ∧ all.prev_all t = none
  exact : ∀ t y, (t :: y) <:+ l → b <:+ (t :: y) → all.next_all t ≠ .pending →
    all.len_all t = y.length + 1
  atLeast : ∀ t y, (t :: y) <:+ b → y.length + 1 ≤ all.len_all t

namespace Spells

variable {all : AllList} {l b : List ℕ} {cut cut' : ℕ → Prop} {behind behind' : ℕ → ℕ → Prop}

theorem mono (h : Spells all l b cut behind) (hcut : ∀ t, cut t → cut' t)
    (hbehind : ∀ p t, behind p t → behind' p t) : Spells all l b cut' behind' where
  head := h.head
  next t y ht := (h.next t y ht).imp_right (And.imp_right (hcut t))
  prev p t y ht := (h.prev p t y ht).imp_right (And.imp_right (hbehind p t))
  first := h.first
  linked := h.linked
  outside := h.outside
  exact := h.exact
  atLeast := h.atLeast

/-- Where nobody is inside `link`, the pointers spell out the list. -/
theorem rep (h : Spells all l b cut behind) (hnodup : l.Nodup) (hbase : b <:+ l)
    (hcut : ∀ t, ¬ cut t) (hbehind : ∀ p t, ¬ behind p t) : all.Rep l where
  head := h.head
  linked := by
    refine ⟨hnodup, ?_⟩
    rintro a t y rfl
    have hnext := (h.next t y (List.suffix_append a _)).resolve_right fun hpending =>
      hcut t hpending.2
    refine ⟨by rw [hnext]; rfl, ?_⟩
    rcases List.eq_nil_or_concat a with rfl | ⟨a, p, rfl⟩
    · exact h.first t y rfl
    · rw [List.concat_eq_append, List.getLast?_concat]
      refine (h.prev p t y ?_).resolve_right fun hnone => hbehind p t hnone.2
      rw [List.concat_eq_append, List.append_assoc]
      exact List.suffix_append a _
  ready := by
    intro t ht
    obtain ⟨y, hy⟩ := List.exists_suffix_of_mem ht
    rcases h.next t y hy with hnext | ⟨-, hpending⟩
    · rw [hnext]
      exact NextAll.noConfusion
    · exact absurd hpending (hcut t)
  outside := h.outside
  len_head := by
    intro t ht
    obtain ⟨y, rfl⟩ := List.head?_eq_some_iff.mp ht
    refine h.exact t y (List.suffix_refl _) hbase ?_
    rcases h.next t y (List.suffix_refl _) with hnext | ⟨-, hpending⟩
    · rw [hnext]
      exact NextAll.noConfusion
    · exact absurd hpending (hcut t)
  len_rest := by
    rintro a t y rfl
    have hsuffix : (t :: y) <:+ (a ++ t :: y) := List.suffix_append a _
    rcases List.suffix_or_suffix_of_suffix hbase hsuffix with hbelow | habove
    · refine le_of_eq (h.exact t y hsuffix hbelow ?_).symm
      rcases h.next t y hsuffix with hnext | ⟨-, hpending⟩
      · rw [hnext]
        exact NextAll.noConfusion
      · exact absurd hpending (hcut t)
    · exact h.atLeast t y habove

/-- And the other way round, with the whole list as base. -/
theorem of_rep (h : all.Rep l) (cut : ℕ → Prop) (behind : ℕ → ℕ → Prop) :
    Spells all l l cut behind where
  head := h.head
  next := by
    rintro t y ⟨a, rfl⟩
    left
    have hnext := (h.linked.links a t y rfl).1
    have hready := h.ready t (List.mem_append_right a List.mem_cons_self)
    cases hn : all.next_all t with
    | pending => exact absurd hn hready
    | ptr n =>
        rw [hn] at hnext
        exact congrArg NextAll.ptr hnext
  prev := by
    rintro p t y ⟨a, rfl⟩
    left
    have hprev := (h.linked.links (a ++ [p]) t y (by rw [List.append_assoc]; rfl)).2
    rw [hprev, List.getLast?_concat]
  first := by
    rintro t y rfl
    exact (h.linked.links [] t y rfl).2
  linked t u y hy _ := h.ready u (hy.subset (List.mem_cons_of_mem t List.mem_cons_self))
  outside := h.outside
  exact := by
    intro t y ht hl _
    have heq : l = t :: y := (hl.eq_of_length_le ht.length_le)
    rw [h.len_head t (by rw [heq]; rfl), heq]
    rfl
  atLeast := by
    rintro t y ⟨a, rfl⟩
    exact h.len_rest a t y rfl

/-- `t` is swapped in. -/
theorem swapHead {t : ℕ} (h : Spells all l b cut behind) (ht : t ∉ l) (hcut : ∀ u, cut u → cut' u)
    (hcut' : cut' t) (hbehind : ∀ p u, behind p u → behind' p u)
    (hbehind' : ∀ n, l.head? = some n → behind' t n) (hbase : b <:+ l) :
    Spells { all with head_all := some t } (t :: l) b cut' behind' where
  head := rfl
  next u y hu := by
    rcases List.suffix_cons_iff.mp hu with heq | hin
    · obtain ⟨rfl, rfl⟩ := List.cons.inj heq
      exact Or.inr ⟨(h.outside u ht).1, hcut'⟩
    · exact (h.next u y hin).imp_right (And.imp_right (hcut u))
  prev p u y hu := by
    rcases List.suffix_cons_iff.mp hu with heq | hin
    · obtain ⟨rfl, rfl⟩ := List.cons.inj heq
      exact Or.inr ⟨h.first u y rfl, hbehind' u rfl⟩
    · exact (h.prev p u y hin).imp_right (And.imp_right (hbehind p u))
  first u y hu := by
    obtain ⟨rfl, rfl⟩ := List.cons.inj hu
    exact (h.outside _ ht).2
  linked u v y hu hready := by
    rcases List.suffix_cons_iff.mp hu with heq | hin
    · obtain ⟨rfl, -⟩ := List.cons.inj heq
      exact absurd (h.outside u ht).1 hready
    · exact h.linked u v y hin hready
  outside u hu := h.outside u fun hin => hu (List.mem_cons_of_mem t hin)
  exact u y hu hb hready := by
    rcases List.suffix_cons_iff.mp hu with heq | hin
    · obtain ⟨rfl, rfl⟩ := List.cons.inj heq
      exact absurd (h.outside u ht).1 hready
    · exact h.exact u y hin hb hready
  atLeast := h.atLeast

/-- The length of a task that is cut off is written. -/
theorem writeLen {t : ℕ} (h : Spells all l b cut behind) (hpending : all.next_all t = .pending)
    (ht : t ∉ b) (len : ℕ) :
    Spells { all with len_all := Function.update all.len_all t len } l b cut behind where
  head := h.head
  next := h.next
  prev := h.prev
  first := h.first
  linked := h.linked
  outside := h.outside
  exact u y hu hb hready := by
    have hne : u ≠ t := by
      rintro rfl
      exact hready hpending
    exact (Function.update_of_ne hne _ _).trans (h.exact u y hu hb hready)
  atLeast u y hu := by
    have hne : u ≠ t := by
      rintro rfl
      exact ht (hu.subset List.mem_cons_self)
    exact (h.atLeast u y hu).trans (le_of_eq (Function.update_of_ne hne _ _).symm)

/-- `next_all` of a task that is cut off is stored. -/
theorem storeNext {t : ℕ} {y : List ℕ} (h : Spells all l b cut behind) (hnodup : l.Nodup)
    (ht : (t :: y) <:+ l) (hlen : all.len_all t = y.length + 1)
    (hready : ∀ n, y.head? = some n → all.next_all n ≠ .pending) (hcut : ∀ u, u ≠ t → cut u → cut' u)
    (hbehind : ∀ p u, behind p u → behind' p u) :
    Spells { all with next_all := Function.update all.next_all t (.ptr y.head?) } l b cut' behind' where
  head := h.head
  next u z hu := by
    by_cases hut : u = t
    · subst hut
      left
      rw [List.suffix_tail_unique hnodup hu ht]
      exact Function.update_self _ _ _
    · refine (h.next u z hu).imp (Function.update_of_ne hut _ _).trans ?_
      exact And.imp (Function.update_of_ne hut _ _).trans (hcut u hut)
  prev p u z hu := (h.prev p u z hu).imp_right (And.imp_right (hbehind p u))
  first := h.first
  linked u v z hu hlinked := by
    by_cases hvt : v = t
    · rw [hvt]
      exact fun hpending => NextAll.noConfusion ((Function.update_self _ _ _).symm.trans hpending)
    · intro hpending
      have hv : all.next_all v = .pending := (Function.update_of_ne hvt _ _).symm.trans hpending
      by_cases hut : u = t
      · subst hut
        refine hready v ?_ hv
        rw [← List.suffix_tail_unique hnodup hu ht]
        rfl
      · refine h.linked u v z hu (fun hu' => hlinked ?_) hv
        exact (Function.update_of_ne hut _ _).trans hu'
  outside u hu := by
    have hne : u ≠ t := by
      rintro rfl
      exact hu (ht.subset List.mem_cons_self)
    exact ⟨(Function.update_of_ne hne _ _).trans (h.outside u hu).1, (h.outside u hu).2⟩
  exact u z hu hb hready := by
    by_cases hut : u = t
    · subst hut
      rw [List.suffix_tail_unique hnodup hu ht]
      exact hlen
    · refine h.exact u z hu hb fun hpending => hready ?_
      exact (Function.update_of_ne hut _ _).trans hpending
  atLeast := h.atLeast

/-- `prev_all` of the old head is written. -/
theorem writePrev {t n : ℕ} {y : List ℕ} (h : Spells all l b cut behind) (hnodup : l.Nodup)
    (ht : (t :: n :: y) <:+ l) (hcut : ∀ u, cut u → cut' u)
    (hbehind : ∀ p u, u ≠ n → behind p u → behind' p u) :
    Spells { all with prev_all := Function.update all.prev_all n (some t) } l b cut' behind' where
  head := h.head
  next u z hu := (h.next u z hu).imp_right (And.imp_right (hcut u))
  prev p u z hu := by
    by_cases hun : u = n
    · subst hun
      left
      -- the one in front of `n` is `t`
      obtain ⟨a, ha⟩ := hu
      obtain ⟨a', ha'⟩ := ht
      have hpt : a ++ [p] = a' ++ [t] := by
        have hz := List.suffix_tail_unique hnodup (t := u) (y := z) (z := y)
          ⟨a ++ [p], by rw [List.append_assoc]; exact ha⟩
          ⟨a' ++ [t], by rw [List.append_assoc]; exact ha'⟩
        subst hz
        have heq : (a ++ [p]) ++ (u :: z) = (a' ++ [t]) ++ (u :: z) := by
          rw [List.append_assoc, List.append_assoc]
          exact ha.trans ha'.symm
        exact List.append_cancel_right heq
      rw [(List.append_inj' hpt rfl).2 |> List.cons.inj |>.1]
      exact Function.update_self _ _ _
    · refine (h.prev p u z hu).imp (Function.update_of_ne hun _ _).trans ?_
      exact And.imp (Function.update_of_ne hun _ _).trans (hbehind p u hun)
  first u z hu := by
    have hne : u ≠ n := by
      rintro rfl
      obtain ⟨a, ha⟩ := ht
      rw [hu] at ha hnodup
      cases a with
      | nil =>
          obtain ⟨-, rfl⟩ := List.cons.inj ha
          exact (List.nodup_cons.mp hnodup).1 List.mem_cons_self
      | cons v a =>
          obtain ⟨-, rfl⟩ := List.cons.inj ha
          exact (List.nodup_cons.mp hnodup).1 (by simp)
    exact (Function.update_of_ne hne _ _).trans (h.first u z hu)
  linked := h.linked
  outside u hu := by
    have hne : u ≠ n := by
      rintro rfl
      exact hu (ht.subset (List.mem_cons_of_mem t List.mem_cons_self))
    exact ⟨(h.outside u hu).1, (Function.update_of_ne hne _ _).trans (h.outside u hu).2⟩
  exact := h.exact
  atLeast := h.atLeast

end Spells

/-! ## The calls -/

/-- The task that the thread links, up to the store of its `next_all`. -/
def Pc.task : Pc → Option ℕ
  | .link t => some t
  | .spin t _ => some t
  | .readLen t _ => some t
  | .writeLen t _ _ => some t
  | .storeNext t _ => some t
  | _ => none

/-- The same, from the swap on. -/
def Pc.cut : Pc → Option ℕ
  | .link _ => none
  | pc => pc.task

/-- The task that the thread links and the old head, up to the write of `prev_all`. -/
def Pc.behind : Pc → Option (ℕ × ℕ)
  | .spin t n => some (t, n)
  | .readLen t n => some (t, n)
  | .writeLen t next _ => next.map fun n => (t, n)
  | .storeNext t next => next.map fun n => (t, n)
  | .writePrev t n => some (t, n)
  | _ => none

/-- The list from `t` on is that of some `y`, and not shorter than `b`. -/
def From (l b : List ℕ) (t : ℕ) : Prop := ∃ y, (t :: y) <:+ l ∧ b <:+ (t :: y)

/-- How far a traversal from `head` has come: it has yielded `yielded` of the list, and
the rest is what the iterator still counts. -/
def Traversal (l : List ℕ) (head : Option ℕ) (it : IterPinRef) (yielded : List ℕ) : Prop :=
  ∃ left, (yielded ++ left) <:+ l ∧ (yielded ++ left).head? = head ∧ it.task = left.head? ∧
    it.len = left.length

/-- The old head, if there was one, is linked. -/
def Ready (all : AllList) (next : Option ℕ) : Prop := ∀ n, next = some n → all.next_all n ≠ .pending

/-- What a thread relies on. -/
def Pc.Inv (all : AllList) (future : ℕ → Prop) (l b : List ℕ) : Pc → Prop
  | .idle => True
  | .link t => t ∉ l ∧ future t
  | .spin t n => (∃ y, (t :: n :: y) <:+ l ∧ b <:+ (n :: y)) ∧ all.next_all t = .pending
  | .readLen t n =>
      (∃ y, (t :: n :: y) <:+ l ∧ b <:+ (n :: y)) ∧ all.next_all t = .pending ∧
        all.next_all n ≠ .pending
  | .writeLen t next new_len =>
      (∃ y, (t :: y) <:+ l ∧ b <:+ y ∧ next = y.head? ∧ new_len = y.length + 1) ∧
        all.next_all t = .pending ∧ Ready all next
  | .storeNext t next =>
      (∃ y, (t :: y) <:+ l ∧ b <:+ y ∧ next = y.head? ∧ all.len_all t = y.length + 1) ∧
        all.next_all t = .pending ∧ Ready all next
  | .writePrev t n => ∃ y, (t :: n :: y) <:+ l
  | .loadHead _ => True
  | .spinHead _ h => From l b h
  | .readHeadLen _ h => From l b h ∧ all.next_all h ≠ .pending
  | .len head n => ∃ y, y <:+ l ∧ y.head? = head ∧ n = y.length
  | .iter head it yielded => Traversal l head it yielded ∧ Ready all it.task
  | .overflowed => False

/-- What others do to the list does not touch a thread: the list grows in front, tasks
that are linked stay so, and nobody else writes to the task that the thread links. -/
theorem Pc.Inv.mono {all all' : AllList} {future future' : ℕ → Prop} {l l' b : List ℕ} {pc : Pc}
    (h : pc.Inv all future l b) (hl : l <:+ l')
    (hready : ∀ t, all.next_all t ≠ .pending → all'.next_all t ≠ .pending)
    (hfuture : ∀ t, future t → future' t)
    (hown : ∀ t, pc.task = some t → (t ∉ l → t ∉ l') ∧ all'.next_all t = all.next_all t ∧
      all'.len_all t = all.len_all t) : pc.Inv all' future' l' b := by
  cases pc with
  | idle => trivial
  | link t => exact ⟨(hown t rfl).1 h.1, hfuture t h.2⟩
  | spin t n =>
      obtain ⟨⟨y, hy, hb⟩, hpending⟩ := h
      exact ⟨⟨y, hy.trans hl, hb⟩, (hown t rfl).2.1.trans hpending⟩
  | readLen t n =>
      obtain ⟨⟨y, hy, hb⟩, hpending, hn⟩ := h
      exact ⟨⟨y, hy.trans hl, hb⟩, (hown t rfl).2.1.trans hpending, hready n hn⟩
  | writeLen t next new_len =>
      obtain ⟨⟨y, hy, hb, hnext, hlen⟩, hpending, hn⟩ := h
      exact ⟨⟨y, hy.trans hl, hb, hnext, hlen⟩, (hown t rfl).2.1.trans hpending,
        fun n hnext => hready n (hn n hnext)⟩
  | storeNext t next =>
      obtain ⟨⟨y, hy, hb, hnext, hlen⟩, hpending, hn⟩ := h
      obtain ⟨-, hsame, hsame'⟩ := hown t rfl
      exact ⟨⟨y, hy.trans hl, hb, hnext, hsame'.trans hlen⟩, hsame.trans hpending,
        fun n hnext => hready n (hn n hnext)⟩
  | writePrev t n =>
      obtain ⟨y, hy⟩ := h
      exact ⟨y, hy.trans hl⟩
  | loadHead c => trivial
  | spinHead c head =>
      obtain ⟨y, hy, hb⟩ := h
      exact ⟨y, hy.trans hl, hb⟩
  | readHeadLen c head =>
      obtain ⟨⟨y, hy, hb⟩, hn⟩ := h
      exact ⟨⟨y, hy.trans hl, hb⟩, hready head hn⟩
  | len head n =>
      obtain ⟨y, hy, hhead, hlen⟩ := h
      exact ⟨y, hy.trans hl, hhead, hlen⟩
  | iter head it yielded =>
      obtain ⟨⟨left, hy, hhead, htask, hlen⟩, hn⟩ := h
      exact ⟨⟨left, hy.trans hl, hhead, htask, hlen⟩, fun n ht => hready n (hn n ht)⟩
  | overflowed => exact h

/-! ## The invariant -/

/-- A thread is in `link` with `t`, between the swap and the store. -/
def State.Cut (s : State F) (t : ℕ) : Prop := ∃ i, (s.threads i).cut = some t

/-- A thread is in `link` with `p`, and has not yet written `prev_all` of `t`. -/
def State.Behind (s : State F) (p t : ℕ) : Prop := ∃ i, (s.threads i).behind = some (p, t)

/-- The task has its future. -/
def State.HasFuture (s : State F) (t : ℕ) : Prop := (s.future t).isSome = true

/-- The invariant: `l` is the list, and `b` what the last exclusive operation left. -/
structure State.Inv (s : State F) (l b : List ℕ) : Prop where
  order : Order s.hist l
  base : b <:+ l
  list : Spells s.all l b s.Cut s.Behind
  calls : ∀ i, (s.threads i).Inv s.all s.HasFuture l b
  unique : ∀ i j t, (s.threads i).task = some t → (s.threads j).task = some t → i = j
  borrows : ∀ i, i ∈ s.borrows ↔ s.threads i ≠ .idle
  future : ∀ t ∈ l, s.HasFuture t
  fresh : ∀ t, s.HasFuture t → t < s.fresh

/-- What some thread is at, it is still at when one thread has moved and kept it. -/
theorem exists_update {s s' : State F} {i : ℕ} {pc : Pc} {P : Pc → Prop}
    (hthreads : s'.threads = Function.update s.threads i pc) (hown : P (s.threads i) → P pc)
    (h : ∃ j, P (s.threads j)) : ∃ j, P (s'.threads j) := by
  obtain ⟨j, hj⟩ := h
  refine ⟨j, ?_⟩
  rw [hthreads]
  by_cases hji : j = i
  · subst hji
    rw [Function.update_self]
    exact hown hj
  · rw [Function.update_of_ne hji]
    exact hj

/-- A thread that moves on keeps the others' tasks cut off, and its own unless it has
stored `next_all`. -/
theorem cut_update {s s' : State F} {i : ℕ} {pc : Pc}
    (hthreads : s'.threads = Function.update s.threads i pc) {t : ℕ}
    (hown : (s.threads i).cut = some t → pc.cut = some t) (h : s.Cut t) : s'.Cut t :=
  exists_update (P := fun pc => pc.cut = some t) hthreads hown h

theorem behind_update {s s' : State F} {i : ℕ} {pc : Pc}
    (hthreads : s'.threads = Function.update s.threads i pc) {p t : ℕ}
    (hown : (s.threads i).behind = some (p, t) → pc.behind = some (p, t)) (h : s.Behind p t) :
    s'.Behind p t :=
  exists_update (P := fun pc => pc.behind = some (p, t)) hthreads hown h

/-- Who borrows the set, after a thread has moved on inside its call. -/
theorem borrows_update {s : State F} {l b : List ℕ} (h : s.Inv l b) {i : ℕ} {pc : Pc}
    (hi : s.threads i ≠ .idle) (hpc : pc ≠ .idle) (j : ℕ) :
    j ∈ s.borrows ↔ Function.update s.threads i pc j ≠ .idle := by
  by_cases hji : j = i
  · subst hji
    rw [Function.update_self, h.borrows]
    exact ⟨fun _ => hpc, fun _ => hi⟩
  · rw [Function.update_of_ne hji]
    exact h.borrows j

theorem borrows_insert {s : State F} {l b : List ℕ} (h : s.Inv l b) {i : ℕ} {pc : Pc}
    (hpc : pc ≠ .idle) (j : ℕ) :
    j ∈ insert i s.borrows ↔ Function.update s.threads i pc j ≠ .idle := by
  rw [Finset.mem_insert]
  by_cases hji : j = i
  · subst hji
    rw [Function.update_self]
    exact ⟨fun _ => hpc, fun _ => Or.inl rfl⟩
  · rw [Function.update_of_ne hji, h.borrows]
    exact ⟨fun hj => hj.resolve_left hji, Or.inr⟩

theorem borrows_erase {s : State F} {l b : List ℕ} (h : s.Inv l b) (i j : ℕ) :
    j ∈ s.borrows.erase i ↔ Function.update s.threads i .idle j ≠ .idle := by
  rw [Finset.mem_erase]
  by_cases hji : j = i
  · subst hji
    rw [Function.update_self]
    exact ⟨fun hj => absurd rfl hj.1, fun hj => absurd rfl hj⟩
  · rw [Function.update_of_ne hji, h.borrows]
    exact ⟨fun hj => hj.2, fun hj => ⟨hji, hj⟩⟩

namespace State.Inv

variable {s s' : State F} {l l' b : List ℕ}

/-- **A thread moves on.** The list may have grown in front; what the thread wrote is
its own, and what is asked for is what the thread relies on next. -/
theorem thread (h : s.Inv l b) {i : ℕ} (pc : Pc)
    (hthreads : s'.threads = Function.update s.threads i pc)
    (hborrows : ∀ j, j ∈ s'.borrows ↔ s'.threads j ≠ .idle) (hfuture : s'.future = s.future)
    (hfresh : s'.fresh = s.fresh) (horder : Order s'.hist l') (hl : l <:+ l')
    (hlist : Spells s'.all l' b s'.Cut s'.Behind) (hmem : ∀ t ∈ l', s.HasFuture t)
    (hready : ∀ t, s.all.next_all t ≠ .pending → s'.all.next_all t ≠ .pending)
    (hother : ∀ j t, j ≠ i → (s.threads j).task = some t → (t ∉ l → t ∉ l') ∧
      s'.all.next_all t = s.all.next_all t ∧ s'.all.len_all t = s.all.len_all t)
    (hself : pc.Inv s'.all s.HasFuture l' b)
    (htask : ∀ t, pc.task = some t → (s.threads i).task = some t) : s'.Inv l' b where
  order := horder
  base := h.base.trans hl
  list := hlist
  calls j := by
    have hsame : s'.HasFuture = s.HasFuture := by
      unfold State.HasFuture
      rw [hfuture]
    rw [hthreads, hsame]
    by_cases hji : j = i
    · subst hji
      rw [Function.update_self]
      exact hself
    · rw [Function.update_of_ne hji]
      exact (h.calls j).mono hl hready (fun _ ht => ht) fun t ht => hother j t hji ht
  unique j k t hj hk := by
    have hback : ∀ m, (s'.threads m).task = some t → (s.threads m).task = some t := by
      intro m hm
      rw [hthreads] at hm
      by_cases hmi : m = i
      · subst hmi
        rw [Function.update_self] at hm
        exact htask t hm
      · rw [Function.update_of_ne hmi] at hm
        exact hm
    exact h.unique j k t (hback j hj) (hback k hk)
  borrows := hborrows
  future t ht := by
    unfold State.HasFuture
    rw [hfuture]
    exact hmem t ht
  fresh t ht := by
    unfold State.HasFuture at ht
    rw [hfuture] at ht
    rw [hfresh]
    exact h.fresh t ht

/-- A thread moves on without writing anything. -/
theorem move (h : s.Inv l b) {i : ℕ} {pc : Pc} (hi : s.threads i ≠ .idle) (hpc : pc ≠ .idle)
    (hself : pc.Inv s.all s.HasFuture l b)
    (htask : ∀ t, pc.task = some t → (s.threads i).task = some t)
    (hcut : ∀ t, (s.threads i).cut = some t → pc.cut = some t)
    (hbehind : ∀ p t, (s.threads i).behind = some (p, t) → pc.behind = some (p, t)) :
    (s.setThread i pc).Inv l b :=
  h.thread pc rfl (borrows_update h hi hpc) rfl rfl h.order (List.suffix_refl l)
    (h.list.mono (fun t => cut_update rfl (hcut t)) fun p t => behind_update rfl (hbehind p t))
    h.future (fun _ ht => ht) (fun _ _ _ _ => ⟨id, rfl, rfl⟩) hself htask

/-- A thread gives its reference back. -/
theorem release (h : s.Inv l b) {i : ℕ} (hcut : (s.threads i).cut = none)
    (hbehind : (s.threads i).behind = none) : (s.release i).Inv l b := by
  refine h.thread .idle rfl (borrows_erase h i) rfl rfl h.order (List.suffix_refl l)
    (h.list.mono (fun t => cut_update rfl fun ht => ?_) fun p t => behind_update rfl fun ht => ?_)
    h.future (fun _ ht => ht) (fun _ _ _ _ => ⟨id, rfl, rfl⟩) trivial fun t ht => nomatch ht
  · rw [hcut] at ht
    cases ht
  · rw [hbehind] at ht
    cases ht

/-- A thread's task has been allocated. -/
theorem task_lt (h : s.Inv l b) {i t : ℕ} (ht : (s.threads i).task = some t) : t < s.fresh := by
  have hcall := h.calls i
  have hlisted : t ∈ l → t < s.fresh := fun hmem => h.fresh t (h.future t hmem)
  cases hpc : s.threads i with
  | link u =>
      rw [hpc] at ht hcall
      cases ht
      exact h.fresh t hcall.2
  | spin u n =>
      rw [hpc] at ht hcall
      cases ht
      obtain ⟨⟨y, hy, -⟩, -⟩ := hcall
      exact hlisted (hy.subset List.mem_cons_self)
  | readLen u n =>
      rw [hpc] at ht hcall
      cases ht
      obtain ⟨⟨y, hy, -⟩, -⟩ := hcall
      exact hlisted (hy.subset List.mem_cons_self)
  | writeLen u next new_len =>
      rw [hpc] at ht hcall
      cases ht
      obtain ⟨⟨y, hy, -⟩, -⟩ := hcall
      exact hlisted (hy.subset List.mem_cons_self)
  | storeNext u next =>
      rw [hpc] at ht hcall
      cases ht
      obtain ⟨⟨y, hy, -⟩, -⟩ := hcall
      exact hlisted (hy.subset List.mem_cons_self)
  | _ =>
      rw [hpc] at ht
      cases ht

/-- What a thread that links `t` does to its fields is no matter of the other threads. -/
theorem other_of_task (h : s.Inv l b) {i t : ℕ} (ht : (s.threads i).task = some t) {j u : ℕ}
    (hji : j ≠ i) (hu : (s.threads j).task = some u) : u ≠ t := by
  rintro rfl
  exact hji (h.unique j i u hu ht)

/-! ### `push` -/

theorem push (h : s.Inv l b) {i : ℕ} (hi : s.threads i = .idle) (future : F) :
    (s.push i future).Inv l b := by
  have hgrows : ∀ t, s.HasFuture t → (s.push i future).HasFuture t := by
    intro t ht
    have hne : t ≠ s.fresh := Nat.ne_of_lt (h.fresh t ht)
    show (Function.update s.future s.fresh (some future) t).isSome = true
    rw [Function.update_of_ne hne]
    exact ht
  have hcut : ∀ t, s.Cut t → (s.push i future).Cut t := fun t =>
    cut_update rfl fun ht => by
      rw [hi] at ht
      cases ht
  have hbehind : ∀ p t, s.Behind p t → (s.push i future).Behind p t := fun p t =>
    behind_update rfl fun ht => by
      rw [hi] at ht
      cases ht
  refine ⟨h.order, h.base, h.list.mono hcut hbehind, fun j => ?_, fun j k t hj hk => ?_,
    borrows_insert h Pc.noConfusion, fun t ht => hgrows t (h.future t ht), fun t ht => ?_⟩
  · show (Function.update s.threads i (.link s.fresh) j).Inv s.all _ l b
    by_cases hji : j = i
    · rw [hji, Function.update_self]
      refine ⟨fun hmem => Nat.lt_irrefl _ (h.fresh _ (h.future _ hmem)), ?_⟩
      show (Function.update s.future s.fresh (some future) s.fresh).isSome = true
      rw [Function.update_self]
      rfl
    · rw [Function.update_of_ne hji]
      exact (h.calls j).mono (List.suffix_refl l) (fun _ ht => ht) hgrows fun _ _ => ⟨id, rfl, rfl⟩
  · -- the new task is nobody else's
    have hback : ∀ m, ((s.push i future).threads m).task = some t →
        m = i ∧ t = s.fresh ∨ m ≠ i ∧ (s.threads m).task = some t := by
      intro m hm
      change (Function.update s.threads i (.link s.fresh) m).task = some t at hm
      by_cases hmi : m = i
      · rw [hmi, Function.update_self] at hm
        exact Or.inl ⟨hmi, (Option.some.inj hm).symm⟩
      · rw [Function.update_of_ne hmi] at hm
        exact Or.inr ⟨hmi, hm⟩
    rcases hback j hj with ⟨hji, ht⟩ | ⟨-, hj'⟩
    · rcases hback k hk with ⟨hki, -⟩ | ⟨-, hk'⟩
      · exact hji.trans hki.symm
      · exact absurd ht (Nat.ne_of_lt (h.task_lt hk'))
    · rcases hback k hk with ⟨-, ht⟩ | ⟨-, hk'⟩
      · exact absurd ht (Nat.ne_of_lt (h.task_lt hj'))
      · exact h.unique j k t hj' hk'
  · change (Function.update s.future s.fresh (some future) t).isSome = true at ht
    by_cases hts : t = s.fresh
    · rw [hts]
      exact Nat.lt_succ_self _
    · rw [Function.update_of_ne hts] at ht
      exact Nat.lt_succ_of_lt (h.fresh t ht)

theorem swapHead (h : s.Inv l b) {i t : ℕ} (hi : s.threads i = .link t) :
    (s.swapHead i t).Inv (t :: l) b := by
  have hcall := h.calls i
  rw [hi] at hcall
  obtain ⟨ht, hfut⟩ := hcall
  have htask : (s.threads i).task = some t := by
    rw [hi]
    rfl
  have hpending := (h.list.outside t ht).1
  have hother : ∀ j u, j ≠ i → (s.threads j).task = some u → (u ∉ l → u ∉ t :: l) ∧
      s.all.next_all u = s.all.next_all u ∧ s.all.len_all u = s.all.len_all u := by
    intro j u hji hu
    refine ⟨fun hnot hmem => ?_, rfl, rfl⟩
    exact (List.mem_cons.mp hmem).elim (h.other_of_task htask hji hu) hnot
  have hmem : ∀ u ∈ t :: l, s.HasFuture u := by
    intro u hu
    rcases List.mem_cons.mp hu with rfl | hu
    · exact hfut
    · exact h.future u hu
  cases hl : l.head? with
  | none =>
      have hthreads : (s.swapHead i t).threads = Function.update s.threads i (.writeLen t none 1) := by
        unfold State.swapHead
        rw [h.list.head, hl]
      obtain rfl := List.head?_eq_none_iff.mp hl
      refine h.thread _ hthreads ?_ rfl rfl (h.order.swap ht) (List.suffix_cons t [])
        (h.list.swapHead ht (fun u => cut_update hthreads ?_) ⟨i, ?_⟩
          (fun p u => behind_update hthreads ?_) (fun n hn => ?_) h.base) hmem (fun _ hu => hu) hother
        ⟨⟨[], List.suffix_refl _, h.base, rfl, rfl⟩, hpending, fun n hn => nomatch hn⟩ fun u hu => ?_
      · rw [hthreads]
        exact borrows_update h (by rw [hi]; exact Pc.noConfusion) Pc.noConfusion
      · rw [hi]
        exact fun hu => nomatch hu
      · rw [hthreads, Function.update_self]
        rfl
      · rw [hi]
        exact fun hu => nomatch hu
      · cases hn
      · exact htask.trans hu
  | some n =>
      have hthreads : (s.swapHead i t).threads = Function.update s.threads i (.spin t n) := by
        unfold State.swapHead
        rw [h.list.head, hl]
      obtain ⟨y, rfl⟩ := List.head?_eq_some_iff.mp hl
      refine h.thread _ hthreads ?_ rfl rfl (h.order.swap ht) (List.suffix_cons t _)
        (h.list.swapHead ht (fun u => cut_update hthreads ?_) ⟨i, ?_⟩
          (fun p u => behind_update hthreads ?_) (fun m hm => ⟨i, ?_⟩) h.base) hmem (fun _ hu => hu)
        hother ⟨⟨y, List.suffix_refl _, h.base⟩, hpending⟩ fun u hu => ?_
      · rw [hthreads]
        exact borrows_update h (by rw [hi]; exact Pc.noConfusion) Pc.noConfusion
      · rw [hi]
        exact fun hu => nomatch hu
      · rw [hthreads, Function.update_self]
        rfl
      · rw [hi]
        exact fun hu => nomatch hu
      · cases hm
        rw [hthreads, Function.update_self]
        rfl
      · exact htask.trans hu

theorem spin (h : s.Inv l b) {i t n : ℕ} (hi : s.threads i = .spin t n) :
    (s.spin i t n).Inv l b := by
  have hcall := h.calls i
  rw [hi] at hcall
  obtain ⟨hy, hpending⟩ := hcall
  unfold State.spin
  split
  · rename_i hready
    refine h.move (by rw [hi]; exact Pc.noConfusion) Pc.noConfusion
      ⟨hy, hpending, of_decide_eq_true hready⟩ ?_ ?_ ?_
    · rw [hi]
      exact fun _ hu => hu
    · rw [hi]
      exact fun _ hu => hu
    · rw [hi]
      exact fun _ _ hu => hu
  · exact h

theorem readLen (h : s.Inv l b) {i t n : ℕ} (hi : s.threads i = .readLen t n) :
    (s.readLen i t n).Inv l b := by
  have hcall := h.calls i
  rw [hi] at hcall
  obtain ⟨⟨y, hy, hb⟩, hpending, hready⟩ := hcall
  have hlen := h.list.exact n y (List.suffix_of_cons_suffix hy) hb hready
  refine h.move (by rw [hi]; exact Pc.noConfusion) Pc.noConfusion
    ⟨⟨n :: y, hy, hb, rfl, by rw [hlen]; rfl⟩, hpending, fun m hm => ?_⟩ ?_ ?_ ?_
  · cases hm
    exact hready
  · rw [hi]
    exact fun _ hu => hu
  · rw [hi]
    exact fun _ hu => hu
  · rw [hi]
    exact fun _ _ hu => hu

theorem writeLen (h : s.Inv l b) {i t new_len : ℕ} {next : Option ℕ}
    (hi : s.threads i = .writeLen t next new_len) : (s.writeLen i t next new_len).Inv l b := by
  have hcall := h.calls i
  rw [hi] at hcall
  obtain ⟨⟨y, hy, hb, hnext, hlen⟩, hpending, hready⟩ := hcall
  have htask : (s.threads i).task = some t := by
    rw [hi]
    rfl
  have htb : t ∉ b := by
    intro hmem
    have hnodup := List.nodup_cons.mp (hy.sublist.nodup h.order.nodup)
    exact hnodup.1 (hb.subset hmem)
  refine h.thread (.storeNext t next) rfl
    (borrows_update h (by rw [hi]; exact Pc.noConfusion) Pc.noConfusion) rfl rfl h.order
    (List.suffix_refl l) ((h.list.writeLen hpending htb new_len).mono (fun u => cut_update rfl ?_)
      fun p u => behind_update rfl ?_) h.future (fun _ hu => hu) (fun j u hji hu => ?_)
    ⟨⟨y, hy, hb, hnext, ?_⟩, hpending, hready⟩ fun u hu => ?_
  · rw [hi]
    exact fun hu => hu
  · rw [hi]
    exact fun hu => hu
  · exact ⟨id, rfl, Function.update_of_ne (h.other_of_task htask hji hu) _ _⟩
  · exact (Function.update_self _ _ _).trans hlen
  · exact htask.trans hu

theorem storeNext (h : s.Inv l b) {i t : ℕ} {next : Option ℕ}
    (hi : s.threads i = .storeNext t next) : (s.storeNext i t next).Inv l b := by
  have hcall := h.calls i
  rw [hi] at hcall
  obtain ⟨⟨y, hy, hb, rfl, hlen⟩, hpending, hnext⟩ := hcall
  have htask : (s.threads i).task = some t := by
    rw [hi]
    rfl
  have hready : ∀ u, s.all.next_all u ≠ .pending →
      Function.update s.all.next_all t (.ptr y.head?) u ≠ .pending := by
    intro u hu
    by_cases hut : u = t
    · rw [hut, Function.update_self]
      exact NextAll.noConfusion
    · rw [Function.update_of_ne hut]
      exact hu
  have hother : ∀ j u, j ≠ i → (s.threads j).task = some u → (u ∉ l → u ∉ l) ∧
      Function.update s.all.next_all t (.ptr y.head?) u = s.all.next_all u ∧
        s.all.len_all u = s.all.len_all u :=
    fun j u hji hu => ⟨id, Function.update_of_ne (h.other_of_task htask hji hu) _ _, rfl⟩
  have hcut : ∀ u, u ≠ t → (s.threads i).cut = some u → False := by
    intro u hut hu
    rw [hi] at hu
    exact hut (Option.some.inj hu).symm
  cases hl : y.head? with
  | none =>
      have heq : s.storeNext i t none = State.release { s with all := { s.all with
          next_all := Function.update s.all.next_all t (.ptr none) } } i := rfl
      rw [hl] at hi
      rw [heq, ← hl]
      refine h.thread .idle rfl (borrows_erase h i) rfl rfl h.order (List.suffix_refl l)
        (h.list.storeNext h.order.nodup hy hlen hnext
          (fun u hut => cut_update rfl fun hu => (hcut u hut hu).elim)
          fun p u => behind_update rfl fun hu => ?_) h.future hready hother trivial
        fun u hu => nomatch hu
      rw [hi] at hu
      cases hu
  | some n =>
      have heq : s.storeNext i t (some n) = State.setThread { s with all := { s.all with
          next_all := Function.update s.all.next_all t (.ptr (some n)) } } i (.writePrev t n) := rfl
      rw [hl] at hi
      rw [heq, ← hl]
      obtain ⟨z, rfl⟩ := List.head?_eq_some_iff.mp hl
      refine h.thread (.writePrev t n) rfl
        (borrows_update h (by rw [hi]; exact Pc.noConfusion) Pc.noConfusion) rfl rfl h.order
        (List.suffix_refl l) (h.list.storeNext h.order.nodup hy hlen hnext
          (fun u hut => cut_update rfl fun hu => (hcut u hut hu).elim)
          fun p u => behind_update rfl fun hu => ?_) h.future hready hother ⟨z, hy⟩
        fun u hu => nomatch hu
      rw [hi] at hu
      exact hu

theorem writePrev (h : s.Inv l b) {i t n : ℕ} (hi : s.threads i = .writePrev t n) :
    (s.writePrev i t n).Inv l b := by
  have hcall := h.calls i
  rw [hi] at hcall
  obtain ⟨y, hy⟩ := hcall
  refine h.thread .idle rfl (borrows_erase h i) rfl rfl h.order (List.suffix_refl l)
    (h.list.writePrev h.order.nodup hy (fun u => cut_update rfl fun hu => ?_)
      fun p u hun => behind_update rfl fun hu => ?_) h.future (fun _ hu => hu)
    (fun _ _ _ _ => ⟨id, rfl, rfl⟩) trivial fun u hu => nomatch hu
  · rw [hi] at hu
    cases hu
  · rw [hi] at hu
    cases hu
    exact absurd rfl hun

/-! ### `len` and `iter_pin_ref` -/

theorem begin (h : s.Inv l b) {i : ℕ} (hi : s.threads i = .idle) (c : Caller) :
    (s.begin i c).Inv l b := by
  refine h.thread (.loadHead c) rfl (borrows_insert h Pc.noConfusion) rfl rfl h.order
    (List.suffix_refl l) (h.list.mono (fun t => cut_update rfl fun ht => ?_) fun p t =>
      behind_update rfl fun ht => ?_) h.future (fun _ ht => ht) (fun _ _ _ _ => ⟨id, rfl, rfl⟩) trivial
    fun t ht => nomatch ht
  · rw [hi] at ht
    cases ht
  · rw [hi] at ht
    cases ht

/-- A thread that links nothing moves on without writing anything. -/
theorem look (h : s.Inv l b) {i : ℕ} {pc : Pc} (hi : s.threads i ≠ .idle) (hpc : pc ≠ .idle)
    (hlinks : (s.threads i).cut = none ∧ (s.threads i).behind = none)
    (hself : pc.Inv s.all s.HasFuture l b) (htask : pc.task = none) : (s.setThread i pc).Inv l b := by
  refine h.move hi hpc hself (fun t ht => ?_) (fun t ht => ?_) fun p t ht => ?_
  · rw [htask] at ht
    cases ht
  · rw [hlinks.1] at ht
    cases ht
  · rw [hlinks.2] at ht
    cases ht

theorem loaded_ne_idle (c : Caller) (head : Option ℕ) (n : ℕ) : loaded c head n ≠ .idle := by
  cases c with
  | len => exact Pc.noConfusion
  | iter_pin_ref => exact Pc.noConfusion

theorem loaded_task (c : Caller) (head : Option ℕ) (n : ℕ) : (loaded c head n).task = none := by
  cases c with
  | len => rfl
  | iter_pin_ref => rfl

/-- `atomic_load_head_and_len_all` returns the head of a part of the list and its length. -/
theorem loaded_inv {y : List ℕ} (hy : y <:+ l) {all : AllList} (hready : Ready all y.head?)
    (c : Caller) (future : ℕ → Prop) : (loaded c y.head? y.length).Inv all future l b := by
  cases c with
  | len => exact ⟨y, hy, rfl, rfl⟩
  | iter_pin_ref => exact ⟨⟨y, hy, rfl, rfl, rfl⟩, hready⟩

theorem loadHead (h : s.Inv l b) {i : ℕ} {c : Caller} (hi : s.threads i = .loadHead c) :
    (s.loadHead i c).Inv l b := by
  have hbusy : s.threads i ≠ .idle := by
    rw [hi]
    exact Pc.noConfusion
  have hlinks : (s.threads i).cut = none ∧ (s.threads i).behind = none := by
    rw [hi]
    exact ⟨rfl, rfl⟩
  unfold State.loadHead
  rw [h.list.head]
  cases hl : l.head? with
  | none =>
      obtain rfl := List.head?_eq_none_iff.mp hl
      exact h.look hbusy (loaded_ne_idle c none 0) hlinks
        (loaded_inv (List.suffix_refl []) (fun n hn => nomatch hn) c s.HasFuture) (loaded_task c none 0)
  | some head =>
      obtain ⟨y, rfl⟩ := List.head?_eq_some_iff.mp hl
      exact h.look hbusy Pc.noConfusion hlinks ⟨y, List.suffix_refl _, h.base⟩ rfl

theorem spinHead (h : s.Inv l b) {i head : ℕ} {c : Caller} (hi : s.threads i = .spinHead c head) :
    (s.spinHead i c head).Inv l b := by
  have hcall := h.calls i
  rw [hi] at hcall
  unfold State.spinHead
  split
  · rename_i hready
    exact h.look (by rw [hi]; exact Pc.noConfusion) Pc.noConfusion (by rw [hi]; exact ⟨rfl, rfl⟩)
      ⟨hcall, of_decide_eq_true hready⟩ rfl
  · exact h

theorem readHeadLen (h : s.Inv l b) {i head : ℕ} {c : Caller}
    (hi : s.threads i = .readHeadLen c head) : (s.readHeadLen i c head).Inv l b := by
  have hcall := h.calls i
  rw [hi] at hcall
  obtain ⟨⟨y, hy, hb⟩, hready⟩ := hcall
  have hlen : s.all.len_all head = (head :: y).length := h.list.exact head y hy hb hready
  unfold State.readHeadLen
  rw [hlen]
  refine h.look (by rw [hi]; exact Pc.noConfusion) (loaded_ne_idle c _ _)
    (by rw [hi]; exact ⟨rfl, rfl⟩) (loaded_inv (y := head :: y) hy (fun n hn => ?_) c s.HasFuture)
    (loaded_task c _ _)
  cases hn
  exact hready

/-- What a traversal that stands at a task finds there. -/
theorem next_all_of_traversal (h : s.Inv l b) {head : Option ℕ} {it : IterPinRef} {yielded : List ℕ}
    {t : ℕ} {next : Option ℕ} (hit : Traversal l head it yielded) (ht : it.task = some t)
    (hnext : s.all.next_all t = .ptr next) :
    it.len ≠ 0 ∧ Traversal l head { task := next, len := it.len - 1 } (yielded ++ [t]) ∧
      Ready s.all next := by
  obtain ⟨left, hl, hhead, htask, hlen⟩ := hit
  obtain ⟨y, rfl⟩ := List.head?_eq_some_iff.mp (htask.symm.trans ht)
  have hassoc : (yielded ++ [t]) ++ y = yielded ++ t :: y := by
    rw [List.append_assoc]
    rfl
  have hy : next = y.head? := by
    rcases h.list.next t y ((List.suffix_append yielded _).trans hl) with hlinked | ⟨hpending, -⟩
    · exact NextAll.ptr.inj (hnext.symm.trans hlinked)
    · rw [hpending] at hnext
      cases hnext
  rw [hlen]
  refine ⟨Nat.succ_ne_zero _, ⟨y, ?_, ?_, hy, rfl⟩, fun n hn => ?_⟩
  · rw [hassoc]
    exact hl
  · rw [hassoc]
    exact hhead
  · -- what a linked task points to is linked
    obtain ⟨z, rfl⟩ := List.head?_eq_some_iff.mp (hy.symm.trans hn)
    refine h.list.linked t n z ((List.suffix_append yielded _).trans hl) ?_
    rw [hnext]
    exact NextAll.noConfusion

theorem next (h : s.Inv l b) {i : ℕ} {head : Option ℕ} {it : IterPinRef} {yielded : List ℕ}
    (hi : s.threads i = .iter head it yielded) : (s.next i head it yielded).Inv l b := by
  have hcall := h.calls i
  rw [hi] at hcall
  unfold State.next
  split
  · exact h
  · rename_i t ht
    split
    · exact h
    · rename_i next hnext
      obtain ⟨hpos, hrest⟩ := h.next_all_of_traversal hcall.1 ht hnext
      rw [if_neg hpos]
      exact h.look (by rw [hi]; exact Pc.noConfusion) Pc.noConfusion (by rw [hi]; exact ⟨rfl, rfl⟩)
        hrest rfl

theorem leave (h : s.Inv l b) {i : ℕ} (hi : (s.threads i).returned = true) : (s.release i).Inv l b := by
  cases hpc : s.threads i with
  | len head n => exact h.release (by rw [hpc]; rfl) (by rw [hpc]; rfl)
  | iter head it yielded => exact h.release (by rw [hpc]; rfl) (by rw [hpc]; rfl)
  | _ =>
      rw [hpc] at hi
      cases hi

end State.Inv

/-! ## Between the calls -/

/-- Nobody borrows the set, and its list is `l`, as exclusive operations leave it. -/
structure State.Rest (s : State F) (l : List ℕ) : Prop where
  all : s.all.Rep l
  order : Order s.hist l
  threads : ∀ i, s.threads i = .idle
  borrows : s.borrows = ∅
  future : ∀ t ∈ l, s.HasFuture t
  fresh : ∀ t, s.HasFuture t → t < s.fresh

theorem State.rest_new : (State.new : State F).Rest [] where
  all := AllList.rep_new
  order := Order.new
  threads _ := rfl
  borrows := rfl
  future _ ht := nomatch ht
  fresh _ ht := nomatch ht

namespace State.Rest

variable {s : State F} {l : List ℕ} {t : ℕ}

theorem inv (h : s.Rest l) : s.Inv l l where
  order := h.order
  base := List.suffix_refl l
  list := Spells.of_rep h.all _ _
  calls i := by
    rw [h.threads i]
    trivial
  unique i j t hi := by
    rw [h.threads i] at hi
    cases hi
  borrows i := by
    rw [h.borrows, h.threads i]
    simp
  future := h.future
  fresh := h.fresh

/-- What is reached by calls under shared references is again such a state, once they
have all come to their end. -/
theorem of_inv {b : List ℕ} (h : s.Inv l b) (hfree : s.borrows = ∅) : s.Rest l := by
  have hidle : ∀ i, s.threads i = .idle := by
    intro i
    by_contra hi
    have hmem := (h.borrows i).mpr hi
    rw [hfree] at hmem
    exact absurd hmem (Finset.notMem_empty i)
  have hcut : ∀ t, ¬ s.Cut t := by
    rintro t ⟨i, hi⟩
    rw [hidle i] at hi
    cases hi
  have hbehind : ∀ p t, ¬ s.Behind p t := by
    rintro p t ⟨i, hi⟩
    rw [hidle i] at hi
    cases hi
  exact ⟨h.list.rep h.order.nodup h.base hcut hbehind, h.order, hidle, hfree, h.future, h.fresh⟩

theorem unlink (h : s.Rest l) (ht : (s.hist.swapped t).isSome = true) : ∃ l', (s.unlink t).Rest l' := by
  obtain ⟨a, y, rfl⟩ := List.append_of_mem ((h.order.mem t).mpr ht)
  refine ⟨a ++ y, h.all.unlink, h.order.remove, h.threads, h.borrows, fun u hu => ?_, h.fresh⟩
  exact h.future u (((List.sublist_cons_self t y).append_left a).subset hu)

theorem not_mem (h : s.Rest l) (ht : s.hist.swapped t = none) : t ∉ l := by
  intro hmem
  have hset := (h.order.mem t).mp hmem
  rw [ht] at hset
  cases hset

theorem relink (h : s.Rest l) (ht : s.hist.swapped t = none) (hfut : (s.future t).isSome = true) :
    (s.relink t).Rest (t :: l) := by
  refine ⟨h.all.link (h.not_mem ht), h.order.swap (h.not_mem ht), h.threads, h.borrows,
    fun u hu => ?_, h.fresh⟩
  rcases List.mem_cons.mp hu with rfl | hu
  · exact hfut
  · exact h.future u hu

theorem setFuture (h : s.Rest l) (ht : (s.future t).isSome = true) (future : F) :
    (s.setFuture t future).Rest l := by
  have hsame : (s.setFuture t future).HasFuture = s.HasFuture := by
    funext u
    unfold State.HasFuture State.setFuture
    by_cases hut : u = t
    · subst hut
      simp [ht]
    · simp [hut]
  refine ⟨h.all, h.order, h.threads, h.borrows, ?_, ?_⟩
  · rw [hsame]
    exact h.future
  · rw [hsame]
    exact h.fresh

theorem dropFuture (h : s.Rest l) (ht : s.hist.swapped t = none) : (s.dropFuture t).Rest l := by
  have hother : ∀ u, u ≠ t → ((s.dropFuture t).HasFuture u ↔ s.HasFuture u) := by
    intro u hut
    unfold State.HasFuture State.dropFuture
    simp [hut]
  refine ⟨h.all, h.order, h.threads, h.borrows, fun u hu => ?_, fun u hu => ?_⟩
  · refine (hother u ?_).mpr (h.future u hu)
    rintro rfl
    exact h.not_mem ht hu
  · by_cases hut : u = t
    · unfold State.HasFuture State.dropFuture at hu
      simp [hut] at hu
    · exact h.fresh u ((hother u hut).mp hu)

end State.Rest

/-! ## The invariant of a run -/

/-- A step that links nothing leaves the list as it is. -/
theorem inv_kept {s' : State F} {l b : List ℕ} (h : s'.Inv l b) : ∃ l', l <:+ l' ∧ s'.Inv l' b :=
  ⟨l, List.suffix_refl l, h⟩

/-- **One step of a call under shared references.** The list only grows in front, and
the part that exclusive operations left stays what it is. -/
theorem inv_stepThread {s s' : State F} {l b : List ℕ} {i : ℕ} (h : s.Inv l b)
    (hstep : stepThread s i = some s') : ∃ l', l <:+ l' ∧ s'.Inv l' b := by
  unfold stepThread at hstep
  cases hi : s.threads i with
  | link t =>
      rw [hi] at hstep
      exact ⟨t :: l, List.suffix_cons t l, Option.some.inj hstep ▸ h.swapHead hi⟩
  | spin t n =>
      rw [hi] at hstep
      exact inv_kept (Option.some.inj hstep ▸ h.spin hi)
  | readLen t n =>
      rw [hi] at hstep
      exact inv_kept (Option.some.inj hstep ▸ h.readLen hi)
  | writeLen t next new_len =>
      rw [hi] at hstep
      exact inv_kept (Option.some.inj hstep ▸ h.writeLen hi)
  | storeNext t next =>
      rw [hi] at hstep
      exact inv_kept (Option.some.inj hstep ▸ h.storeNext hi)
  | writePrev t n =>
      rw [hi] at hstep
      exact inv_kept (Option.some.inj hstep ▸ h.writePrev hi)
  | loadHead c =>
      rw [hi] at hstep
      exact inv_kept (Option.some.inj hstep ▸ h.loadHead hi)
  | spinHead c head =>
      rw [hi] at hstep
      exact inv_kept (Option.some.inj hstep ▸ h.spinHead hi)
  | readHeadLen c head =>
      rw [hi] at hstep
      exact inv_kept (Option.some.inj hstep ▸ h.readHeadLen hi)
  | iter head it yielded =>
      rw [hi] at hstep
      exact inv_kept (Option.some.inj hstep ▸ h.next hi)
  | _ =>
      rw [hi] at hstep
      cases hstep

/-- The steps under shared references. -/
def Act.shared : Act F → Bool
  | .push _ _ => true
  | .begin _ _ => true
  | .thread _ => true
  | .leave _ => true
  | _ => false

theorem inv_shared {s s' : State F} {l b : List ℕ} {a : Act F} (h : s.Inv l b)
    (ha : a.shared = true) (hstep : step s a = some s') : ∃ l', l <:+ l' ∧ s'.Inv l' b := by
  cases a with
  | push i future =>
      obtain ⟨hi, hs'⟩ := Option.ite_none_right_eq_some.mp hstep
      exact inv_kept (Option.some.inj hs' ▸ h.push hi future)
  | begin i c =>
      obtain ⟨hi, hs'⟩ := Option.ite_none_right_eq_some.mp hstep
      exact inv_kept (Option.some.inj hs' ▸ h.begin hi c)
  | thread i => exact inv_stepThread h hstep
  | leave i =>
      obtain ⟨hi, hs'⟩ := Option.ite_none_right_eq_some.mp hstep
      exact inv_kept (Option.some.inj hs' ▸ h.leave hi)
  | _ => cases ha

theorem inv_step {s s' : State F} {l b : List ℕ} {a : Act F} (h : s.Inv l b)
    (hstep : step s a = some s') : ∃ l' b', s'.Inv l' b' := by
  cases ha : a.shared with
  | true =>
      obtain ⟨l', -, hinv⟩ := inv_shared h ha hstep
      exact ⟨l', b, hinv⟩
  | false =>
      cases a with
      | unlink t =>
          obtain ⟨⟨hfree, ht⟩, hs'⟩ := Option.ite_none_right_eq_some.mp hstep
          obtain ⟨l', hrest⟩ := (State.Rest.of_inv h hfree).unlink ht
          exact ⟨l', l', Option.some.inj hs' ▸ hrest.inv⟩
      | relink t =>
          obtain ⟨⟨hfree, ht, hfut⟩, hs'⟩ := Option.ite_none_right_eq_some.mp hstep
          have hrest := (State.Rest.of_inv h hfree).relink ht hfut
          exact ⟨t :: l, t :: l, Option.some.inj hs' ▸ hrest.inv⟩
      | setFuture t future =>
          obtain ⟨⟨hfree, ht⟩, hs'⟩ := Option.ite_none_right_eq_some.mp hstep
          have hrest := (State.Rest.of_inv h hfree).setFuture ht future
          exact ⟨l, l, Option.some.inj hs' ▸ hrest.inv⟩
      | dropFuture t =>
          obtain ⟨⟨hfree, ht⟩, hs'⟩ := Option.ite_none_right_eq_some.mp hstep
          have hrest := (State.Rest.of_inv h hfree).dropFuture ht
          exact ⟨l, l, Option.some.inj hs' ▸ hrest.inv⟩
      | _ => cases ha

/-- Whatever the calls do, from a state that exclusive operations left. -/
theorem inv_of_reachable {s₀ s : State F} {l : List ℕ} (hrest : s₀.Rest l)
    (h : Transition.Reachable step s₀ s) : ∃ l b, s.Inv l b := by
  refine h.invariant (I := fun s => ∃ l b, s.Inv l b) ⟨l, l, hrest.inv⟩ ?_
  rintro s a s' ⟨l, b, hinv⟩ hstep
  exact inv_step hinv hstep

end TokioStreamUtil.FuturesUnordered.Shared
