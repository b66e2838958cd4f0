/-
`len` and `iter_pin_ref` while others push.

What a call counts is settled by the head it loads: the tasks that were swapped in no
later. Later swaps come in front and do not change them. That the lengths are there to
be read is what `spin_next_all` waits for, and it waits for an earlier swap only.
-/
import TokioStreamUtil.FuturesUnordered.SharedInvariant
import TokioStreamUtil.FuturesUnordered.Invariant
import Mathlib.Data.Finset.Card
import Mathlib.Order.WellFounded

set_option autoImplicit false

namespace TokioStreamUtil.FuturesUnordered.Shared

open Transition

variable {F : Type}

/-! ## What is counted -/

/-- The tasks of the set whose latest swap is no later than that of `head`. -/
def State.upTo (s : State F) : Option ℕ → Finset ℕ
  | none => ∅
  | some h => (Finset.range s.fresh).filter fun t => s.hist.noLater h t = true

/-- The traversal from `head` has yielded `yielded`, and what is left it will yield:
together the tasks up to `head`, each once, the one swapped in last first. The iterator
knows how many are left, and it need not wait for the next. -/
def State.Traverses (s : State F) (head : Option ℕ) (it : IterPinRef) (yielded : List ℕ) : Prop :=
  ∃ left, (∀ t, t ∈ yielded ++ left ↔ t ∈ s.upTo head) ∧
    (yielded ++ left).Nodup ∧ (yielded ++ left).Pairwise s.hist.Later ∧
    it.task = left.head? ∧ it.size_hint = (left.length, some left.length) ∧
    (it.len = 0 ↔ it.task = none) ∧
    ∀ t, it.task = some t → s.HasFuture t ∧ s.all.next_all t ≠ .pending

/-- `link` of `t` waits for `n` in `spin_next_all`. -/
def State.Waits (s : State F) (t n : ℕ) : Prop := ∃ i, s.threads i = .spin t n

/-- Thread `i` waits in `link`, and would find the old head still pending. -/
def State.Blocked (s : State F) (i : ℕ) : Prop :=
  ∃ t n, s.threads i = .spin t n ∧ s.all.next_all n = .pending

theorem mem_set_of_suffix {s : State F} {l b y : List ℕ} {t : ℕ} (h : s.Inv l b)
    (hy : (t :: y) <:+ l) : (s.hist.swapped t).isSome = true :=
  (h.order.mem t).mp (hy.subset List.mem_cons_self)

theorem History.isSome_of_noLater {hist : History} {h t : ℕ} (ht : hist.noLater h t = true) :
    (hist.swapped t).isSome = true := by
  unfold History.noLater at ht
  split at ht
  · rename_i i j hi hj
    rw [hi]
    rfl
  · cases ht

/-- A task of the set has been allocated. -/
theorem mem_upTo {s : State F} {l b : List ℕ} (h : s.Inv l b) {head t : ℕ} :
    t ∈ s.upTo (some head) ↔ s.hist.noLater head t = true := by
  unfold State.upTo
  rw [Finset.mem_filter, Finset.mem_range]
  refine ⟨And.right, fun ht => ⟨?_, ht⟩⟩
  exact h.fresh t (h.future t ((h.order.mem t).mpr (History.isSome_of_noLater ht)))

/-- The list from a head on, and the tasks up to it. -/
theorem mem_upTo_of_suffix {s : State F} {l b y : List ℕ} (h : s.Inv l b) (hy : y <:+ l) (t : ℕ) :
    t ∈ y ↔ t ∈ s.upTo y.head? := by
  cases y with
  | nil => simp [State.upTo]
  | cons head y => exact (h.order.mem_suffix_iff hy).trans (mem_upTo h).symm

theorem length_eq_card {s : State F} {l b y : List ℕ} (h : s.Inv l b) (hy : y <:+ l) :
    y.length = (s.upTo y.head?).card := by
  have hnodup : y.Nodup := hy.sublist.nodup h.order.nodup
  rw [← List.toFinset_card_of_nodup hnodup]
  congr 1
  ext t
  rw [List.mem_toFinset]
  exact mem_upTo_of_suffix h hy t

/-- The traversal is where the invariant says. -/
theorem traverses {s : State F} {l b : List ℕ} (h : s.Inv l b) {i : ℕ} {head : Option ℕ}
    {it : IterPinRef} {yielded : List ℕ} (hi : s.threads i = .iter head it yielded) :
    s.Traverses head it yielded := by
  have hcall := h.calls i
  rw [hi] at hcall
  obtain ⟨⟨left, hl, rfl, htask, hlen⟩, hready⟩ := hcall
  have hleft : left <:+ l := (List.suffix_append yielded left).trans hl
  refine ⟨left, mem_upTo_of_suffix h hl, hl.sublist.nodup h.order.nodup,
    h.order.sorted.sublist hl.sublist, htask, ?_, ?_, fun t ht => ⟨?_, hready t ht⟩⟩
  · unfold IterPinRef.size_hint
    rw [hlen]
  · rw [hlen, htask, List.length_eq_zero_iff, List.head?_eq_none_iff]
  · exact h.future t (hleft.subset (List.mem_of_mem_head? (htask.symm.trans ht)))

/-- **The next step of an iterator** yields the task that it stands at. -/
theorem next_yields {s : State F} {l b : List ℕ} (h : s.Inv l b) {i : ℕ} {head : Option ℕ}
    {it : IterPinRef} {yielded : List ℕ} (hi : s.threads i = .iter head it yielded) :
    ∃ s', step s (.thread i) = some s' ∧ (it.task = none → s' = s) ∧
      ∀ t, it.task = some t → ∃ it', s'.threads i = .iter head it' (yielded ++ [t]) := by
  have hstep : step s (.thread i) = some (s.next i head it yielded) := by
    show stepThread s i = _
    unfold stepThread
    rw [hi]
  obtain ⟨left, -, -, -, -, -, hlen, hready⟩ := traverses h hi
  refine ⟨_, hstep, fun hend => ?_, fun t ht => ?_⟩
  · unfold State.next
    rw [hend]
  · have hpos : it.len ≠ 0 := by
      rw [ne_eq, hlen, ht]
      simp
    have hlinked := (hready t ht).2
    unfold State.next
    rw [ht]
    dsimp only
    cases hnext : s.all.next_all t with
    | pending => exact absurd hnext hlinked
    | ptr next =>
        dsimp only
        rw [if_neg hpos]
        exact ⟨_, Function.update_self ..⟩

/-! ## The waiting -/

theorem History.Later.trans {hist : History} {t u v : ℕ} (htu : hist.Later t u)
    (huv : hist.Later u v) : hist.Later t v := by
  obtain ⟨i, j, hi, hj, hlt⟩ := htu
  obtain ⟨j', k, hj', hk, hlt'⟩ := huv
  rw [hj] at hj'
  cases hj'
  exact ⟨i, k, hi, hk, hlt'.trans hlt⟩

/-- The time of a swap comes down along `Later`. -/
theorem History.wellFounded (hist : History) : WellFounded fun n t => hist.Later t n := by
  refine Subrelation.wf (r := fun n t => (hist.swapped n).getD 0 < (hist.swapped t).getD 0) ?_
    (InvImage.wf (fun t => (hist.swapped t).getD 0) Nat.lt_wfRel.wf)
  rintro n t ⟨i, j, hi, hj, hlt⟩
  rw [hi, hj]
  exact hlt

theorem later_of_waits {s : State F} {l b : List ℕ} (h : s.Inv l b) {t n : ℕ} (hw : s.Waits t n) :
    s.hist.Later t n := by
  obtain ⟨i, hi⟩ := hw
  have hcall := h.calls i
  rw [hi] at hcall
  obtain ⟨⟨y, hy, -⟩, -⟩ := hcall
  exact h.order.later hy

/-- A pending task of the set is being linked, and where that waits, so is the task it
waits for: at the end of the chain there is a thread that can go on. -/
theorem exists_mover {s : State F} {l b : List ℕ} (h : s.Inv l b) (t : ℕ)
    (ht : (s.hist.swapped t).isSome = true) (hpending : s.all.next_all t = .pending) :
    ∃ i u, (s.threads i).cut = some u ∧ (u = t ∨ s.hist.Later t u) ∧ ¬ s.Blocked i := by
  induction t using s.hist.wellFounded.induction with
  | _ t ih =>
      obtain ⟨y, hy⟩ := List.exists_suffix_of_mem ((h.order.mem t).mpr ht)
      obtain ⟨i, hi⟩ : s.Cut t := by
        rcases h.list.next t y hy with hlinked | ⟨-, hcut⟩
        · rw [hpending] at hlinked
          cases hlinked
        · exact hcut
      by_cases hblocked : s.Blocked i
      · obtain ⟨t', n, hspin, hn⟩ := hblocked
        have hcall := h.calls i
        rw [hspin] at hi hcall
        cases hi
        obtain ⟨⟨z, hz, -⟩, -⟩ := hcall
        have hlater := h.order.later hz
        obtain ⟨j, u, hj, hu, hmoves⟩ :=
          ih n hlater (mem_set_of_suffix h (List.suffix_of_cons_suffix hz)) hn
        refine ⟨j, u, hj, Or.inr ?_, hmoves⟩
        rcases hu with rfl | hu
        · exact hlater
        · exact hlater.trans hu
      · exact ⟨i, t, hi, Or.inl rfl, hblocked⟩

/-- Thread `i` waits for the head that it has loaded. -/
def State.WaitsHead (s : State F) (i : ℕ) : Prop :=
  ∃ c n, s.threads i = .spinHead c n ∧ s.all.next_all n = .pending

/-- A step of a thread takes it on, unless it waits or has come to the end of its iterator. -/
theorem goes_on {s s' : State F} {i : ℕ} (hstep : step s (.thread i) = some s')
    (hsame : s'.threads i = s.threads i) :
    s.Blocked i ∨ s.WaitsHead i ∨ ∃ head it yielded, s.threads i = .iter head it yielded ∧
      (it.task = none ∨ ∃ t, it.task = some t ∧ s.all.next_all t = .pending) := by
  have hmoved : ∀ (u : State F) (pc : Pc), (u.setThread i pc).threads i = pc := fun u pc =>
    Function.update_self ..
  have hreleased : ∀ u : State F, (u.release i).threads i = .idle := fun u =>
    Function.update_self ..
  change stepThread s i = some s' at hstep
  unfold stepThread at hstep
  cases hi : s.threads i with
  | idle => rw [hi] at hstep; cases hstep
  | len head n => rw [hi] at hstep; cases hstep
  | overflowed => rw [hi] at hstep; cases hstep
  | link t =>
      rw [hi] at hstep hsame
      cases hstep
      have hnew : (s.swapHead i t).threads i = _ := Function.update_self ..
      rw [hnew] at hsame
      split at hsame <;> cases hsame
  | spin t n =>
      rw [hi] at hstep hsame
      cases hstep
      unfold State.spin State.ready at hsame
      split at hsame
      · rw [hmoved] at hsame
        cases hsame
      · rename_i hnot
        refine Or.inl ⟨t, n, hi, ?_⟩
        simpa using hnot
  | readLen t n =>
      rw [hi] at hstep hsame
      cases hstep
      unfold State.readLen at hsame
      rw [hmoved] at hsame
      cases hsame
  | writeLen t next new_len =>
      rw [hi] at hstep hsame
      cases hstep
      have hnew : (s.writeLen i t next new_len).threads i = _ := Function.update_self ..
      rw [hnew] at hsame
      cases hsame
  | storeNext t next =>
      rw [hi] at hstep hsame
      cases hstep
      cases next with
      | none =>
          have hnew : (s.storeNext i t none).threads i = .idle := hreleased _
          rw [hnew] at hsame
          cases hsame
      | some n =>
          have hnew : (s.storeNext i t (some n)).threads i = .writePrev t n := hmoved _ _
          rw [hnew] at hsame
          cases hsame
  | writePrev t n =>
      rw [hi] at hstep hsame
      cases hstep
      have hnew : (s.writePrev i t n).threads i = .idle := hreleased _
      rw [hnew] at hsame
      cases hsame
  | loadHead c =>
      rw [hi] at hstep hsame
      cases hstep
      unfold State.loadHead at hsame
      rw [hmoved] at hsame
      split at hsame <;> cases c <;> cases hsame
  | spinHead c n =>
      rw [hi] at hstep hsame
      cases hstep
      unfold State.spinHead State.ready at hsame
      split at hsame
      · rw [hmoved] at hsame
        cases hsame
      · rename_i hnot
        refine Or.inr (Or.inl ⟨c, n, hi, ?_⟩)
        simpa using hnot
  | readHeadLen c n =>
      rw [hi] at hstep hsame
      cases hstep
      unfold State.readHeadLen at hsame
      rw [hmoved] at hsame
      cases c <;> cases hsame
  | iter head it yielded =>
      rw [hi] at hstep hsame
      cases hstep
      refine Or.inr (Or.inr ⟨head, it, yielded, rfl, ?_⟩)
      unfold State.next at hsame
      cases htask : it.task with
      | none => exact Or.inl rfl
      | some t =>
          rw [htask] at hsame
          dsimp only at hsame
          refine Or.inr ⟨t, rfl, ?_⟩
          cases hnext : s.all.next_all t with
          | pending => rfl
          | ptr next =>
              rw [hnext] at hsame
              dsimp only at hsame
              rw [hmoved] at hsame
              split at hsame
              · cases hsame
              · simp at hsame

/-! ## What stays -/

/-- Under shared references the order of the swaps only gets a new last one. -/
theorem hist_of_shared {s s' : State F} {a : Act F} (ha : a.shared = true)
    (hstep : step s a = some s') :
    s'.hist = s.hist ∨ ∃ i t, s.threads i = .link t ∧ s'.hist = s.swap t := by
  cases a with
  | push i future =>
      obtain ⟨-, hs'⟩ := Option.ite_none_right_eq_some.mp hstep
      cases hs'
      exact Or.inl rfl
  | begin i c =>
      obtain ⟨-, hs'⟩ := Option.ite_none_right_eq_some.mp hstep
      cases hs'
      exact Or.inl rfl
  | leave i =>
      obtain ⟨-, hs'⟩ := Option.ite_none_right_eq_some.mp hstep
      cases hs'
      exact Or.inl rfl
  | thread i =>
      change stepThread s i = some s' at hstep
      unfold stepThread at hstep
      cases hi : s.threads i with
      | link t =>
          rw [hi] at hstep
          cases hstep
          exact Or.inr ⟨i, t, hi, rfl⟩
      | storeNext t next =>
          rw [hi] at hstep
          cases hstep
          cases next with
          | none => exact Or.inl rfl
          | some n => exact Or.inl rfl
      | spin t n =>
          rw [hi] at hstep
          cases hstep
          unfold State.spin
          split
          · exact Or.inl rfl
          · exact Or.inl rfl
      | spinHead c head =>
          rw [hi] at hstep
          cases hstep
          unfold State.spinHead
          split
          · exact Or.inl rfl
          · exact Or.inl rfl
      | iter head it yielded =>
          rw [hi] at hstep
          cases hstep
          unfold State.next
          split
          · exact Or.inl rfl
          · split
            · exact Or.inl rfl
            · exact Or.inl rfl
      | idle =>
          rw [hi] at hstep
          cases hstep
      | len head n =>
          rw [hi] at hstep
          cases hstep
      | overflowed =>
          rw [hi] at hstep
          cases hstep
      | _ =>
          rw [hi] at hstep
          cases hstep
          exact Or.inl rfl
  | _ => cases ha

/-- A later swap does not change what is no later than `head`. -/
theorem noLater_swap {s : State F} {l b : List ℕ} (h : s.Inv l b) {i t head : ℕ}
    (hi : s.threads i = .link t) (hhead : (s.hist.swapped head).isSome = true) (u : ℕ) :
    (s.swap t).noLater head u = s.hist.noLater head u := by
  have hcall := h.calls i
  rw [hi] at hcall
  have hout : s.hist.swapped t = none := by
    by_contra hne
    exact hcall.1 ((h.order.mem t).mpr (Option.isSome_iff_ne_none.mpr hne))
  obtain ⟨j, hj⟩ := Option.isSome_iff_exists.mp hhead
  have hne : head ≠ t := by
    rintro rfl
    rw [hout] at hj
    cases hj
  unfold History.noLater State.swap
  dsimp only
  rw [Function.update_of_ne hne, hj]
  by_cases hut : u = t
  · rw [hut, Function.update_self, hout]
    exact decide_eq_false (Nat.not_le.mpr (h.order.clock head j hj))
  · rw [Function.update_of_ne hut]

/-- What a call counts is the same until it returns. -/
theorem upTo_of_shared {s s' : State F} {l b : List ℕ} {a : Act F} (h : s.Inv l b)
    (ha : a.shared = true) (hstep : step s a = some s') {head : Option ℕ}
    (hhead : ∀ n, head = some n → (s.hist.swapped n).isSome = true) : s'.upTo head = s.upTo head := by
  obtain ⟨l', -, h'⟩ := inv_shared h ha hstep
  cases head with
  | none => rfl
  | some n =>
      ext t
      rw [mem_upTo h', mem_upTo h]
      rcases hist_of_shared ha hstep with hsame | ⟨i, u, hi, hswap⟩
      · rw [hsame]
      · rw [hswap, noLater_swap h hi (hhead n rfl)]

/-! ## Exact lengths -/

/-- What the calls under shared references get, and what they wait for. -/
structure State.Exact (s : State F) : Prop where
  /-- Every task of the set is counted from the head that is there to be loaded. -/
  head : ∀ t, (s.hist.swapped t).isSome = true ↔ t ∈ s.upTo s.all.head_all
  len : ∀ i head n, s.threads i = .len head n → n = (s.upTo head).card
  iter : ∀ i head it yielded, s.threads i = .iter head it yielded → s.Traverses head it yielded
  /-- The next step of an iterator yields the task that it stands at. -/
  next : ∀ i head it yielded, s.threads i = .iter head it yielded →
    ∃ s', step s (.thread i) = some s' ∧ (it.task = none → s' = s) ∧
      ∀ t, it.task = some t → ∃ it', s'.threads i = .iter head it' (yielded ++ [t])
  overflow : ∀ i, s.threads i ≠ .overflowed
  waits : ∀ t n, s.Waits t n → s.hist.Later t n
  wellFounded : WellFounded fun n t => s.Waits t n
  /-- Who does not wait goes on with every step, but for an iterator at its end. -/
  goes : ∀ i s', step s (.thread i) = some s' → s'.threads i = s.threads i →
    s.Blocked i ∨ s.WaitsHead i ∨ ∃ head it yielded, s.threads i = .iter head it yielded ∧
      it.task = none
  /-- The head that a caller waits for is one of the set. -/
  waitsHead : ∀ i c n, s.threads i = .spinHead c n → (s.hist.swapped n).isSome = true
  /-- Nobody waits for ever: what is pending is being linked. -/
  moves : ∀ t, (s.hist.swapped t).isSome = true → s.all.next_all t = .pending →
    ∃ i u, (s.threads i).cut = some u ∧ (u = t ∨ s.hist.Later t u) ∧ ¬ s.Blocked i

theorem exact_of_inv {s : State F} {l b : List ℕ} (h : s.Inv l b) : s.Exact where
  head t := by
    rw [h.list.head, ← mem_upTo_of_suffix h (List.suffix_refl l) t]
    exact (h.order.mem t).symm
  len i head n hi := by
    have hcall := h.calls i
    rw [hi] at hcall
    obtain ⟨y, hy, rfl, rfl⟩ := hcall
    exact length_eq_card h hy
  iter i head it yielded hi := traverses h hi
  next i head it yielded hi := next_yields h hi
  overflow i hi := by
    have hcall := h.calls i
    rw [hi] at hcall
    exact hcall
  waits t n hw := later_of_waits h hw
  wellFounded := Subrelation.wf (fun {_ _} hw => later_of_waits h hw) s.hist.wellFounded
  goes i s' hstep hsame := by
    rcases goes_on hstep hsame with hblocked | hwaits | ⟨head, it, yielded, hi, hend⟩
    · exact Or.inl hblocked
    · exact Or.inr (Or.inl hwaits)
    · refine Or.inr (Or.inr ⟨head, it, yielded, hi, ?_⟩)
      -- an iterator need not wait for its next task
      obtain ⟨left, -, -, -, -, -, -, hready⟩ := traverses h hi
      exact hend.resolve_right fun ⟨t, ht, hpending⟩ => (hready t ht).2 hpending
  waitsHead i c n hi := by
    have hcall := h.calls i
    rw [hi] at hcall
    obtain ⟨y, hy, -⟩ := hcall
    exact mem_set_of_suffix h hy
  moves := exists_mover h

/-- **`len` and the traversals are exact under concurrent pushes**, in every state of every
run from one that exclusive operations left: `len` returns the number of tasks whose
latest swap is no later than that of the head it loaded, a traversal yields them, one with
every step, and knows how many are left, and whoever waits, waits for an earlier swap. What is
counted does not change as long as calls under shared references go on. -/
theorem exact_under_pushes {s₀ s : State F} {l : List ℕ} (hrest : s₀.Rest l)
    (h : Reachable step s₀ s) :
    s.Exact ∧ ∀ a s', a.shared = true → step s a = some s' → ∀ head,
      (∀ n, head = some n → (s.hist.swapped n).isSome = true) → s'.upTo head = s.upTo head := by
  obtain ⟨l', b, hinv⟩ := inv_of_reachable hrest h
  exact ⟨exact_of_inv hinv, fun a s' ha hstep head hhead => upTo_of_shared hinv ha hstep hhead⟩

/-- Two pushes overlap, a third thread has begun to iterate after the first swap and a
fourth calls `len` after the second. -/
def overlapping : List (Act Unit) :=
  [.push 0 (), .push 1 (), .thread 0, .begin 2 .iter_pin_ref, .thread 2, .thread 1, .begin 3 .len,
    .thread 3, .thread 1, .thread 3, .thread 0, .thread 0, .thread 1, .thread 1, .thread 1, .thread 1,
    .thread 3, .thread 3, .thread 2, .thread 2, .thread 2]

theorem exact_under_pushes_overlapping :
    ∃ s, run step State.new overlapping = some s ∧ (s.upTo (some 1)).card = 2 ∧
      s.Traverses (some 0) { task := none, len := 0 } [0] := by
  have hsome : (run step State.new overlapping).isSome = true := rfl
  obtain ⟨s, hs⟩ := Option.isSome_iff_exists.mp hsome
  have hlen : (run step State.new overlapping).map (fun s => s.threads 3) = some (.len (some 1) 2) :=
    rfl
  have hiter : (run step State.new overlapping).map (fun s => s.threads 2) =
      some (.iter (some 0) { task := none, len := 0 } [0]) := rfl
  rw [hs] at hlen hiter
  have hexact := (exact_under_pushes State.rest_new (Reachable.of_run hs)).1
  exact ⟨s, hs, (hexact.len 3 (some 1) 2 (Option.some.inj hlen)).symm,
    hexact.iter 2 (some 0) _ [0] (Option.some.inj hiter)⟩

/-! ## Where exclusive operations lead -/

/-- Tasks in any order may have been swapped in one after the other. -/
theorem exists_order (l : List ℕ) (hl : l.Nodup) : ∃ hist, Order hist l := by
  induction l with
  | nil => exact ⟨_, Order.new⟩
  | cons t l ih =>
      obtain ⟨ht, hl⟩ := List.nodup_cons.mp hl
      obtain ⟨hist, horder⟩ := ih hl
      exact ⟨_, horder.swap ht⟩

/-- The list of all tasks of a set, as its calls leave it: any history of swaps that the
pointers agree with is one to start from. -/
theorem rest_of_reachable {F O W : Type} {A : AtomicWaker W}
    {s : FuturesUnordered.State F O W A}
    (h : Reachable FuturesUnordered.step FuturesUnordered.State.new s) (ho : s.owner = .idle) :
    ∃ (s₀ : State F) (l : List ℕ), s₀.Rest l ∧ s₀.all = s.all ∧
      ∀ t, t < s.fresh → s₀.future t = (s.tasks t).future := by
  obtain ⟨l, hinv⟩ := FuturesUnordered.inv_of_reachable h
  have hplaces := hinv.places
  rw [ho] at hplaces
  obtain ⟨hist, horder⟩ := exists_order l hplaces.nodup
  refine ⟨{ (State.new : State F) with
      all := s.all
      future := fun t => if t < s.fresh then (s.tasks t).future else none
      fresh := s.fresh
      hist }, l, ⟨hplaces.all, horder, fun _ => rfl, rfl, fun t ht => ?_, fun t ht => ?_⟩, rfl,
    fun t ht => if_pos ht⟩
  · obtain ⟨hlt, hretired, -⟩ := (hplaces.mem t).mp ht
    unfold State.HasFuture
    dsimp only
    rw [if_pos hlt]
    by_contra hnone
    have hvacant : (s.tasks t).future.isNone = true := by simpa using hnone
    have hgone := ((hplaces.vacant t hlt).mp hvacant).1
    rw [hretired] at hgone
    cases hgone
  · unfold State.HasFuture at ht
    dsimp only at ht
    by_contra hge
    rw [if_neg hge] at ht
    cases ht

end TokioStreamUtil.FuturesUnordered.Shared
