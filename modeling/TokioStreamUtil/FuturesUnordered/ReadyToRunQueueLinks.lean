/-
What the pointers of the ready to run queue look like between any two steps.

`Linked` is the invariant of the cells: the nodes from `tail` to `head` form a
chain whose only missing links are those of the writers that have swapped `head`
and not yet stored their link. `Sys.Inv` adds the consumer's position, the flag
that says whether a task is with the queue, and the history: the tasks swapped
in are the tasks returned followed by the tasks still in the chain. Each
transition of the queue has one lemma that says it keeps `Sys.Inv`.
-/
import TokioStreamUtil.FuturesUnordered.ReadyToRunQueue
import Mathlib.Tactic.Common

set_option autoImplicit false
set_option linter.unusedSectionVars false

namespace TokioStreamUtil.ReadyToRunQueue

/-! ## The linking invariant

`writers` lists everyone who may write a `next_ready_to_run` pointer: the
producers, and under `none` the consumer's own enqueue of the stub. -/

variable {ι : Type} [DecidableEq ι]

/-- Everyone with an `enqueue` call: the producers, and the consumer for the stub. -/
def Sys.writers (s : Sys ι) : Option ι → EnqueuePc
  | none => Sys.stubPc s.consumer
  | some i => s.producers i

/-- The pointers along `chain`, with a hole for every writer that has swapped
`head` and not yet stored its link; nodes on their way in are outside `chain`. -/
structure Linked {κ : Type} (q : Queue) (w : κ → EnqueuePc) (chain : List Node) : Prop where
  broken : BrokenChain q.next_ready_to_run (fun a b => ∃ k, w k = .store a b) chain
  tail : chain.head? = some q.tail
  head : chain.getLast? = some q.head
  clear : ∀ k n, w k = .clear n → n ∉ chain
  swap : ∀ k n, w k = .swap n → n ∉ chain ∧ q.next_ready_to_run n = none
  one : ∀ k k' n, (w k).node = some n → (w k').node = some n → k = k'

namespace Linked

variable {κ : Type} [DecidableEq κ] {q : Queue} {w : κ → EnqueuePc} {chain : List Node}

theorem ne_nil (h : Linked q w chain) : chain ≠ [] := by
  rintro rfl
  cases h.tail

/-- Nodes of distinct writers differ. -/
theorem node_ne (h : Linked q w chain) {k k' : κ} {n m : Node} (hk : (w k).node = some n)
    (hk' : (w k').node = some m) (hne : k' ≠ k) : m ≠ n := by
  rintro rfl
  exact hne (h.one k' k m hk' hk)

/-- The first step of an `enqueue` call writes a node that is outside the chain. -/
theorem enqueue_clear (h : Linked q w chain) {k : κ} {n : Node} (hk : w k = .clear n) :
    Linked (enqueue q (w k)).1 (Function.update w k (enqueue q (w k)).2) chain := by
  have hn : n ∉ chain := h.clear k n hk
  have hnode : (w k).node = some n := by rw [hk]; rfl
  rw [hk]
  simp only [enqueue]
  refine ⟨?_, h.tail, h.head, ?_, ?_, ?_⟩
  · refine (h.broken.congr_hole ?_).congr_next ?_
    · intro a b
      constructor <;> rintro ⟨k', hk'⟩ <;> refine ⟨k', ?_⟩ <;>
        by_cases hkk : k' = k <;> simp_all
    · intro a ha
      have hne : a ≠ n := by rintro rfl; exact hn ha
      exact Function.update_of_ne hne _ _
  · intro k' m hk'
    by_cases hkk : k' = k
    · simp [hkk] at hk'
    · exact h.clear k' m (by simpa [hkk] using hk')
  · intro k' m hk'
    by_cases hkk : k' = k
    · subst hkk
      simp only [Function.update_self, EnqueuePc.swap.injEq] at hk'
      subst hk'
      exact ⟨hn, by simp⟩
    · have hw : w k' = .swap m := by simpa [hkk] using hk'
      have hm : m ≠ n := h.node_ne hnode (by rw [hw]; rfl) hkk
      exact ⟨(h.swap k' m hw).1, by simpa [hm] using (h.swap k' m hw).2⟩
  · intro k₁ k₂ m h₁ h₂
    have key : ∀ k', (Function.update w k (.swap n) k').node = (w k').node := by
      intro k'
      by_cases hkk : k' = k <;> simp [hkk, hk, EnqueuePc.node]
    exact h.one k₁ k₂ m (by rw [← key]; exact h₁) (by rw [← key]; exact h₂)

/-- The swap makes the node the last of the chain and opens the hole before it. -/
theorem enqueue_swap (h : Linked q w chain) {k : κ} {n : Node} (hk : w k = .swap n) :
    Linked (enqueue q (w k)).1 (Function.update w k (enqueue q (w k)).2) (chain ++ [n]) := by
  obtain ⟨hn, hnull⟩ := h.swap k n hk
  have hnode : (w k).node = some n := by rw [hk]; rfl
  rw [hk]
  simp only [enqueue]
  refine ⟨?_, ?_, by simp, ?_, ?_, ?_⟩
  · refine (h.broken.push_back h.head hn hnull).congr_hole ?_
    intro a b
    constructor
    · rintro ⟨k', hk'⟩
      by_cases hkk : k' = k
      · subst hkk
        simp only [Function.update_self, EnqueuePc.store.injEq] at hk'
        exact Or.inr ⟨hk'.1.symm, hk'.2.symm⟩
      · exact Or.inl ⟨k', by simpa [hkk] using hk'⟩
    · rintro (⟨k', hk'⟩ | ⟨rfl, rfl⟩)
      · have hkk : k' ≠ k := by rintro rfl; rw [hk] at hk'; cases hk'
        exact ⟨k', by simpa [hkk] using hk'⟩
      · exact ⟨k, by simp⟩
  · rw [List.head?_append, h.tail]
    rfl
  · intro k' m hk'
    by_cases hkk : k' = k
    · simp [hkk] at hk'
    · have hw : w k' = .clear m := by simpa [hkk] using hk'
      have hm : m ≠ n := h.node_ne hnode (by rw [hw]; rfl) hkk
      simpa [hm] using h.clear k' m hw
  · intro k' m hk'
    by_cases hkk : k' = k
    · simp [hkk] at hk'
    · have hw : w k' = .swap m := by simpa [hkk] using hk'
      have hm : m ≠ n := h.node_ne hnode (by rw [hw]; rfl) hkk
      exact ⟨by simpa [hm] using (h.swap k' m hw).1, (h.swap k' m hw).2⟩
  · intro k₁ k₂ m h₁ h₂
    have key : ∀ k', (Function.update w k (.store q.head n) k').node = (w k').node := by
      intro k'
      by_cases hkk : k' = k <;> simp [hkk, hk, EnqueuePc.node]
    exact h.one k₁ k₂ m (by rw [← key]; exact h₁) (by rw [← key]; exact h₂)

/-- The last step fills the hole the swap opened. -/
theorem enqueue_store (h : Linked q w chain) {k : κ} {p n : Node} (hk : w k = .store p n) :
    Linked (enqueue q (w k)).1 (Function.update w k (enqueue q (w k)).2) chain := by
  have hpn := h.broken.holes p n ⟨k, hk⟩
  have hnode : (w k).node = some n := by rw [hk]; rfl
  rw [hk]
  simp only [enqueue]
  refine ⟨?_, h.tail, h.head, ?_, ?_, ?_⟩
  · refine (h.broken.fill ⟨k, hk⟩).congr_hole ?_
    intro a b
    constructor
    · rintro ⟨k', hk'⟩
      by_cases hkk : k' = k
      · simp [hkk] at hk'
      · have hw : w k' = .store a b := by simpa [hkk] using hk'
        refine ⟨⟨k', hw⟩, ?_⟩
        rintro rfl
        have hbn : b = n := (h.broken.holes a b ⟨k', hw⟩).1.right_unique h.broken.nodup hpn.1
        exact h.node_ne hnode (by rw [hw]; rfl) hkk hbn
    · rintro ⟨⟨k', hk'⟩, hap⟩
      have hkk : k' ≠ k := by
        rintro rfl
        rw [hk, EnqueuePc.store.injEq] at hk'
        exact hap hk'.1.symm
      exact ⟨k', by simpa [hkk] using hk'⟩
  · intro k' m hk'
    by_cases hkk : k' = k
    · simp [hkk] at hk'
    · exact h.clear k' m (by simpa [hkk] using hk')
  · intro k' m hk'
    by_cases hkk : k' = k
    · simp [hkk] at hk'
    · obtain ⟨hm, hnull⟩ := h.swap k' m (by simpa [hkk] using hk')
      have hmp : m ≠ p := fun hmp => hm (hmp ▸ hpn.1.mem_left)
      exact ⟨hm, by simpa [hmp] using hnull⟩
  · intro k₁ k₂ m h₁ h₂
    have key : ∀ k', (Function.update w k .idle k').node = some m → (w k').node = some m := by
      intro k' hk'
      by_cases hkk : k' = k
      · simp [hkk, EnqueuePc.node] at hk'
      · simpa [hkk] using hk'
    exact h.one k₁ k₂ m (key k₁ h₁) (key k₂ h₂)

/-- **What one step of an `enqueue` call does to the chain**: nothing, or it
appends the swapped node. -/
theorem enqueue_step (h : Linked q w chain) (k : κ) :
    Linked (enqueue q (w k)).1 (Function.update w k (enqueue q (w k)).2)
      (chain ++ Sys.swaps (w k)) := by
  cases hk : w k with
  | idle =>
      have hw : Function.update w k .idle = w := by rw [← hk]; exact Function.update_eq_self k w
      simpa [enqueue, Sys.swaps, hw] using h
  | clear n => simpa [hk, Sys.swaps] using h.enqueue_clear hk
  | swap n => simpa [hk, Sys.swaps] using h.enqueue_swap hk
  | store p n => simpa [hk, Sys.swaps] using h.enqueue_store hk

/-- A new `enqueue` call, on a node that is neither in the chain nor with a writer. -/
theorem begin_enqueue (h : Linked q w chain) {k : κ} {n : Node} (hk : w k = .idle)
    (hn : n ∉ chain) (hfree : ∀ k', (w k').node ≠ some n) :
    Linked q (Function.update w k (.clear n)) chain := by
  refine ⟨?_, h.tail, h.head, ?_, ?_, ?_⟩
  · refine h.broken.congr_hole ?_
    intro a b
    constructor <;> rintro ⟨k', hk'⟩ <;> refine ⟨k', ?_⟩ <;>
      by_cases hkk : k' = k <;> simp_all
  · intro k' m hk'
    by_cases hkk : k' = k
    · subst hkk
      simp only [Function.update_self, EnqueuePc.clear.injEq] at hk'
      exact hk' ▸ hn
    · exact h.clear k' m (by simpa [hkk] using hk')
  · intro k' m hk'
    by_cases hkk : k' = k
    · simp [hkk] at hk'
    · exact h.swap k' m (by simpa [hkk] using hk')
  · intro k₁ k₂ m h₁ h₂
    by_cases h₁k : k₁ = k <;> by_cases h₂k : k₂ = k
    · exact h₁k.trans h₂k.symm
    · subst h₁k
      have hm : n = m := by simpa [EnqueuePc.node] using h₁
      exact absurd (by simpa [h₂k, hm] using h₂) (hfree k₂)
    · subst h₂k
      have hm : n = m := by simpa [EnqueuePc.node] using h₂
      exact absurd (by simpa [h₁k, hm] using h₁) (hfree k₁)
    · exact h.one k₁ k₂ m (by simpa [h₁k] using h₁) (by simpa [h₂k] using h₂)

/-- `tail` moves along a written link: the first node leaves the chain. -/
theorem move_tail (h : Linked q w chain) {b : Node} (hb : q.next_ready_to_run q.tail = some b) :
    ∃ rest, chain = q.tail :: rest ∧ Linked { q with tail := b } w rest := by
  obtain ⟨a, rest, rfl⟩ := List.exists_cons_of_ne_nil h.ne_nil
  have ha : a = q.tail := by simpa using h.tail
  subst ha
  obtain ⟨hbroken, hhead⟩ := h.broken.pop_front hb
  refine ⟨rest, rfl, hbroken, hhead, ?_, ?_, ?_, h.one⟩
  · have hne : rest ≠ [] := by rintro rfl; cases hhead
    rw [← h.head]
    obtain ⟨c, rest', rfl⟩ := List.exists_cons_of_ne_nil hne
    exact List.getLast?_cons_cons.symm
  · exact fun k n hk hn => h.clear k n hk (List.mem_cons_of_mem _ hn)
  · exact fun k n hk => ⟨fun hn => (h.swap k n hk).1 (List.mem_cons_of_mem _ hn), (h.swap k n hk).2⟩

/-- When `head` and `tail` are the same node the chain is that node alone. -/
theorem eq_singleton (h : Linked q w chain) (heq : q.head = q.tail) : chain = [q.tail] := by
  obtain ⟨a, rest, rfl⟩ := List.exists_cons_of_ne_nil h.ne_nil
  have ha : a = q.tail := by simpa using h.tail
  cases rest with
  | nil => rw [ha]
  | cons c rest =>
      have hlast : (c :: rest).getLast? = some a := by
        rw [ha, ← heq, ← h.head]
        exact List.getLast?_cons_cons.symm
      exact absurd (List.mem_of_getLast? hlast) (List.nodup_cons.mp h.broken.nodup).1

theorem of_writers {w' : κ → EnqueuePc} (h : Linked q w chain) (hw : w' = w) :
    Linked q w' chain := hw ▸ h

end Linked

/-! ## The invariant of the system -/

/-- The consumer has left the stub behind (or never stood on it) in this call. -/
def DequeuePc.pastStub : DequeuePc → Bool
  | .skip => true
  | .loadHead => true
  | .stub _ => true
  | .reload => true
  | _ => false

/-- The invariant: linked cells, the consumer's position, the flag `enqueued`,
and the order of the history. -/
structure Sys.Inv (s : Sys ι) : Prop where
  linked : Linked s.queue s.writers s.chain
  task : ∀ i n, (s.producers i).node = some n → n ≠ .stub
  stub : ∀ n, (Sys.stubPc s.consumer).node = some n → n = .stub
  skipped : s.consumer.pastStub = true → s.queue.tail ≠ .stub
  flag : ∀ t, s.enqueued t = true ↔ .task t ∈ s.chain ∨
    ∃ i, s.producers i = .clear (.task t) ∨ s.producers i = .swap (.task t)
  history : s.swapped.filter (· ≠ .stub) = s.returned ++ s.chain.filter (· ≠ .stub)

namespace Sys

@[simp] theorem writers_some (s : Sys ι) (i : ι) : s.writers (some i) = s.producers i := rfl

@[simp] theorem writers_none (s : Sys ι) : s.writers none = stubPc s.consumer := rfl

/-- Moving one producer moves one writer. -/
theorem writers_update_producer (s s' : Sys ι) {i : ι} {e : EnqueuePc}
    (hp : s'.producers = Function.update s.producers i e) (hc : s'.consumer = s.consumer) :
    s'.writers = Function.update s.writers (some i) e := by
  funext k
  cases k with
  | none => simp [hc]
  | some j => by_cases hj : j = i <;> simp [hp, hj]

/-- Moving the consumer moves the writer of the stub. -/
theorem writers_update_consumer (s s' : Sys ι) (hp : s'.producers = s.producers) :
    s'.writers = Function.update s.writers none (stubPc s'.consumer) := by
  funext k
  cases k with
  | none => simp
  | some j => simp [hp]

/-- The writers are the producers and the stub `enqueue`, and nothing else. -/
theorem writers_congr {s s' : Sys ι} (hp : s'.producers = s.producers)
    (hc : stubPc s'.consumer = stubPc s.consumer) : s'.writers = s.writers := by
  funext k
  cases k <;> simp [hp, hc]

theorem inv_new : Inv (new : Sys ι) where
  linked :=
    { broken := (BrokenChain.singleton rfl).congr_hole (by
        intro a b
        simp only [iff_false, not_exists]
        rintro (_ | i) h <;> cases h)
      tail := rfl
      head := rfl
      clear := by rintro (_ | i) n h <;> cases h
      swap := by rintro (_ | i) n h <;> cases h
      one := by rintro (_ | i) k n h <;> cases h }
  task := by intro i n h; cases h
  stub := by intro n h; cases h
  skipped := by intro h; cases h
  flag := by simp [new]
  history := rfl

/-- A task an `enqueue` call is about is with the queue. -/
theorem Inv.enqueued_of_node {s : Sys ι} (h : s.Inv) {i : ι} {t : ℕ}
    (hi : (s.producers i).node = some (.task t)) : s.enqueued t = true := by
  rw [h.flag]
  cases hp : s.producers i with
  | idle => rw [hp] at hi; cases hi
  | clear n => rw [hp] at hi; cases hi; exact Or.inr ⟨i, Or.inl hp⟩
  | swap n => rw [hp] at hi; cases hi; exact Or.inr ⟨i, Or.inr hp⟩
  | store p n =>
      rw [hp] at hi
      cases hi
      exact Or.inl (h.linked.broken.holes p _ ⟨some i, hp⟩).1.mem_right

theorem Inv.beginEnqueue {s : Sys ι} (h : s.Inv) {i : ι} {t : ℕ}
    (hi : s.producers i = .idle) (ht : s.enqueued t = false) : (s.beginEnqueue i t).Inv where
  linked := by
    have hw := s.writers_update_producer (s.beginEnqueue i t) (i := i) rfl rfl
    rw [hw]
    have hnot : ¬(s.enqueued t = true) := by simp [ht]
    refine h.linked.begin_enqueue hi ?_ ?_
    · intro hmem
      exact hnot ((h.flag t).mpr (Or.inl hmem))
    · rintro (_ | j) hj
      · have hstub := h.stub _ hj
        cases hstub
      · exact hnot (h.enqueued_of_node hj)
  task := by
    intro j n hj
    by_cases hji : j = i
    · subst hji
      have hn : Node.task t = n := by simpa [Sys.beginEnqueue, EnqueuePc.node] using hj
      rw [← hn]
      exact Node.noConfusion
    · exact h.task j n (by simpa [Sys.beginEnqueue, hji] using hj)
  stub := h.stub
  skipped := h.skipped
  flag := by
    intro u
    by_cases hu : u = t
    · subst hu
      simp only [Sys.beginEnqueue, Function.update_self, true_iff]
      exact Or.inr ⟨i, Or.inl (Function.update_self ..)⟩
    · simp only [Sys.beginEnqueue, ne_eq, hu, not_false_eq_true, Function.update_of_ne]
      rw [h.flag u]
      refine or_congr_right ⟨?_, ?_⟩
      · rintro ⟨j, hj⟩
        have hji : j ≠ i := by rintro rfl; simp [hi] at hj
        exact ⟨j, by simpa [hji] using hj⟩
      · rintro ⟨j, hj⟩
        have hji : j ≠ i := by
          rintro rfl
          simp [Ne.symm hu] at hj
        exact ⟨j, by simpa [hji] using hj⟩
  history := h.history

/-- An `enqueue` step appends the same nodes to the chain and to the history. -/
theorem history_append {swapped returned chain ns : List Node}
    (h : swapped.filter (· ≠ .stub) = returned ++ chain.filter (· ≠ .stub)) :
    (swapped ++ ns).filter (· ≠ .stub) = returned ++ (chain ++ ns).filter (· ≠ .stub) := by
  rw [List.filter_append, List.filter_append, h, List.append_assoc]

theorem Inv.produce {s : Sys ι} (h : s.Inv) (i : ι) : (s.produce i).Inv where
  linked := by
    have hw := s.writers_update_producer (s.produce i) (i := i) rfl rfl
    rw [hw]
    exact h.linked.enqueue_step (some i)
  task := by
    intro j n hj
    by_cases hji : j = i
    · subst hji
      refine h.task j n ?_
      simp only [Sys.produce, Function.update_self] at hj
      cases hp : s.producers j <;> rw [hp] at hj <;> first | exact hj | cases hj
    · exact h.task j n (by simpa [Sys.produce, hji] using hj)
  stub := h.stub
  skipped := by
    intro hpast
    have htail : (s.produce i).queue.tail = s.queue.tail := by
      cases hp : s.producers i <;> simp [Sys.produce, enqueue, hp]
    rw [htail]
    exact h.skipped hpast
  flag := by
    intro t
    simp only [Sys.produce]
    rw [h.flag t, List.mem_append]
    cases hp : s.producers i with
    | idle =>
        have hw : Function.update s.producers i .idle = s.producers := by
          rw [← hp]; exact Function.update_eq_self i _
        simp [enqueue, swaps, hw]
    | clear n =>
        simp only [enqueue, swaps, List.not_mem_nil, or_false]
        refine or_congr_right (exists_congr fun j => ?_)
        by_cases hji : j = i
        · subst hji; simp [hp]
        · simp [hji]
    | swap n =>
        simp only [enqueue, swaps, List.mem_singleton, or_assoc]
        refine or_congr_right ⟨?_, ?_⟩
        · rintro ⟨j, hj⟩
          by_cases hji : j = i
          · subst hji
            left
            simpa [hp, eq_comm] using hj
          · right
            exact ⟨j, by simpa [hji] using hj⟩
        · rintro (hn | ⟨j, hj⟩)
          · exact ⟨i, Or.inr (by rw [hp, hn])⟩
          · have hji : j ≠ i := by rintro rfl; simp at hj
            exact ⟨j, by simpa [hji] using hj⟩
    | store p n =>
        simp only [enqueue, swaps, List.not_mem_nil, or_false]
        refine or_congr_right (exists_congr fun j => ?_)
        by_cases hji : j = i
        · subst hji; simp [hp]
        · simp [hji]
  history := history_append h.history

theorem Inv.beginDequeue {s : Sys ι} (h : s.Inv) (hc : s.consumer = .idle) :
    s.beginDequeue.Inv where
  linked := h.linked.of_writers (writers_congr (s := s) rfl (by rw [hc]; rfl))
  task := h.task
  stub := by intro n hn; cases hn
  skipped := by intro hpast; cases hpast
  flag := h.flag
  history := h.history

theorem Inv.endDequeue {s : Sys ι} (h : s.Inv) {d : Dequeue} (hc : s.consumer = .done d) :
    s.endDequeue.Inv where
  linked := h.linked.of_writers (writers_congr (s := s) rfl (by rw [hc]; rfl))
  task := h.task
  stub := by intro n hn; cases hn
  skipped := by intro hpast; cases hpast
  flag := h.flag
  history := h.history

/-! ## The consumer's steps

`ConsumeStep` lists everything one step of `dequeue` can do, with its guards. -/

/-- One step of a `dequeue` call, case by case. -/
inductive ConsumeStep (s : Sys ι) : Sys ι → Prop where
  /-- Standing on the stub with nothing linked behind it. -/
  | empty (hc : s.consumer = .start) (ht : s.queue.tail = .stub)
      (hn : s.queue.next_ready_to_run s.queue.tail = none) :
      ConsumeStep s { s with consumer := .done .Empty }
  /-- The stub is skipped. -/
  | skip {b : Node} {rest : List Node} (hc : s.consumer = .start) (ht : s.queue.tail = .stub)
      (hn : s.queue.next_ready_to_run s.queue.tail = some b)
      (hchain : s.chain = s.queue.tail :: rest)
      (hl : Linked { s.queue with tail := b } s.writers rest) :
      ConsumeStep s
        { s with queue := { s.queue with tail := b }, consumer := .skip, chain := rest }
  /-- A task with a written link behind it is returned. -/
  | data {b : Node} {rest : List Node} {t : ℕ} (hc : s.consumer.running = true)
      (hw : stubPc s.consumer = .idle)
      (ht : s.queue.tail = .task t)
      (hn : s.queue.next_ready_to_run s.queue.tail = some b)
      (hchain : s.chain = .task t :: rest)
      (hl : Linked { s.queue with tail := b } s.writers rest) :
      ConsumeStep s
        { s with
          queue := { s.queue with tail := b }
          consumer := .done (.Data (.task t))
          chain := rest
          returned := s.returned ++ [.task t]
          enqueued := Function.update s.enqueued t false }
  /-- The link of the task under `tail` is not written: look at `head`. -/
  | null (hc : s.consumer = .start ∨ s.consumer = .skip) (ht : s.queue.tail ≠ .stub)
      (hn : s.queue.next_ready_to_run s.queue.tail = none) :
      ConsumeStep s { s with consumer := .loadHead }
  /-- Someone is between its swap and its store. -/
  | behind (hc : s.consumer = .loadHead) (hh : s.queue.head ≠ s.queue.tail) :
      ConsumeStep s { s with consumer := .done .Inconsistent }
  /-- The task under `tail` is the only node: put the stub back behind it. -/
  | single (hc : s.consumer = .loadHead) (hh : s.queue.head = s.queue.tail)
      (hchain : s.chain = [s.queue.tail]) :
      ConsumeStep s { s with consumer := .stub (.clear .stub) }
  /-- The enqueue of the stub moves on. -/
  | stub {e : EnqueuePc} (hc : s.consumer = .stub e) :
      ConsumeStep s
        { s with
          queue := (enqueue s.queue e).1
          consumer := if (enqueue s.queue e).2 = .idle then .reload else .stub (enqueue s.queue e).2
          chain := s.chain ++ swaps e
          swapped := s.swapped ++ swaps e }
  /-- A producer got in between the look at `head` and the stub. -/
  | torn (hc : s.consumer = .reload)
      (hn : s.queue.next_ready_to_run s.queue.tail = none) :
      ConsumeStep s { s with consumer := .done .Inconsistent }

theorem tail_ne_of_move {s : Sys ι} (h : s.Inv) {b : Node}
    (hn : s.queue.next_ready_to_run s.queue.tail = some b) : b ≠ s.queue.tail := by
  obtain ⟨rest, hchain, hl⟩ := h.linked.move_tail hn
  have hnodup := h.linked.broken.nodup
  rw [hchain] at hnodup
  rintro rfl
  exact (List.nodup_cons.mp hnodup).1 (List.mem_of_head? hl.tail)

/-- The step that finds a written link behind a task returns the task. -/
theorem consumeStep_data {s : Sys ι} (h : s.Inv) {b : Node} {pc : DequeuePc}
    (hc : s.consumer = pc) (hrun : pc.running = true) (hw : stubPc pc = .idle)
    (hdeq : dequeue s.queue pc = ({ s.queue with tail := b }, .done (.Data s.queue.tail)))
    (ht : s.queue.tail ≠ .stub) (hn : s.queue.next_ready_to_run s.queue.tail = some b) :
    ConsumeStep s s.consume := by
  obtain ⟨rest, hchain, hl⟩ := h.linked.move_tail hn
  have hne : b ≠ s.queue.tail := tail_ne_of_move h hn
  cases htail : s.queue.tail with
  | stub => exact absurd htail ht
  | task t =>
      rw [htail] at hne
      have hrel : release s.enqueued [.task t] = Function.update s.enqueued t false := by
        funext u
        by_cases hu : u = t <;> simp [release, hu]
      have heq : s.consume =
          { s with
            queue := { s.queue with tail := b }
            consumer := .done (.Data (.task t))
            chain := rest
            returned := s.returned ++ [.task t]
            enqueued := Function.update s.enqueued t false } := by
        simp only [Sys.consume, hc, hdeq, hw, hne, if_false, hchain, List.tail_cons, swaps,
          List.append_nil, delivers, htail, hrel]
      rw [heq]
      exact ConsumeStep.data (by rw [hc]; exact hrun) (by rw [hc]; exact hw) htail hn
        (by rw [hchain, htail]) hl

theorem consume_cases {s : Sys ι} (h : s.Inv) (hrun : s.consumer.running = true) :
    ConsumeStep s s.consume := by
  have hnone : release s.enqueued [] = s.enqueued := by funext t; simp [release]
  cases hc : s.consumer with
  | idle => rw [hc] at hrun; cases hrun
  | done d => rw [hc] at hrun; cases hrun
  | start =>
      by_cases ht : s.queue.tail = .stub
      · cases hn : s.queue.next_ready_to_run s.queue.tail with
        | none =>
            have heq : s.consume = { s with consumer := .done .Empty } := by
              simp [Sys.consume, dequeue, hc, ht ▸ hn, ht, stubPc, swaps, delivers, hnone]
            rw [heq]
            exact ConsumeStep.empty hc ht hn
        | some b =>
            obtain ⟨rest, hchain, hl⟩ := h.linked.move_tail hn
            have hne : b ≠ s.queue.tail := tail_ne_of_move h hn
            have hn' : s.queue.next_ready_to_run .stub = some b := ht ▸ hn
            have hne' : b ≠ .stub := ht ▸ hne
            have heq : s.consume =
                { s with queue := { s.queue with tail := b }, consumer := .skip, chain := rest } := by
              simp only [Sys.consume, dequeue, hc, ht, hn', if_true, hne', if_false, hchain,
                List.tail_cons, stubPc, swaps, List.append_nil, delivers, hnone]
            rw [heq]
            exact ConsumeStep.skip hc ht hn hchain hl
      · cases hn : s.queue.next_ready_to_run s.queue.tail with
        | none =>
            have heq : s.consume = { s with consumer := .loadHead } := by
              simp [Sys.consume, dequeue, advance, hc, hn, ht, stubPc, swaps, delivers, hnone]
            rw [heq]
            exact ConsumeStep.null (Or.inl hc) ht hn
        | some b =>
            exact consumeStep_data h hc rfl rfl (by simp [dequeue, advance, ht, hn]) ht hn
  | skip =>
      have ht : s.queue.tail ≠ .stub := h.skipped (by rw [hc]; rfl)
      cases hn : s.queue.next_ready_to_run s.queue.tail with
      | none =>
          have heq : s.consume = { s with consumer := .loadHead } := by
            simp [Sys.consume, dequeue, advance, hc, hn, stubPc, swaps, delivers, hnone]
          rw [heq]
          exact ConsumeStep.null (Or.inr hc) ht hn
      | some b => exact consumeStep_data h hc rfl rfl (by simp [dequeue, advance, hn]) ht hn
  | loadHead =>
      by_cases hh : s.queue.head = s.queue.tail
      · have heq : s.consume = { s with consumer := .stub (.clear .stub) } := by
          simp [Sys.consume, dequeue, hc, hh, stubPc, swaps, delivers, hnone]
        rw [heq]
        exact ConsumeStep.single hc hh (h.linked.eq_singleton hh)
      · have heq : s.consume = { s with consumer := .done .Inconsistent } := by
          simp [Sys.consume, dequeue, hc, hh, stubPc, swaps, delivers, hnone]
        rw [heq]
        exact ConsumeStep.behind hc hh
  | stub e =>
      have htail : (enqueue s.queue e).1.tail = s.queue.tail := by cases e <;> rfl
      have hdel : delivers (if (enqueue s.queue e).2 = .idle then .reload
          else .stub (enqueue s.queue e).2) = [] := by split <;> rfl
      have heq : s.consume =
          { s with
            queue := (enqueue s.queue e).1
            consumer := if (enqueue s.queue e).2 = .idle then .reload
              else .stub (enqueue s.queue e).2
            chain := s.chain ++ swaps e
            swapped := s.swapped ++ swaps e } := by
        simp only [Sys.consume, dequeue, hc, htail, if_true, stubPc, hdel, List.append_nil, hnone]
      rw [heq]
      exact ConsumeStep.stub hc
  | reload =>
      have ht : s.queue.tail ≠ .stub := h.skipped (by rw [hc]; rfl)
      cases hn : s.queue.next_ready_to_run s.queue.tail with
      | none =>
          have heq : s.consume = { s with consumer := .done .Inconsistent } := by
            simp [Sys.consume, dequeue, advance, hc, hn, stubPc, swaps, delivers, hnone]
          rw [heq]
          exact ConsumeStep.torn hc hn
      | some b => exact consumeStep_data h hc rfl rfl (by simp [dequeue, advance, hn]) ht hn

theorem inv_skip {s : Sys ι} (h : s.Inv) {b : Node} {rest : List Node}
    (hc : s.consumer = .start) (ht : s.queue.tail = .stub)
    (hn : s.queue.next_ready_to_run s.queue.tail = some b)
    (hchain : s.chain = s.queue.tail :: rest)
    (hl : Linked { s.queue with tail := b } s.writers rest) :
    Inv { s with queue := { s.queue with tail := b }, consumer := .skip, chain := rest } where
  linked := hl.of_writers (writers_congr (s := s) rfl (by rw [hc]; rfl))
  task := h.task
  stub := by intro n hn'; cases hn'
  skipped := fun _ => ht ▸ tail_ne_of_move h hn
  flag := by
    intro t
    rw [h.flag t, hchain, ht]
    simp
  history := by
    have hh := h.history
    rw [hchain, ht] at hh
    exact hh

theorem inv_data {s : Sys ι} (h : s.Inv) {b : Node} {rest : List Node} {t : ℕ}
    (hw : stubPc s.consumer = .idle) (hchain : s.chain = .task t :: rest)
    (hl : Linked { s.queue with tail := b } s.writers rest) :
    Inv { s with
      queue := { s.queue with tail := b }
      consumer := .done (.Data (.task t))
      chain := rest
      returned := s.returned ++ [.task t]
      enqueued := Function.update s.enqueued t false } where
  linked := hl.of_writers (writers_congr (s := s) rfl (by rw [hw]; rfl))
  task := h.task
  stub := by intro n hn; cases hn
  skipped := by intro hpast; cases hpast
  flag := by
    intro u
    have hnodup := h.linked.broken.nodup
    rw [hchain] at hnodup
    by_cases hu : u = t
    · subst hu
      simp only [Function.update_self, Bool.false_eq_true, false_iff, not_or, not_exists]
      have hmem : Node.task u ∈ s.chain := by rw [hchain]; exact List.mem_cons_self
      exact ⟨(List.nodup_cons.mp hnodup).1, fun i =>
        ⟨fun hi => h.linked.clear (some i) _ hi hmem, fun hi => (h.linked.swap (some i) _ hi).1 hmem⟩⟩
    · simp only [ne_eq, hu, not_false_eq_true, Function.update_of_ne]
      rw [h.flag u, hchain]
      simp [hu]
  history := by
    have hh := h.history
    rw [hchain] at hh
    simp only [hh, ne_eq, reduceCtorEq, not_false_eq_true, decide_true, List.filter_cons_of_pos,
      List.append_assoc, List.singleton_append]

theorem inv_stub {s : Sys ι} (h : s.Inv) {e : EnqueuePc} (hc : s.consumer = .stub e) :
    Inv { s with
      queue := (enqueue s.queue e).1
      consumer := if (enqueue s.queue e).2 = .idle then .reload else .stub (enqueue s.queue e).2
      chain := s.chain ++ swaps e
      swapped := s.swapped ++ swaps e } where
  linked := by
    have hk : s.writers none = e := by rw [writers_none, hc]; rfl
    have hpc : stubPc (if (enqueue s.queue e).2 = .idle then .reload
        else .stub (enqueue s.queue e).2) = (enqueue s.queue e).2 := by
      split
      · next he => rw [he]; rfl
      · rfl
    have hl := h.linked.enqueue_step none
    rw [hk] at hl
    have hw := writers_update_consumer s
      { s with
        queue := (enqueue s.queue e).1
        consumer := if (enqueue s.queue e).2 = .idle then .reload else .stub (enqueue s.queue e).2
        chain := s.chain ++ swaps e
        swapped := s.swapped ++ swaps e } rfl
    rw [hw, hpc]
    exact hl
  task := h.task
  stub := by
    intro n hn
    have hs := h.stub
    rw [hc] at hs
    cases e <;> simp_all [enqueue, stubPc, EnqueuePc.node]
  skipped := by
    intro _
    have ht := h.skipped (by rw [hc]; rfl)
    cases e <;> exact ht
  flag := by
    intro t
    have hs := h.stub
    rw [hc] at hs
    have hmem : Node.task t ∉ swaps e := by
      cases e <;> simp [swaps]
      rintro rfl
      have hstub := hs (.task t) rfl
      cases hstub
    rw [h.flag t, List.mem_append]
    simp [hmem]
  history := history_append h.history

/-- Every step of `dequeue` keeps the invariant. -/
theorem Inv.of_consumeStep {s s' : Sys ι} (h : s.Inv) (hs : ConsumeStep s s') : s'.Inv := by
  cases hs with
  | empty hc ht hn =>
      refine ⟨h.linked.of_writers (writers_congr (s := s) rfl (by rw [hc]; rfl)), h.task, ?_, ?_,
        h.flag, h.history⟩
      · intro n hn'; cases hn'
      · intro hpast; cases hpast
  | skip hc ht hn hchain hl => exact inv_skip h hc ht hn hchain hl
  | data _ hw ht hn hchain hl => exact inv_data h hw hchain hl
  | null hc ht hn =>
      have hw : stubPc DequeuePc.loadHead = stubPc s.consumer := by
        rcases hc with hc | hc <;> rw [hc] <;> rfl
      refine ⟨h.linked.of_writers (writers_congr (s := s) rfl hw), h.task, ?_, fun _ => ht,
        h.flag, h.history⟩
      intro n hn'
      cases hn'
  | behind hc hh =>
      refine ⟨h.linked.of_writers (writers_congr (s := s) rfl (by rw [hc]; rfl)), h.task, ?_, ?_,
        h.flag, h.history⟩
      · intro n hn'; cases hn'
      · intro hpast; cases hpast
  | single hc hh hchain =>
      have ht : s.queue.tail ≠ .stub := h.skipped (by rw [hc]; rfl)
      have hk : s.writers none = .idle := by rw [writers_none, hc]; rfl
      refine ⟨?_, h.task, ?_, fun _ => ht, h.flag, h.history⟩
      · rw [writers_update_consumer s { s with consumer := .stub (.clear .stub) } rfl]
        refine h.linked.begin_enqueue hk ?_ ?_
        · simpa [hchain] using ht.symm
        · rintro (_ | i) hi
          · rw [hk] at hi; cases hi
          · exact h.task i _ hi rfl
      · intro n hn
        simpa [stubPc, EnqueuePc.node, eq_comm] using hn
  | stub hc => exact inv_stub h hc
  | torn hc hn =>
      refine ⟨h.linked.of_writers (writers_congr (s := s) rfl (by rw [hc]; rfl)), h.task, ?_, ?_,
        h.flag, h.history⟩
      · intro n hn'; cases hn'
      · intro hpast; cases hpast

theorem Inv.consume {s : Sys ι} (h : s.Inv) (hrun : s.consumer.running = true) :
    s.consume.Inv :=
  h.of_consumeStep (consume_cases h hrun)

end Sys

/-- **The invariant is kept by every move of every participant.** -/
theorem inv_step {s s' : Sys ι} {a : Act ι} (h : s.Inv) (hs : step s a = some s') : s'.Inv := by
  cases a with
  | enqueue i t =>
      simp only [step, Option.ite_none_right_eq_some, Option.some.injEq] at hs
      obtain ⟨⟨hi, ht⟩, rfl⟩ := hs
      exact h.beginEnqueue hi ht
  | produce i =>
      simp only [step, Option.ite_none_left_eq_some, Option.some.injEq] at hs
      obtain ⟨-, rfl⟩ := hs
      exact h.produce i
  | dequeue =>
      simp only [step, Option.ite_none_right_eq_some, Option.some.injEq] at hs
      obtain ⟨hc, rfl⟩ := hs
      exact h.beginDequeue hc
  | consume =>
      simp only [step, Option.ite_none_right_eq_some, Option.some.injEq] at hs
      obtain ⟨hc, rfl⟩ := hs
      exact h.consume hc
  | ret =>
      cases hc : s.consumer with
      | done d =>
          simp only [step, hc, Option.some.injEq] at hs
          exact hs ▸ h.endDequeue hc
      | _ => simp [step, hc] at hs

/-- The invariant holds in every reachable state. -/
theorem inv_of_run {ls : List (Act ι)} {s : Sys ι}
    (h : Transition.run step Sys.new ls = some s) : s.Inv :=
  Transition.run_invariant (fun _ _ _ => inv_step) Sys.inv_new h

end TokioStreamUtil.ReadyToRunQueue
