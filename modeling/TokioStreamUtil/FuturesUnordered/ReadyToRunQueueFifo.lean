/-
The order of the ready to run queue, and what an undisturbed `dequeue` returns.

The history half of the invariant already gives the order: what was swapped in
is what was returned followed by what is still in the chain. What is left is a
`dequeue` call that no producer disturbs, as in the destructor of the queue:
`CallInv` follows such a call from its first step to its result.
-/
import TokioStreamUtil.FuturesUnordered.ReadyToRunQueueLinks

set_option autoImplicit false
set_option linter.unusedSectionVars false

namespace TokioStreamUtil.ReadyToRunQueue

variable {ι : Type} [DecidableEq ι]

/-! ## A bound on the steps of one call -/

/-- How many steps a `dequeue` call has left at most. -/
def DequeuePc.rank : DequeuePc → ℕ
  | .start => 7
  | .skip => 6
  | .loadHead => 5
  | .stub (.clear _) => 4
  | .stub (.swap _) => 3
  | .stub _ => 2
  | .reload => 1
  | .idle => 0
  | .done _ => 0

theorem rank_pos {pc : DequeuePc} (h : pc.running = true) : 0 < pc.rank := by
  cases pc with
  | stub e => cases e <;> simp [DequeuePc.rank]
  | idle => cases h
  | done d => cases h
  | _ => simp [DequeuePc.rank]

theorem rank_advance (q : Queue) (pc : DequeuePc) : (advance q pc).2.rank ≤ pc.rank := by
  unfold advance
  split
  · exact Nat.zero_le _
  · exact Nat.le_refl _

/-- Every step of a `dequeue` call brings it closer to its result. -/
theorem rank_dequeue (q : Queue) {pc : DequeuePc} (h : pc.running = true) :
    (dequeue q pc).2.rank < pc.rank := by
  cases pc with
  | idle => cases h
  | done d => cases h
  | start =>
      have hadv := rank_advance q .loadHead
      simp only [dequeue]
      split
      · split <;> simp [DequeuePc.rank]
      · simp only [DequeuePc.rank] at hadv ⊢; omega
  | skip =>
      have hadv := rank_advance q .loadHead
      simp only [dequeue, DequeuePc.rank] at hadv ⊢
      omega
  | loadHead =>
      simp only [dequeue]
      split <;> simp [DequeuePc.rank]
  | stub e => cases e <;> simp [dequeue, enqueue, DequeuePc.rank]
  | reload =>
      have hadv := rank_advance q (.done .Inconsistent)
      simp only [dequeue, DequeuePc.rank] at hadv ⊢
      omega

/-! ## An undisturbed call -/

/-- No producer is between its swap of `head` and the store of its link. -/
def Sys.Calm (s : Sys ι) : Prop := ∀ i p n, s.producers i ≠ .store p n

/-- What the chain is at each point of an undisturbed call. -/
def CallChain (tail : Node) (chain : List Node) : DequeuePc → Prop
  | .loadHead => chain = [tail]
  | .stub (.clear _) => chain = [tail]
  | .stub (.swap n) => chain = [tail] ∧ n = .stub
  | .stub (.store _ _) => chain = [tail, .stub]
  | .stub .idle => False
  | .reload => chain = [tail, .stub]
  | .done .Empty => chain = [.stub]
  | .done .Inconsistent => False
  | _ => True

/-- The state `s` inside, or at the end of, a `dequeue` call that started in `s₀`
and during which no producer has moved. -/
structure CallInv (s₀ s : Sys ι) : Prop where
  inv : s.Inv
  calm : s.Calm
  tasks : s.swapped.filter (· ≠ .stub) = s₀.swapped.filter (· ≠ .stub)
  returned : s.returned = s₀.returned ++ Sys.delivers s.consumer
  callChain : CallChain s.queue.tail s.chain s.consumer

/-- Without pending links, a null link means the end of the chain. -/
theorem chain_eq_singleton {s : Sys ι} (h : s.Inv) (hcalm : s.Calm)
    (hw : Sys.stubPc s.consumer = .idle)
    (hn : s.queue.next_ready_to_run s.queue.tail = none) : s.chain = [s.queue.tail] := by
  obtain ⟨a, rest, hchain⟩ := List.exists_cons_of_ne_nil h.linked.ne_nil
  have ha : a = s.queue.tail := by simpa [hchain] using h.linked.tail
  subst ha
  have hbroken := h.linked.broken
  rw [hchain] at hbroken
  rcases hbroken.head_null hn with rfl | ⟨b, -, k, hk⟩
  · exact hchain
  · cases k with
    | none => rw [Sys.writers_none, hw] at hk; cases hk
    | some i => exact absurd hk (hcalm i _ _)

theorem CallInv.consume {s₀ s : Sys ι} (h : CallInv s₀ s) (hrun : s.consumer.running = true) :
    CallInv s₀ s.consume := by
  have hcases := Sys.consume_cases h.inv hrun
  have hinv := h.inv.consume hrun
  have hprod : s.consume.producers = s.producers := rfl
  have hcalm : s.consume.Calm := by
    intro i p n
    rw [hprod]
    exact h.calm i p n
  have hdel : Sys.delivers s.consumer = [] := by
    cases hc : s.consumer <;> first | rfl | (rw [hc] at hrun; cases hrun)
  have hret : s.returned = s₀.returned := by rw [h.returned, hdel, List.append_nil]
  have hchain := h.callChain
  generalize s.consume = s' at *
  cases hcases with
  | empty hc ht hn =>
      have hsing := chain_eq_singleton h.inv h.calm (by rw [hc]; rfl) hn
      exact ⟨hinv, hcalm, h.tasks, by simp [hret, Sys.delivers], by simp [CallChain, hsing, ht]⟩
  | skip hc ht hn hch hl =>
      exact ⟨hinv, hcalm, h.tasks, by simp [hret, Sys.delivers], trivial⟩
  | data _ hw ht hn hch hl =>
      exact ⟨hinv, hcalm, h.tasks, by simp [hret, Sys.delivers], trivial⟩
  | null hc ht hn =>
      have hw : Sys.stubPc s.consumer = .idle := by rcases hc with hc | hc <;> rw [hc] <;> rfl
      have hsing := chain_eq_singleton h.inv h.calm hw hn
      exact ⟨hinv, hcalm, h.tasks, by simp [hret, Sys.delivers], hsing⟩
  | behind hc hh =>
      rw [hc] at hchain
      have hlast := h.inv.linked.head
      rw [show s.chain = [s.queue.tail] from hchain, List.getLast?_singleton,
        Option.some.injEq] at hlast
      exact absurd hlast.symm hh
  | single hc hh hch =>
      exact ⟨hinv, hcalm, h.tasks, by simp [hret, Sys.delivers], hch⟩
  | @stub e hc =>
      rw [hc] at hchain
      have hdel' : Sys.delivers (if (enqueue s.queue e).2 = .idle then .reload
          else .stub (enqueue s.queue e).2) = [] := by split <;> rfl
      have hstub := h.inv.stub
      rw [hc] at hstub
      refine ⟨hinv, hcalm, ?_, by simp [hret, hdel'], ?_⟩
      · cases e with
        | swap n =>
            have hn : n = .stub := hstub n rfl
            simpa [Sys.swaps, hn] using h.tasks
        | _ => simpa [Sys.swaps] using h.tasks
      · cases e with
        | idle => exact hchain.elim
        | clear n =>
            have hn : n = .stub := hstub n rfl
            simpa [CallChain, enqueue, Sys.swaps, hn] using hchain
        | swap n =>
            have htail : s.chain = [s.queue.tail] := hchain.1
            simp [CallChain, enqueue, Sys.swaps, hchain.2, htail]
        | store p n => simpa [CallChain, enqueue, Sys.swaps] using hchain
  | torn hc hn =>
      have hsing := chain_eq_singleton h.inv h.calm (by rw [hc]; rfl) hn
      rw [hc] at hchain
      rw [show s.chain = [s.queue.tail, .stub] from hchain] at hsing
      simp at hsing

theorem CallInv.begin {s : Sys ι} (h : s.Inv) (hcalm : s.Calm) (hc : s.consumer = .idle) :
    CallInv s s.beginDequeue :=
  ⟨h.beginDequeue hc, hcalm, rfl, by simp [Sys.beginDequeue, Sys.delivers], trivial⟩

theorem CallInv.run {s₀ : Sys ι} (k : ℕ) :
    ∀ {s s' : Sys ι}, CallInv s₀ s →
      Transition.run step s (List.replicate k .consume) = some s' → CallInv s₀ s' := by
  intro s s' h hrun
  refine Transition.run_invariant_of_labels (I := CallInv s₀) (P := fun a => a = .consume)
    ?_ _ s s' (fun a ha => List.eq_of_mem_replicate ha) h hrun
  rintro s a s' rfl h hs
  simp only [step, Option.ite_none_right_eq_some, Option.some.injEq] at hs
  obtain ⟨hrun, rfl⟩ := hs
  exact h.consume hrun

/-- The consumer alone brings its call to an end. -/
theorem exists_run_done (r : ℕ) :
    ∀ s : Sys ι, s.consumer ≠ .idle → s.consumer.rank ≤ r →
      ∃ k s' d, k ≤ r ∧ Transition.run step s (List.replicate k .consume) = some s' ∧
        s'.consumer = .done d := by
  induction r with
  | zero =>
      intro s hidle hr
      cases hc : s.consumer with
      | idle => exact absurd hc hidle
      | done d => exact ⟨0, s, d, Nat.le_refl _, rfl, hc⟩
      | stub e =>
          have hpos := @rank_pos s.consumer (by rw [hc]; rfl)
          omega
      | _ =>
          rw [hc] at hr
          simp [DequeuePc.rank] at hr
  | succ r ih =>
      intro s hidle hr
      cases hrun : s.consumer.running with
      | false =>
          cases hc : s.consumer with
          | idle => exact absurd hc hidle
          | done d => exact ⟨0, s, d, Nat.zero_le _, rfl, hc⟩
          | _ => rw [hc] at hrun; cases hrun
      | true =>
          have hlt := rank_dequeue s.queue hrun
          have hne : s.consume.consumer ≠ .idle := by
            show (dequeue s.queue s.consumer).2 ≠ .idle
            cases hc : s.consumer with
            | idle => exact absurd hc hidle
            | stub e => simp only [dequeue]; split <;> simp
            | start =>
                simp only [dequeue, advance]
                split
                · split <;> simp
                · split <;> simp
            | loadHead => simp only [dequeue]; split <;> simp
            | done d => simp [dequeue]
            | _ => simp only [dequeue, advance]; split <;> simp
          have hle : s.consume.consumer.rank ≤ r := by
            have heq : s.consume.consumer = (dequeue s.queue s.consumer).2 := rfl
            rw [heq]
            omega
          obtain ⟨k, s', d, hk, hs', hd⟩ := ih s.consume hne hle
          refine ⟨k + 1, s', d, by omega, ?_, hd⟩
          rw [List.replicate_succ, Transition.run_cons]
          simp only [step, hrun, if_true, Option.bind_some]
          exact hs'

/-- The result of an undisturbed call: never `Inconsistent`, and `Empty` exactly
when nothing that was enqueued is still to be returned. -/
theorem CallInv.result {s₀ s : Sys ι} (h : CallInv s₀ s) {d : Dequeue}
    (hd : s.consumer = .done d) :
    d ≠ .Inconsistent ∧ (d = .Empty ↔ s₀.returned = s₀.swapped.filter (· ≠ .stub)) := by
  have hchain := h.callChain
  have hhist := h.inv.history
  have hret := h.returned
  rw [h.tasks] at hhist
  rw [hd] at hchain hret
  cases d with
  | Inconsistent => exact hchain.elim
  | Empty =>
      refine ⟨by simp, iff_of_true rfl ?_⟩
      rw [hhist, hret, show s.chain = [.stub] from hchain]
      simp [Sys.delivers]
  | Data n =>
      refine ⟨by simp, iff_of_false (by simp) ?_⟩
      intro heq
      rw [hhist, hret] at heq
      have hlen := congrArg List.length heq
      simp [Sys.delivers] at hlen

/-! ## The properties -/

/-- **The queue delivers in head-swap order.** In every state of every
interleaving of producers and consumer: the returned nodes are a prefix of the
tasks in the order of their head swaps (so nothing is lost, duplicated or
reordered, and the stub is never returned); from `tail` to `head` the nodes are
linked except where a writer is between its swap and its store, and the stub is
among them at most once; and a `dequeue` call that no producer disturbs comes to
an end, never with `Inconsistent`, and with `Empty` exactly when every task
enqueued before has been returned. -/
theorem dequeue_in_swap_order (ls : List (Act ι)) (s : Sys ι)
    (h : Transition.run step Sys.new ls = some s) :
    (s.returned <+: s.swapped.filter (· ≠ .stub) ∧ Node.stub ∉ s.returned) ∧
    (s.chain.head? = some s.queue.tail ∧ s.chain.getLast? = some s.queue.head ∧
      (∀ a b, Neighbours s.chain a b →
        s.queue.next_ready_to_run a = some b ∨ ∃ k, s.writers k = .store a b) ∧
      s.chain.count .stub ≤ 1) ∧
    (s.consumer = .idle → (∀ i p n, s.producers i ≠ .store p n) →
      (∃ k s' d, Transition.run step s (.dequeue :: List.replicate k .consume) = some s' ∧
        s'.consumer = .done d) ∧
      ∀ k s' d, Transition.run step s (.dequeue :: List.replicate k .consume) = some s' →
        s'.consumer = .done d →
        d ≠ .Inconsistent ∧ (d = .Empty ↔ s.returned = s.swapped.filter (· ≠ .stub))) := by
  have hinv : s.Inv := inv_of_run h
  have hpre : s.returned <+: s.swapped.filter (· ≠ .stub) := by
    rw [hinv.history]
    exact List.prefix_append _ _
  refine ⟨⟨hpre, ?_⟩, ⟨hinv.linked.tail, hinv.linked.head, hinv.linked.broken.linked, ?_⟩, ?_⟩
  · intro hmem
    have hin := hpre.subset hmem
    simp at hin
  · exact List.nodup_iff_count_le_one.mp hinv.linked.broken.nodup .stub
  · intro hc hcalm
    have hbegin := CallInv.begin hinv hcalm hc
    have hstep : step s .dequeue = some s.beginDequeue := by simp [step, hc]
    refine ⟨?_, ?_⟩
    · obtain ⟨k, s', d, -, hs', hd⟩ :=
        exists_run_done 7 s.beginDequeue (by simp [Sys.beginDequeue]) (Nat.le_refl 7)
      exact ⟨k, s', d, by rw [Transition.run_cons, hstep]; exact hs', hd⟩
    · intro k s' d hs' hd
      rw [Transition.run_cons, hstep] at hs'
      exact (hbegin.run k hs').result hd

/-- Two producers whose steps interleave while the consumer takes one task out. -/
def twoProducers : List (Act ℕ) :=
  [.enqueue 0 5, .enqueue 1 6, .produce 0, .produce 1, .produce 0, .produce 1, .produce 0,
    .produce 1, .dequeue, .consume, .consume, .ret]

theorem dequeue_in_swap_order_two_producers :
    ∃ s, Transition.run step Sys.new twoProducers = some s ∧
      s.returned = [.task 5] ∧ s.returned <+: s.swapped.filter (· ≠ .stub) :=
  ⟨_, rfl, by decide, (dequeue_in_swap_order twoProducers _ rfl).1.1⟩

end TokioStreamUtil.ReadyToRunQueue
