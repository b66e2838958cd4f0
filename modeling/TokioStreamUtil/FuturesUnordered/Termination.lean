/-
Every call of `FuturesUnordered::poll_next` comes to its end.

`callRank` bounds the steps that a call has left: it polls at most as many futures as
there were when it began, and each task that was released while in the ready to run
queue costs it one `dequeue`. No other thread can add to either, since the flag of a
released task is up.
-/
import TokioStreamUtil.FuturesUnordered.QueuedFlag
import TokioStreamUtil.FuturesUnordered.ReadyToRunQueueFifo
import TokioStreamUtil.FuturesUnordered.Frame

set_option autoImplicit false

namespace TokioStreamUtil.FuturesUnordered

open ReadyToRunQueue (Sys DequeuePc)

variable {F O W : Type} {A : AtomicWaker W} {s s' : State F O W A} {l : List ℕ}

/-! ## What a call may still do -/

/-- The released tasks that the queue still holds. -/
def State.leftover (s : State F O W A) : ℕ :=
  ((List.range s.fresh).filter fun t => s.hist.retired t && s.ready.enqueued t).length

/-- The budget of a call is not used up while it may poll another future. -/
def State.InBudget (s : State F O W A) : Prop :=
  match s.owner with
  | .poll l .register => l.polled = 0 ∧ l.len = s.len
  | .poll l .dequeue => l.polled < l.len ∨ s.is_empty = true
  | .poll l (.unlink _) => l.polled < l.len
  | .poll l (.reset _) => l.polled < l.len
  | .poll l (.clearWoken _) => l.polled < l.len
  | .poll l (.poll _) => l.polled < l.len
  | .poll l (.loadWoken _) => l.polled ≤ l.len
  | .poll l (.relink _) => l.polled ≤ l.len
  | _ => True

/-- How far a `dequeue` call, and what is done with its result, still has to go. -/
def State.dequeueRank (s : State F O W A) : ℕ :=
  match s.ready.consumer with
  | .done (.Data (.task t)) => if (s.tasks t).future.isNone then 10 else 2
  | .done (.Data .stub) => 10
  | .done .Inconsistent => 2
  | .done .Empty => 1
  | pc => pc.rank + 2

/-- A bound on the steps the call has left. -/
def callRank (s : State F O W A) : ℕ :=
  match s.owner with
  | .poll l .register => 16 * (l.len - l.polled) + 8 * s.leftover + 10
  | .poll l .dequeue => 16 * (l.len - l.polled) + 8 * s.leftover + s.dequeueRank
  | .poll l (.unlink _) => 16 * (l.len - l.polled) + 8 * s.leftover + 1
  | .poll l (.reset _) => 16 * (l.len - l.polled) + 8 * s.leftover
  | .poll l (.clearWoken _) => 16 * (l.len - (l.polled + 1)) + 8 * s.leftover + 15
  | .poll l (.poll _) => 16 * (l.len - (l.polled + 1)) + 8 * s.leftover + 14
  | .poll l (.loadWoken _) => 16 * (l.len - l.polled) + 8 * s.leftover + 13
  | .poll l (.relink _) => 16 * (l.len - l.polled) + 8 * s.leftover + 12
  | .poll _ (.release _ _) => 3
  | .poll _ (.dropFuture _ _ _) => 2
  | .poll _ .wake => 1
  | _ => 0

/-- A call of `poll_next` is in progress. -/
def Owner.polling : Owner O W → Bool
  | .poll _ _ => true
  | _ => false

/-- The label is a step of the call, or the answer of the future it polls. -/
def Act.ofCall : Act F O W → Bool
  | .owner => true
  | .polled _ => true
  | _ => false

/-! ## One step -/

theorem dequeueRank_running (hrun : s.ready.consumer.running = true) :
    s.dequeueRank = s.ready.consumer.rank + 2 := by
  unfold State.dequeueRank
  cases hc : s.ready.consumer with
  | done d => rw [hc] at hrun; cases hrun
  | _ => rfl

theorem dequeueRank_congr (hc : s'.ready.consumer = s.ready.consumer)
    (hf : (fun t => (s'.tasks t).future.isNone) = fun t => (s.tasks t).future.isNone) :
    s'.dequeueRank = s.dequeueRank := by
  have hf' := fun t => congrFun hf t
  unfold State.dequeueRank
  rw [hc]
  simp only [hf']

/-- Nothing but `retired` and `enqueued` counts. -/
theorem leftover_congr (hfresh : s'.fresh = s.fresh) (hret : s'.hist.retired = s.hist.retired)
    (henq : s'.ready.enqueued = s.ready.enqueued) : s'.leftover = s.leftover := by
  unfold State.leftover
  rw [hfresh, hret, henq]

/-- An enqueue of a task that is not retired adds nothing. -/
theorem leftover_enqueue (hfresh : s'.fresh = s.fresh) (hret : s'.hist.retired = s.hist.retired)
    {t : ℕ} (ht : s.hist.retired t = false)
    (henq : s'.ready.enqueued = Function.update s.ready.enqueued t true) :
    s'.leftover = s.leftover := by
  unfold State.leftover
  rw [hfresh, hret, henq]
  congr 1
  apply List.filter_congr
  intro u _
  by_cases hut : u = t
  · rw [hut, ht, Bool.false_and, Bool.false_and]
  · rw [Function.update_of_ne hut]

/-- A `dequeue` that returns a task takes it off the count, if it was retired. -/
theorem leftover_dequeue (hfresh : s'.fresh = s.fresh) (hret : s'.hist.retired = s.hist.retired)
    {t : ℕ} (ht : t < s.fresh) (hin : s.ready.enqueued t = true)
    (henq : s'.ready.enqueued = Function.update s.ready.enqueued t false) :
    s'.leftover + (if s.hist.retired t then 1 else 0) = s.leftover := by
  unfold State.leftover
  rw [hfresh, hret, henq]
  have hnodup : (List.range s.fresh).Nodup := List.nodup_range
  have hmem : t ∈ List.range s.fresh := List.mem_range.mpr ht
  obtain ⟨a, b, hab⟩ := List.append_of_mem hmem
  rw [hab] at hnodup ⊢
  have hta : t ∉ a ∧ t ∉ b := by
    rw [List.nodup_middle, List.nodup_cons, List.mem_append, not_or] at hnodup
    exact hnodup.1
  have hsame : ∀ c : List ℕ, t ∉ c →
      (c.filter fun u => s.hist.retired u && Function.update s.ready.enqueued t false u) =
        c.filter fun u => s.hist.retired u && s.ready.enqueued u := by
    intro c hc
    apply List.filter_congr
    intro u hu
    have hut : u ≠ t := by rintro rfl; exact hc hu
    rw [Function.update_of_ne hut]
  rw [List.filter_append, List.filter_append, hsame a hta.1, List.filter_cons, List.filter_cons,
    hsame b hta.2, Function.update_self, hin]
  cases hr : s.hist.retired t with
  | true => simp; omega
  | false => simp

/-- A dequeued task with a future is in the list of all tasks. -/
theorem State.Inv.mem_of_dequeued (h : s.Inv l) {lv : Locals W} {t : ℕ} {fut : F}
    (ho : s.owner = .poll lv .dequeue) (hc : s.ready.consumer = .done (.Data (.task t)))
    (hf : (s.tasks t).future = some fut) : t ∈ l := by
  have hflags := h.flags
  have hplaces := h.places
  rw [ho, hc] at hflags
  rw [ho] at hplaces
  have hlt := (hflags.taken_out t rfl).1
  exact (hplaces.mem t).mpr ⟨hlt, hplaces.live_of_future hlt (by rw [hf]; rfl) nofun, nofun⟩

/-- A step of the machinery around the call: neither the call nor what is left for it
changes. -/
theorem rank_frame (hb : s.InBudget) (ho : s'.owner = s.owner) (hall : s'.all = s.all)
    (hleft : s'.leftover = s.leftover) (hrank : s'.dequeueRank = s.dequeueRank) :
    s'.InBudget ∧ callRank s' = callRank s := by
  unfold State.InBudget callRank State.len State.is_empty at *
  rw [ho, hall, hleft, hrank]
  exact ⟨hb, rfl⟩

/-- The steps of other threads link and unlink nothing, and leave nothing for the calls
to come. -/
theorem others_move (hl : s.Inv l) {a : Act F O W} (hm : Move s a s') (ha : a.inner = true)
    (hother : a ≠ .owner) : s'.all = s.all ∧ s'.leftover = s.leftover := by
  cases hm with
  | push fut hi ho => cases ha
  | polled r ho => cases ha
  | poll_next w ho hp => cases ha
  | ret ho => cases ha
  | drop ho hp => cases ha
  | upgradeFails hal => exact ⟨rfl, rfl⟩
  | @swapQueued i t hi =>
      unfold State.swapQueued
      split
      · exact ⟨rfl, leftover_congr rfl rfl rfl⟩
      · rename_i hq
        have hlt := hl.calls.task_lt i t (Or.inr ⟨_, hi⟩)
        have hlive := (hl.flags.of_queued_false hlt (Bool.not_eq_true _ ▸ hq)).2.2
        exact ⟨rfl, leftover_enqueue rfl rfl hlive rfl⟩
  | dropInner hi =>
      unfold State.dropInner
      dsimp only
      split
      · split
        · exact ⟨rfl, leftover_congr rfl rfl rfl⟩
        · exact ⟨rfl, leftover_congr rfl rfl rfl⟩
      · exact ⟨rfl, leftover_congr rfl rfl rfl⟩
  | produce hp => exact ⟨rfl, leftover_congr rfl rfl rfl⟩
  | endPush hi hp => exact ⟨rfl, leftover_congr rfl rfl rfl⟩
  | upgrade hi ht hal => exact ⟨rfl, leftover_congr rfl rfl rfl⟩
  | storeWoken hi => exact ⟨rfl, leftover_congr rfl rfl rfl⟩
  | endEnqueue hi hp => exact ⟨rfl, leftover_congr rfl rfl rfl⟩
  | wakeWaker hi => exact ⟨rfl, leftover_congr rfl rfl rfl⟩
  | _ => exact absurd rfl hother

/-- A step of the `dequeue` in progress uses it up, or takes a task off the queue. -/
theorem dequeueRank_consume (hl : s.Inv l) (hrun : s.ready.consumer.running = true) :
    8 * s.consume.leftover + s.consume.dequeueRank < 8 * s.leftover + s.dequeueRank := by
  have hrank : s.consume.ready.consumer.rank < s.ready.consumer.rank :=
    ReadyToRunQueue.rank_dequeue s.ready.queue hrun
  have hold := dequeueRank_running hrun
  have hcases := Sys.consume_cases hl.flags.ready hrun
  -- a step that returns nothing leaves the tasks in the queue as they are
  have hstay : s.consume.ready.enqueued = s.ready.enqueued →
      s.consume.dequeueRank ≤ s.consume.ready.consumer.rank + 2 →
      8 * s.consume.leftover + s.consume.dequeueRank < 8 * s.leftover + s.dequeueRank := by
    intro henq hle
    have hleft : s.consume.leftover = s.leftover := leftover_congr rfl rfl henq
    omega
  have hready : s.consume.ready = s.ready.consume := rfl
  generalize hq : s.ready.consume = q at hcases hready
  cases hcases with
  | @data b rest t hc hw htail hn hchain hlinked =>
      have htask : s.consume.dequeueRank = if (s.tasks t).future.isNone then 10 else 2 := by
        unfold State.dequeueRank
        rw [hready]
        rfl
      have hin : s.ready.enqueued t = true := by
        rw [hl.flags.ready.flag]
        exact Or.inl (by rw [hchain]; exact List.mem_cons_self)
      have hlt := hl.flags.enqueued_lt t hin
      have hleft : s.consume.leftover + (if s.hist.retired t then 1 else 0) = s.leftover :=
        @leftover_dequeue F O W A s s.consume rfl rfl t hlt hin (by rw [hready])
      have hpos := ReadyToRunQueue.rank_pos hrun
      -- a task without a future has been retired, since nothing is being dropped
      cases hf : (s.tasks t).future with
      | some fut =>
          rw [hf] at htask
          simp only [Option.isNone_some, Bool.false_eq_true, if_false] at htask
          omega
      | none =>
          have hret := ((hl.places.vacant t hlt).mp (by rw [hf]; rfl)).1
          rw [hf] at htask
          rw [hret] at hleft
          simp only [Option.isNone_none, if_true] at htask
          simp only [if_true] at hleft
          omega
  | empty hc ht hn =>
      refine hstay (by rw [hready]) ?_
      unfold State.dequeueRank
      rw [hready]
      exact Nat.le_add_left 1 1
  | behind hc hh =>
      refine hstay (by rw [hready]) ?_
      unfold State.dequeueRank
      rw [hready]
      exact Nat.le_add_left 2 0
  | torn hc hn =>
      refine hstay (by rw [hready]) ?_
      unfold State.dequeueRank
      rw [hready]
      exact Nat.le_add_left 2 0
  | stub hc =>
      refine hstay (by rw [hready]) ?_
      rw [dequeueRank_running (s := s.consume)]
      rw [hready]
      dsimp only
      split <;> rfl
  | skip hc ht hn hchain hlinked =>
      refine hstay (by rw [hready]) ?_
      rw [dequeueRank_running (s := s.consume)]
      rw [hready]
      rfl
  | null hc ht hn =>
      refine hstay (by rw [hready]) ?_
      rw [dequeueRank_running (s := s.consume)]
      rw [hready]
      rfl
  | single hc hh hchain =>
      refine hstay (by rw [hready]) ?_
      rw [dequeueRank_running (s := s.consume)]
      rw [hready]
      rfl

/-- A step of the `dequeue` of `poll_next`. -/
theorem rank_consume (hl : s.Inv l) {lv : Locals W} (ho : s.owner = .poll lv .dequeue)
    (hrun : s.ready.consumer.running = true) : callRank s.consume < callRank s := by
  have hown : s.consume.owner = .poll lv .dequeue := ho
  have hval : callRank s = 16 * (lv.len - lv.polled) + 8 * s.leftover + s.dequeueRank := by
    unfold callRank
    rw [ho]
  have hval' : callRank s.consume =
      16 * (lv.len - lv.polled) + 8 * s.consume.leftover + s.consume.dequeueRank := by
    unfold callRank
    rw [hown]
  have hlt := dequeueRank_consume hl hrun
  omega

/-- The call begins to dequeue: either it may poll a future, or there is none. -/
theorem rank_register (hl : s.Inv l) (hb : s.InBudget) {lv : Locals W}
    (ho : s.owner = .poll lv .register) :
    (s.register lv).InBudget ∧ (s.register lv).owner.polling = true ∧
      callRank (s.register lv) + 1 ≤ callRank s := by
  unfold State.InBudget at hb
  rw [ho] at hb
  obtain ⟨hpolled, hlen⟩ := hb
  have hval : callRank s = 16 * (lv.len - lv.polled) + 8 * s.leftover + 10 := by
    unfold callRank
    rw [ho]
  refine ⟨?_, rfl, ?_⟩
  · show lv.polled < lv.len ∨ s.is_empty = true
    have hrep : s.len = l.length := hl.places.all.len_eq
    rcases Nat.eq_zero_or_pos lv.len with hzero | hpos
    · right
      exact hl.places.all.is_empty_iff.mpr (List.length_eq_zero_iff.mp (by omega))
    · left
      omega
  · rw [hval]
    exact le_refl (16 * (lv.len - lv.polled) + 8 * s.leftover + 10)

/-- A task without a future is taken off the queue, which it has paid for. -/
theorem rank_dequeueReleased (hb : s.InBudget) {lv : Locals W} {n : ReadyToRunQueue.Node}
    (ho : s.owner = .poll lv .dequeue) (hc : s.ready.consumer = .done (.Data n))
    (hf : ∀ t, n = .task t → (s.tasks t).future = none) :
    (s.dequeueReleased n).InBudget ∧ (s.dequeueReleased n).owner.polling = true ∧
      callRank (s.dequeueReleased n) + 1 ≤ callRank s := by
  unfold State.InBudget at hb
  rw [ho] at hb
  have ho' : (s.dequeueReleased n).owner = .poll lv .dequeue := ho
  have hval : callRank s = 16 * (lv.len - lv.polled) + 8 * s.leftover + 10 := by
    unfold callRank State.dequeueRank
    rw [ho, hc]
    cases n with
    | stub => rfl
    | task t =>
        dsimp only
        rw [hf t rfl]
        rfl
  have hval' : callRank (s.dequeueReleased n) =
      16 * (lv.len - lv.polled) + 8 * s.leftover + 9 := by
    unfold callRank
    rw [ho']
    rfl
  refine ⟨?_, by rw [ho']; rfl, by rw [hval, hval']⟩
  unfold State.InBudget
  rw [ho']
  exact hb

/-- A task with a future has been dequeued, so the set is not empty. -/
theorem rank_dequeueData (hl : s.Inv l) (hb : s.InBudget) {lv : Locals W} {t : ℕ} {fut : F}
    (ho : s.owner = .poll lv .dequeue)
    (hc : s.ready.consumer = .done (.Data (.task t))) (hf : (s.tasks t).future = some fut) :
    (s.dequeueData lv t).InBudget ∧ (s.dequeueData lv t).owner.polling = true ∧
      callRank (s.dequeueData lv t) + 1 ≤ callRank s := by
  unfold State.InBudget at hb
  rw [ho] at hb
  have hval : callRank s = 16 * (lv.len - lv.polled) + 8 * s.leftover + 2 := by
    unfold callRank State.dequeueRank
    rw [ho, hc]
    dsimp only
    rw [hf]
    rfl
  refine ⟨?_, rfl, by rw [hval]; exact le_refl _⟩
  -- a set with a task that has a future is not empty
  have hmem := hl.mem_of_dequeued ho hc hf
  rcases hb with hlt | hempty
  · exact hlt
  · rw [hl.places.all.is_empty_iff.mp hempty] at hmem
    cases hmem

/-- The poll that is about to happen is paid for by the budget. -/
theorem rank_resetQueued (hl : s.Inv l) (hb : s.InBudget) {lv : Locals W} {t : ℕ}
    (ho : s.owner = .poll lv (.reset t)) :
    (s.resetQueued lv t).InBudget ∧ (s.resetQueued lv t).owner.polling = true ∧
      callRank (s.resetQueued lv t) + 1 ≤ callRank s := by
  unfold State.InBudget at hb
  rw [ho] at hb
  have hpolled : lv.polled < lv.len := hb
  have hval : callRank s = 16 * (lv.len - lv.polled) + 8 * s.leftover := by
    unfold callRank
    rw [ho]
  -- the flag is still up, so the assertion holds
  have hup : (s.tasks t).queued = true := by
    have hflags := hl.flags
    rw [ho] at hflags
    exact (hflags.flag t (hflags.taken_out t rfl).1).mpr (Or.inr (Or.inl rfl))
  have ho' : (s.resetQueued lv t).owner = .poll lv (.clearWoken t) := by
    unfold State.resetQueued
    dsimp only
    rw [if_pos hup]
  have hval' : callRank (s.resetQueued lv t) =
      16 * (lv.len - (lv.polled + 1)) + 8 * s.leftover + 15 := by
    unfold callRank
    rw [ho']
    rfl
  refine ⟨?_, by rw [ho']; rfl, ?_⟩
  · unfold State.InBudget
    rw [ho']
    exact hpolled
  · rw [hval, hval']
    show _ + 1 ≤ _
    omega

/-- The call goes on only with some of its budget left. -/
theorem rank_relink (hb : s.InBudget) {lv : Locals W} {t : ℕ}
    (ho : s.owner = .poll lv (.relink t)) :
    (s.relink lv t).InBudget ∧ (s.relink lv t).owner.polling = true ∧
      callRank (s.relink lv t) + 1 ≤ callRank s := by
  unfold State.InBudget at hb
  rw [ho] at hb
  have hpolled : lv.polled ≤ lv.len := hb
  have hval : callRank s = 16 * (lv.len - lv.polled) + 8 * s.leftover + 12 := by
    unfold callRank
    rw [ho]
  unfold State.relink
  split
  · exact ⟨trivial, rfl, by rw [hval]; exact Nat.le_add_left 2 (_ + 10)⟩
  · rename_i hgo
    refine ⟨Or.inl ?_, rfl, ?_⟩
    · show lv.polled < lv.len
      omega
    · rw [hval]
      show 16 * (lv.len - lv.polled) + 8 * s.leftover + 9 + 1 ≤ _
      omega

/-- **Every step uses the call up.** Steps of the call, and answers of the futures it
polls, are counted by `callRank`; nobody else adds to it, and the call goes on until
it returns. -/
theorem rank_move (hl : s.Inv l) (hb : s.InBudget) {a : Act F O W} (hm : Move s a s')
    (hp : s.owner.polling = true) (ha : a ≠ .ret) :
    s'.InBudget ∧ s'.owner.polling = true ∧
      callRank s' + (if a.ofCall then 1 else 0) ≤ callRank s := by
  -- what is outside of the call
  have hother : ∀ s' : State F O W A, s'.owner = s.owner → s'.all = s.all →
      s'.leftover = s.leftover → s'.dequeueRank = s.dequeueRank →
      s'.InBudget ∧ s'.owner.polling = true ∧ callRank s' + 0 ≤ callRank s := by
    intro s' ho hall hleft hrank
    obtain ⟨hb', heq⟩ := rank_frame hb ho hall hleft hrank
    exact ⟨hb', by rw [ho]; exact hp, le_of_eq heq⟩
  have hfresh : ∀ {t : ℕ}, (∃ i pc, s.threads i = .wake t pc) → t < s.fresh :=
    fun ⟨i, pc, hi⟩ => hl.calls.task_lt i _ (Or.inr ⟨pc, hi⟩)
  have hbudget := hb
  unfold State.InBudget at hb
  cases hm with
  | push fut hi ho => rw [ho] at hp; cases hp
  | produce hpr => exact hother _ rfl rfl (leftover_congr rfl rfl rfl) rfl
  | endPush hi hpr => exact hother _ rfl rfl (leftover_congr rfl rfl rfl) rfl
  | upgrade hi ht ha => exact hother _ rfl rfl (leftover_congr rfl rfl rfl) rfl
  | upgradeFails ha => exact hother _ rfl rfl rfl rfl
  | storeWoken hi =>
      exact hother _ rfl rfl (leftover_congr rfl rfl rfl)
        (dequeueRank_congr rfl (vacant_update_same s.tasks _ rfl))
  | @swapQueued i t hi =>
      unfold State.swapQueued
      split
      · exact hother _ rfl rfl (leftover_congr rfl rfl rfl) rfl
      · rename_i hq
        -- the flag is down, so the task is not retired
        have hlive := (hl.flags.of_queued_false (hfresh ⟨i, _, hi⟩) (Bool.not_eq_true _ ▸ hq)).2.2
        exact hother _ rfl rfl (leftover_enqueue rfl rfl hlive rfl)
          (dequeueRank_congr rfl (vacant_update_same s.tasks _ rfl))
  | endEnqueue hi hpr => exact hother _ rfl rfl (leftover_congr rfl rfl rfl) rfl
  | wakeWaker hi => exact hother _ rfl rfl (leftover_congr rfl rfl rfl) rfl
  | dropInner hi =>
      unfold State.dropInner
      dsimp only
      split
      · rename_i ho
        rw [ho] at hp
        cases hp
      · exact hother _ rfl rfl (leftover_congr rfl rfl rfl) rfl
  | poll_next w ho hpush => rw [ho] at hp; cases hp
  | register ho => exact rank_register hl hbudget ho
  | consume hrun ho =>
      rcases ho with ⟨lv, ho⟩ | ho
      · rw [ho] at hb
        refine ⟨?_, hp, rank_consume hl ho hrun⟩
        unfold State.InBudget
        rw [show s.consume.owner = .poll lv .dequeue from ho]
        exact hb
      · rw [ho] at hp
        cases hp
  | @dequeueEmpty lv ho hc =>
      have hval : callRank s = 16 * (lv.len - lv.polled) + 8 * s.leftover + 1 := by
        unfold callRank State.dequeueRank
        rw [ho, hc]
      unfold State.dequeueEmpty
      split
      · exact ⟨trivial, rfl, by rw [hval]; exact Nat.le_add_left 1 _⟩
      · exact ⟨trivial, rfl, by rw [hval]; exact Nat.le_add_left 1 _⟩
  | @dequeueInconsistent lv ho hc =>
      have hval : callRank s = 16 * (lv.len - lv.polled) + 8 * s.leftover + 2 := by
        unfold callRank State.dequeueRank
        rw [ho, hc]
      exact ⟨trivial, rfl, by rw [hval]; exact Nat.le_add_left 2 _⟩
  | dequeueReleased ho hc hf => exact rank_dequeueReleased hbudget ho hc hf
  | dequeueData ho hc hf => exact rank_dequeueData hl hbudget ho hc hf
  | @unlink lv t ho =>
      rw [ho] at hb
      have hval : callRank s = 16 * (lv.len - lv.polled) + 8 * s.leftover + 1 := by
        unfold callRank
        rw [ho]
      exact ⟨hb, rfl, by rw [hval]; exact le_refl _⟩
  | resetQueued ho => exact rank_resetQueued hl hbudget ho
  | @clearWoken lv t ho =>
      rw [ho] at hb
      have hval : callRank s = 16 * (lv.len - (lv.polled + 1)) + 8 * s.leftover + 15 := by
        unfold callRank
        rw [ho]
      exact ⟨hb, rfl, by rw [hval]; exact le_refl _⟩
  | @polled lv t r ho =>
      rw [ho] at hb
      have hval : callRank s = 16 * (lv.len - (lv.polled + 1)) + 8 * s.leftover + 14 := by
        unfold callRank
        rw [ho]
      cases r with
      | pending fut => exact ⟨hb, rfl, by rw [hval]; exact le_refl _⟩
      | ready o => exact ⟨trivial, rfl, by rw [hval]; exact Nat.le_add_left 4 (_ + 10)⟩
      | unwind => exact ⟨trivial, rfl, by rw [hval]; exact Nat.le_add_left 4 (_ + 10)⟩
  | @loadWoken lv t ho =>
      rw [ho] at hb
      have hval : callRank s = 16 * (lv.len - lv.polled) + 8 * s.leftover + 13 := by
        unfold callRank
        rw [ho]
      exact ⟨hb, rfl, by rw [hval]; exact le_refl _⟩
  | relink ho => exact rank_relink hbudget ho
  | @release lv t r ho =>
      have hval : callRank s = 3 := by
        unfold callRank
        rw [ho]
      exact ⟨trivial, rfl, by rw [hval]; exact le_refl 3⟩
  | @dropFuture lv t prev r ho =>
      have hval : callRank s = 2 := by
        unfold callRank
        rw [ho]
      exact ⟨trivial, rfl, by rw [hval]; exact Nat.le_add_left 1 1⟩
  | @wakeParent lv ho =>
      have hval : callRank s = 1 := by
        unfold callRank
        rw [ho]
      exact ⟨trivial, rfl, by rw [hval]; exact le_refl 1⟩
  | ret ho => exact absurd rfl ha
  | drop ho hpush => rw [ho] at hp; cases hp
  | dropLoop ho => rw [ho] at hp; cases hp
  | dropRelease ho => rw [ho] at hp; cases hp
  | dropDropFuture ho => rw [ho] at hp; cases hp
  | dropDequeued ho hc => rw [ho] at hp; cases hp

/-! ## The whole call -/

/-- The call has its budget when it begins. -/
theorem inBudget_poll_next (s : State F O W A) (w : W) : (s.poll_next w).InBudget := ⟨rfl, rfl⟩

/-- A call is at its end, waits for a future, or can take its next step. -/
theorem not_stuck (hl : s.Inv l) (hp : s.owner.polling = true) :
    (∃ lv r, s.owner = .poll lv (.done r)) ∨ (∃ lv t, s.owner = .poll lv (.poll t)) ∨
      ∃ s', step s .owner = some s' := by
  cases ho : s.owner with
  | poll lv pc =>
      have hstep : step s .owner = pollStep s lv pc := by
        show ownerStep s = _
        unfold ownerStep
        rw [ho]
      cases pc with
      | done r => exact Or.inl ⟨lv, r, rfl⟩
      | poll t => exact Or.inr (Or.inl ⟨lv, t, rfl⟩)
      | assertFailed => exact absurd ho (hl.asserted lv)
      | dequeue =>
          refine Or.inr (Or.inr ?_)
          rw [hstep]
          cases hc : s.ready.consumer with
          | idle =>
              have hd := hl.consumer.mp hc
              rw [ho] at hd
              cases hd
          | done d => exact ⟨s.dequeued lv d, by simp [pollStep, hc]⟩
          | _ => exact ⟨s.consume, by simp [pollStep, hc]⟩
      | _ => exact Or.inr (Or.inr (by rw [hstep]; exact ⟨_, rfl⟩))
  | _ => rw [ho] at hp; cases hp

/-! ## A call on an empty set -/

/-- Where a call on an empty set can be. -/
def Owner.ofVacant : Owner O W → Bool
  | .poll _ .register => true
  | .poll _ .dequeue => true
  | .poll _ .wake => true
  | .poll _ (.done .pending) => true
  | .poll _ (.done (.ready none)) => true
  | _ => false

theorem polling_of_vacant {o : Owner O W} (h : o.ofVacant = true) : o.polling = true := by
  cases o with
  | poll lv pc => rfl
  | _ => cases h

/-- Nothing is polled in a call on an empty set: it comes to `Ready(None)`, or to
`Pending` when it meets an enqueue in progress. -/
theorem vacant_move (hl : s.Inv l) (hempty : s.is_empty = true) (hv : s.owner.ofVacant = true)
    {a : Act F O W} (hm : Move s a s') (ha : a ≠ .ret) :
    s'.is_empty = true ∧ s'.owner.ofVacant = true := by
  cases hm with
  | push fut hi ho => rw [ho] at hv; cases hv
  | swapQueued hi => unfold State.swapQueued; split <;> exact ⟨hempty, hv⟩
  | dropInner hi =>
      unfold State.dropInner
      dsimp only
      split
      · rename_i ho
        rw [ho] at hv
        cases hv
      · exact ⟨hempty, hv⟩
  | poll_next w ho hpush => rw [ho] at hv; cases hv
  | register ho => exact ⟨hempty, rfl⟩
  | dequeueEmpty ho hc =>
      unfold State.dequeueEmpty
      rw [if_pos hempty]
      exact ⟨hempty, rfl⟩
  | dequeueInconsistent ho hc => exact ⟨hempty, rfl⟩
  | @dequeueData lv t fut ho hc hf =>
      -- there is no task with a future
      have hmem := hl.mem_of_dequeued ho hc hf
      rw [hl.places.all.is_empty_iff.mp hempty] at hmem
      cases hmem
  | wakeParent ho => exact ⟨hempty, rfl⟩
  | ret ho => exact absurd rfl ha
  | unlink ho => rw [ho] at hv; cases hv
  | resetQueued ho => rw [ho] at hv; cases hv
  | clearWoken ho => rw [ho] at hv; cases hv
  | polled r ho => rw [ho] at hv; cases hv
  | loadWoken ho => rw [ho] at hv; cases hv
  | relink ho => rw [ho] at hv; cases hv
  | release ho => rw [ho] at hv; cases hv
  | dropFuture ho => rw [ho] at hv; cases hv
  | drop ho hpush => rw [ho] at hv; cases hv
  | dropLoop ho => rw [ho] at hv; cases hv
  | dropRelease ho => rw [ho] at hv; cases hv
  | dropDropFuture ho => rw [ho] at hv; cases hv
  | dropDequeued ho hc => rw [ho] at hv; cases hv
  | _ => exact ⟨hempty, hv⟩

end TokioStreamUtil.FuturesUnordered
