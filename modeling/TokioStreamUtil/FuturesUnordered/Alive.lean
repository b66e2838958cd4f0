/-
No task is used after it is freed.

A task is an `Arc`: its count is one for the owning reference and one for each waker that
has been cloned. The ready to run queue is one too: its count is one for the set and one for
each wake that has upgraded its `Weak`. The counts are part of the state here (`Counted`),
and change where the source makes, clones or drops an `Arc`.
-/
import Mathlib.Data.Finset.Card
import TokioStreamUtil.FuturesUnordered.Touches
import TokioStreamUtil.FuturesUnordered.Clear

set_option autoImplicit false

namespace TokioStreamUtil.FuturesUnordered

open ReadyToRunQueue (Node)

variable {F O W : Type} {A : AtomicWaker W} {s s' : State F O W A} {t : ℕ}

/-! ## What a step gives back -/

/-- The task whose `Arc` the step drops: one that was dequeued without its future, or one
that is released and not in the queue. -/
def State.givesBack (s : State F O W A) : Act F O W → Option ℕ
  | .owner =>
      match s.owner with
      | .poll _ .dequeue =>
          s.ready.consumer.data.filter fun t => (s.tasks t).future.isNone
      | .poll _ (.dropFuture t prev _) => if prev then none else some t
      | .drop (.dropFuture t prev) => if prev then none else some t
      | .dropQueue => s.ready.consumer.data
      | _ => none
  | _ => none

theorem freed_move {a : Act F O W} (hm : Move s a s') (t : ℕ) :
    s'.hist.freed t = s.hist.freed t + if s.givesBack a = some t then 1 else 0 := by
  -- a move of the exclusive call that drops none, and one that drops `u`
  have hnone : s'.hist.freed = s.hist.freed → s.givesBack a = none →
      s'.hist.freed t = s.hist.freed t + if s.givesBack a = some t then 1 else 0 := by
    intro hfreed hback
    rw [hfreed, hback]
    simp
  have hsome : ∀ u, s'.hist.freed = Function.update s.hist.freed u (s.hist.freed u + 1) →
      s.givesBack a = some u →
      s'.hist.freed t = s.hist.freed t + if s.givesBack a = some t then 1 else 0 := by
    intro u hfreed hback
    rw [hfreed, hback]
    by_cases hut : u = t
    · subst hut
      simp
    · simp [hut, Ne.symm hut]
  have hdropFuture : ∀ (u : ℕ) (prev : Bool) (o : Owner O W), s' = s.dropFuture u prev o →
      s.givesBack a = (if prev then none else some u) →
      s'.hist.freed t = s.hist.freed t + if s.givesBack a = some t then 1 else 0 := by
    rintro u prev o rfl hback
    cases prev with
    | true => exact hnone rfl hback
    | false => exact hsome u rfl hback
  cases hm with
  | swapQueued hi => exact hnone (by unfold State.swapQueued; split <;> rfl) rfl
  | dropInner hi =>
      refine hnone ?_ rfl
      unfold State.dropInner
      dsimp only
      split
      · split <;> rfl
      · rfl
  | consume hrun ho =>
      refine hnone rfl ?_
      have hdata := ReadyToRunQueue.data_of_running hrun
      rcases ho with ⟨lv, ho⟩ | ho
      · simp [State.givesBack, ho, hdata]
      · simp [State.givesBack, ho, hdata]
  | dequeueEmpty ho hc =>
      refine hnone (by unfold State.dequeueEmpty; split <;> rfl) ?_
      simp [State.givesBack, ho, hc, ReadyToRunQueue.DequeuePc.data]
  | dequeueInconsistent ho hc =>
      exact hnone rfl (by simp [State.givesBack, ho, hc, ReadyToRunQueue.DequeuePc.data])
  | @dequeueReleased lv n ho hc hf =>
      cases n with
      | stub => exact hnone rfl (by simp [State.givesBack, ho, hc, ReadyToRunQueue.DequeuePc.data])
      | task u =>
          refine hsome u rfl ?_
          simp [State.givesBack, ho, hc, ReadyToRunQueue.DequeuePc.data, hf u rfl]
  | dequeueData ho hc hf =>
      exact hnone rfl (by simp [State.givesBack, ho, hc, ReadyToRunQueue.DequeuePc.data, hf])
  | polled r ho => exact hnone (by cases r <;> rfl) rfl
  | relink ho =>
      exact hnone (by unfold State.relink; split <;> rfl) (by simp [State.givesBack, ho])
  | @dropFuture lv u prev r ho =>
      exact hdropFuture u prev _ rfl (by simp [State.givesBack, ho])
  | @dropDropFuture u prev ho =>
      exact hdropFuture u prev _ rfl (by simp [State.givesBack, ho])
  | dropLoop ho =>
      refine hnone ?_ (by simp [State.givesBack, ho])
      unfold State.dropLoop
      split
      · rfl
      · split <;> rfl
  | @dropDequeued d ho hc =>
      cases d with
      | Data n =>
          cases n with
          | stub => exact hnone rfl (by simp [State.givesBack, ho, hc, ReadyToRunQueue.DequeuePc.data])
          | task u =>
              exact hsome u rfl (by simp [State.givesBack, ho, hc, ReadyToRunQueue.DequeuePc.data])
      | _ => exact hnone rfl (by simp [State.givesBack, ho, hc, ReadyToRunQueue.DequeuePc.data])
  | register ho => exact hnone rfl (by simp [State.givesBack, ho])
  | unlink ho => exact hnone rfl (by simp [State.givesBack, ho])
  | resetQueued ho => exact hnone rfl (by simp [State.givesBack, ho])
  | clearWoken ho => exact hnone rfl (by simp [State.givesBack, ho])
  | loadWoken ho => exact hnone rfl (by simp [State.givesBack, ho])
  | release ho => exact hnone rfl (by simp [State.givesBack, ho])
  | wakeParent ho => exact hnone rfl (by simp [State.givesBack, ho])
  | dropRelease ho => exact hnone rfl (by simp [State.givesBack, ho])
  | _ => exact hnone rfl rfl

/-- Only `push` makes a task. -/
theorem fresh_move {a : Act F O W} (hm : Move s a s') :
    (∃ i fut, a = .push i fut ∧ s'.fresh = s.fresh + 1) ∨
      (∀ i fut, a ≠ .push i fut) ∧ s'.fresh = s.fresh := by
  cases a with
  | push i fut =>
      cases hm with
      | push fut hi ho => exact Or.inl ⟨i, fut, rfl, rfl⟩
  | wake i t => exact Or.inr ⟨(by rintro _ _ ⟨⟩), (frame_move hm rfl).fresh⟩
  | thread i => exact Or.inr ⟨(by rintro _ _ ⟨⟩), (frame_move hm rfl).fresh⟩
  | owner => exact Or.inr ⟨(by rintro _ _ ⟨⟩), (frame_move hm rfl).fresh⟩
  | polled r =>
      refine Or.inr ⟨(by rintro _ _ ⟨⟩), ?_⟩
      cases hm with
      | polled r ho => cases r <;> rfl
  | poll_next w => cases hm; exact Or.inr ⟨(by rintro _ _ ⟨⟩), rfl⟩
  | ret => cases hm; exact Or.inr ⟨(by rintro _ _ ⟨⟩), rfl⟩
  | drop => cases hm; exact Or.inr ⟨(by rintro _ _ ⟨⟩), rfl⟩

/-! ## References to the queue -/

/-- How many references to the queue there are: that of the set until it has unlinked its
last task, and those of the wakes. -/
def State.queueRefs (s : State F O W A) : ℕ := (!s.owner.emptied).toNat + s.holders.card

/-- A step makes a reference to the queue: `upgrade`, where the queue is there. -/
def State.makesRef (s : State F O W A) : Act F O W → Bool
  | .wake _ _ => queueAlive s
  | _ => false

/-- A step drops a reference to the queue: at the end of a wake, or that of the set after the
last task. -/
def State.dropsRef (s : State F O W A) : Act F O W → Bool
  | .thread i =>
      match s.threads i with
      | .wake _ .dropInner => true
      | _ => false
  | .owner =>
      match s.owner with
      | .drop .loop => s.all.head_all.isNone
      | _ => false
  | _ => false

/-- The references after a move. -/
theorem queueRefs_move {l : List ℕ} (h : s.Inv l) {a : Act F O W} (hm : Move s a s') :
    s'.queueRefs + (s.dropsRef a).toNat = s.queueRefs + (s.makesRef a).toNat := by
  have hframe : s'.owner.emptied = s.owner.emptied → s'.holders = s.holders →
      s.dropsRef a = false → s.makesRef a = false →
      s'.queueRefs + (s.dropsRef a).toNat = s.queueRefs + (s.makesRef a).toNat := by
    intro howner hholders hdrops hmakes
    rw [hdrops, hmakes, State.queueRefs, State.queueRefs, howner, hholders]
  have hidle : ∀ {i}, s.threads i = .idle → i ∉ s.holders := by
    intro i hi hin
    obtain ⟨t, pc, hwake⟩ := (h.calls.mem_holders i).mp hin
    rw [hi] at hwake
    cases hwake
  cases hm with
  -- a wake gets hold of the queue, and lets go of it
  | upgrade hi ht ha =>
      have hcard := Finset.card_insert_of_notMem (hidle hi)
      simp only [State.queueRefs, State.upgrade, State.dropsRef, State.makesRef, ha, hcard,
        Bool.toNat_false, Bool.toNat_true]
      omega
  | upgradeFails ha => exact hframe rfl rfl rfl ha
  | @dropInner i t hi =>
      have hin : i ∈ s.holders := (h.calls.mem_holders i).mpr ⟨t, _, hi⟩
      have hcard := Finset.card_erase_add_one hin
      have hdrops : s.dropsRef (.thread i) = true := by simp [State.dropsRef, hi]
      have howner : (s.dropInner i).owner.emptied = s.owner.emptied := by
        unfold State.dropInner
        cases ho : s.owner with
        | dropped =>
            dsimp only
            split <;> rfl
        | _ => rfl
      have hholders : (s.dropInner i).holders = s.holders.erase i := by
        unfold State.dropInner
        dsimp only
        split
        · split <;> rfl
        · rfl
      rw [hdrops, State.queueRefs, State.queueRefs, howner, hholders]
      show _ + 1 = _ + 0
      omega
  | dropLoop ho =>
      cases hhead : s.all.head_all with
      | some t =>
          refine hframe ?_ ?_ ?_ rfl
          · rw [ho]
            simp [State.dropLoop, hhead, Owner.emptied]
          · simp [State.dropLoop, hhead]
          · simp [State.dropsRef, ho, hhead]
      | none =>
          -- the set lets go of the queue
          have hdrops : s.dropsRef .owner = true := by simp [State.dropsRef, ho, hhead]
          have hafter : s.dropLoop.owner.emptied = true ∧ s.dropLoop.holders = s.holders := by
            unfold State.dropLoop
            rw [hhead]
            dsimp only
            split <;> exact ⟨rfl, rfl⟩
          rw [hdrops, State.queueRefs, State.queueRefs, hafter.1, hafter.2, ho]
          show 0 + _ + 1 = 1 + _ + 0
          omega
  -- nobody else does
  | @produce i hp =>
      obtain ⟨t, ht⟩ := h.calls.busy i hp
      refine hframe rfl rfl ?_ rfl
      rcases h.calls.producer i t ht with hi | hi <;> simp [State.dropsRef, hi]
  | endPush hi hp => exact hframe rfl rfl (by simp [State.dropsRef, hi]) rfl
  | storeWoken hi => exact hframe rfl rfl (by simp [State.dropsRef, hi]) rfl
  | swapQueued hi =>
      refine hframe ?_ ?_ (by simp [State.dropsRef, hi]) rfl
      · unfold State.swapQueued
        split <;> rfl
      · unfold State.swapQueued
        split <;> rfl
  | endEnqueue hi hp => exact hframe rfl rfl (by simp [State.dropsRef, hi]) rfl
  | wakeWaker hi => exact hframe rfl rfl (by simp [State.dropsRef, hi]) rfl
  | push fut hi ho => exact hframe rfl rfl rfl rfl
  | poll_next w ho hp => exact hframe (by rw [ho]; rfl) rfl rfl rfl
  | polled r ho => exact hframe (by rw [ho]; cases r <;> rfl) (by cases r <;> rfl) rfl rfl
  | ret ho => exact hframe (by rw [ho]; rfl) rfl rfl rfl
  | drop ho hp => exact hframe (by rw [ho]; rfl) rfl rfl rfl
  | consume hrun ho =>
      refine hframe rfl rfl ?_ rfl
      rcases ho with ⟨lv, ho⟩ | ho <;> simp [State.dropsRef, ho]
  | dequeueEmpty ho hc =>
      refine hframe ?_ ?_ (by simp [State.dropsRef, ho]) rfl
      · rw [ho]
        unfold State.dequeueEmpty
        split <;> rfl
      · unfold State.dequeueEmpty
        split <;> rfl
  | @dequeueReleased lv n ho hc hf =>
      cases n <;> exact hframe rfl rfl (by simp [State.dropsRef, ho]) rfl
  | relink ho =>
      refine hframe ?_ ?_ (by simp [State.dropsRef, ho]) rfl
      · rw [ho]
        unfold State.relink
        split <;> rfl
      · unfold State.relink
        split <;> rfl
  | dropFuture ho => exact hframe (by rw [ho]; rfl) rfl (by simp [State.dropsRef, ho]) rfl
  | @dropDequeued d ho hc =>
      refine hframe ?_ ?_ (by simp [State.dropsRef, ho]) rfl
      · rw [ho]
        rcases d with _ | _ | (_ | _) <;> first | rfl | exact congrArg Owner.emptied ho
      · rcases d with _ | _ | (_ | _) <;> rfl
  | dequeueInconsistent ho hc =>
      exact hframe (by rw [ho]; rfl) rfl (by simp [State.dropsRef, ho]) rfl
  | dequeueData ho hc hf => exact hframe (by rw [ho]; rfl) rfl (by simp [State.dropsRef, ho]) rfl
  | unlink ho => exact hframe (by rw [ho]; rfl) rfl (by simp [State.dropsRef, ho]) rfl
  | register ho => exact hframe (by rw [ho]; rfl) rfl (by simp [State.dropsRef, ho]) rfl
  | resetQueued ho => exact hframe (by rw [ho]; rfl) rfl (by simp [State.dropsRef, ho]) rfl
  | clearWoken ho => exact hframe (by rw [ho]; rfl) rfl (by simp [State.dropsRef, ho]) rfl
  | loadWoken ho => exact hframe (by rw [ho]; rfl) rfl (by simp [State.dropsRef, ho]) rfl
  | release ho => exact hframe (by rw [ho]; rfl) rfl (by simp [State.dropsRef, ho]) rfl
  | wakeParent ho => exact hframe (by rw [ho]; rfl) rfl (by simp [State.dropsRef, ho]) rfl
  | dropRelease ho => exact hframe (by rw [ho]; rfl) rfl (by simp [State.dropsRef, ho]) rfl
  | dropDropFuture ho => exact hframe (by rw [ho]; rfl) rfl (by simp [State.dropsRef, ho]) rfl

/-- A thread is on a waker that it was on before, or has just been called with. -/
theorem onWaker_move {a : Act F O W} (hm : Move s a s') {i : ℕ} {pc : WakePc}
    (hi : s'.threads i = .wake t pc) : (∃ pc', s.threads i = .wake t pc') ∨ a = .wake i t := by
  -- thread `j` moves on to `th`
  have hmove : ∀ {j : ℕ} {th : Thread}, s'.threads = Function.update s.threads j th →
      (∀ pc', th = .wake t pc' → (∃ pc'', s.threads j = .wake t pc'') ∨ a = .wake j t) →
      (∃ pc', s.threads i = .wake t pc') ∨ a = .wake i t := by
    intro j th hth hj
    rw [hth] at hi
    by_cases hij : i = j
    · subst hij
      rw [Function.update_self] at hi
      exact hj pc hi
    · rw [Function.update_of_ne hij] at hi
      exact Or.inl ⟨pc, hi⟩
  cases hm with
  | push fut hj ho => exact hmove rfl (by rintro _ ⟨⟩)
  | endPush hj hp => exact hmove rfl (by rintro _ ⟨⟩)
  | upgrade hj ht ha => exact hmove rfl (by rintro _ ⟨⟩; exact Or.inr rfl)
  | storeWoken hj => exact hmove rfl (by rintro _ ⟨⟩; exact Or.inl ⟨_, hj⟩)
  | @swapQueued j u hj =>
      unfold State.swapQueued at hi hmove
      cases hq : (s.tasks u).queued with
      | true =>
          simp only [hq, if_true] at hi hmove
          exact hmove rfl (by rintro _ ⟨⟩; exact Or.inl ⟨_, hj⟩)
      | false =>
          simp only [hq, Bool.false_eq_true, if_false] at hi hmove
          exact hmove rfl (by rintro _ ⟨⟩; exact Or.inl ⟨_, hj⟩)
  | endEnqueue hj hp => exact hmove rfl (by rintro _ ⟨⟩; exact Or.inl ⟨_, hj⟩)
  | wakeWaker hj => exact hmove rfl (by rintro _ ⟨⟩; exact Or.inl ⟨_, hj⟩)
  | @dropInner j u hj =>
      have hidle : (s.dropInner j).threads = Function.update s.threads j .idle := by
        unfold State.dropInner
        dsimp only
        split
        · split <;> rfl
        · rfl
      exact hmove hidle (by rintro _ ⟨⟩)
  | dequeueEmpty ho hc =>
      refine Or.inl ⟨pc, ?_⟩
      unfold State.dequeueEmpty at hi
      split at hi <;> exact hi
  | polled r ho => exact Or.inl ⟨pc, by cases r <;> exact hi⟩
  | relink ho =>
      refine Or.inl ⟨pc, ?_⟩
      unfold State.relink at hi
      split at hi <;> exact hi
  | dropLoop ho =>
      refine Or.inl ⟨pc, ?_⟩
      unfold State.dropLoop at hi
      split at hi
      · exact hi
      · split at hi <;> exact hi
  | @dropDequeued d ho hc => exact Or.inl ⟨pc, by cases d <;> exact hi⟩
  | _ => exact Or.inl ⟨pc, hi⟩

/-! ## Wakers

`waker_ref` lends the waker of a task to the context its future is polled with, without
touching the count; whoever wants to keep it clones it. -/

/-- The task whose waker is in the context of the poll in progress. -/
def State.inContext (s : State F O W A) : Option ℕ :=
  match s.owner with
  | .poll _ (.poll t) => some t
  | _ => none

/-- The task whose waker a thread is inside a call on. -/
def Thread.waker : Thread → Option ℕ
  | .wake t _ => some t
  | _ => none

/-- Some thread is inside a call on a waker of task `t`. -/
def State.Waking (s : State F O W A) (t : ℕ) : Prop := ∃ i ∈ s.holders, (s.threads i).waker = some t

instance (s : State F O W A) (t : ℕ) : Decidable (s.Waking t) :=
  inferInstanceAs (Decidable (∃ i ∈ s.holders, (s.threads i).waker = some t))

theorem inContext_iff : s.inContext = some t ↔ ∃ lv, s.owner = .poll lv (.poll t) := by
  unfold State.inContext
  constructor
  · intro h
    split at h
    · rename_i lv u ho
      cases h
      exact ⟨lv, ho⟩
    · cases h
  · rintro ⟨lv, ho⟩
    rw [ho]

/-- The context stays until the poll returns. -/
theorem inContext_step {a : Act F O W} (hs : step s a = some s') (ht : s.inContext = some t) :
    s'.inContext = some t ∨ ∃ r, a = .polled r := by
  obtain ⟨lv, ho⟩ := inContext_iff.mp ht
  have hsame : s'.owner = s.owner → s'.inContext = some t ∨ ∃ r, a = .polled r := by
    intro howner
    exact Or.inl (inContext_iff.mpr ⟨lv, howner.trans ho⟩)
  cases a with
  | polled r => exact Or.inr ⟨r, rfl⟩
  | push i fut => simp [step, ho, Owner.isIdle] at hs
  | poll_next w => simp [step, ho, Owner.isIdle] at hs
  | drop => simp [step, ho, Owner.isIdle] at hs
  | ret => simp [step, ho] at hs
  | owner => simp [step, ownerStep, ho, pollStep] at hs
  | wake i u =>
      cases move_of_step hs with
      | upgrade hi ht ha => exact hsame rfl
      | upgradeFails ha => exact hsame rfl
  | thread i =>
      cases move_of_step hs with
      | swapQueued hi => exact hsame (by unfold State.swapQueued; split <;> rfl)
      | dropInner hi =>
          refine hsame ?_
          unfold State.dropInner
          simp only [ho]
      | _ => exact hsame rfl

/-- A set, the strong count of each `Arc<Task>`, how many of these references are wakers
that have been cloned, and the strong count of `Arc<ReadyToRunQueue>`. -/
structure Counted (F O W : Type) (A : AtomicWaker W) where
  set : State F O W A
  strong : ℕ → ℕ
  wakers : ℕ → ℕ
  queue : ℕ

namespace Counted

/-- `FuturesUnordered::new` makes the queue. -/
def new : Counted F O W A :=
  { set := .new, strong := fun _ => 0, wakers := fun _ => 0, queue := 1 }

/-- There is a waker of `t` to call or to clone. -/
def Has (x : Counted F O W A) (t : ℕ) : Prop := 0 < x.wakers t ∨ x.set.inContext = some t

instance (x : Counted F O W A) (t : ℕ) : Decidable (x.Has t) :=
  inferInstanceAs (Decidable (0 < x.wakers t ∨ x.set.inContext = some t))

/-- What the holders of wakers owe: a waker is called only where there is one, and the poll
that has lent one does not return while it is in use, unless there is another. -/
def Allows (x : Counted F O W A) : FuturesUnordered.Act F O W → Prop
  | .wake _ t => x.Has t
  | .polled _ => ∀ t ∈ x.set.inContext, x.set.Waking t → 0 < x.wakers t
  | _ => True

instance (x : Counted F O W A) (a : FuturesUnordered.Act F O W) : Decidable (x.Allows a) :=
  match a with
  | .wake _ t => inferInstanceAs (Decidable (x.Has t))
  | .polled _ =>
      inferInstanceAs (Decidable (∀ t ∈ x.set.inContext, x.set.Waking t → 0 < x.wakers t))
  | .push _ _ => isTrue trivial
  | .thread _ => isTrue trivial
  | .poll_next _ => isTrue trivial
  | .owner => isTrue trivial
  | .ret => isTrue trivial
  | .drop => isTrue trivial

/-- A step of the set, or a waker of a task is cloned or dropped. A waker that is called by
value is called by reference and dropped afterwards. -/
inductive Act (F O W : Type) where
  | set (a : FuturesUnordered.Act F O W)
  | clone (t : ℕ)
  | drop (t : ℕ)

/-- The counts after a step of the set: `Arc::new` in `push`, and the references dropped. -/
def counted (x : Counted F O W A) : FuturesUnordered.Act F O W → ℕ → ℕ
  | .push _ _ => Function.update x.strong x.set.fresh 1
  | a =>
      match x.set.givesBack a with
      | some t => Function.update x.strong t (x.strong t - 1)
      | none => x.strong

/-- The count of the queue after a step of the set: `upgrade` makes a reference where the
count is not zero. -/
def queueCounted (x : Counted F O W A) : FuturesUnordered.Act F O W → ℕ
  | .wake _ _ => if 0 < x.queue then x.queue + 1 else x.queue
  | a => x.queue - (x.set.dropsRef a).toNat

/-- One step. The last waker is not dropped under a call that may be on it. -/
def step (x : Counted F O W A) : Act F O W → Option (Counted F O W A)
  | .set a =>
      if x.Allows a then
        (FuturesUnordered.step x.set a).map fun set =>
          { x with set := set, strong := x.counted a, queue := x.queueCounted a }
      else none
  | .clone t =>
      if x.Has t then
        some
          { x with
            strong := Function.update x.strong t (x.strong t + 1)
            wakers := Function.update x.wakers t (x.wakers t + 1) }
      else none
  | .drop t =>
      if 0 < x.wakers t ∧ (1 < x.wakers t ∨ x.set.inContext = some t ∨ ¬x.set.Waking t) then
        some
          { x with
            strong := Function.update x.strong t (x.strong t - 1)
            wakers := Function.update x.wakers t (x.wakers t - 1) }
      else none

/-- The nodes whose memory a step touches; a clone and a drop change the count. -/
def touches (x : Counted F O W A) : Act F O W → List Node
  | .set a => x.set.touches a
  | .clone t => [.task t]
  | .drop t => [.task t]

/-- A node whose memory is there: the count of a task is not zero, the stub lives as long
as the queue. -/
def Alive (x : Counted F O W A) : Node → Prop
  | .stub => x.set.owner ≠ .gone ∧ x.set.owner ≠ .aborted
  | .task t => t < x.set.fresh ∧ 0 < x.strong t

/-- The count of every task is what the set and the wakers hold of it, every call on a
waker is on one that is there, and the count of the queue is what the set and the wakes hold
of it. -/
structure Sound (x : Counted F O W A) : Prop where
  accounted : x.set.Accounted
  queue : x.queue = x.set.queueRefs
  strong : ∀ t < x.set.fresh, x.strong t + x.set.hist.freed t = 1 + x.wakers t
  unborn : ∀ t, x.set.fresh ≤ t → x.wakers t = 0
  lent : ∀ i t pc, x.set.threads i = .wake t pc → x.Has t

variable {x x' : Counted F O W A}

namespace Sound

theorem new : (new : Counted F O W A).Sound where
  accounted := .new
  queue := rfl
  strong := by
    intro t ht
    exact absurd ht (Nat.not_lt_zero t)
  unborn := fun _ _ => rfl
  lent := by rintro i t pc ⟨⟩

/-- The queue is gone with its last reference. -/
theorem released_iff (h : x.Sound) : x.set.owner.released = true ↔ x.queue = 0 := by
  obtain ⟨l, hl⟩ := h.accounted.inv
  have hreleased := hl.calls.released
  have hholders := h.accounted.holders
  rw [h.queue, State.queueRefs, Nat.add_eq_zero_iff, Finset.card_eq_zero]
  cases ho : x.set.owner with
  | dropped => simp [Owner.released, hholders ho]
  | dropQueue => simp [Owner.released, Owner.emptied, hreleased (by rw [ho]; rfl)]
  | gone => simp [Owner.released, Owner.emptied, hreleased (by rw [ho]; rfl)]
  | aborted => simp [Owner.released, Owner.emptied, hreleased (by rw [ho]; rfl)]
  | _ => simp [Owner.released, Owner.emptied]

/-- So `upgrade` succeeds where the count is not zero. -/
theorem queueAlive_iff (h : x.Sound) : queueAlive x.set = true ↔ 0 < x.queue := by
  have hholders := h.accounted.holders
  rw [Nat.pos_iff_ne_zero, Ne, ← h.released_iff]
  cases ho : x.set.owner with
  | dropped => simp [queueAlive, ho, Owner.released, hholders ho]
  | _ => simp [queueAlive, ho, Owner.released]

/-- A task the set keeps alive has a reference. -/
theorem pos_of_live (h : x.Sound) (ht : x.set.Live t) : 0 < x.strong t := by
  have hcount := h.strong t ht.lt
  have hfreed := h.accounted.refs.kept t ht.kept
  omega

/-- So has a task with a waker. -/
theorem alive_of_has (h : x.Sound) (ht : x.Has t) : x.Alive (.task t) := by
  rcases ht with hpos | hctx
  · have hlt : t < x.set.fresh := by
      by_contra hge
      have hzero := h.unborn t (Nat.le_of_not_lt hge)
      omega
    have hcount := h.strong t hlt
    have hfreed := h.accounted.freed_le_one t
    exact ⟨hlt, by omega⟩
  · obtain ⟨l, hl⟩ := h.accounted.inv
    obtain ⟨lv, ho⟩ := inContext_iff.mp hctx
    have hheld : x.set.owner.held = some t := by rw [ho]; rfl
    have hlive := hl.live_of_held hheld
    exact ⟨hlive.lt, h.pos_of_live hlive⟩

/-- The count of the queue is kept by a step of the set. -/
theorem queueCounted (h : x.Sound) {a : FuturesUnordered.Act F O W} {set : State F O W A}
    (hm : Move x.set a set) {l : List ℕ} (hl : x.set.Inv l) : x.queueCounted a = set.queueRefs := by
  have hrefs := queueRefs_move hl hm
  rw [← h.queue] at hrefs
  cases a with
  | wake i t =>
      have halive := h.queueAlive_iff
      simp only [Counted.queueCounted, State.dropsRef, State.makesRef] at hrefs ⊢
      by_cases hpos : 0 < x.queue
      · rw [halive.mpr hpos] at hrefs
        rw [if_pos hpos]
        exact hrefs.symm
      · rw [Bool.eq_false_iff.mpr (halive.not.mpr hpos)] at hrefs
        rw [if_neg hpos]
        exact hrefs.symm
  | _ => exact (Nat.eq_sub_of_add_eq hrefs).symm

theorem set (h : x.Sound) {a : FuturesUnordered.Act F O W} {set : State F O W A}
    (hallow : x.Allows a) (hs : FuturesUnordered.step x.set a = some set) :
    ({ x with set := set, strong := x.counted a, queue := x.queueCounted a } :
      Counted F O W A).Sound := by
  have hm := move_of_step hs
  have hacc := h.accounted.step hs
  obtain ⟨l, hl⟩ := h.accounted.inv
  have hfresh := fresh_move hm
  refine ⟨hacc, h.queueCounted hm hl, fun t ht => ?_, fun t ht => ?_, fun i t pc hi => ?_⟩
  · have hfreed := freed_move hm t
    rcases hfresh with ⟨i, fut, rfl, hnext⟩ | ⟨hpush, hsame⟩
    · -- `push` makes the task with one reference
      dsimp only [State.givesBack] at ht hfreed ⊢
      by_cases htf : t = x.set.fresh
      · subst htf
        have hlive : x.set.Kept x.set.fresh := by
          refine Or.inl ?_
          by_contra hret
          exact Nat.lt_irrefl _ (hl.places.retired_lt x.set.fresh (by simpa using hret))
        have hzero := h.accounted.refs.kept x.set.fresh hlive
        have hnone := h.unborn x.set.fresh le_rfl
        simp only [counted, Function.update_self, hfreed, hzero, hnone]
        simp
      · have hcount := h.strong t (by omega)
        simp only [counted, Function.update_of_ne htf, hfreed]
        simpa using hcount
    · have hcounted : x.counted a t = x.strong t - if x.set.givesBack a = some t then 1 else 0 := by
        have hdef : x.counted a = match x.set.givesBack a with
            | some t => Function.update x.strong t (x.strong t - 1)
            | none => x.strong := by
          cases a with
          | push i fut => exact absurd rfl (hpush i fut)
          | _ => rfl
        rw [hdef]
        cases hback : x.set.givesBack a with
        | none => simp
        | some u =>
            by_cases hut : u = t
            · subst hut
              simp
            · simp [hut, Ne.symm hut]
      dsimp only at ht ⊢
      rw [hsame] at ht
      have hcount := h.strong t ht
      have hone := hacc.freed_le_one t
      rw [hcounted]
      by_cases hback : x.set.givesBack a = some t
      · rw [if_pos hback] at hfreed ⊢
        omega
      · rw [if_neg hback] at hfreed ⊢
        omega
  · refine h.unborn t (Nat.le_trans ?_ ht)
    rcases hfresh with ⟨i, fut, -, hnext⟩ | ⟨-, hsame⟩
    · exact hnext ▸ Nat.le_succ _
    · exact hsame.ge
  · -- the waker is still there
    have hstays : x.Has t → (∀ r, a = .polled r → x.set.inContext = some t → 0 < x.wakers t) →
        0 < x.wakers t ∨ set.inContext = some t := by
      intro hhas hpolled
      rcases hhas with hpos | hctx
      · exact Or.inl hpos
      · rcases inContext_step hs hctx with hctx' | ⟨r, rfl⟩
        · exact Or.inr hctx'
        · exact Or.inl (hpolled r rfl hctx)
    rcases onWaker_move hm hi with ⟨pc', hi'⟩ | rfl
    · refine hstays (h.lent i t pc' hi') ?_
      rintro r rfl hctx
      exact hallow t hctx ⟨i, (hl.calls.mem_holders i).mpr ⟨t, pc', hi'⟩, by rw [hi']; rfl⟩
    · exact hstays hallow (by rintro r ⟨⟩)

theorem clone (h : x.Sound) (hhas : x.Has t) :
    ({ x with
      strong := Function.update x.strong t (x.strong t + 1)
      wakers := Function.update x.wakers t (x.wakers t + 1) } : Counted F O W A).Sound := by
  have hlt := (h.alive_of_has hhas).1
  refine ⟨h.accounted, h.queue, fun u hu => ?_, fun u hu => ?_, fun i u pc hi => ?_⟩
  · have hcount := h.strong u hu
    by_cases hut : u = t
    · subst hut
      simp only [Function.update_self]
      omega
    · simpa [hut] using hcount
  · have hut : u ≠ t := by
      rintro rfl
      exact absurd hlt (Nat.not_lt.mpr hu)
    simpa [hut] using h.unborn u hu
  · refine (h.lent i u pc hi).imp_left fun hpos => ?_
    by_cases hut : u = t
    · subst hut
      simp
    · simpa [hut] using hpos

theorem drop (h : x.Sound) (hpos : 0 < x.wakers t)
    (hfree : 1 < x.wakers t ∨ x.set.inContext = some t ∨ ¬x.set.Waking t) :
    ({ x with
      strong := Function.update x.strong t (x.strong t - 1)
      wakers := Function.update x.wakers t (x.wakers t - 1) } : Counted F O W A).Sound := by
  obtain ⟨l, hl⟩ := h.accounted.inv
  refine ⟨h.accounted, h.queue, fun u hu => ?_, fun u hu => ?_, fun i u pc hi => ?_⟩
  · have hcount := h.strong u hu
    have hfreed := h.accounted.freed_le_one u
    by_cases hut : u = t
    · subst hut
      simp only [Function.update_self]
      omega
    · simpa [hut] using hcount
  · have hzero := h.unborn u hu
    by_cases hut : u = t
    · subst hut
      omega
    · simpa [hut] using hzero
  · by_cases hut : u = t
    · subst hut
      have hwaking : x.set.Waking u :=
        ⟨i, (hl.calls.mem_holders i).mpr ⟨u, pc, hi⟩, by rw [hi]; rfl⟩
      rcases hfree with hmore | hctx | hnone
      · refine Or.inl ?_
        simp only [Function.update_self]
        omega
      · exact Or.inr hctx
      · exact absurd hwaking hnone
    · refine (h.lent i u pc hi).imp_left fun hpos => ?_
      simpa [hut] using hpos

theorem step (h : x.Sound) {a : Act F O W} (hs : Counted.step x a = some x') : x'.Sound := by
  cases a with
  | set a =>
      simp only [Counted.step, Option.ite_none_right_eq_some, Option.map_eq_some_iff] at hs
      obtain ⟨hallow, set, hset, rfl⟩ := hs
      exact h.set hallow hset
  | clone t =>
      simp only [Counted.step, Option.ite_none_right_eq_some, Option.some.injEq] at hs
      obtain ⟨hhas, rfl⟩ := hs
      exact h.clone hhas
  | drop t =>
      simp only [Counted.step, Option.ite_none_right_eq_some, Option.some.injEq] at hs
      obtain ⟨⟨hpos, hfree⟩, rfl⟩ := hs
      exact h.drop hpos hfree

/-- Every node that a step touches is there. -/
theorem touches_alive (h : x.Sound) {a : Act F O W} (hs : Counted.step x a = some x') {n : Node}
    (hn : n ∈ x.touches a) : x.Alive n := by
  cases a with
  | set a =>
      simp only [Counted.step, Option.ite_none_right_eq_some, Option.map_eq_some_iff] at hs
      obtain ⟨hallow, set, hset, -⟩ := hs
      have hm := move_of_step hset
      obtain ⟨l, hl⟩ := h.accounted.inv
      cases n with
      | stub =>
          rcases hl.queue_of_touches hm (State.Inv.queue_of_stub hm hn) with hrel | ⟨-, ho⟩
          · constructor
            · intro ho
              rw [ho] at hrel
              cases hrel
            · intro ho
              rw [ho] at hrel
              cases hrel
          · unfold Alive
            rw [ho]
            simp
      | task t =>
          rcases hl.live_of_touches hn with hlive | hwaker
          · exact ⟨hlive.lt, h.pos_of_live hlive⟩
          · refine h.alive_of_has ?_
            cases a with
            | wake i u =>
                cases hwaker
                exact hallow
            | thread i =>
                unfold State.onWaker at hwaker
                dsimp only at hwaker
                split at hwaker
                · rename_i u pc hi
                  cases hwaker
                  exact h.lent i _ pc hi
                · cases hwaker
            | _ => cases hwaker
  | clone t =>
      simp only [Counted.step, Option.ite_none_right_eq_some] at hs
      rw [List.mem_singleton.mp hn]
      exact h.alive_of_has hs.1
  | drop t =>
      simp only [Counted.step, Option.ite_none_right_eq_some] at hs
      rw [List.mem_singleton.mp hn]
      exact h.alive_of_has (Or.inl hs.1.1)

/-- A task without a reference: its owner and its wakers have let go of it. -/
theorem of_strong_eq_zero (h : x.Sound) (ht : t < x.set.fresh) (hzero : x.strong t = 0) :
    x.set.hist.freed t = 1 ∧ x.wakers t = 0 := by
  have hcount := h.strong t ht
  have hfreed := h.accounted.freed_le_one t
  exact ⟨by omega, by omega⟩

/-- Memory that has been freed stays freed. -/
theorem strong_eq_zero_step (h : x.Sound) {a : Act F O W} (hs : Counted.step x a = some x')
    (ht : t < x.set.fresh) (hzero : x.strong t = 0) : x'.strong t = 0 := by
  have hdead : ¬x.Has t := fun hhas => by
    have hpos := (h.alive_of_has hhas).2
    omega
  have hnone : ∀ {u : ℕ}, 0 < x.wakers u → t ≠ u := by
    rintro u hpos rfl
    exact hdead (Or.inl hpos)
  cases a with
  | set a =>
      simp only [Counted.step, Option.ite_none_right_eq_some, Option.map_eq_some_iff] at hs
      obtain ⟨hallow, set, hset, rfl⟩ := hs
      have hm := move_of_step hset
      have hsound := h.set hallow hset
      have hcount := hsound.strong t (by
        rcases fresh_move hm with ⟨_, _, -, hnext⟩ | ⟨-, hsame⟩
        · exact hnext ▸ Nat.lt_succ_of_lt ht
        · exact hsame ▸ ht)
      obtain ⟨hback, hwakers⟩ := h.of_strong_eq_zero ht hzero
      have hfreed := freed_move hm t
      dsimp only at hcount ⊢
      omega
  | clone u =>
      simp only [Counted.step, Option.ite_none_right_eq_some, Option.some.injEq] at hs
      obtain ⟨hhas, rfl⟩ := hs
      have htu : t ≠ u := by
        rintro rfl
        exact hdead hhas
      simpa [htu] using hzero
  | drop u =>
      simp only [Counted.step, Option.ite_none_right_eq_some, Option.some.injEq] at hs
      obtain ⟨⟨hpos, -⟩, rfl⟩ := hs
      simpa [hnone hpos] using hzero

end Sound

end Counted

/-! ## The theorem -/

/-- The set its owner has, with its counts, and those that `clear` has replaced. -/
abbrev CountedSets (F O W : Type) (A : AtomicWaker W) := Generations (Counted F O W A)

namespace CountedSets

def new : CountedSets F O W A := .start Counted.new

/-- One step, of the sets and of the wakers of any of them. `clear` drops the set. -/
def step : CountedSets F O W A → Generations.Act (Counted.Act F O W) → Option (CountedSets F O W A) :=
  Generations.step Counted.step Counted.new (.set .drop) fun x => x.set.owner.emptied

end CountedSets

/-- **Nothing is used after it is freed.** In every run of pushes, polls, wakes, `clear` and
the drop, with wakers cloned and dropped anywhere, for every set there has been: every task
whose cells a step touches still has a reference, and the stub is there; whoever touches the
queue finds its count above zero, or runs its destructor; the count of a task is one for the
owning reference, as long as somebody has it, and one for each waker; the count of the queue
is one for the set and one for each wake inside its call, and `upgrade` succeeds where it is
not zero; a task without a reference has no future any more, is in no list, in no queue and
in nobody's hands, and no thread is inside a call on its wakers; no step brings it back; and
when the queue is gone, only wakers keep tasks. -/
theorem no_use_after_free (X : CountedSets F O W A)
    (h : Transition.Reachable CountedSets.step CountedSets.new X) : ∀ x ∈ X.all,
    (∀ a x', Counted.step x a = some x' → ∀ n ∈ x.touches a, x.Alive n) ∧
    (∀ a x', Counted.step x (.set a) = some x' → x.set.touchesQueue a = true →
      0 < x.queue ∨ a = .owner ∧ x.set.owner = .dropQueue) ∧
    (∀ t < x.set.fresh,
      (x.set.InAll t ∨ x.set.Held t ∨ x.set.Dropping t ∨ x.set.InQueue t ∨
        (∃ i, x.set.Enqueueing i t) ∨ x.set.Taken t → x.strong t = 1 + x.wakers t) ∧
      (¬(x.set.InAll t ∨ x.set.Held t ∨ x.set.Dropping t ∨ x.set.InQueue t ∨
        (∃ i, x.set.Enqueueing i t) ∨ x.set.Taken t) → x.strong t = x.wakers t)) ∧
    x.queue = (!x.set.owner.emptied).toNat + x.set.holders.card ∧
    (queueAlive x.set = true ↔ 0 < x.queue) ∧
    (∀ t < x.set.fresh, x.strong t = 0 →
      (x.set.tasks t).future = none ∧
      ¬(x.set.InAll t ∨ x.set.Held t ∨ x.set.Dropping t ∨ x.set.InQueue t ∨
        (∃ i, x.set.Enqueueing i t) ∨ x.set.Taken t) ∧
      (∀ i pc, x.set.threads i ≠ .wake t pc) ∧
      ∀ a x', Counted.step x a = some x' → x'.strong t = 0) ∧
    (x.set.owner = .gone → ∀ t < x.set.fresh, x.strong t = x.wakers t) := by
  intro x hx
  have hsound : x.Sound :=
    Generations.forall_of_reachable Counted.Sound.new (fun _ _ _ hI => hI.step) h x hx
  refine ⟨fun a x' hs n hn => hsound.touches_alive hs hn, fun a x' hs hq => ?_, fun t ht => ?_,
    hsound.queue, hsound.queueAlive_iff, fun t ht hzero => ?_, fun ho t ht => ?_⟩
  · simp only [Counted.step, Option.ite_none_right_eq_some, Option.map_eq_some_iff] at hs
    obtain ⟨-, set, hset, -⟩ := hs
    obtain ⟨l, hl⟩ := hsound.accounted.inv
    refine (hl.queue_of_touches (move_of_step hset) hq).imp_left fun hrel => ?_
    exact Nat.pos_of_ne_zero fun hzero => Bool.false_ne_true (hrel ▸ hsound.released_iff.mpr hzero)
  · have hcount := hsound.strong t ht
    have hout := hsound.accounted.freed_eq_zero_iff ht
    refine ⟨fun hkept => ?_, fun hkept => ?_⟩
    · rw [hout.mpr hkept] at hcount
      exact hcount
    · -- the owning reference has been given back, and there was only the one
      have hback := hout.not.mpr hkept
      have hone := hsound.accounted.freed_le_one t
      omega
  · obtain ⟨hfreed, -⟩ := hsound.of_strong_eq_zero ht hzero
    refine ⟨hsound.accounted.future_of_freed (by omega), fun hkept => ?_, fun i pc hi => ?_,
      fun a x' hs => hsound.strong_eq_zero_step hs ht hzero⟩
    · have hout := (hsound.accounted.freed_eq_zero_iff ht).mpr hkept
      omega
    · have hpos := (hsound.alive_of_has (hsound.lent i t pc hi)).2
      omega
  · have hcount := hsound.strong t ht
    have hfreed := hsound.accounted.freed_of_gone ho ht
    omega

/-- The future of the only task keeps a clone of its waker and completes. A wake of the task
holds the queue while the set is cleared, and is the last to let go of it; the clone is
dropped when the queue is gone. -/
def wokenWhileCleared : List (Generations.Act (Counted.Act Unit Unit Unit)) :=
  List.flatten [
    [.current (.set (.push 0 ()))], List.replicate 4 (.current (.set (.thread 0))),
    [.current (.set (.poll_next ()))], List.replicate 12 (.current (.set .owner)),
    [.current (.clone 0), .current (.set (.polled (.ready ())))],
    List.replicate 2 (.current (.set .owner)),
    [.current (.set .ret), .current (.set (.wake 1 0)), .clear, .current (.set .owner), .renew],
    List.replicate 3 (.replaced 0 (.set (.thread 1))), List.replicate 2 (.replaced 0 (.set .owner)),
    [.replaced 0 (.drop 0)]]

/-- After the clearing the queue is the wake's and the task the waker's; in the end both are
gone. -/
theorem no_use_after_free_woken_while_cleared :
    ∃ (X Y : CountedSets Unit Unit Unit (AtomicWaker.cell Unit))
      (x y : Counted Unit Unit Unit (AtomicWaker.cell Unit)),
      Transition.run CountedSets.step CountedSets.new (wokenWhileCleared.take 27) = some X ∧
        X.replaced = [x] ∧ x.set.owner = .dropped ∧ x.queue = 1 ∧ queueAlive x.set = true ∧
      Transition.run CountedSets.step CountedSets.new wokenWhileCleared = some Y ∧
        Y.replaced = [y] ∧ y.set.owner = .gone ∧ y.queue = 0 ∧ y.strong 0 = 0 ∧
        (y.set.tasks 0).future = none := by
  have hmem : ∀ {X : CountedSets Unit Unit Unit (AtomicWaker.cell Unit)} {x},
      X.replaced = [x] → x ∈ X.all := by
    intro X x h
    exact List.mem_cons_of_mem _ (h ▸ List.mem_singleton_self x)
  have hmid : (Transition.run CountedSets.step
      (CountedSets.new : CountedSets Unit Unit Unit (AtomicWaker.cell Unit))
      (wokenWhileCleared.take 27)).map (fun X => X.replaced.map fun x => (x.set.owner, x.queue)) =
        some [(.dropped, 1)] := rfl
  have hend : (Transition.run CountedSets.step
      (CountedSets.new : CountedSets Unit Unit Unit (AtomicWaker.cell Unit))
      wokenWhileCleared).map (fun Y => Y.replaced.map fun y =>
        (y.set.owner, y.queue, y.strong 0, y.set.fresh)) = some [(.gone, 0, 0, 1)] := rfl
  obtain ⟨X, hX, hxs⟩ := Option.map_eq_some_iff.mp hmid
  obtain ⟨x, hx, hat⟩ := List.map_eq_singleton_iff.mp hxs
  obtain ⟨hdropped, hone⟩ := Prod.mk.inj hat
  obtain ⟨Y, hY, hys⟩ := Option.map_eq_some_iff.mp hend
  obtain ⟨y, hy, hat⟩ := List.map_eq_singleton_iff.mp hys
  simp only [Prod.mk.injEq] at hat
  obtain ⟨hgone, hzero, hfreed, hfresh⟩ := hat
  obtain ⟨-, -, -, -, halive, -, -⟩ := no_use_after_free X ⟨_, hX⟩ x (hmem hx)
  obtain ⟨-, -, -, -, -, hdead, -⟩ := no_use_after_free Y ⟨_, hY⟩ y (hmem hy)
  exact ⟨X, Y, x, y, hX, hx, hdropped, hone, halive.mpr (by omega), hY, hy, hgone, hzero, hfreed,
    (hdead 0 (by omega) hfreed).1⟩

end TokioStreamUtil.FuturesUnordered
