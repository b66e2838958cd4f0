/-
The invariant of `FuturesUnordered`, kept by every step of every call.

`State.Inv` puts the three parts together: the flags and the queue (`Flags`),
the tasks and the list of all tasks (`Places`), the threads (`Calls`); what it
adds is where the exclusive call may stand. There is one lemma for each
transition of the model, named after it, and `inv_move` only looks them up.
-/
import TokioStreamUtil.FuturesUnordered.Flags
import TokioStreamUtil.FuturesUnordered.Places
import TokioStreamUtil.FuturesUnordered.Moves

set_option autoImplicit false

namespace TokioStreamUtil.FuturesUnordered

open ReadyToRunQueue (Node DequeuePc Sys)

variable {F O W : Type} {A : AtomicWaker W}

/-- The task that has been dequeued and whose flag has not been put down since. -/
def Owner.taken (c : DequeuePc) : Owner O W → Option ℕ
  | .poll _ (.unlink t) => some t
  | .poll _ (.reset t) => some t
  | _ => c.data

/-- The invariant; `l` is the list of all tasks, head first. -/
structure State.Inv (s : State F O W A) (l : List ℕ) : Prop where
  flags : Flags s.ready s.fresh (fun t => (s.tasks t).queued) s.hist.retired
    (s.owner.taken s.ready.consumer)
  places : Places s.all l s.fresh s.hist.retired (fun t => (s.tasks t).future.isNone)
    s.owner.held s.owner.dropping
  calls : Calls s.threads s.ready.producers s.pushing s.holders s.fresh s.owner
  consumer : s.ready.consumer = .idle ↔ s.owner.dequeuing = false
  unlinking : ∀ t, s.owner.unlinking = some t → t < s.fresh ∧ s.hist.retired t = false
  asserted : ∀ l, s.owner ≠ .poll l .assertFailed
  emptied : s.owner.emptied = true → l = []

/-! ## The cells of the tasks -/

theorem queued_update (tasks : ℕ → Task F) (t : ℕ) (x : Task F) :
    (fun u => (Function.update tasks t x u).queued) =
      Function.update (fun u => (tasks u).queued) t x.queued := by
  funext u
  by_cases hut : u = t <;> simp [hut]

theorem vacant_update (tasks : ℕ → Task F) (t : ℕ) (x : Task F) :
    (fun u => (Function.update tasks t x u).future.isNone) =
      Function.update (fun u => (tasks u).future.isNone) t x.future.isNone := by
  funext u
  by_cases hut : u = t <;> simp [hut]

/-- Writing a cell other than the flag changes no flag. -/
theorem queued_update_same (tasks : ℕ → Task F) (t : ℕ) {x : Task F}
    (hx : x.queued = (tasks t).queued) :
    (fun u => (Function.update tasks t x u).queued) = fun u => (tasks u).queued := by
  rw [queued_update, hx]
  exact Function.update_eq_self t fun u => (tasks u).queued

/-- Writing a cell other than the future vacates no task. -/
theorem vacant_update_same (tasks : ℕ → Task F) (t : ℕ) {x : Task F}
    (hx : x.future.isNone = (tasks t).future.isNone) :
    (fun u => (Function.update tasks t x u).future.isNone) =
      fun u => (tasks u).future.isNone := by
  rw [vacant_update, hx]
  exact Function.update_eq_self t fun u => (tasks u).future.isNone

theorem released_of_queueAlive {s : State F O W A} (h : queueAlive s = true) :
    s.owner.released = false := by
  unfold queueAlive at h
  cases ho : s.owner with
  | dropQueue => rw [ho] at h; cases h
  | gone => rw [ho] at h; cases h
  | aborted => rw [ho] at h; cases h
  | _ => rfl

namespace State

variable {s : State F O W A} {l : List ℕ}

theorem inv_new : (new : State F O W A).Inv [] where
  flags := ⟨ReadyToRunQueue.Sys.inv_new, nofun, nofun, nofun⟩
  places := ⟨AllList.rep_new, by simp [new], nofun, nofun, nofun, nofun⟩
  calls := by
    refine ⟨nofun, ?_, ?_, ?_, ?_, nofun, nofun⟩
    · intro i hi
      exact absurd rfl hi
    · rintro i t (hi | ⟨pc, hi⟩)
      · cases hi
      · cases hi
    · simp [new]
    · simp [new]
  consumer := by simp [new, ReadyToRunQueue.Sys.new, Owner.dequeuing]
  unlinking := nofun
  asserted := nofun
  emptied := nofun

namespace Inv

/-! ## `push` and `Task::wake_by_ref` -/

theorem push (h : s.Inv l) {i : ℕ} (fut : F) (hi : s.threads i = .idle)
    (hidle : s.owner = .idle) : (s.push i fut).Inv (s.fresh :: l) := by
  have hp : s.ready.producers i = .idle := by
    apply h.calls.producer_idle
    · intro t ht; rw [hi] at ht; cases ht
    · intro t ht; rw [hi] at ht; cases ht
  have hplaces := h.places
  rw [hidle] at hplaces
  refine ⟨?_, ?_, h.calls.push hi (by rw [hidle]; rfl), h.consumer, ?_, h.asserted, ?_⟩
  · unfold State.push
    dsimp only
    rw [queued_update]
    exact h.flags.push hp
  · unfold State.push
    dsimp only
    rw [vacant_update, hidle]
    exact hplaces.push
  · intro t ht
    have hun : s.owner.unlinking = some t := ht
    rw [hidle] at hun
    cases hun
  · intro he
    have hem : s.owner.emptied = true := he
    rw [hidle] at hem
    cases hem

theorem produce (h : s.Inv l) (i : ℕ) : (s.produce i).Inv l := by
  refine ⟨h.flags.produce i, h.places, ?_, h.consumer, h.unlinking, h.asserted, h.emptied⟩
  apply h.calls.produce
  cases hp : s.ready.producers i with
  | store p n => exact Or.inl rfl
  | _ => exact Or.inr rfl

theorem endPush (h : s.Inv l) {i t : ℕ} (hi : s.threads i = .push t)
    (hp : s.ready.producers i = .idle) : (s.endPush i).Inv l :=
  ⟨h.flags, h.places, h.calls.endPush hp hi, h.consumer, h.unlinking, h.asserted, h.emptied⟩

theorem upgrade (h : s.Inv l) {i t : ℕ} (hi : s.threads i = .idle) (ht : t < s.fresh)
    (ho : s.owner.released = false) : (s.upgrade i t).Inv l :=
  ⟨h.flags, h.places, h.calls.upgrade hi ht ho, h.consumer, h.unlinking, h.asserted, h.emptied⟩

theorem wake_producer_idle (h : s.Inv l) {i t : ℕ} {pc : WakePc} (hi : s.threads i = .wake t pc)
    (hpc : pc ≠ .enqueue) : s.ready.producers i = .idle := by
  apply h.calls.producer_idle
  · intro u hu; rw [hi] at hu; cases hu
  · intro u hu; rw [hi] at hu; cases hu; exact hpc rfl

theorem storeWoken (h : s.Inv l) {i t : ℕ} (hi : s.threads i = .wake t .storeWoken) :
    (s.storeWoken i t).Inv l := by
  have hp := h.wake_producer_idle hi (by simp)
  refine ⟨?_, ?_, h.calls.moveWake hi hp, h.consumer, h.unlinking, h.asserted, h.emptied⟩
  · unfold State.storeWoken State.setThread State.setTask
    dsimp only
    rw [queued_update_same]
    · exact h.flags
    · rfl
  · unfold State.storeWoken State.setThread State.setTask
    dsimp only
    rw [vacant_update_same]
    · exact h.places
    · rfl

theorem swapQueued (h : s.Inv l) {i t : ℕ} (hi : s.threads i = .wake t .swapQueued) :
    (s.swapQueued i t).Inv l := by
  have hp := h.wake_producer_idle hi (by simp)
  have ht := h.calls.task_lt i t (Or.inr ⟨_, hi⟩)
  unfold State.swapQueued
  cases hq : (s.tasks t).queued with
  | true =>
      exact ⟨h.flags, h.places, h.calls.moveWake hi hp, h.consumer, h.unlinking, h.asserted, h.emptied⟩
  | false =>
      refine ⟨?_, ?_, h.calls.beginEnqueue hi, h.consumer, h.unlinking, h.asserted, h.emptied⟩
      · simp only [Bool.false_eq_true, if_false]
        rw [queued_update]
        exact h.flags.swap hp ht hq
      · simp only [Bool.false_eq_true, if_false]
        rw [vacant_update_same]
        · exact h.places
        · rfl

theorem endEnqueue (h : s.Inv l) {i t : ℕ} (hi : s.threads i = .wake t .enqueue)
    (hp : s.ready.producers i = .idle) : (s.endEnqueue i t).Inv l :=
  ⟨h.flags, h.places, h.calls.moveWake hi hp, h.consumer, h.unlinking, h.asserted, h.emptied⟩

theorem wakeWaker (h : s.Inv l) {i t : ℕ} (hi : s.threads i = .wake t .wake) :
    (s.wakeWaker i t).Inv l :=
  ⟨h.flags, h.places, h.calls.moveWake hi (h.wake_producer_idle hi (by simp)), h.consumer,
    h.unlinking, h.asserted, h.emptied⟩

/-- Letting go of the last reference to the queue starts its destructor. -/
theorem dropInner (h : s.Inv l) {i t : ℕ} (hi : s.threads i = .wake t .dropInner) :
    (s.dropInner i).Inv l := by
  have hcalls := h.calls.endWake hi
  unfold State.dropInner
  dsimp only
  split
  · rename_i ho
    have hc : s.ready.consumer = .idle := h.consumer.mpr (by rw [ho]; rfl)
    have hflags := h.flags
    have hplaces := h.places
    rw [ho] at hflags hplaces hcalls
    split
    · rename_i hnone
      rw [hc] at hflags
      refine ⟨hflags.beginDequeue hc, hplaces, hcalls.setOwner ?_ fun _ => hnone, ?_, nofun, nofun,
        fun _ => h.emptied (by rw [ho]; rfl)⟩
      · exact fun _ => hcalls.exclusive rfl
      · simp [Sys.beginDequeue, Owner.dequeuing]
    · exact ⟨h.flags, h.places, ho ▸ hcalls, h.consumer, h.unlinking, h.asserted, h.emptied⟩
  · exact ⟨h.flags, h.places, hcalls, h.consumer, h.unlinking, h.asserted, h.emptied⟩

/-! ## `poll_next` -/

theorem poll_next (h : s.Inv l) (w : W) (ho : s.owner = .idle) (hp : s.pushing = ∅) :
    (s.poll_next w).Inv l := by
  have hflags := h.flags
  have hplaces := h.places
  have hcalls := h.calls
  have hconsumer := h.consumer
  rw [ho] at hflags hplaces hcalls hconsumer
  exact ⟨hflags, hplaces, hcalls.setOwner (fun _ => hp) nofun, hconsumer, nofun, nofun, nofun⟩

section Poll

variable {lv : Locals W} {t : ℕ}

/-- During `poll_next` nobody is inside `push`. -/
theorem calls_poll (h : s.Inv l) {pc pc' : PollPc O} {lv' : Locals W} (ho : s.owner = .poll lv pc) :
    Calls s.threads s.ready.producers s.pushing s.holders s.fresh (.poll lv' pc' : Owner O W) :=
  h.calls.setOwner (fun _ => h.calls.exclusive (by rw [ho]; rfl)) nofun

theorem register (h : s.Inv l) (ho : s.owner = .poll lv .register) : (s.register lv).Inv l := by
  have hc : s.ready.consumer = .idle := h.consumer.mpr (by rw [ho]; rfl)
  have hflags := h.flags
  have hplaces := h.places
  rw [ho] at hflags hplaces
  rw [hc] at hflags
  refine ⟨hflags.beginDequeue hc, hplaces, h.calls_poll ho, ?_, nofun, nofun, nofun⟩
  simp [State.register, Sys.beginDequeue, Owner.dequeuing]

/-- A step of the `dequeue` that the exclusive call is inside. -/
theorem consume (h : s.Inv l) (hrun : s.ready.consumer.running = true) : s.consume.Inv l := by
  have hne : s.ready.consumer ≠ .idle := by
    intro hidle
    rw [hidle] at hrun
    cases hrun
  have hd : s.owner.dequeuing = true := by
    by_contra hno
    exact hne (h.consumer.mpr (by simpa using hno))
  -- the two places from which `dequeue` is called keep track of nothing else
  have htaken : ∀ c, s.owner.taken c = c.data := by
    intro c
    cases ho : s.owner with
    | poll lv pc =>
        cases pc with
        | unlink t => rw [ho] at hd; cases hd
        | reset t => rw [ho] at hd; cases hd
        | _ => rfl
    | _ => rfl
  have hflags := h.flags
  rw [htaken, ReadyToRunQueue.data_of_running hrun] at hflags
  refine ⟨?_, h.places, h.calls, ?_, h.unlinking, h.asserted, h.emptied⟩
  · unfold State.consume
    dsimp only
    rw [htaken]
    exact hflags.consume hrun
  · refine iff_of_false (ReadyToRunQueue.consume_consumer_ne_idle h.flags.ready hrun) ?_
    simpa [State.consume] using hd

theorem dequeueEmpty (h : s.Inv l) (ho : s.owner = .poll lv .dequeue)
    (hc : s.ready.consumer = .done .Empty) : (s.dequeueEmpty lv).Inv l := by
  have hflags := h.flags
  have hplaces := h.places
  rw [ho] at hflags hplaces
  rw [hc] at hflags
  unfold State.dequeueEmpty
  split <;>
    exact ⟨hflags.endDequeue hc, hplaces, h.calls_poll ho, by simp [Sys.endDequeue, Owner.dequeuing],
      nofun, nofun, nofun⟩

theorem dequeueInconsistent (h : s.Inv l) (ho : s.owner = .poll lv .dequeue)
    (hc : s.ready.consumer = .done .Inconsistent) : (s.dequeueInconsistent lv).Inv l := by
  have hflags := h.flags
  have hplaces := h.places
  rw [ho] at hflags hplaces
  rw [hc] at hflags
  exact ⟨hflags.endDequeue hc, hplaces, h.calls_poll ho,
    by simp [State.dequeueInconsistent, Sys.endDequeue, Owner.dequeuing], nofun, nofun, nofun⟩

/-- A dequeued task without a future is left behind, and `dequeue` starts again. -/
theorem dequeueReleased (h : s.Inv l) {n : Node} (hc : s.ready.consumer = .done (.Data n))
    (hd : s.owner.dequeuing = true)
    (hret : ∀ t, n = .task t → s.hist.retired t = true) : (s.dequeueReleased n).Inv l := by
  have hflags := h.flags
  rw [hc] at hflags
  have hidle : s.ready.endDequeue.consumer = .idle := rfl
  -- `poll_next` and the destructor of the queue both come here
  have hcases : (∃ lv, s.owner = .poll lv .dequeue) ∨ s.owner = .dropQueue := by
    cases ho : s.owner with
    | poll lv pc =>
        cases pc with
        | dequeue => exact Or.inl ⟨lv, rfl⟩
        | _ => rw [ho] at hd; cases hd
    | dropQueue => exact Or.inr rfl
    | _ => rw [ho] at hd; cases hd
  have hforget : ∀ t, s.owner.taken (.done (.Data n)) = some t → s.hist.retired t = true := by
    intro t ht
    have hdata : (DequeuePc.done (.Data n)).data = some t := by
      rcases hcases with ⟨lv, ho⟩ | ho
      · rw [ho] at ht; exact ht
      · rw [ho] at ht; exact ht
    cases n with
    | stub => cases hdata
    | task u =>
        cases hdata
        exact hret t rfl
  refine ⟨?_, h.places, h.calls, ?_, h.unlinking, h.asserted, h.emptied⟩
  · have hnone : s.owner.taken (.start : DequeuePc) = none := by
      rcases hcases with ⟨lv, ho⟩ | ho
      · rw [ho]; rfl
      · rw [ho]; rfl
    show Flags s.ready.endDequeue.beginDequeue s.fresh (fun t => (s.tasks t).queued)
      s.hist.retired (s.owner.taken .start)
    rw [hnone]
    exact ((hflags.forget hforget).endDequeue hc).beginDequeue hidle
  · refine iff_of_false (by simp [State.dequeueReleased, Sys.beginDequeue]) ?_
    simpa [State.dequeueReleased] using hd

theorem dequeueData (h : s.Inv l) (ho : s.owner = .poll lv .dequeue)
    (hc : s.ready.consumer = .done (.Data (.task t))) {fut : F}
    (hf : (s.tasks t).future = some fut) : (s.dequeueData lv t).Inv l := by
  have hflags := h.flags
  have hplaces := h.places
  rw [ho] at hflags hplaces
  rw [hc] at hflags
  have hlt := (hflags.taken_out t rfl).1
  refine ⟨hflags.endDequeue hc, hplaces, h.calls_poll ho,
    by simp [State.dequeueData, Sys.endDequeue, Owner.dequeuing], ?_, nofun, nofun⟩
  intro u hu
  cases hu
  exact ⟨hlt, hplaces.live_of_future hlt (by simp [hf]) nofun⟩

/-- A dequeued task without a future has been retired. -/
theorem retired_of_dequeued (h : s.Inv l) (ho : s.owner = .poll lv .dequeue)
    (hc : s.ready.consumer = .done (.Data (.task t))) (hf : (s.tasks t).future = none) :
    s.hist.retired t = true := by
  have hflags := h.flags
  rw [ho, hc] at hflags
  have hlt := (hflags.taken_out t rfl).1
  exact ((h.places.vacant t hlt).mp (by simp [hf])).1

theorem unlink (h : s.Inv l) (ho : s.owner = .poll lv (.unlink t)) :
    ∃ l', (s.unlink lv t).Inv l' := by
  obtain ⟨hlt, hr⟩ := h.unlinking t (by rw [ho]; rfl)
  have hflags := h.flags
  have hplaces := h.places
  have hconsumer := h.consumer
  rw [ho] at hflags hplaces hconsumer
  obtain ⟨l', hl'⟩ := hplaces.unlink hlt hr
  exact ⟨l', hflags, hl', h.calls_poll ho, hconsumer, nofun, nofun, nofun⟩

/-- The flag of the task just dequeued is up: `assert!(prev)` does not fail. -/
theorem resetQueued (h : s.Inv l) (ho : s.owner = .poll lv (.reset t)) :
    (s.resetQueued lv t).Inv l := by
  have hc : s.ready.consumer = .idle := h.consumer.mpr (by rw [ho]; rfl)
  have hflags := h.flags
  have hplaces := h.places
  have hconsumer := h.consumer
  rw [ho] at hflags hplaces hconsumer
  have hlt := (hflags.taken_out t rfl).1
  have hup : (s.tasks t).queued = true := (hflags.flag t hlt).mpr (Or.inr (Or.inl rfl))
  obtain ⟨-, hr⟩ := hplaces.held_live t rfl
  unfold State.resetQueued
  rw [if_pos hup]
  refine ⟨?_, ?_, h.calls_poll ho, hconsumer, nofun, nofun, nofun⟩
  · dsimp only
    rw [queued_update, hc]
    exact hflags.reset hr
  · dsimp only
    rw [vacant_update_same]
    · exact hplaces
    · rfl

theorem clearWoken (h : s.Inv l) (ho : s.owner = .poll lv (.clearWoken t)) :
    (s.clearWoken lv t).Inv l := by
  have hflags := h.flags
  have hplaces := h.places
  have hconsumer := h.consumer
  rw [ho] at hflags hplaces hconsumer
  refine ⟨?_, ?_, h.calls_poll ho, hconsumer, nofun, nofun, nofun⟩
  · unfold State.clearWoken State.setOwner State.setTask
    dsimp only
    rw [queued_update_same]
    · exact hflags
    · rfl
  · unfold State.clearWoken State.setOwner State.setTask
    dsimp only
    rw [vacant_update_same]
    · exact hplaces
    · rfl

theorem polled (h : s.Inv l) (ho : s.owner = .poll lv (.poll t)) (r : Polled F O) :
    (s.polled lv t r).Inv l := by
  have hflags := h.flags
  have hplaces := h.places
  have hconsumer := h.consumer
  rw [ho] at hflags hplaces hconsumer
  cases r with
  | ready o => exact ⟨hflags, hplaces, h.calls_poll ho, hconsumer, nofun, nofun, nofun⟩
  | unwind => exact ⟨hflags, hplaces, h.calls_poll ho, hconsumer, nofun, nofun, nofun⟩
  | pending fut =>
      obtain ⟨hlt, hr⟩ := hplaces.held_live t rfl
      have hnone : (s.tasks t).future.isNone = false := by
        by_contra hne
        have hret := ((hplaces.vacant t hlt).mp (by simpa using hne)).1
        rw [hr] at hret
        cases hret
      refine ⟨?_, ?_, h.calls_poll ho, hconsumer, nofun, nofun, nofun⟩
      · unfold State.polled State.setOwner State.setTask
        dsimp only
        rw [queued_update_same]
        · exact hflags
        · rfl
      · unfold State.polled State.setOwner State.setTask
        dsimp only
        rw [vacant_update_same]
        · exact hplaces
        · rw [hnone]; rfl

theorem loadWoken (h : s.Inv l) (ho : s.owner = .poll lv (.loadWoken t)) :
    (s.loadWoken lv t).Inv l := by
  have hflags := h.flags
  have hplaces := h.places
  have hconsumer := h.consumer
  rw [ho] at hflags hplaces hconsumer
  exact ⟨hflags, hplaces, h.calls_poll ho, hconsumer, nofun, nofun, nofun⟩

theorem relink (h : s.Inv l) (ho : s.owner = .poll lv (.relink t)) :
    (s.relink lv t).Inv (t :: l) := by
  have hc : s.ready.consumer = .idle := h.consumer.mpr (by rw [ho]; rfl)
  have hflags := h.flags
  have hplaces := h.places
  have hconsumer := h.consumer
  rw [ho] at hflags hplaces hconsumer
  rw [hc] at hflags
  unfold State.relink
  split
  · exact ⟨by dsimp only; rw [hc]; exact hflags, hplaces.relink, h.calls_poll ho, hconsumer,
      nofun, nofun, nofun⟩
  · exact ⟨hflags.beginDequeue hc, hplaces.relink, h.calls_poll ho,
      by simp [Sys.beginDequeue, Owner.dequeuing], nofun, nofun, nofun⟩

end Poll

/-! ## `release_task`, from `poll_next` and from the drop of the set -/

theorem retire (h : s.Inv l) {t : ℕ} {o : Owner O W}
    (hheld : s.owner.held = some t) (hnone : s.owner.dropping = none)
    (ho : o.taken s.ready.consumer = s.owner.taken s.ready.consumer) (hoheld : o.held = none)
    (hodrop : o.dropping = some t) (hodeq : o.dequeuing = s.owner.dequeuing)
    (hoidle : s.owner.isIdle = false) (horel : o.released = false) (hounl : o.unlinking = none)
    (hoass : ∀ lv, o ≠ .poll lv .assertFailed) (hoend : o.emptied = false) : (s.retire t o).Inv l := by
  have hplaces := h.places
  rw [hheld, hnone] at hplaces
  refine ⟨?_, ?_, h.calls.setOwner (fun _ => h.calls.exclusive hoidle) ?_, ?_, ?_, hoass, ?_⟩
  · unfold State.retire
    dsimp only
    rw [queued_update, ho]
    exact h.flags.retire t
  · unfold State.retire
    dsimp only
    rw [vacant_update_same, hoheld, hodrop]
    · exact hplaces.retire
    · rfl
  · intro hrel
    have hrel' : o.released = true := hrel
    rw [horel] at hrel'
    cases hrel'
  · exact h.consumer.trans (by rw [← hodeq]; rfl)
  · intro u hu
    have hu' : o.unlinking = some u := hu
    rw [hounl] at hu'
    cases hu'
  · intro he
    have he' : o.emptied = true := he
    rw [hoend] at he'
    cases he'

theorem dropFuture (h : s.Inv l) {t : ℕ} {o : Owner O W} (prev : Bool)
    (hdrop : s.owner.dropping = some t) (hnone : s.owner.held = none)
    (ho : o.taken s.ready.consumer = s.owner.taken s.ready.consumer) (hoheld : o.held = none)
    (hodrop : o.dropping = none) (hodeq : o.dequeuing = s.owner.dequeuing)
    (hoidle : s.owner.isIdle = false) (horel : o.released = false) (hounl : o.unlinking = none)
    (hoass : ∀ lv, o ≠ .poll lv .assertFailed) (hoend : o.emptied = false) : (s.dropFuture t prev o).Inv l := by
  have hplaces := h.places
  rw [hdrop, hnone] at hplaces
  refine ⟨?_, ?_, h.calls.setOwner (fun _ => h.calls.exclusive hoidle) ?_, ?_, ?_, hoass, ?_⟩
  · unfold State.dropFuture
    dsimp only
    rw [queued_update_same, ho]
    · exact h.flags
    · rfl
  · unfold State.dropFuture
    dsimp only
    rw [vacant_update, hoheld, hodrop]
    exact hplaces.dropFuture
  · intro hrel
    have hrel' : o.released = true := hrel
    rw [horel] at hrel'
    cases hrel'
  · exact h.consumer.trans (by rw [← hodeq]; rfl)
  · intro u hu
    have hu' : o.unlinking = some u := hu
    rw [hounl] at hu'
    cases hu'
  · intro he
    have he' : o.emptied = true := he
    rw [hoend] at he'
    cases he'

/-! ## The ends of `poll_next`, and the drop -/

theorem wakeParent (h : s.Inv l) {lv : Locals W} (ho : s.owner = .poll lv .wake) :
    (s.wakeParent lv).Inv l := by
  have hflags := h.flags
  have hplaces := h.places
  have hconsumer := h.consumer
  rw [ho] at hflags hplaces hconsumer
  exact ⟨hflags, hplaces, h.calls_poll ho, hconsumer, nofun, nofun, nofun⟩

theorem ret (h : s.Inv l) {lv : Locals W} {r : PollNext O} (ho : s.owner = .poll lv (.done r)) :
    (s.ret lv r).Inv l := by
  have hflags := h.flags
  have hplaces := h.places
  have hconsumer := h.consumer
  rw [ho] at hflags hplaces hconsumer
  exact ⟨hflags, hplaces, h.calls.setOwner nofun nofun, hconsumer, nofun, nofun, nofun⟩

theorem drop (h : s.Inv l) (ho : s.owner = .idle) (hp : s.pushing = ∅) :
    (s.setOwner (.drop .loop)).Inv l := by
  have hflags := h.flags
  have hplaces := h.places
  have hconsumer := h.consumer
  rw [ho] at hflags hplaces hconsumer
  exact ⟨hflags, hplaces, h.calls.setOwner (fun _ => hp) nofun, hconsumer, nofun, nofun, nofun⟩

theorem dropLoop (h : s.Inv l) (ho : s.owner = .drop .loop) : ∃ l', s.dropLoop.Inv l' := by
  have hc : s.ready.consumer = .idle := h.consumer.mpr (by rw [ho]; rfl)
  have hflags := h.flags
  have hplaces := h.places
  have hcalls := h.calls
  have hconsumer := h.consumer
  rw [ho] at hflags hplaces hcalls hconsumer
  have hpush : s.pushing = ∅ := hcalls.exclusive rfl
  unfold State.dropLoop
  cases hhead : s.all.head_all with
  | some t =>
      -- the head is on the list, so it is live
      have hmem : t ∈ l := List.mem_of_head? (hplaces.all.head ▸ hhead)
      obtain ⟨hlt, hr, -⟩ := (hplaces.mem t).mp hmem
      obtain ⟨l', hl'⟩ := hplaces.unlink hlt hr
      exact ⟨l', hflags, hl', hcalls.setOwner (fun _ => hpush) nofun, hconsumer, nofun, nofun, nofun⟩
  | none =>
      have hnil : l = [] := List.head?_eq_none_iff.mp (hplaces.all.head ▸ hhead)
      refine ⟨l, ?_⟩
      dsimp only
      split
      · rename_i hnone
        rw [hc] at hflags
        exact ⟨hflags.beginDequeue hc, hplaces, hcalls.setOwner (fun _ => hpush) fun _ => hnone,
          by simp [Sys.beginDequeue, Owner.dequeuing], nofun, nofun, fun _ => hnil⟩
      · exact ⟨hflags, hplaces, hcalls.setOwner (fun _ => hpush) nofun, hconsumer, nofun, nofun,
          fun _ => hnil⟩

/-- After the last task is gone every task that was ever pushed is retired. -/
theorem retired_of_nil (h : s.Inv []) (hheld : s.owner.held = none) {t : ℕ} (ht : t < s.fresh) :
    s.hist.retired t = true := by
  by_contra hr
  have hmem := (h.places.mem t).mpr ⟨ht, by simpa using hr, by rw [hheld]; simp⟩
  cases hmem

theorem dropDequeued (h : s.Inv l) (ho : s.owner = .dropQueue) {d : ReadyToRunQueue.Dequeue}
    (hc : s.ready.consumer = .done d) : (s.dropDequeued d).Inv l := by
  have hnil : l = [] := h.emptied (by rw [ho]; rfl)
  have hflags := h.flags
  have hplaces := h.places
  have hcalls := h.calls
  rw [ho] at hflags hplaces hcalls
  rw [hc] at hflags
  have hpush : s.pushing = ∅ := hcalls.exclusive rfl
  have hholders : s.holders = ∅ := hcalls.released rfl
  cases d with
  | Empty =>
      exact ⟨hflags.endDequeue hc, hplaces, hcalls.setOwner (fun _ => hpush) fun _ => hholders,
        by simp [State.dropDequeued, Sys.endDequeue, Owner.dequeuing], nofun, nofun, fun _ => hnil⟩
  | Inconsistent =>
      exact ⟨hflags.endDequeue hc, hplaces, hcalls.setOwner (fun _ => hpush) fun _ => hholders,
        by simp [State.dropDequeued, Sys.endDequeue, Owner.dequeuing], nofun, nofun, fun _ => hnil⟩
  | Data n =>
      refine h.dequeueReleased hc (by rw [ho]; rfl) ?_
      rintro t rfl
      subst hnil
      exact h.retired_of_nil (by rw [ho]; rfl) (hflags.taken_out t rfl).1

end Inv

end State

/-! ## One step, one run -/

variable {s s' : State F O W A}

/-- **Every move of every call keeps the invariant.** -/
theorem inv_move {l : List ℕ} (h : s.Inv l) {a : Act F O W} (hm : Move s a s') : ∃ l', s'.Inv l' := by
  cases hm with
  | push fut hi ho => exact ⟨_, h.push fut hi ho⟩
  | produce hp => exact ⟨l, h.produce _⟩
  | endPush hi hp => exact ⟨l, h.endPush hi hp⟩
  | upgrade hi ht ha => exact ⟨l, h.upgrade hi ht (released_of_queueAlive ha)⟩
  | upgradeFails ha => exact ⟨l, h⟩
  | storeWoken hi => exact ⟨l, h.storeWoken hi⟩
  | swapQueued hi => exact ⟨l, h.swapQueued hi⟩
  | endEnqueue hi hp => exact ⟨l, h.endEnqueue hi hp⟩
  | wakeWaker hi => exact ⟨l, h.wakeWaker hi⟩
  | dropInner hi => exact ⟨l, h.dropInner hi⟩
  | poll_next w ho hp => exact ⟨l, h.poll_next w ho hp⟩
  | register ho => exact ⟨l, h.register ho⟩
  | consume hrun ho => exact ⟨l, h.consume hrun⟩
  | dequeueEmpty ho hc => exact ⟨l, h.dequeueEmpty ho hc⟩
  | dequeueInconsistent ho hc => exact ⟨l, h.dequeueInconsistent ho hc⟩
  | dequeueReleased ho hc hf =>
      refine ⟨l, h.dequeueReleased hc (by rw [ho]; rfl) ?_⟩
      rintro t rfl
      exact h.retired_of_dequeued ho hc (hf t rfl)
  | dequeueData ho hc hf => exact ⟨l, h.dequeueData ho hc hf⟩
  | unlink ho => exact h.unlink ho
  | resetQueued ho => exact ⟨l, h.resetQueued ho⟩
  | clearWoken ho => exact ⟨l, h.clearWoken ho⟩
  | polled r ho => exact ⟨l, h.polled ho r⟩
  | loadWoken ho => exact ⟨l, h.loadWoken ho⟩
  | relink ho => exact ⟨_, h.relink ho⟩
  | release ho =>
      refine ⟨l, h.retire ?_ ?_ ?_ rfl rfl ?_ ?_ rfl rfl nofun rfl⟩ <;> rw [ho] <;> rfl
  | dropFuture ho =>
      refine ⟨l, h.dropFuture _ ?_ ?_ ?_ rfl rfl ?_ ?_ rfl rfl nofun rfl⟩ <;> rw [ho] <;> rfl
  | wakeParent ho => exact ⟨l, h.wakeParent ho⟩
  | ret ho => exact ⟨l, h.ret ho⟩
  | drop ho hp => exact ⟨l, h.drop ho hp⟩
  | dropLoop ho => exact h.dropLoop ho
  | dropRelease ho =>
      refine ⟨l, h.retire ?_ ?_ ?_ rfl rfl ?_ ?_ rfl rfl nofun rfl⟩ <;> rw [ho] <;> rfl
  | dropDropFuture ho =>
      refine ⟨l, h.dropFuture _ ?_ ?_ ?_ rfl rfl ?_ ?_ rfl rfl nofun rfl⟩ <;> rw [ho] <;> rfl
  | dropDequeued ho hc => exact ⟨l, h.dropDequeued ho hc⟩

theorem inv_of_reachable (h : Transition.Reachable step (State.new : State F O W A) s) :
    ∃ l, s.Inv l := by
  refine h.invariant (I := fun s => ∃ l, s.Inv l) ⟨[], State.inv_new⟩ ?_
  rintro s a s' ⟨l, hl⟩ hs
  exact inv_move hl (move_of_step hs)

end TokioStreamUtil.FuturesUnordered
