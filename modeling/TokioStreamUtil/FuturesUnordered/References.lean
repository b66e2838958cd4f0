/-
The owning reference of a task.

`push` turns one reference of each task into a raw pointer. From then on it belongs to
whoever has the task: the list of all tasks, the call that has unlinked it,
`release_task`, the ready to run queue, or the consumer that has just dequeued it. `Kept`
lists these places by the flags; `Refs` says that the reference has been given back
exactly when the task is in none of them.

The destructor of the queue runs when nobody else holds the queue, so no producer
disturbs its `dequeue` calls. `QueueDrop` carries that from round to round.
-/
import TokioStreamUtil.FuturesUnordered.Termination

set_option autoImplicit false

namespace TokioStreamUtil.FuturesUnordered

open ReadyToRunQueue (Node Sys DequeuePc EnqueuePc CallInv)

variable {F O W : Type} {A : AtomicWaker W} {s s' : State F O W A} {l : List ℕ} {t : ℕ}

/-! ## Who has the reference -/

/-- The future of task `t` is being dropped by `release_task`. -/
def State.Dropping (s : State F O W A) (t : ℕ) : Prop := s.owner.dropping = some t

/-- Somebody has the owning reference of `t`: the set as long as it manages the task, the
queue, the consumer that has just dequeued it, or `release_task`. -/
def State.Kept (s : State F O W A) (t : ℕ) : Prop :=
  s.hist.retired t = false ∨ s.ready.enqueued t = true ∨ s.Taken t ∨ s.Dropping t

/-- What `release_task` has found in the flag of the task it is about to drop. -/
def Owner.verdict : Owner O W → Option (ℕ × Bool)
  | .poll _ (.dropFuture t prev _) => some (t, prev)
  | .drop (.dropFuture t prev) => some (t, prev)
  | _ => none

/-- The books of the owning references. -/
structure State.Refs (s : State F O W A) : Prop where
  kept : ∀ t, s.Kept t → s.hist.freed t = 0
  back : ∀ t, ¬s.Kept t → s.hist.freed t = 1
  verdict : ∀ t prev, s.owner.verdict = some (t, prev) → prev = s.ready.enqueued t

theorem kept_congr (hret : s'.hist.retired t = s.hist.retired t)
    (henq : s'.ready.enqueued t = s.ready.enqueued t)
    (htaken : s'.owner.taken s'.ready.consumer = s.owner.taken s.ready.consumer)
    (hdrop : s'.owner.dropping = s.owner.dropping) : s'.Kept t ↔ s.Kept t := by
  unfold State.Kept State.Taken State.Dropping
  rw [hret, henq, htaken, hdrop]

namespace State.Refs

theorem new : (State.new : State F O W A).Refs :=
  ⟨fun _ _ => rfl, fun _ hn => absurd (Or.inl rfl) hn, nofun⟩

/-- A move that gives no reference back and moves none. -/
theorem frame (h : s.Refs) (hfreed : s'.hist.freed = s.hist.freed)
    (hkept : ∀ t, s'.Kept t ↔ s.Kept t)
    (hverdict : ∀ t prev, s'.owner.verdict = some (t, prev) → prev = s'.ready.enqueued t) :
    s'.Refs := by
  refine ⟨?_, ?_, hverdict⟩
  · intro t ht
    rw [hfreed]
    exact h.kept t ((hkept t).mp ht)
  · intro t ht
    rw [hfreed]
    exact h.back t fun hk => ht ((hkept t).mpr hk)

/-- The exclusive call moves on, outside `dequeue` and `release_task`. -/
theorem advance (h : s.Refs) (hfreed : s'.hist.freed = s.hist.freed)
    (hret : s'.hist.retired = s.hist.retired) (henq : s'.ready.enqueued = s.ready.enqueued)
    (htaken : s'.owner.taken s'.ready.consumer = s.owner.taken s.ready.consumer)
    (hdrop : s'.owner.dropping = s.owner.dropping) (hverdict : s'.owner.verdict = none) :
    s'.Refs := by
  refine h.frame hfreed (fun t => kept_congr (by rw [hret]) (by rw [henq]) htaken hdrop) ?_
  intro t prev hv
  rw [hverdict] at hv
  cases hv

/-- A shared call moves on without starting an enqueue. -/
theorem shared (h : s.Refs) (hfreed : s'.hist.freed = s.hist.freed)
    (hret : s'.hist.retired = s.hist.retired) (henq : s'.ready.enqueued = s.ready.enqueued)
    (hconsumer : s'.ready.consumer = s.ready.consumer) (howner : s'.owner = s.owner) :
    s'.Refs := by
  refine h.frame hfreed (fun t => kept_congr (by rw [hret]) (by rw [henq]) ?_ ?_) ?_
  · rw [howner, hconsumer]
  · rw [howner]
  · intro t prev hv
    rw [henq]
    exact h.verdict t prev (by rw [← howner]; exact hv)

/-- An enqueue starts of a task that the set still manages. -/
theorem enqueue (h : s.Refs) {u : ℕ} (hfreed : s'.hist.freed = s.hist.freed)
    (hret : s'.hist.retired = s.hist.retired)
    (henq : s'.ready.enqueued = Function.update s.ready.enqueued u true)
    (hconsumer : s'.ready.consumer = s.ready.consumer) (howner : s'.owner = s.owner)
    (hlive : s.hist.retired u = false) (hu : ∀ prev, s.owner.verdict ≠ some (u, prev)) :
    s'.Refs := by
  have hother : ∀ t, t ≠ u → s'.ready.enqueued t = s.ready.enqueued t := by
    intro t htu
    rw [henq, Function.update_of_ne htu]
  refine h.frame hfreed ?_ ?_
  · intro t
    by_cases htu : t = u
    · subst htu
      exact iff_of_true (Or.inl (by rw [hret]; exact hlive)) (Or.inl hlive)
    · exact kept_congr (by rw [hret]) (hother t htu) (by rw [howner, hconsumer]) (by rw [howner])
  · intro t prev hv
    rw [howner] at hv
    have htu : t ≠ u := by
      rintro rfl
      exact hu prev hv
    rw [hother t htu]
    exact h.verdict t prev hv

end State.Refs

/-! ## The moves that hand the reference over -/

/-- The task whose future is being dropped has been retired. -/
theorem State.Inv.retired_of_verdict (h : s.Inv l) {prev : Bool}
    (hv : s.owner.verdict = some (t, prev)) : s.hist.retired t = true := by
  refine h.places.dropping_retired t ?_
  cases ho : s.owner with
  | poll lv pc =>
      cases pc with
      | dropFuture u p r =>
          rw [ho] at hv
          cases hv
          rfl
      | _ => rw [ho] at hv; cases hv
  | drop pc =>
      cases pc with
      | dropFuture u p =>
          rw [ho] at hv
          cases hv
          rfl
      | _ => rw [ho] at hv; cases hv
  | _ => rw [ho] at hv; cases hv

/-- Inside `dequeue` the exclusive call has nothing but what `dequeue` returns. -/
theorem of_dequeuing {o : Owner O W} (hd : o.dequeuing = true) :
    (∀ c, o.taken c = c.data) ∧ o.verdict = none ∧ o.dropping = none := by
  cases o with
  | poll lv pc =>
      cases pc with
      | dequeue => exact ⟨fun _ => rfl, rfl, rfl⟩
      | _ => cases hd
  | dropQueue => exact ⟨fun _ => rfl, rfl, rfl⟩
  | _ => cases hd

theorem State.Inv.refs_push (h : s.Inv l) (hr : s.Refs) {i : ℕ} (fut : F)
    (ho : s.owner = .idle) : (s.push i fut).Refs := by
  refine hr.enqueue rfl rfl rfl rfl rfl ?_ ?_
  · by_contra hret
    have hlt := h.places.retired_lt s.fresh (by simpa using hret)
    omega
  · intro prev hv
    rw [ho] at hv
    cases hv

theorem State.Inv.refs_swapQueued (h : s.Inv l) (hr : s.Refs) {i : ℕ}
    (hi : s.threads i = .wake t .swapQueued) : (s.swapQueued i t).Refs := by
  have ht := h.calls.task_lt i t (Or.inr ⟨_, hi⟩)
  unfold State.swapQueued
  cases hq : (s.tasks t).queued with
  | true => exact hr.shared rfl rfl rfl rfl rfl
  | false =>
      obtain ⟨-, -, hlive⟩ := h.flags.of_queued_false ht hq
      refine hr.enqueue (u := t) rfl rfl rfl rfl rfl hlive ?_
      intro prev hv
      rw [h.retired_of_verdict hv] at hlive
      cases hlive

/-- A step of `dequeue` hands the task it returns from the queue to the consumer. -/
theorem State.Inv.refs_consume (h : s.Inv l) (hr : s.Refs) (hrun : s.ready.consumer.running = true)
    (ho : s.owner.dequeuing = true) : s.consume.Refs := by
  obtain ⟨htaken, hverdict, -⟩ := of_dequeuing ho
  have hnone := ReadyToRunQueue.data_of_running hrun
  refine hr.frame rfl ?_ ?_
  · rcases ReadyToRunQueue.consume_enqueued h.flags.ready hrun with ⟨hdata, henq⟩ | ⟨u, hdata, hu, henq⟩
    · intro t
      refine kept_congr rfl (congrFun henq t) ?_ rfl
      show s.owner.taken s.ready.consume.consumer = _
      rw [htaken, htaken, hdata, hnone]
    · have hsome : s.ready.consume.consumer.data = some u := by rw [hdata]; rfl
      intro t
      by_cases htu : t = u
      · subst htu
        refine iff_of_true (Or.inr (Or.inr (Or.inl ?_))) (Or.inr (Or.inl hu))
        show s.owner.taken s.ready.consume.consumer = _
        rw [htaken, hsome]
      · have hne : u ≠ t := fun heq => htu heq.symm
        unfold State.Kept State.Taken State.Dropping State.consume
        dsimp only
        rw [htaken, htaken, hsome, hnone, henq, Function.update_of_ne htu]
        simp [hne]
  · intro t prev hv
    have hv' : s.owner.verdict = some (t, prev) := hv
    rw [hverdict] at hv'
    cases hv'

/-- The consumer gives the reference of a released task back. -/
theorem State.Inv.refs_dequeueReleased (h : s.Inv l) (hr : s.Refs) {n : Node}
    (hc : s.ready.consumer = .done (.Data n))
    (ho : s.owner.dequeuing = true)
    (hret : ∀ t, n = .task t → s.hist.retired t = true) : (s.dequeueReleased n).Refs := by
  obtain ⟨htaken, hverdict, hdropping⟩ := of_dequeuing ho
  cases n with
  | stub =>
      refine hr.advance rfl rfl rfl ?_ rfl hverdict
      show s.owner.taken .start = _
      rw [htaken, htaken, hc]
      rfl
  | task u =>
      have hflags := h.flags
      rw [htaken, hc] at hflags
      obtain ⟨-, hout⟩ := hflags.taken_out u rfl
      have hkept : s.Kept u := by
        refine Or.inr (Or.inr (Or.inl ?_))
        show s.owner.taken _ = _
        rw [htaken, hc]
        rfl
      -- `u` is retired, dequeued and not in the hands of `release_task`
      have hgone : ¬(s.dequeueReleased (.task u)).Kept u := by
        rintro (hlive | henq | htk | hdrop)
        · have hlive' : s.hist.retired u = false := hlive
          rw [hret u rfl] at hlive'
          cases hlive'
        · have henq' : s.ready.enqueued u = true := henq
          rw [hout] at henq'
          cases henq'
        · have htk' : s.owner.taken .start = some u := htk
          rw [htaken] at htk'
          cases htk'
        · have hdrop' : s.owner.dropping = some u := hdrop
          rw [hdropping] at hdrop'
          cases hdrop'
      have hother : ∀ t, t ≠ u → ((s.dequeueReleased (.task u)).Kept t ↔ s.Kept t) := by
        intro t htu
        have hne : u ≠ t := fun heq => htu heq.symm
        unfold State.Kept State.Taken State.Dropping State.dequeueReleased
        show (_ ∨ _ ∨ s.owner.taken .start = some t ∨ _) ↔ _
        rw [htaken, htaken, hc]
        simp [DequeuePc.data, hne, Sys.beginDequeue, Sys.endDequeue]
      refine ⟨?_, ?_, ?_⟩
      · intro t ht
        by_cases htu : t = u
        · subst htu
          exact absurd ht hgone
        · show Function.update s.hist.freed u _ t = 0
          rw [Function.update_of_ne htu]
          exact hr.kept t ((hother t htu).mp ht)
      · intro t ht
        by_cases htu : t = u
        · subst htu
          show Function.update s.hist.freed t (s.hist.freed t + 1) t = 1
          rw [Function.update_self, hr.kept t hkept]
        · show Function.update s.hist.freed u _ t = 1
          rw [Function.update_of_ne htu]
          exact hr.back t fun hk => ht ((hother t htu).mpr hk)
      · intro t prev hv
        have hv' : s.owner.verdict = some (t, prev) := hv
        rw [hverdict] at hv'
        cases hv'

/-- `release_task` takes the reference over, and reads in the flag whether the queue has
the task. -/
theorem State.Inv.refs_retire (h : s.Inv l) (hr : s.Refs) {o : Owner O W}
    (hheld : s.owner.held = some t) (hnone : s.owner.taken s.ready.consumer = none)
    (hdropping : s.owner.dropping = none) (hodrop : o.dropping = some t)
    (hotaken : o.taken s.ready.consumer = none)
    (hoverdict : o.verdict = some (t, (s.tasks t).queued)) : (s.retire t o).Refs := by
  obtain ⟨hlt, hlive⟩ := h.places.held_live t hheld
  refine hr.frame rfl ?_ ?_
  · intro u
    by_cases hut : u = t
    · subst hut
      exact iff_of_true (Or.inr (Or.inr (Or.inr hodrop))) (Or.inl hlive)
    · have hne : t ≠ u := fun heq => hut heq.symm
      unfold State.Kept State.Taken State.Dropping State.retire
      dsimp only
      rw [Function.update_of_ne hut, hnone, hotaken, hdropping, hodrop]
      simp [hne]
  · intro u prev hv
    have hv' : o.verdict = some (u, prev) := hv
    rw [hoverdict] at hv'
    cases hv'
    -- the flag of a managed task that has not just been dequeued is up only in the queue
    have hflag := h.flags.flag t hlt
    rw [hnone, hlive] at hflag
    simp only [reduceCtorEq, Bool.false_eq_true, or_false] at hflag
    exact Bool.eq_iff_iff.mpr hflag

/-- `release_task` gives the reference back, or leaves it to the queue. -/
theorem State.Inv.refs_dropFuture (h : s.Inv l) (hr : s.Refs) {prev : Bool} {o : Owner O W}
    (hv : s.owner.verdict = some (t, prev)) (hdropping : s.owner.dropping = some t)
    (hnone : s.owner.taken s.ready.consumer = none) (hodrop : o.dropping = none)
    (hotaken : o.taken s.ready.consumer = none) (hoverdict : o.verdict = none) :
    (s.dropFuture t prev o).Refs := by
  have hret := h.retired_of_verdict hv
  have hprev := hr.verdict t prev hv
  have hzero : s.hist.freed t = 0 := hr.kept t (Or.inr (Or.inr (Or.inr hdropping)))
  have hself : (s.dropFuture t prev o).Kept t ↔ prev = true := by
    unfold State.Kept State.Taken State.Dropping State.dropFuture
    dsimp only
    rw [hret, hotaken, hodrop, hprev]
    simp
  have hother : ∀ u, u ≠ t → ((s.dropFuture t prev o).Kept u ↔ s.Kept u) := by
    intro u hut
    have hne : t ≠ u := fun heq => hut heq.symm
    unfold State.Kept State.Taken State.Dropping State.dropFuture
    dsimp only
    rw [hotaken, hodrop, hnone, hdropping]
    simp [hne]
  have hfreed : ∀ u, u ≠ t → (s.dropFuture t prev o).hist.freed u = s.hist.freed u := by
    intro u hut
    unfold State.dropFuture
    dsimp only
    split
    · rfl
    · exact Function.update_of_ne hut _ _
  refine ⟨?_, ?_, ?_⟩
  · intro u hu
    by_cases hut : u = t
    · subst hut
      have hup : prev = true := hself.mp hu
      unfold State.dropFuture
      dsimp only
      rw [if_pos hup]
      exact hzero
    · rw [hfreed u hut]
      exact hr.kept u ((hother u hut).mp hu)
  · intro u hu
    by_cases hut : u = t
    · subst hut
      have hdown : ¬prev = true := fun hup => hu (hself.mpr hup)
      unfold State.dropFuture
      dsimp only
      rw [if_neg hdown, Function.update_self, hzero]
    · rw [hfreed u hut]
      exact hr.back u fun hk => hu ((hother u hut).mpr hk)
  · intro u p hp
    have hp' : o.verdict = some (u, p) := hp
    rw [hoverdict] at hp'
    cases hp'

/-- `queued.swap(false)` puts the task back into the hands of the set alone. -/
theorem State.Inv.refs_resetQueued (h : s.Inv l) (hr : s.Refs) {lv : Locals W}
    (ho : s.owner = .poll lv (.reset t)) : (s.resetQueued lv t).Refs := by
  have hc : s.ready.consumer = .idle := h.consumer.mpr (by rw [ho]; rfl)
  obtain ⟨hlt, hlive⟩ := h.places.held_live t (by rw [ho]; rfl)
  have htaken : (s.resetQueued lv t).owner.taken (s.resetQueued lv t).ready.consumer = none := by
    unfold State.resetQueued
    dsimp only
    rw [hc]
    split <;> rfl
  have hdropping : (s.resetQueued lv t).owner.dropping = none := by
    unfold State.resetQueued
    dsimp only
    split <;> rfl
  refine hr.frame rfl ?_ ?_
  · intro u
    by_cases hut : u = t
    · subst hut
      exact iff_of_true (Or.inl hlive) (Or.inl hlive)
    · have hne : t ≠ u := fun heq => hut heq.symm
      unfold State.Kept State.Taken State.Dropping
      rw [htaken, hdropping, ho]
      simp [State.resetQueued, Owner.taken, Owner.dropping, hne]
  · intro u prev hv
    unfold State.resetQueued at hv
    dsimp only at hv
    split at hv <;> cases hv

/-! ## One move -/

/-- **Every move keeps the books of the owning references.** -/
theorem refs_move (hl : s.Inv l) (hr : s.Refs) {a : Act F O W} (hm : Move s a s') : s'.Refs := by
  -- away from `dequeue` the consumer is idle
  have hidle : s.owner.dequeuing = false → s.ready.consumer = .idle := hl.consumer.mpr
  cases hm with
  | push fut hi ho => exact hl.refs_push hr fut ho
  | produce hp => exact hr.shared rfl rfl rfl rfl rfl
  | endPush hi hp => exact hr.shared rfl rfl rfl rfl rfl
  | upgrade hi ht ha => exact hr.shared rfl rfl rfl rfl rfl
  | upgradeFails ha => exact hr
  | storeWoken hi => exact hr.shared rfl rfl rfl rfl rfl
  | swapQueued hi => exact hl.refs_swapQueued hr hi
  | endEnqueue hi hp => exact hr.shared rfl rfl rfl rfl rfl
  | wakeWaker hi => exact hr.shared rfl rfl rfl rfl rfl
  | dropInner hi =>
      unfold State.dropInner
      dsimp only
      split
      · rename_i ho
        have hc := hidle (by rw [ho]; rfl)
        split
        · refine hr.advance rfl rfl rfl ?_ ?_ rfl
          · rw [ho, hc]; rfl
          · rw [ho]; rfl
        · exact hr.shared rfl rfl rfl rfl rfl
      · exact hr.shared rfl rfl rfl rfl rfl
  | poll_next w ho hp =>
      exact hr.advance rfl rfl rfl (by rw [ho]; rfl) (by rw [ho]; rfl) rfl
  | register ho =>
      have hc := hidle (by rw [ho]; rfl)
      exact hr.advance rfl rfl rfl (by rw [ho, hc]; rfl) (by rw [ho]; rfl) rfl
  | consume hrun ho =>
      refine hl.refs_consume hr hrun ?_
      rcases ho with ⟨lv, ho⟩ | ho
      · rw [ho]; rfl
      · rw [ho]; rfl
  | dequeueEmpty ho hc =>
      unfold State.dequeueEmpty
      split
      · exact hr.advance rfl rfl rfl (by rw [ho, hc]; rfl) (by rw [ho]; rfl) rfl
      · exact hr.advance rfl rfl rfl (by rw [ho, hc]; rfl) (by rw [ho]; rfl) rfl
  | dequeueInconsistent ho hc =>
      exact hr.advance rfl rfl rfl (by rw [ho, hc]; rfl) (by rw [ho]; rfl) rfl
  -- the reference that came with the queue is dropped
  | dequeueReleased ho hc hf =>
      refine hl.refs_dequeueReleased hr hc (by rw [ho]; rfl) ?_
      rintro t rfl
      exact hl.retired_of_dequeued ho hc (hf t rfl)
  | dequeueData ho hc hf =>
      exact hr.advance rfl rfl rfl (by rw [ho, hc]; rfl) (by rw [ho]; rfl) rfl
  | unlink ho => exact hr.advance rfl rfl rfl (by rw [ho]; rfl) (by rw [ho]; rfl) rfl
  | resetQueued ho => exact hl.refs_resetQueued hr ho
  | clearWoken ho => exact hr.advance rfl rfl rfl (by rw [ho]; rfl) (by rw [ho]; rfl) rfl
  | polled r ho =>
      cases r with
      | pending fut => exact hr.advance rfl rfl rfl (by rw [ho]; rfl) (by rw [ho]; rfl) rfl
      | ready o => exact hr.advance rfl rfl rfl (by rw [ho]; rfl) (by rw [ho]; rfl) rfl
      | unwind => exact hr.advance rfl rfl rfl (by rw [ho]; rfl) (by rw [ho]; rfl) rfl
  | loadWoken ho => exact hr.advance rfl rfl rfl (by rw [ho]; rfl) (by rw [ho]; rfl) rfl
  | relink ho =>
      have hc := hidle (by rw [ho]; rfl)
      unfold State.relink
      split
      · exact hr.advance rfl rfl rfl (by rw [ho]; rfl) (by rw [ho]; rfl) rfl
      · exact hr.advance rfl rfl rfl (by rw [ho, hc]; rfl) (by rw [ho]; rfl) rfl
  | release ho =>
      have hc := hidle (by rw [ho]; rfl)
      exact hl.refs_retire hr (by rw [ho]; rfl) (by rw [ho, hc]; rfl) (by rw [ho]; rfl) rfl
        (by rw [hc]; rfl) rfl
  | dropFuture ho =>
      have hc := hidle (by rw [ho]; rfl)
      exact hl.refs_dropFuture hr (by rw [ho]; rfl) (by rw [ho]; rfl) (by rw [ho, hc]; rfl) rfl
        (by rw [hc]; rfl) rfl
  | wakeParent ho => exact hr.advance rfl rfl rfl (by rw [ho]; rfl) (by rw [ho]; rfl) rfl
  | ret ho => exact hr.advance rfl rfl rfl (by rw [ho]; rfl) (by rw [ho]; rfl) rfl
  | drop ho hp => exact hr.advance rfl rfl rfl (by rw [ho]; rfl) (by rw [ho]; rfl) rfl
  | dropLoop ho =>
      have hc := hidle (by rw [ho]; rfl)
      unfold State.dropLoop
      split
      · exact hr.advance rfl rfl rfl (by rw [ho, hc]; rfl) (by rw [ho]; rfl) rfl
      · split
        · exact hr.advance rfl rfl rfl (by rw [ho, hc]; rfl) (by rw [ho]; rfl) rfl
        · exact hr.advance rfl rfl rfl (by rw [ho, hc]; rfl) (by rw [ho]; rfl) rfl
  | dropRelease ho =>
      have hc := hidle (by rw [ho]; rfl)
      exact hl.refs_retire hr (by rw [ho]; rfl) (by rw [ho, hc]; rfl) (by rw [ho]; rfl) rfl
        (by rw [hc]; rfl) rfl
  | dropDropFuture ho =>
      have hc := hidle (by rw [ho]; rfl)
      exact hl.refs_dropFuture hr (by rw [ho]; rfl) (by rw [ho]; rfl) (by rw [ho, hc]; rfl) rfl
        (by rw [hc]; rfl) rfl
  | @dropDequeued d ho hc =>
      cases d with
      | Empty => exact hr.advance rfl rfl rfl (by rw [ho, hc]; rfl) (by rw [ho]; rfl) rfl
      | Inconsistent => exact hr.advance rfl rfl rfl (by rw [ho, hc]; rfl) (by rw [ho]; rfl) rfl
      -- the set is empty, so each task that is left in the queue has been retired
      | Data n =>
          refine hl.refs_dequeueReleased hr hc (by rw [ho]; rfl) ?_
          rintro t rfl
          have hnil : l = [] := hl.emptied (by rw [ho]; rfl)
          subst hnil
          have hflags := hl.flags
          rw [ho, hc] at hflags
          exact hl.retired_of_nil (by rw [ho]; rfl) (hflags.taken_out t rfl).1

/-! ## The destructor of the queue -/

/-- Where the destructor of the queue stands: inside a `dequeue` call that nobody
disturbs, and at its end nothing is left but the stub. It does not abort. -/
def State.QueueDrop (s : State F O W A) : Prop :=
  match s.owner with
  | .dropQueue => ∃ q, CallInv q s.ready
  | .gone => s.ready.chain = [.stub]
  | .aborted => False
  | _ => True

theorem queueDrop_of_held (h : s.owner.released = false) : s.QueueDrop := by
  unfold State.QueueDrop
  cases ho : s.owner with
  | dropQueue => rw [ho] at h; cases h
  | gone => rw [ho] at h; cases h
  | aborted => rw [ho] at h; cases h
  | _ => trivial

/-- With the queue released, nobody enqueues. -/
theorem State.Inv.calm (h : s.Inv l) (hrel : s.owner.released = true) : s.ready.Calm := by
  have hbusy : s.owner.isIdle = false := by
    cases ho : s.owner with
    | idle => rw [ho] at hrel; cases hrel
    | _ => rfl
  intro i p n hi
  have hne : s.ready.producers i ≠ .idle := by rw [hi]; simp
  obtain ⟨t, ht⟩ := h.calls.busy i hne
  rcases h.calls.producer i t ht with hth | hth
  · have hmem := (h.calls.mem_pushing i).mpr ⟨t, hth⟩
    rw [h.calls.exclusive hbusy] at hmem
    simp at hmem
  · have hmem := (h.calls.mem_holders i).mpr ⟨t, _, hth⟩
    rw [h.calls.released hrel] at hmem
    simp at hmem

/-- The shared calls have a set to work on, or a queue that they hold. -/
theorem State.Inv.held_of_thread (h : s.Inv l) {i : ℕ} (hi : s.threads i ≠ .idle) :
    s.owner.released = false := by
  by_contra hne
  have hrel : s.owner.released = true := by simpa using hne
  cases hth : s.threads i with
  | idle => exact hi hth
  | push t =>
      have hbusy : s.owner.isIdle = false := by
        cases ho : s.owner with
        | idle => rw [ho] at hrel; cases hrel
        | _ => rfl
      have hmem := (h.calls.mem_pushing i).mpr ⟨t, hth⟩
      rw [h.calls.exclusive hbusy] at hmem
      simp at hmem
  | wake t pc =>
      have hmem := (h.calls.mem_holders i).mpr ⟨t, pc, hth⟩
      rw [h.calls.released hrel] at hmem
      simp at hmem

/-- The last reference to the queue goes: its destructor starts. -/
theorem State.Inv.queueDrop_begin (h : s.Inv l) (hc : s.ready.consumer = .idle) {l' : List ℕ}
    (h' : s'.Inv l') (ho : s'.owner = .dropQueue) (hready : s'.ready = s.ready.beginDequeue) :
    s'.QueueDrop := by
  have hcalm : s.ready.Calm := by
    intro i p n hi
    refine h'.calm (by rw [ho]; rfl) i p n ?_
    rw [hready]
    exact hi
  unfold State.QueueDrop
  rw [ho, hready]
  exact ⟨s.ready, CallInv.begin h.flags.ready hcalm hc⟩

theorem State.Inv.queueDrop_dropLoop (h : s.Inv l) (ho : s.owner = .drop .loop) :
    s.dropLoop.QueueDrop := by
  have hc : s.ready.consumer = .idle := h.consumer.mpr (by rw [ho]; rfl)
  obtain ⟨l', hl'⟩ := h.dropLoop ho
  unfold State.dropLoop at hl' ⊢
  cases hhead : s.all.head_all with
  | some u => exact queueDrop_of_held rfl
  | none =>
      rw [hhead] at hl'
      by_cases hnone : s.holders = ∅
      · simp only [if_pos hnone] at hl' ⊢
        exact h.queueDrop_begin hc hl' rfl rfl
      · simp only [if_neg hnone]
        exact queueDrop_of_held rfl

theorem State.Inv.queueDrop_dropInner (h : s.Inv l) {i : ℕ}
    (hi : s.threads i = .wake t .dropInner) : (s.dropInner i).QueueDrop := by
  have hheld := h.held_of_thread (i := i) (by rw [hi]; simp)
  have h' := h.dropInner hi
  by_cases ho : s.owner = .dropped
  · have hc : s.ready.consumer = .idle := h.consumer.mpr (by rw [ho]; rfl)
    unfold State.dropInner at h' ⊢
    rw [ho] at h' ⊢
    dsimp only at h' ⊢
    split at h' <;> rename_i hnone
    · rw [if_pos hnone]
      exact h.queueDrop_begin hc h' rfl rfl
    · rw [if_neg hnone]
      exact queueDrop_of_held (by simp [Owner.released])
  · have hsame : (s.dropInner i).owner = s.owner := by
      unfold State.dropInner
      dsimp only
      split
      · rename_i hgone
        exact absurd hgone ho
      · rfl
    exact queueDrop_of_held (by rw [hsame]; exact hheld)

/-- One round of the destructor: it ends with the stub alone, or goes on. -/
theorem State.Inv.queueDrop_dropDequeued (h : s.Inv l) (hq : s.QueueDrop)
    (ho : s.owner = .dropQueue) {d : ReadyToRunQueue.Dequeue} (hc : s.ready.consumer = .done d) :
    (s.dropDequeued d).QueueDrop := by
  unfold State.QueueDrop at hq
  rw [ho] at hq
  obtain ⟨q, hcall⟩ := hq
  cases d with
  | Empty =>
      have hchain := hcall.callChain
      rw [hc] at hchain
      exact hchain
  | Inconsistent => exact absurd rfl (hcall.result hc).1
  | Data n =>
      have hown : (s.dropDequeued (.Data n)).owner = .dropQueue := ho
      have hdone := h.flags.ready.endDequeue hc
      unfold State.QueueDrop
      rw [hown]
      exact ⟨s.ready.endDequeue, CallInv.begin hdone (h.calm (by rw [ho]; rfl)) rfl⟩

/-- **Every move keeps the destructor on its way.** -/
theorem queueDrop_move (hl : s.Inv l) (h : s.QueueDrop) {a : Act F O W} (hm : Move s a s') :
    s'.QueueDrop := by
  have hwake : ∀ {i t : ℕ} {pc : WakePc}, s.threads i = .wake t pc →
      s.owner.released = false := by
    intro i t pc hi
    exact hl.held_of_thread (i := i) (by rw [hi]; simp)
  cases hm with
  | push fut hi ho => exact queueDrop_of_held (by simp [State.push, ho, Owner.released])
  | @produce i hp =>
      obtain ⟨t, ht⟩ := hl.calls.busy i hp
      refine queueDrop_of_held (hl.held_of_thread (i := i) ?_)
      rcases hl.calls.producer i t ht with hth | hth
      · rw [hth]; simp
      · rw [hth]; simp
  | endPush hi hp => exact queueDrop_of_held (hl.held_of_thread (by rw [hi]; simp))
  | upgrade hi ht ha =>
      have hheld : s.owner.released = false := released_of_queueAlive ha
      exact queueDrop_of_held hheld
  | upgradeFails ha => exact h
  | storeWoken hi => exact queueDrop_of_held (hwake hi)
  | swapQueued hi =>
      unfold State.swapQueued
      split
      · exact queueDrop_of_held (hwake hi)
      · exact queueDrop_of_held (hwake hi)
  | endEnqueue hi hp => exact queueDrop_of_held (hwake hi)
  | wakeWaker hi => exact queueDrop_of_held (hwake hi)
  | dropInner hi => exact hl.queueDrop_dropInner hi
  | poll_next w ho hp => exact queueDrop_of_held rfl
  | register ho => exact queueDrop_of_held rfl
  | consume hrun ho =>
      rcases ho with ⟨lv, ho⟩ | ho
      · exact queueDrop_of_held (by simp [State.consume, ho, Owner.released])
      · have hown : s.consume.owner = .dropQueue := ho
        unfold State.QueueDrop at h ⊢
        rw [ho] at h
        rw [hown]
        obtain ⟨q, hcall⟩ := h
        exact ⟨q, hcall.consume hrun⟩
  | dequeueEmpty ho hc => unfold State.dequeueEmpty; split <;> exact queueDrop_of_held rfl
  | dequeueInconsistent ho hc => exact queueDrop_of_held rfl
  | dequeueReleased ho hc hf =>
      exact queueDrop_of_held (by simp [State.dequeueReleased, ho, Owner.released])
  | dequeueData ho hc hf => exact queueDrop_of_held rfl
  | unlink ho => exact queueDrop_of_held rfl
  | resetQueued ho => exact queueDrop_of_held rfl
  | clearWoken ho => exact queueDrop_of_held rfl
  | polled r ho => cases r <;> exact queueDrop_of_held rfl
  | loadWoken ho => exact queueDrop_of_held rfl
  | relink ho => unfold State.relink; split <;> exact queueDrop_of_held rfl
  | release ho => exact queueDrop_of_held rfl
  | dropFuture ho => exact queueDrop_of_held rfl
  | wakeParent ho => exact queueDrop_of_held rfl
  | ret ho => exact queueDrop_of_held rfl
  | drop ho hp => exact queueDrop_of_held rfl
  | dropLoop ho => exact hl.queueDrop_dropLoop ho
  | dropRelease ho => exact queueDrop_of_held rfl
  | dropDropFuture ho => exact queueDrop_of_held rfl
  | dropDequeued ho hc => exact hl.queueDrop_dropDequeued h ho hc

/-- A queue that has outlived its set has somebody who holds it. -/
theorem holders_move (h : s.owner = .dropped → s.holders ≠ ∅) {a : Act F O W} (hm : Move s a s') :
    s'.owner = .dropped → s'.holders ≠ ∅ := by
  intro ho'
  cases hm with
  | push fut hi ho => exact h ho'
  | produce hp => exact h ho'
  | endPush hi hp => exact h ho'
  | upgrade hi ht ha => exact Finset.insert_ne_empty _ _
  | upgradeFails ha => exact h ho'
  | storeWoken hi => exact h ho'
  | swapQueued hi =>
      unfold State.swapQueued at ho' ⊢
      split at ho' <;> rename_i hq
      · rw [if_pos hq]
        exact h ho'
      · rw [if_neg hq]
        exact h ho'
  | endEnqueue hi hp => exact h ho'
  | wakeWaker hi => exact h ho'
  | @dropInner i t hi =>
      by_cases hnone : s.holders.erase i = ∅
      · unfold State.dropInner at ho'
        dsimp only at ho'
        split at ho' <;> rename_i ho
        · rw [if_pos hnone] at ho'
          cases ho'
        · exact absurd ho' ho
      · have hheld : (s.dropInner i).holders = s.holders.erase i := by
          unfold State.dropInner
          dsimp only
          split
          · split <;> rfl
          · rfl
        rw [hheld]
        exact hnone
  | consume hrun ho => exact h ho'
  | dequeueReleased ho hc hf => exact h ho'
  | dropLoop ho =>
      unfold State.dropLoop at ho' ⊢
      cases hhead : s.all.head_all with
      | some u => rw [hhead] at ho'; cases ho'
      | none =>
          by_cases hnone : s.holders = ∅
          · rw [hhead] at ho'
            simp only [if_pos hnone] at ho'
            cases ho'
          · simp only [if_neg hnone]
            exact hnone
  | dequeueEmpty ho hc => unfold State.dequeueEmpty at ho'; split at ho' <;> cases ho'
  | polled r ho => cases r <;> cases ho'
  | relink ho => unfold State.relink at ho'; split at ho' <;> cases ho'
  | @dropDequeued d ho hc =>
      cases d with
      | Data n => exact h ho'
      | _ => cases ho'
  | _ => cases ho'

/-! ## The destructor comes to its end -/

/-- Once the last task is gone no task has a future. -/
theorem State.Inv.vacant_of_emptied (h : s.Inv l) (he : s.owner.emptied = true)
    (ht : t < s.fresh) : (s.tasks t).future.isNone = true := by
  have hnil : l = [] := h.emptied he
  subst hnil
  have hfree : s.owner.held = none ∧ s.owner.dropping = none := by
    cases ho : s.owner with
    | idle => rw [ho] at he; cases he
    | poll lv pc => rw [ho] at he; cases he
    | drop pc => rw [ho] at he; cases he
    | _ => exact ⟨rfl, rfl⟩
  refine (h.places.vacant t ht).mpr ⟨h.retired_of_nil hfree.1 ht, ?_⟩
  rw [hfree.2]
  simp

/-- One step of the destructor: it ends, or has less to do. -/
theorem State.Inv.dropQueue_step (h : s.Inv l) (hq : s.QueueDrop) (ho : s.owner = .dropQueue) :
    ∃ s', step s .owner = some s' ∧ (s'.owner = .gone ∨ s'.owner = .dropQueue ∧
      8 * s'.leftover + s'.dequeueRank < 8 * s.leftover + s.dequeueRank) := by
  have hne : s.ready.consumer ≠ .idle := by
    intro hc
    have hd := h.consumer.mp hc
    rw [ho] at hd
    cases hd
  cases hrun : s.ready.consumer.running with
  | true =>
      refine ⟨s.consume, ?_, Or.inr ⟨ho, dequeueRank_consume h hrun⟩⟩
      simp only [step, ownerStep, ho]
      cases hc : s.ready.consumer with
      | idle => exact absurd hc hne
      | done d => rw [hc] at hrun; cases hrun
      | _ => rfl
  | false =>
      cases hc : s.ready.consumer with
      | done d =>
          have hstep : step s .owner = some (s.dropDequeued d) := by
            simp only [step, ownerStep, ho, hc]
          refine ⟨_, hstep, ?_⟩
          cases d with
          | Empty => exact Or.inl rfl
          | Inconsistent =>
              unfold State.QueueDrop at hq
              rw [ho] at hq
              obtain ⟨q, hcall⟩ := hq
              exact absurd rfl (hcall.result hc).1
          | Data n =>
              refine Or.inr ⟨ho, ?_⟩
              have hrank : s.dequeueRank = 10 := by
                unfold State.dequeueRank
                rw [hc]
                cases n with
                | stub => rfl
                | task u =>
                    have hflags := h.flags
                    rw [ho, hc] at hflags
                    have hlt := (hflags.taken_out u rfl).1
                    simp only [h.vacant_of_emptied (by rw [ho]; rfl) hlt, if_true]
              have hrank' : (s.dropDequeued (.Data n)).dequeueRank = 9 := rfl
              have hleft : (s.dropDequeued (.Data n)).leftover = s.leftover :=
                leftover_congr rfl rfl rfl
              omega
      | idle => exact absurd hc hne
      | _ => rw [hc] at hrun; cases hrun

/-- The destructor of the queue comes to its end. -/
theorem State.Inv.dropQueue_ends (h : s.Inv l) (hq : s.QueueDrop) (ho : s.owner = .dropQueue) :
    ∃ k s', Transition.run step s (List.replicate k .owner) = some s' ∧ s'.owner = .gone := by
  induction hn : 8 * s.leftover + s.dequeueRank using Nat.strong_induction_on generalizing s l with
  | _ n ih =>
      obtain ⟨s₁, hs₁, hgone | ⟨ho₁, hlt⟩⟩ := h.dropQueue_step hq ho
      · refine ⟨1, s₁, ?_, hgone⟩
        rw [List.replicate_one, Transition.run_cons, hs₁]
        rfl
      · have hm := move_of_step hs₁
        obtain ⟨l₁, hl₁⟩ := inv_move h hm
        obtain ⟨k, s', hk, hs'⟩ := ih _ (hn ▸ hlt) hl₁ (queueDrop_move h hq hm) ho₁ rfl
        refine ⟨k + 1, s', ?_, hs'⟩
        rw [List.replicate_succ, Transition.run_cons, hs₁]
        exact hk

/-! ## What the books say -/

/-- The invariant with the books, as it holds in every run. -/
structure State.Accounted (s : State F O W A) : Prop where
  inv : ∃ l, s.Inv l
  refs : s.Refs
  queueDrop : s.QueueDrop
  holders : s.owner = .dropped → s.holders ≠ ∅

namespace State.Accounted

theorem new : (State.new : State F O W A).Accounted :=
  ⟨⟨[], State.inv_new⟩, State.Refs.new, trivial, nofun⟩

theorem step (h : s.Accounted) {a : Act F O W} (hs : step s a = some s') : s'.Accounted := by
  obtain ⟨⟨l, hl⟩, hr, hq, hh⟩ := h
  have hm := move_of_step hs
  exact ⟨inv_move hl hm, refs_move hl hr hm, queueDrop_move hl hq hm, holders_move hh hm⟩

theorem not_aborted (h : s.Accounted) : s.owner ≠ .aborted := by
  intro ho
  have hq := h.queueDrop
  unfold State.QueueDrop at hq
  rw [ho] at hq
  exact hq

theorem undisturbed (h : s.Accounted) (ho : s.owner = .dropQueue) : ∃ q, CallInv q s.ready := by
  have hq := h.queueDrop
  unfold State.QueueDrop at hq
  rw [ho] at hq
  exact hq

theorem freed_le_one (h : s.Accounted) (t : ℕ) : s.hist.freed t ≤ 1 := by
  by_cases hk : s.Kept t
  · rw [h.refs.kept t hk]
    exact Nat.zero_le 1
  · rw [h.refs.back t hk]

/-- The reference is out exactly as long as somebody has the task. -/
theorem freed_eq_zero_iff (h : s.Accounted) (ht : t < s.fresh) :
    s.hist.freed t = 0 ↔ s.InAll t ∨ s.Held t ∨ s.Dropping t ∨ s.InQueue t ∨
      (∃ i, s.Enqueueing i t) ∨ s.Taken t := by
  obtain ⟨⟨l, hl⟩, hr, -, -⟩ := h
  have hkept : s.hist.freed t = 0 ↔ s.Kept t := by
    refine ⟨fun hzero => ?_, hr.kept t⟩
    by_contra hk
    rw [hr.back t hk] at hzero
    cases hzero
  rw [hkept]
  constructor
  · rintro (hlive | henq | htaken | hdrop)
    · by_cases hheld : s.owner.held = some t
      · exact Or.inr (Or.inl hheld)
      · exact Or.inl ⟨l, hl.places.all, (hl.places.mem t).mpr ⟨ht, hlive, hheld⟩⟩
    · rcases hl.enqueued_iff.mp henq with hin | hi
      · exact Or.inr (Or.inr (Or.inr (Or.inl hin)))
      · exact Or.inr (Or.inr (Or.inr (Or.inr (Or.inl hi))))
    · exact Or.inr (Or.inr (Or.inr (Or.inr (Or.inr htaken))))
    · exact Or.inr (Or.inr (Or.inl hdrop))
  · rintro (⟨l', hrep, hmem⟩ | hheld | hdrop | hin | hi | htaken)
    · have hmem' : t ∈ l := hl.places.all.mem_iff.mpr (hrep.mem_iff.mp hmem)
      exact Or.inl ((hl.places.mem t).mp hmem').2.1
    · exact Or.inl (hl.places.held_live t hheld).2
    · exact Or.inr (Or.inr (Or.inr hdrop))
    · exact Or.inr (Or.inl (hl.enqueued_iff.mpr (Or.inl hin)))
    · exact Or.inr (Or.inl (hl.enqueued_iff.mpr (Or.inr hi)))
    · exact Or.inr (Or.inr (Or.inl htaken))

/-- A task whose reference has been given back has no future any more. -/
theorem future_of_freed (h : s.Accounted) (ht : 0 < s.hist.freed t) :
    (s.tasks t).future = none := by
  obtain ⟨⟨l, hl⟩, hr, -, -⟩ := h
  have hk : ¬s.Kept t := by
    intro hk
    rw [hr.kept t hk] at ht
    exact absurd ht (Nat.lt_irrefl 0)
  unfold State.Kept at hk
  simp only [not_or] at hk
  obtain ⟨hret, -, -, hdrop⟩ := hk
  have hret' : s.hist.retired t = true := by simpa using hret
  have hvac := (hl.places.vacant t (hl.places.retired_lt t hret')).mpr ⟨hret', hdrop⟩
  simpa using hvac

/-- When the queue is gone nobody has anything. -/
theorem freed_of_gone (h : s.Accounted) (ho : s.owner = .gone) (ht : t < s.fresh) :
    s.hist.freed t = 1 := by
  obtain ⟨⟨l, hl⟩, hr, hq, -⟩ := h
  have hnil : l = [] := hl.emptied (by rw [ho]; rfl)
  subst hnil
  refine hr.back t ?_
  rintro (hlive | henq | htaken | hdrop)
  · rw [hl.retired_of_nil (by rw [ho]; rfl) ht] at hlive
    cases hlive
  · unfold State.QueueDrop at hq
    rw [ho] at hq
    rcases hl.enqueued_iff.mp henq with hin | ⟨i, hi⟩
    · unfold State.InQueue at hin
      rw [hq] at hin
      simp at hin
    · have hne : s.threads i ≠ .idle := by
        rcases hi.1 with hth | hth
        · rw [hth]; simp
        · rw [hth]; simp
      have hheld := hl.held_of_thread hne
      rw [ho] at hheld
      cases hheld
  · have hc : s.ready.consumer = .idle := hl.consumer.mpr (by rw [ho]; rfl)
    unfold State.Taken at htaken
    rw [ho, hc] at htaken
    cases htaken
  · unfold State.Dropping at hdrop
    rw [ho] at hdrop
    cases hdrop

end State.Accounted

end TokioStreamUtil.FuturesUnordered
