/-
What is left to do when nobody is inside `poll_next`.

Somebody who polls the set when its parent waker has been called has `due` to say that
a poll is still to come. As long as none is, every task of the set has been polled
since it was pushed or woken: `poll_next` has found the queue empty, and whatever is
put into it afterwards comes with a wake.
-/
import TokioStreamUtil.FuturesUnordered.Wakeups
import TokioStreamUtil.FuturesUnordered.Frame

set_option autoImplicit false

namespace TokioStreamUtil.FuturesUnordered

open ReadyToRunQueue (Node DequeuePc Sys)

variable {F O W : Type} {A : AtomicWaker W}

/-! ## Nothing in the queue -/

/-- The call has found the queue empty, or there is none. -/
def Owner.settled (c : DequeuePc) : Owner O W → Bool
  | .poll _ .dequeue => decide (c = .done .Empty)
  | .poll _ (.done .pending) => true
  | .poll _ (.done (.ready none)) => true
  | .idle => true
  | _ => false

/-- The call is about to register its waker. -/
def Owner.registering : Owner O W → Bool
  | .poll _ .register => true
  | _ => false

/-- Unless a poll is `due`, what is in the queue when `poll_next` has nothing more to do
was put there by a wake that has still to call the parent waker. -/
structure State.Rests (due : Prop) (s : State F O W A) : Prop where
  unregistered : s.owner.registered s.hist.last = none →
    s.owner.registering = true ∨ due ∨ s.fresh = 0
  woken : ∀ w, s.owner.registered s.hist.last = some w →
    w ∈ s.hist.log.drop s.hist.registeredAt → due
  quiet : s.owner.settled s.ready.consumer = true →
    due ∨ (∃ i, (s.threads i).committed = true) ∨ ∀ t, s.ready.enqueued t = false

variable {s s' : State F O W A} {l : List ℕ} {due due' : Prop}

namespace State.Rests

/-- A poll is due. -/
theorem of_due (h : due) (s : State F O W A) : s.Rests due :=
  ⟨fun _ => Or.inr (Or.inl h), fun _ _ _ => h, fun _ => Or.inl h⟩

theorem new (due : Prop) : (State.new : State F O W A).Rests due :=
  ⟨fun _ => Or.inr (Or.inr rfl), nofun, fun _ => Or.inr (Or.inr fun _ => rfl)⟩

theorem imp (h : s.Rests due) (hdue : due → due') : s.Rests due' :=
  ⟨fun hnone => (h.unregistered hnone).imp_right (Or.imp_left hdue), fun w hw hin => hdue (h.woken w hw hin),
    fun hsettled => (h.quiet hsettled).imp_left hdue⟩

/-- The call is about to look at the queue, whatever is in it. -/
theorem of_registering (h : s.owner.registering = true) (due : Prop) : s.Rests due := by
  cases ho : s.owner with
  | poll lv pc =>
      rw [ho] at h
      cases pc with
      | register =>
          refine ⟨fun _ => Or.inl (by rw [ho]; rfl), fun w hw => ?_, fun hs => ?_⟩
          · rw [ho] at hw
            cases hw
          · rw [ho] at hs
            cases hs
      | _ => cases h
  | _ =>
      rw [ho] at h
      cases h

/-- A set that is being dropped is polled no more. -/
theorem gone (h : s.Rests due)
    (ho : s.owner.registered s.hist.last = none ∧ s.owner.registering = false)
    (hgone : s'.owner.registered s'.hist.last = none ∧ s'.owner.settled s'.ready.consumer = false)
    (hfresh : s'.fresh = s.fresh) : s'.Rests due where
  unregistered _ := by
    right
    rw [hfresh]
    refine (h.unregistered ho.1).resolve_left ?_
    rw [ho.2]
    exact Bool.noConfusion
  woken w hw _ := by
    rw [hgone.1] at hw
    cases hw
  quiet hs := by
    rw [hgone.2] at hs
    cases hs

/-- `poll_next` begins. -/
theorem poll_next (due : Prop) (s : State F O W A) (w : W) : (s.poll_next w).Rests due where
  unregistered _ := Or.inl rfl
  woken _ hw := nomatch hw
  quiet hsettled := nomatch hsettled

/-- The call moves on to a place where it has more to do. -/
theorem busy (h : s.Rests due) {w : W} (hw : s.owner.registered s.hist.last = some w)
    (hw' : s'.owner.registered s'.hist.last = some w) (hlog : s'.hist.log = s.hist.log)
    (hmark : s'.hist.registeredAt = s.hist.registeredAt)
    (hsettled : s'.owner.settled s'.ready.consumer = false) : s'.Rests due where
  unregistered hnone := by
    rw [hw'] at hnone
    cases hnone
  woken v hv hin := by
    rw [hw'] at hv
    cases hv
    rw [hlog, hmark] at hin
    exact h.woken w hw hin
  quiet hs := by
    rw [hsettled] at hs
    cases hs

/-- A thread moves, and the call does not. -/
theorem thread (h : s.Rests due) (howner : s'.owner = s.owner)
    (hconsumer : s'.ready.consumer = s.ready.consumer) (hlast : s'.hist.last = s.hist.last)
    (hlog : s'.hist.log = s.hist.log) (hmark : s'.hist.registeredAt = s.hist.registeredAt)
    (hfresh : s'.fresh = s.fresh)
    (hquiet : (∃ i, (s.threads i).committed = true) ∨ (∀ t, s.ready.enqueued t = false) →
      (∃ i, (s'.threads i).committed = true) ∨ ∀ t, s'.ready.enqueued t = false) :
    s'.Rests due where
  unregistered hnone := by
    rw [howner] at hnone ⊢
    rw [hlast] at hnone
    rw [hfresh]
    exact h.unregistered hnone
  woken w hw hin := by
    rw [howner, hlast] at hw
    rw [hlog, hmark] at hin
    exact h.woken w hw hin
  quiet hs := by
    rw [howner, hconsumer] at hs
    exact (h.quiet hs).imp_right hquiet

/-- A future answers. -/
theorem polled (h : s.Rests due) {lv : Locals W} {t : ℕ} (ho : s.owner = .poll lv (.poll t))
    (r : Polled F O) : (s.polled lv t r).Rests due := by
  have hreg : s.owner.registered s.hist.last = some lv.waker := by
    rw [ho]
    rfl
  cases r with
  | pending fut => exact h.busy hreg rfl rfl rfl rfl
  | ready o => exact h.busy hreg rfl rfl rfl rfl
  | unwind => exact h.busy hreg rfl rfl rfl rfl

/-- `poll_next` returns without an output. -/
theorem ret (h : s.Rests due) {lv : Locals W} {r : PollNext O} (ho : s.owner = .poll lv (.done r))
    (hr : r = .ready none ∨ r = .pending) : (s.ret lv r).Rests due where
  unregistered hnone := nomatch hnone
  woken w hw hin := by
    cases hw
    refine h.woken lv.waker ?_ hin
    rw [ho]
    rfl
  quiet _ := by
    refine h.quiet ?_
    rw [ho]
    rcases hr with rfl | rfl <;> rfl

end State.Rests

/-- A thread that is not committed moves without enqueueing anything. -/
theorem committed_update {threads : ℕ → Thread} {i : ℕ} {x : Thread} {P : Prop}
    (hi : (threads i).committed = false) (h : (∃ j, (threads j).committed = true) ∨ P) :
    (∃ j, (Function.update threads i x j).committed = true) ∨ P := by
  refine h.imp_left ?_
  rintro ⟨j, hj⟩
  refine ⟨j, ?_⟩
  have hji : j ≠ i := by
    rintro rfl
    rw [hi] at hj
    cases hj
  rw [Function.update_of_ne hji]
  exact hj

theorem committed_self {threads : ℕ → Thread} {i : ℕ} {x : Thread} (hx : x.committed = true) :
    ∃ j, (Function.update threads i x j).committed = true := by
  refine ⟨i, ?_⟩
  rw [Function.update_self]
  exact hx

/-- The parent waker is called: a poll is due, by this call or by an earlier one. -/
theorem due_of_wakeWaker (hA : A.Contract) (hl : s.Inv l) (hwake : s.Wakeups) (h : s.Rests due) {i t : ℕ}
    (hi : s.threads i = .wake t .wake)
    (hwakes : ∀ w, s.owner.registered s.hist.last = some w → w ∈ s.wakes (.thread i) → due) :
    s.owner.registering = true ∨ due := by
  cases hreg : s.owner.registered s.hist.last with
  | none =>
      refine (h.unregistered hreg).imp_right fun hdue => hdue.resolve_right fun hzero => ?_
      have hlt := hl.calls.task_lt i t (Or.inr ⟨.wake, hi⟩)
      rw [hzero] at hlt
      exact Nat.not_lt_zero t hlt
  | some w =>
      right
      rcases hwake.awake.armed w hreg with hin | ⟨a, ha⟩
      · exact h.woken w hreg hin
      · refine hwakes w hreg ?_
        unfold State.wakes
        dsimp only
        rw [hi, ha]
        exact hA a w

namespace State.Rests

/-- One step of a dequeue. If it ends at an empty queue, a thread is committed, or no task
is enqueued. -/
theorem consume (h : s.Rests due) (hl : s.Inv l) (hrun : s.ready.consumer.running = true)
    (ho : (∃ lv, s.owner = .poll lv .dequeue) ∨ s.owner = .dropQueue) : s.consume.Rests due := by
  refine ⟨h.unregistered, h.woken, fun hs => ?_⟩
  rcases ho with ⟨lv, ho⟩ | ho
  · have hempty : s.ready.consume.consumer = .done .Empty := by
      change s.owner.settled s.ready.consume.consumer = true at hs
      rw [ho] at hs
      exact of_decide_eq_true hs
    obtain ⟨hc, ht, hn, heq⟩ := consume_empty hl.flags.ready hrun hempty
    right
    have hquiet := empty_or_committed hl (hl.calls.exclusive (by rw [ho]; rfl)) hc ht hn
    refine hquiet.imp_right fun hnone t => ?_
    show s.ready.consume.enqueued t = false
    rw [heq]
    exact hnone t
  · change s.owner.settled s.ready.consume.consumer = true at hs
    rw [ho] at hs
    cases hs

/-- The queue is empty: the call is at its end, and what held of the queue still holds. -/
theorem dequeueEmpty (h : s.Rests due) {lv : Locals W} (ho : s.owner = .poll lv .dequeue)
    (hc : s.ready.consumer = .done .Empty) : (s.dequeueEmpty lv).Rests due := by
  have hquiet := h.quiet (by rw [ho, hc]; rfl)
  have hwoken := h.woken lv.waker (by rw [ho]; rfl)
  unfold State.dequeueEmpty
  split
  · refine ⟨fun hnone => (nomatch hnone), fun w hw hin => ?_, fun _ => hquiet⟩
    cases hw
    exact hwoken hin
  · refine ⟨fun hnone => (nomatch hnone), fun w hw hin => ?_, fun _ => hquiet⟩
    cases hw
    exact hwoken hin

/-- The queue loses a reference, and is dropped with the last of them. -/
theorem dropInner (h : s.Rests due) {i t : ℕ} (hi : s.threads i = .wake t .dropInner) :
    (s.dropInner i).Rests due := by
  unfold State.dropInner
  dsimp only
  split
  · rename_i ho
    split
    · exact h.gone (by rw [ho]; exact ⟨rfl, rfl⟩) ⟨rfl, rfl⟩ rfl
    · exact h.thread rfl rfl rfl rfl rfl rfl (committed_update (by rw [hi]; rfl))
  · exact h.thread rfl rfl rfl rfl rfl rfl (committed_update (by rw [hi]; rfl))

/-- The future is dropped: the call returns an output, or unwinds. -/
theorem dropFuture (h : s.Rests due) {lv : Locals W} {t : ℕ} {prev : Bool} {r : PollNext O}
    (ho : s.owner = .poll lv (.dropFuture t prev r))
    (hr : r.releases = true) : (s.dropFuture t prev (.poll lv (.done r))).Rests due := by
  refine h.busy (by rw [ho]; rfl) rfl rfl rfl ?_
  cases r with
  | pending => cases hr
  | unwound => rfl
  | ready o =>
      cases o with
      | none => cases hr
      | some o => rfl

end State.Rests

/-- **A step of the machinery.** If the step calls the waker of the call, a poll is due
from then on. -/
theorem rests_inner (hA : A.Contract) (hp : s.Promises) (h : s.Rests due) {a : Act F O W}
    (ha : a.inner = true) (hm : Move s a s')
    (hwakes : ∀ w, s.owner.registered s.hist.last = some w → w ∈ s.wakes a → due) :
    s'.Rests due := by
  obtain ⟨l, hl⟩ := hp.inv
  cases hm with
  | push fut hi ho => cases ha
  | produce hpr => exact h.thread rfl rfl rfl rfl rfl rfl fun hq => hq
  | endPush hi hpr =>
      exact h.thread rfl rfl rfl rfl rfl rfl (committed_update (by rw [hi]; rfl))
  | upgrade hi ht hal =>
      exact h.thread rfl rfl rfl rfl rfl rfl (committed_update (by rw [hi]; rfl))
  | upgradeFails hal => exact h
  | storeWoken hi =>
      exact h.thread rfl rfl rfl rfl rfl rfl (committed_update (by rw [hi]; rfl))
  | swapQueued hi =>
      unfold State.swapQueued
      split
      · exact h.thread rfl rfl rfl rfl rfl rfl (committed_update (by rw [hi]; rfl))
      · exact h.thread rfl rfl rfl rfl rfl rfl fun _ => Or.inl (committed_self rfl)
  | endEnqueue hi hpr => exact h.thread rfl rfl rfl rfl rfl rfl fun _ => Or.inl (committed_self rfl)
  -- the thread is no longer committed, and a poll is due instead
  | @wakeWaker i t hi =>
      rcases due_of_wakeWaker hA hl hp.wakeups h hi hwakes with hregistering | hdue
      · exact State.Rests.of_registering (s := s.wakeWaker i t) hregistering due
      · exact State.Rests.of_due hdue _
  | dropInner hi => exact h.dropInner hi
  | poll_next w ho hpu => cases ha
  -- what was logged before the registration does not count
  | @register lv ho =>
      refine ⟨fun hnone => (nomatch hnone), fun w hw hin => ?_, fun hs => (nomatch hs)⟩
      change w ∈ s.hist.log.drop s.hist.log.length at hin
      rw [List.drop_length] at hin
      cases hin
  | consume hrun ho => exact h.consume hl hrun ho
  | dequeueEmpty ho hc => exact h.dequeueEmpty ho hc
  | dequeueInconsistent ho hc => exact h.busy (by rw [ho]; rfl) rfl rfl rfl rfl
  | dequeueReleased ho hc hf =>
      refine h.busy (by rw [ho]; rfl) ?_ rfl rfl ?_
      · show s.owner.registered _ = _
        rw [ho]
        rfl
      · show s.owner.settled _ = _
        rw [ho]
        rfl
  | dequeueData ho hc hf => exact h.busy (by rw [ho]; rfl) rfl rfl rfl rfl
  | unlink ho => exact h.busy (by rw [ho]; rfl) rfl rfl rfl rfl
  | resetQueued ho =>
      unfold State.resetQueued
      dsimp only
      split
      · exact h.busy (by rw [ho]; rfl) rfl rfl rfl rfl
      · exact h.busy (by rw [ho]; rfl) rfl rfl rfl rfl
  | clearWoken ho => exact h.busy (by rw [ho]; rfl) rfl rfl rfl rfl
  | polled r ho => cases ha
  | loadWoken ho => exact h.busy (by rw [ho]; rfl) rfl rfl rfl rfl
  | relink ho =>
      unfold State.relink
      split
      · exact h.busy (by rw [ho]; rfl) rfl rfl rfl rfl
      · exact h.busy (by rw [ho]; rfl) rfl rfl rfl rfl
  | release ho => exact h.busy (by rw [ho]; rfl) rfl rfl rfl rfl
  | @dropFuture lv t prev r ho => exact h.dropFuture ho (hp.settling r (by rw [ho]; rfl))
  | @wakeParent lv ho =>
      refine State.Rests.of_due (hwakes lv.waker ?_ ?_) _
      · rw [ho]
        rfl
      · unfold State.wakes
        dsimp only
        rw [ho]
        exact List.mem_singleton_self _
  | ret ho => cases ha
  | drop ho hpu => cases ha
  | dropLoop ho =>
      unfold State.dropLoop
      split
      · exact h.gone (by rw [ho]; exact ⟨rfl, rfl⟩) ⟨rfl, rfl⟩ rfl
      · split
        · exact h.gone (by rw [ho]; exact ⟨rfl, rfl⟩) ⟨rfl, rfl⟩ rfl
        · exact h.gone (by rw [ho]; exact ⟨rfl, rfl⟩) ⟨rfl, rfl⟩ rfl
  | dropRelease ho => exact h.gone (by rw [ho]; exact ⟨rfl, rfl⟩) ⟨rfl, rfl⟩ rfl
  | dropDropFuture ho => exact h.gone (by rw [ho]; exact ⟨rfl, rfl⟩) ⟨rfl, rfl⟩ rfl
  | @dropDequeued d ho hc =>
      have hout : s.owner.registered s.hist.last = none ∧ s.owner.registering = false := by
        rw [ho]
        exact ⟨rfl, rfl⟩
      cases d with
      | Data n =>
          refine h.gone hout ⟨hout.1, ?_⟩ rfl
          show s.owner.settled _ = false
          rw [ho]
          rfl
      | _ => exact h.gone hout ⟨rfl, rfl⟩ rfl

/-! ## Who has been polled -/

/-- The task that the call polls, from the reset of its flag to its release. -/
def Owner.current : Owner O W → Option ℕ
  | .poll _ (.clearWoken t) => some t
  | .poll _ (.poll t) => some t
  | .poll _ (.release t _) => some t
  | _ => none

/-- A task whose flag is down is being polled, or has `pended`. -/
def State.Answered (pended : ℕ → Bool) (s : State F O W A) : Prop :=
  ∀ t, (s.tasks t).queued = false → pended t = true ∨ s.owner.current = some t

namespace State.Answered

variable {pended : ℕ → Bool}

theorem new (pended : ℕ → Bool) : (State.new : State F O W A).Answered pended :=
  fun _ hq => nomatch hq

/-- No flag is put down, and the call polls who it polled before. -/
theorem keep (h : s.Answered pended) (hq : ∀ t, (s'.tasks t).queued = false → (s.tasks t).queued = false)
    (hcurrent : ∀ t, s.owner.current = some t → s'.owner.current = some t) : s'.Answered pended :=
  fun t ht => (h t (hq t ht)).imp_right (hcurrent t)

/-- A cell of a task is written, and its flag is not put down. -/
theorem queued_of_update {tasks : ℕ → Task F} {t u : ℕ} {x : Task F}
    (hx : x.queued = false → (tasks t).queued = false)
    (hu : (Function.update tasks t x u).queued = false) : (tasks u).queued = false := by
  by_cases hut : u = t
  · subst hut
    rw [Function.update_self] at hu
    exact hx hu
  · rwa [Function.update_of_ne hut] at hu

/-- The task that the call polls is put away with its flag up. -/
theorem retire (h : s.Answered pended) {t : ℕ} (ht : ∀ u, s.owner.current = some u → u = t)
    (o : Owner O W) : (s.retire t o).Answered pended := by
  intro u hu
  have hut : u ≠ t := by
    rintro rfl
    have hqueued : (Function.update s.tasks u { s.tasks u with queued := true } u).queued = false := hu
    rw [Function.update_self] at hqueued
    cases hqueued
  have hq : (Function.update s.tasks t { s.tasks t with queued := true } u).queued = false := hu
  rw [Function.update_of_ne hut] at hq
  exact Or.inl ((h u hq).resolve_right fun hcurrent => hut (ht u hcurrent))

theorem poll_next (h : s.Answered pended) (ho : s.owner = .idle) (w : W) :
    (s.poll_next w).Answered pended := by
  refine h.keep (fun _ hq => hq) fun t ht => ?_
  rw [ho] at ht
  cases ht

theorem ret (h : s.Answered pended) {lv : Locals W} {r : PollNext O}
    (ho : s.owner = .poll lv (.done r)) : (s.ret lv r).Answered pended := by
  refine h.keep (fun _ hq => hq) fun t ht => ?_
  rw [ho] at ht
  cases ht

theorem push (h : s.Answered pended) (i : ℕ) (fut : F) : (s.push i fut).Answered pended :=
  h.keep (fun _ hq => queued_of_update (fun hx => by cases hx) hq) fun _ ht => ht

/-- The future answers pending. -/
theorem polled_pending (h : s.Answered pended) {lv : Locals W} {t : ℕ}
    (ho : s.owner = .poll lv (.poll t)) (fut : F) :
    (s.polled lv t (.pending fut)).Answered (Function.update pended t true) := by
  intro u hu
  left
  by_cases hut : u = t
  · rw [hut, Function.update_self]
  · rw [Function.update_of_ne hut]
    refine (h u (queued_of_update (fun hx => by exact hx) hu)).resolve_right fun hcurrent => hut ?_
    rw [ho] at hcurrent
    exact (Option.some.inj hcurrent).symm

/-- Or it finishes, or unwinds: then nothing is asked of what it answered before. -/
theorem polled_release (h : s.Answered pended) {lv : Locals W} {t : ℕ}
    (ho : s.owner = .poll lv (.poll t)) {r : Polled F O} (hr : ∀ fut, r ≠ .pending fut)
    {pended' : ℕ → Bool} (hp : ∀ u, u ≠ t → pended' u = pended u) :
    (s.polled lv t r).Answered pended' := by
  have hcurrent : (s.polled lv t r).owner.current = some t := by
    cases r with
    | pending fut => exact absurd rfl (hr fut)
    | ready o => rfl
    | unwind => rfl
  have hflag : ∀ u, ((s.polled lv t r).tasks u).queued = false → (s.tasks u).queued = false := by
    cases r with
    | pending fut => exact absurd rfl (hr fut)
    | ready o => exact fun _ hq => hq
    | unwind => exact fun _ hq => hq
  intro u hu
  by_cases hut : u = t
  · right
    rw [hut]
    exact hcurrent
  · left
    rw [hp u hut]
    refine (h u (hflag u hu)).resolve_right fun hother => hut ?_
    rw [ho] at hother
    exact (Option.some.inj hother).symm

/-- **A step of the machinery.** -/
theorem inner (h : s.Answered pended) (hl : s.Inv l) {a : Act F O W} (ha : a.inner = true)
    (hm : Move s a s') : s'.Answered pended := by
  have hnone : s.owner.current = none → (∀ t, (s'.tasks t).queued = false → (s.tasks t).queued = false) →
      s'.Answered pended := fun hcurrent hq => h.keep hq fun t ht => by
    rw [hcurrent] at ht
    cases ht
  cases hm with
  | push fut hi ho => cases ha
  | storeWoken hi => exact h.keep (fun _ hq => queued_of_update (fun hx => by exact hx) hq) fun _ ht => ht
  | swapQueued hi =>
      unfold State.swapQueued
      split
      · exact h
      · exact h.keep (fun _ hq => queued_of_update (fun hx => by cases hx) hq) fun _ ht => ht
  | dropInner hi =>
      unfold State.dropInner
      dsimp only
      split
      · rename_i ho
        split
        · refine h.keep (fun _ hq => hq) fun t ht => ?_
          rw [ho] at ht
          cases ht
        · exact h
      · exact h
  | poll_next w ho hp => cases ha
  | register ho => exact hnone (by rw [ho]; rfl) fun _ hq => hq
  | dequeueEmpty ho hc =>
      refine hnone (by rw [ho]; rfl) ?_
      unfold State.dequeueEmpty
      split
      · exact fun _ hq => hq
      · exact fun _ hq => hq
  | dequeueInconsistent ho hc => exact hnone (by rw [ho]; rfl) fun _ hq => hq
  | dequeueData ho hc hf => exact hnone (by rw [ho]; rfl) fun _ hq => hq
  | unlink ho => exact hnone (by rw [ho]; rfl) fun _ hq => hq
  | @resetQueued lv t ho =>
      -- the flag of a task that was dequeued is up
      obtain ⟨hlt, -⟩ := hl.flags.taken_out t (by rw [ho]; rfl)
      have hup : (s.tasks t).queued = true :=
        (hl.flags.flag t hlt).mpr (Or.inr (Or.inl (by rw [ho]; rfl)))
      intro u hu
      unfold State.resetQueued
      dsimp only
      rw [if_pos hup]
      by_cases hut : u = t
      · rw [hut]
        exact Or.inr rfl
      · have hu' : (Function.update s.tasks t { s.tasks t with queued := false } u).queued = false := hu
        rw [Function.update_of_ne hut] at hu'
        refine Or.inl ((h u hu').resolve_right fun hcurrent => ?_)
        rw [ho] at hcurrent
        cases hcurrent
  | clearWoken ho =>
      refine h.keep (fun _ hq => queued_of_update (fun hx => by exact hx) hq) fun t ht => ?_
      rw [ho] at ht
      exact ht
  | polled r ho => cases ha
  | loadWoken ho => exact hnone (by rw [ho]; rfl) fun _ hq => hq
  | relink ho =>
      refine hnone (by rw [ho]; rfl) ?_
      unfold State.relink
      split
      · exact fun _ hq => hq
      · exact fun _ hq => hq
  | release ho =>
      refine h.retire (fun u hu => ?_) _
      rw [ho] at hu
      exact (Option.some.inj hu).symm
  | dropFuture ho => exact hnone (by rw [ho]; rfl) fun _ hq => queued_of_update (fun hx => by exact hx) hq
  | wakeParent ho => exact hnone (by rw [ho]; rfl) fun _ hq => hq
  | ret ho => cases ha
  | drop ho hp => cases ha
  | dropLoop ho =>
      refine hnone (by rw [ho]; rfl) ?_
      unfold State.dropLoop
      split
      · exact fun _ hq => hq
      · split
        · exact fun _ hq => hq
        · exact fun _ hq => hq
  | dropRelease ho =>
      refine h.retire (fun u hu => ?_) _
      rw [ho] at hu
      cases hu
  | dropDropFuture ho => exact hnone (by rw [ho]; rfl) fun _ hq => queued_of_update (fun hx => by exact hx) hq
  | @dropDequeued d ho hc =>
      refine hnone (by rw [ho]; rfl) ?_
      cases d with
      | Data n => exact fun _ hq => hq
      | _ => exact fun _ hq => hq
  | _ => exact h

end State.Answered

/-- **Who sleeps.** Between calls, when no poll is due and nobody is about to call the
parent waker, every task of the set has pended and has not been woken since. -/
theorem State.Rests.asleep {pended : ℕ → Bool} (h : s.Rests due) (hp : s.Promises)
    (hanswered : s.Answered pended) (ho : s.owner = .idle) (hdue : ¬ due)
    (hcommitted : ∀ i, (s.threads i).committed = false) {t : ℕ} (ht : s.InAll t) :
    pended t = true ∧ s.hist.notified t = false := by
  obtain ⟨l, hl⟩ := hp.inv
  obtain ⟨l', hl', hmem⟩ := ht
  rw [hl'.unique hl.places.all] at hmem
  obtain ⟨hlt, hlive, -⟩ := (hl.places.mem t).mp hmem
  have hnone : s.ready.enqueued t = false := by
    rcases h.quiet (by rw [ho]; rfl) with hdue' | ⟨i, hi⟩ | hnone
    · exact absurd hdue' hdue
    · rw [hcommitted i] at hi
      cases hi
    · exact hnone t
  have hdown : (s.tasks t).queued = false := by
    rw [Bool.eq_false_iff, ne_eq, hl.flags.flag t hlt]
    rintro (henq | htaken | hretired)
    · rw [hnone] at henq
      cases henq
    · have hidle := hl.consumer.mpr (by rw [ho]; rfl)
      rw [ho, hidle] at htaken
      cases htaken
    · rw [hlive] at hretired
      cases hretired
  refine ⟨(hanswered t hdown).resolve_right fun hcurrent => ?_, ?_⟩
  · rw [ho] at hcurrent
    cases hcurrent
  · rw [Bool.eq_false_iff]
    intro hnot
    rw [hp.wakeups.notified t hnot] at hdown
    cases hdown

end TokioStreamUtil.FuturesUnordered
