/-
No wake-up of a live future is lost.

Two promises are followed through every interleaving. A task that has been woken
since its flag was last put down has its flag up, so it is on its way through the
ready to run queue (`notified`). And after `poll_next` has gone to sleep, a task
put in the queue by a wake comes with a thread that still has to call the parent
waker, or the parent has been woken (`Awake`): the one exit of `poll_next` that
does not wake the parent itself is `Empty`, and whoever hides a task from that
observation is in the middle of its enqueue.
-/
import TokioStreamUtil.FuturesUnordered.QueuedFlag
import TokioStreamUtil.FuturesUnordered.ReadyToRunQueueFifo

set_option autoImplicit false

namespace TokioStreamUtil.FuturesUnordered

open ReadyToRunQueue (Node DequeuePc Sys)

variable {F O W : Type} {A : AtomicWaker W}

/-! ## Who is asleep, and who is going to wake it -/

/-- The thread is in a `wake_by_ref` that will still call the parent waker. -/
def Thread.committed : Thread → Bool
  | .wake _ .enqueue => true
  | .wake _ .wake => true
  | _ => false

/-- The parent waker registered last, from the registration on. -/
def Owner.registered (last : Option (W × PollNext O)) : Owner O W → Option W
  | .poll _ .register => none
  | .poll lv _ => some lv.waker
  | .idle => last.map Prod.fst
  | _ => none

/-- The parent waker that `poll_next` has gone to sleep on: from the observation
that the queue is empty, or from the return of `Pending`. -/
def Owner.resting (c : DequeuePc) (last : Option (W × PollNext O)) : Owner O W → Option W
  | .poll lv .dequeue => if c = .done .Empty then some lv.waker else none
  | .poll lv (.done .pending) => some lv.waker
  | .idle =>
      match last with
      | some (w, .pending) => some w
      | _ => none
  | _ => none

/-- The promise to the parent: `log` are the wakers woken so far, `mark` its
length at the last registration. -/
structure Awake (A : AtomicWaker W) (waker : A.State) (log : List W) (mark : ℕ)
    (threads : ℕ → Thread) (enqueued byWake : ℕ → Bool) (registered resting : Option W) :
    Prop where
  mark_le : mark ≤ log.length
  armed : ∀ w, registered = some w → w ∈ log.drop mark ∨ ∃ a, waker = A.register a w
  resting : ∀ w, resting = some w → w ∈ log.drop mark ∨ (∃ i, (threads i).committed = true) ∨
    ∀ t, enqueued t = true → byWake t = false

namespace Awake

variable {waker : A.State} {log : List W} {mark i t : ℕ} {threads : ℕ → Thread}
  {enqueued enqueued' byWake : ℕ → Bool} {registered registered' resting resting' : Option W}

/-- A thread that is not committed moves somewhere else. -/
theorem moveThread (h : Awake A waker log mark threads enqueued byWake registered resting)
    {x : Thread} (hi : (threads i).committed = false) :
    Awake A waker log mark (Function.update threads i x) enqueued byWake registered resting := by
  refine ⟨h.mark_le, h.armed, ?_⟩
  intro w hw
  rcases h.resting w hw with hwoken | ⟨j, hj⟩ | hnone
  · exact Or.inl hwoken
  · have hji : j ≠ i := by
      rintro rfl
      rw [hi] at hj
      cases hj
    exact Or.inr (Or.inl ⟨j, by simpa [hji] using hj⟩)
  · exact Or.inr (Or.inr hnone)

/-- A thread becomes, or stays, committed. -/
theorem commit (h : Awake A waker log mark threads enqueued byWake registered resting)
    {x : Thread} (hx : x.committed = true) :
    Awake A waker log mark (Function.update threads i x) enqueued' byWake registered resting :=
  ⟨h.mark_le, h.armed, fun _ _ => Or.inr (Or.inl ⟨i, by simpa using hx⟩)⟩

/-- `push`: the new task was not put in the queue by a wake. -/
theorem push (h : Awake A waker log mark threads enqueued byWake registered resting)
    (hi : (threads i).committed = false) :
    Awake A waker log mark (Function.update threads i (.push t)) (Function.update enqueued t true)
      (Function.update byWake t false) registered resting := by
  refine ⟨h.mark_le, h.armed, ?_⟩
  intro w hw
  rcases (h.moveThread (x := .push t) hi).resting w hw with hwoken | hthread | hnone
  · exact Or.inl hwoken
  · exact Or.inr (Or.inl hthread)
  · refine Or.inr (Or.inr ?_)
    intro u hu
    by_cases hut : u = t
    · simp [hut]
    · simpa [hut] using hnone u (by simpa [hut] using hu)

/-- `inner.waker.wake()`: by the contract it wakes the registered waker, unless
that was woken before. -/
theorem wake (h : Awake A waker log mark threads enqueued byWake registered resting)
    (hA : A.Contract) {x : Thread} (hrest : ∀ w, resting = some w → registered = some w) :
    Awake A (A.wake waker).1 (log ++ (A.wake waker).2) mark (Function.update threads i x) enqueued
      byWake registered resting := by
  have hle := h.mark_le
  have hdrop : (log ++ (A.wake waker).2).drop mark = log.drop mark ++ (A.wake waker).2 :=
    List.drop_append_of_le_length hle
  have hwoken : ∀ w, registered = some w → w ∈ (log ++ (A.wake waker).2).drop mark := by
    intro w hw
    rw [hdrop, List.mem_append]
    rcases h.armed w hw with hin | ⟨a, rfl⟩
    · exact Or.inl hin
    · exact Or.inr (hA a w)
  refine ⟨?_, fun w hw => Or.inl (hwoken w hw), fun w hw => Or.inl (hwoken w (hrest w hw))⟩
  rw [List.length_append]
  omega

/-- `poll_next` registers its waker. -/
theorem register (waker : A.State) (log : List W) (threads : ℕ → Thread)
    (enqueued byWake : ℕ → Bool) (w : W) :
    Awake A (A.register waker w) log log.length threads enqueued byWake (some w) none := by
  refine ⟨Nat.le_refl _, ?_, nofun⟩
  intro v hv
  cases hv
  exact Or.inr ⟨waker, rfl⟩

/-- `poll_next` wakes its own waker. -/
theorem wakeParent {w : W}
    (h : Awake A waker log mark threads enqueued byWake (some w) none) :
    Awake A waker (log ++ [w]) mark threads enqueued byWake (some w) (some w) := by
  have hle := h.mark_le
  have hdrop : (log ++ [w]).drop mark = log.drop mark ++ [w] :=
    List.drop_append_of_le_length hle
  have hin : ∀ v, some w = some v → v ∈ (log ++ [w]).drop mark := by
    intro v hv
    cases hv
    rw [hdrop]
    simp
  refine ⟨?_, fun v hv => Or.inl (hin v hv), fun v hv => Or.inl (hin v hv)⟩
  rw [List.length_append]
  omega

/-- The exclusive call moves on without falling asleep on anything new. -/
theorem advance (h : Awake A waker log mark threads enqueued byWake registered resting)
    (hreg : ∀ w, registered' = some w → registered = some w)
    (hrest : ∀ w, resting' = some w → resting = some w)
    (henq : ∀ t, enqueued' t = true → enqueued t = true) :
    Awake A waker log mark threads enqueued' byWake registered' resting' := by
  refine ⟨h.mark_le, fun w hw => h.armed w (hreg w hw), ?_⟩
  intro w hw
  rcases h.resting w (hrest w hw) with hwoken | hthread | hnone
  · exact Or.inl hwoken
  · exact Or.inr (Or.inl hthread)
  · exact Or.inr (Or.inr fun t ht => hnone t (henq t ht))

end Awake

/-- The promises of a state. -/
structure State.Wakeups (s : State F O W A) : Prop where
  notified : ∀ t, s.hist.notified t = true → (s.tasks t).queued = true
  awake : Awake A s.waker s.hist.log s.hist.registeredAt s.threads s.ready.enqueued s.hist.byWake
    (s.owner.registered s.hist.last) (s.owner.resting s.ready.consumer s.hist.last)

variable {s s' : State F O W A} {l : List ℕ}

theorem resting_registered {o : Owner O W} {c : DequeuePc} {last : Option (W × PollNext O)} {w : W}
    (h : o.resting c last = some w) : o.registered last = some w := by
  cases o with
  | poll lv pc =>
      cases pc with
      | dequeue =>
          simp only [Owner.resting] at h
          split at h
          · exact h
          · cases h
      | done r =>
          cases r with
          | pending => exact h
          | _ => cases h
      | _ => cases h
  | idle =>
      cases last with
      | none => cases h
      | some wr =>
          obtain ⟨v, r⟩ := wr
          cases r with
          | pending => exact h
          | _ => cases h
  | _ => cases h

/-! ## What `Empty` means -/

/-- When `dequeue` finds the queue empty during `poll_next`, either nothing is in
the queue, or a `wake_by_ref` is in the middle of its enqueue. -/
theorem empty_or_committed (hl : s.Inv l) (hpush : s.pushing = ∅)
    (hc : s.ready.consumer = .start) (ht : s.ready.queue.tail = .stub)
    (hn : s.ready.queue.next_ready_to_run s.ready.queue.tail = none) :
    (∃ i, (s.threads i).committed = true) ∨ ∀ t, s.ready.enqueued t = false := by
  -- nobody is inside `push`, so whoever is inside an enqueue is a wake
  have hcommitted : ∀ i, s.ready.producers i ≠ .idle → (s.threads i).committed = true := by
    intro i hi
    obtain ⟨t, ht⟩ := hl.calls.busy i hi
    rcases hl.calls.producer i t ht with hth | hth
    · have hmem := (hl.calls.mem_pushing i).mpr ⟨t, hth⟩
      rw [hpush] at hmem
      cases hmem
    · rw [hth]; rfl
  by_cases hidle : ∀ i, s.ready.producers i = .idle
  · refine Or.inr ?_
    intro t
    have hcalm : s.ready.Calm := by
      intro i p n hp
      rw [hidle i] at hp
      cases hp
    have hsing := ReadyToRunQueue.chain_eq_singleton hl.flags.ready hcalm (by rw [hc]; rfl) hn
    by_contra henq
    rcases (hl.flags.ready.flag t).mp (by simpa using henq) with hin | ⟨i, hi | hi⟩
    · rw [hsing, ht] at hin
      simp at hin
    · rw [hidle i] at hi; cases hi
    · rw [hidle i] at hi; cases hi
  · obtain ⟨i, hi⟩ := not_forall.mp hidle
    exact Or.inl ⟨i, hcommitted i hi⟩

/-- A step of `dequeue` reports `Empty` only when it stands on the stub with
nothing linked behind it. -/
theorem consume_empty {q : Sys ℕ} (h : q.Inv) (hrun : q.consumer.running = true)
    (hc : q.consume.consumer = .done .Empty) :
    q.consumer = .start ∧ q.queue.tail = .stub ∧
      q.queue.next_ready_to_run q.queue.tail = none ∧ q.consume.enqueued = q.enqueued := by
  have hcases := Sys.consume_cases h hrun
  generalize q.consume = q' at hcases hc ⊢
  cases hcases with
  | empty hs ht hn => exact ⟨hs, ht, hn, rfl⟩
  | stub hs =>
      dsimp only at hc
      split at hc <;> cases hc
  | _ => cases hc

/-! ## The invariant -/

theorem wakeups_new : (State.new : State F O W A).Wakeups :=
  ⟨nofun, Nat.le_refl _, nofun, nofun⟩

/-- Writing a flag that stays up, or another cell, breaks no promise to a task. -/
theorem notified_update (h : s.Wakeups) (t : ℕ) {x : Task F}
    (hx : (s.tasks t).queued = true → x.queued = true) :
    ∀ u, s.hist.notified u = true → (Function.update s.tasks t x u).queued = true := by
  intro u hu
  have hq := h.notified u hu
  by_cases hut : u = t
  · subst hut
    simpa using hx hq
  · simpa [hut] using hq

theorem wakeups_swapQueued (h : s.Wakeups) {i t : ℕ}
    (hi : s.threads i = .wake t .swapQueued) : (s.swapQueued i t).Wakeups := by
  unfold State.swapQueued
  cases hq : (s.tasks t).queued with
  | true =>
      refine ⟨?_, h.awake.moveThread (by rw [hi]; rfl)⟩
      intro u hu
      by_cases hut : u = t
      · rw [hut]; exact hq
      · exact h.notified u (by simpa [hut] using hu)
  | false =>
      refine ⟨?_, h.awake.mark_le, h.awake.armed, ?_⟩
      · intro u hu
        by_cases hut : u = t
        · simp [hut]
        · have hu' : s.hist.notified u = true := by simpa [hut] using hu
          simpa [hut] using h.notified u hu'
      · intro w hw
        exact Or.inr (Or.inl ⟨i, by simp [Thread.committed]⟩)

theorem wakeups_consume (h : s.Wakeups) (hl : s.Inv l) (hrun : s.ready.consumer.running = true)
    (ho : (∃ lv, s.owner = .poll lv .dequeue) ∨ s.owner = .dropQueue) : s.consume.Wakeups := by
  have henq : ∀ t, s.ready.consume.enqueued t = true → s.ready.enqueued t = true := by
    intro t ht
    rcases ReadyToRunQueue.consume_enqueued hl.flags.ready hrun with ⟨-, heq⟩ | ⟨u, -, -, heq⟩
    · rw [heq] at ht; exact ht
    · by_cases htu : t = u
      · simp [heq, htu] at ht
      · simpa [heq, htu] using ht
  refine ⟨h.notified, h.awake.mark_le, h.awake.armed, ?_⟩
  intro w hw
  rcases ho with ⟨lv, ho⟩ | ho
  · have hpush : s.pushing = ∅ := hl.calls.exclusive (by rw [ho]; rfl)
    have hsome : s.owner.resting s.ready.consume.consumer s.hist.last = some w := hw
    rw [ho] at hsome
    have hempty : s.ready.consume.consumer = .done .Empty := by
      by_contra hne
      simp [Owner.resting, hne] at hsome
    obtain ⟨hc, ht, hn, heq⟩ := consume_empty hl.flags.ready hrun hempty
    rcases empty_or_committed hl hpush hc ht hn with hthread | hnone
    · exact Or.inr (Or.inl hthread)
    · refine Or.inr (Or.inr ?_)
      intro t henqt
      have hin := henq t henqt
      rw [hnone t] at hin
      cases hin
  · have hw' : s.owner.resting s.ready.consume.consumer s.hist.last = some w := hw
    rw [ho] at hw'
    cases hw'

theorem wakeups_dequeueEmpty (h : s.Wakeups) {lv : Locals W} (ho : s.owner = .poll lv .dequeue)
    (hc : s.ready.consumer = .done .Empty) : (s.dequeueEmpty lv).Wakeups := by
  have hawake := h.awake
  rw [ho, hc] at hawake
  unfold State.dequeueEmpty
  split
  · exact ⟨h.notified, hawake.advance (fun w hw => hw) nofun fun t ht => ht⟩
  · refine ⟨h.notified, hawake.advance (fun w hw => hw) ?_ fun t ht => ht⟩
    intro w hw
    simpa [Owner.resting] using hw

theorem wakeups_dropInner (h : s.Wakeups) {i t : ℕ} (hi : s.threads i = .wake t .dropInner) :
    (s.dropInner i).Wakeups := by
  have hmove := h.awake.moveThread (x := .idle) (by rw [hi]; rfl : (s.threads i).committed = false)
  unfold State.dropInner
  dsimp only
  split
  · rename_i ho
    split
    · rw [ho] at hmove
      exact ⟨h.notified, hmove.advance nofun nofun fun t ht => ht⟩
    · exact ⟨h.notified, hmove⟩
  · exact ⟨h.notified, hmove⟩

/-- The result of the call whose task is being released. -/
def Owner.settling : Owner O W → Option (PollNext O)
  | .poll _ (.release _ r) => some r
  | .poll _ (.dropFuture _ _ r) => some r
  | _ => none

/-- The results on the way to which a task is released. -/
def PollNext.releases : PollNext O → Bool
  | .ready (some _) => true
  | .unwound => true
  | _ => false

/-- A task is released on the way to an output or when it unwinds, never on the way to
`Pending` or to the end. -/
theorem settling_move {a : Act F O W} (h : ∀ r, s.owner.settling = some r → r.releases = true)
    (hm : Move s a s') : ∀ r, s'.owner.settling = some r → r.releases = true := by
  cases hm with
  | swapQueued hi => unfold State.swapQueued; split <;> exact h
  | dropInner hi =>
      unfold State.dropInner
      dsimp only
      split
      · split
        · exact nofun
        · exact h
      · exact h
  | dequeueEmpty ho hc => unfold State.dequeueEmpty; split <;> exact nofun
  | polled r ho =>
      cases r with
      | pending fut => exact nofun
      | ready o =>
          rintro r ⟨⟩
          rfl
      | unwind =>
          rintro r ⟨⟩
          rfl
  | relink ho => unfold State.relink; split <;> exact nofun
  | release ho => rw [ho] at h; exact h
  | dropLoop ho =>
      unfold State.dropLoop
      split
      · exact nofun
      · split <;> exact nofun
  | @dropDequeued d ho hc =>
      cases d with
      | Data n => exact h
      | _ => exact nofun
  | poll_next w ho hp => exact nofun
  | register ho => exact nofun
  | dequeueInconsistent ho hc => exact nofun
  | dequeueData ho hc hf => exact nofun
  | unlink ho => exact nofun
  | resetQueued ho => dsimp only [State.resetQueued]; split <;> exact nofun
  | clearWoken ho => exact nofun
  | loadWoken ho => exact nofun
  | dropFuture ho => exact nofun
  | wakeParent ho => exact nofun
  | ret ho => exact nofun
  | drop ho hp => exact nofun
  | dropRelease ho => exact nofun
  | dropDropFuture ho => exact nofun
  | _ => exact h

/-- **Every move keeps the promises.** -/
theorem wakeups_move (hA : A.Contract) {a : Act F O W} (hl : s.Inv l)
    (hr : ∀ r, s.owner.settling = some r → r.releases = true) (h : s.Wakeups) (hm : Move s a s') :
    s'.Wakeups := by
  have hawake := h.awake
  cases hm with
  | @push i fut hi ho =>
      refine ⟨notified_update h s.fresh fun _ => rfl, ?_⟩
      exact hawake.push (by rw [hi]; rfl)
  | produce hp => exact ⟨h.notified, hawake⟩
  | endPush hi hp => exact ⟨h.notified, hawake.moveThread (by rw [hi]; rfl)⟩
  | upgrade hi ht ha => exact ⟨h.notified, hawake.moveThread (by rw [hi]; rfl)⟩
  | upgradeFails ha => exact h
  | storeWoken hi =>
      exact ⟨notified_update h _ fun hq => hq, hawake.moveThread (by rw [hi]; rfl)⟩
  | swapQueued hi => exact wakeups_swapQueued h hi
  | endEnqueue hi hp => exact ⟨h.notified, hawake.commit rfl⟩
  | wakeWaker hi =>
      exact ⟨h.notified, hawake.wake hA fun w hw => resting_registered hw⟩
  | dropInner hi => exact wakeups_dropInner h hi
  | poll_next w ho hp => exact ⟨h.notified, hawake.advance nofun nofun fun t ht => ht⟩
  | @register lv ho =>
      exact ⟨h.notified, Awake.register s.waker s.hist.log s.threads s.ready.enqueued s.hist.byWake
        lv.waker⟩
  | consume hrun ho => exact wakeups_consume h hl hrun ho
  | dequeueEmpty ho hc => exact wakeups_dequeueEmpty h ho hc
  | dequeueInconsistent ho hc =>
      rw [ho] at hawake
      exact ⟨h.notified, hawake.advance (fun w hw => hw) nofun fun t ht => ht⟩
  | dequeueReleased ho hc hf =>
      rw [ho] at hawake
      refine ⟨h.notified, ?_⟩
      show Awake A _ _ _ _ _ _ (s.owner.registered _) (s.owner.resting _ _)
      rw [ho]
      exact hawake.advance (fun w hw => hw) nofun fun t ht => ht
  | dequeueData ho hc hf =>
      rw [ho] at hawake
      exact ⟨h.notified, hawake.advance (fun w hw => hw) nofun fun t ht => ht⟩
  | unlink ho =>
      rw [ho] at hawake
      exact ⟨h.notified, hawake.advance (fun w hw => hw) nofun fun t ht => ht⟩
  | @resetQueued lv t ho =>
      rw [ho] at hawake
      refine ⟨?_, ?_⟩
      · intro u hu
        by_cases hut : u = t
        · simp [State.resetQueued, hut] at hu
        · have hu' : s.hist.notified u = true := by simpa [State.resetQueued, hut] using hu
          simpa [State.resetQueued, hut] using h.notified u hu'
      · unfold State.resetQueued
        dsimp only
        split
        · exact hawake.advance (fun w hw => hw) nofun fun t ht => ht
        · exact hawake.advance (fun w hw => hw) nofun fun t ht => ht
  | clearWoken ho =>
      rw [ho] at hawake
      exact ⟨notified_update h _ fun hq => hq,
        hawake.advance (fun w hw => hw) nofun fun t ht => ht⟩
  | polled r ho =>
      rw [ho] at hawake
      cases r with
      | pending fut =>
          exact ⟨notified_update h _ fun hq => hq,
            hawake.advance (fun w hw => hw) nofun fun t ht => ht⟩
      | ready o =>
          exact ⟨h.notified, hawake.advance (fun w hw => hw) nofun fun t ht => ht⟩
      | unwind =>
          exact ⟨h.notified, hawake.advance (fun w hw => hw) nofun fun t ht => ht⟩
  | loadWoken ho =>
      rw [ho] at hawake
      exact ⟨h.notified, hawake.advance (fun w hw => hw) nofun fun t ht => ht⟩
  | relink ho =>
      rw [ho] at hawake
      unfold State.relink
      split
      · exact ⟨h.notified, hawake.advance (fun w hw => hw) nofun fun t ht => ht⟩
      · exact ⟨h.notified, hawake.advance (fun w hw => hw) nofun fun t ht => ht⟩
  | release ho =>
      rw [ho] at hawake
      exact ⟨notified_update h _ fun _ => rfl,
        hawake.advance (fun w hw => hw) nofun fun t ht => ht⟩
  | @dropFuture lv t prev r ho =>
      rw [ho] at hawake
      rw [ho] at hr
      refine ⟨notified_update h _ fun hq => hq, hawake.advance (fun w hw => hw) ?_ fun t ht => ht⟩
      intro w hw
      cases r with
      | pending => cases hr .pending rfl
      | _ => cases hw
  | wakeParent ho =>
      rw [ho] at hawake
      exact ⟨h.notified, hawake.wakeParent⟩
  | @ret lv r ho =>
      rw [ho] at hawake
      refine ⟨h.notified, hawake.advance (fun w hw => hw) ?_ fun t ht => ht⟩
      intro w hw
      cases r with
      | pending => exact hw
      | _ => cases hw
  | drop ho hp => exact ⟨h.notified, hawake.advance nofun nofun fun t ht => ht⟩
  | dropLoop ho =>
      unfold State.dropLoop
      split
      · exact ⟨h.notified, hawake.advance nofun nofun fun t ht => ht⟩
      · split
        · exact ⟨h.notified, hawake.advance nofun nofun fun t ht => ht⟩
        · exact ⟨h.notified, hawake.advance nofun nofun fun t ht => ht⟩
  | dropRelease ho =>
      exact ⟨notified_update h _ fun _ => rfl, hawake.advance nofun nofun fun t ht => ht⟩
  | dropDropFuture ho =>
      exact ⟨notified_update h _ fun hq => hq, hawake.advance nofun nofun fun t ht => ht⟩
  | @dropDequeued d ho hc =>
      cases d with
      | Data n =>
          refine ⟨h.notified, ?_⟩
          show Awake A _ _ _ _ _ _ (s.owner.registered _) (s.owner.resting _ _)
          rw [ho]
          exact hawake.advance nofun nofun fun t ht => ht
      | _ => exact ⟨h.notified, hawake.advance nofun nofun fun t ht => ht⟩

/-- The invariant, the results and the promises. -/
structure State.Promises (s : State F O W A) : Prop where
  inv : ∃ l, s.Inv l
  settling : ∀ r, s.owner.settling = some r → r.releases = true
  wakeups : s.Wakeups

theorem promises_new : (State.new : State F O W A).Promises :=
  ⟨⟨[], State.inv_new⟩, nofun, wakeups_new⟩

theorem promises_move (hA : A.Contract) {a : Act F O W} (h : s.Promises) (hm : Move s a s') :
    s'.Promises := by
  obtain ⟨l, hl⟩ := h.inv
  exact ⟨inv_move hl hm, settling_move h.settling hm, wakeups_move hA hl h.settling h.wakeups hm⟩

theorem promises_of_reachable (hA : A.Contract)
    (h : Transition.Reachable step (State.new : State F O W A) s) : s.Promises :=
  h.invariant promises_new fun _ _ _ hp hs => promises_move hA hp (move_of_step hs)

/-! ## The theorem -/

/-- **No wake-up of a live future is lost.** In every state of every interleaving:
a live task whose flag a `wake_by_ref` has swapped since `poll_next` last put it
down, and which `poll_next` has not dequeued again, is in the ready to run queue
or in an enqueue; and when `poll_next` has returned `Pending` with the waker `w`,
by whichever exit, and a live task put there by a wake is in the queue or in an
enqueue, then `w` has been woken since it was registered, or some `wake_by_ref`
is about to call the parent waker, and that call wakes `w`. -/
theorem no_wakeup_lost (hA : A.Contract) (s : State F O W A)
    (h : Transition.Reachable step State.new s) :
    (∀ t < s.fresh, s.hist.notified t = true → s.hist.retired t = false → ¬s.Taken t →
      s.InQueue t ∨ ∃ i, s.Enqueueing i t) ∧
    (∀ w t, s.owner = .idle → s.hist.last = some (w, .pending) → t < s.fresh →
      s.hist.retired t = false → s.hist.byWake t = true →
      (s.InQueue t ∨ ∃ i, s.Enqueueing i t) →
        w ∈ s.hist.log.drop s.hist.registeredAt ∨
        ((∃ i u, s.threads i = .wake u .enqueue ∨ s.threads i = .wake u .wake) ∧
          w ∈ (A.wake s.waker).2)) := by
  obtain ⟨⟨l, hl⟩, -, hwake⟩ := promises_of_reachable hA h
  refine ⟨?_, ?_⟩
  · intro t ht hnot hlive htaken
    have hup := hwake.notified t hnot
    rcases (hl.flags.flag t ht).mp hup with henq | htk | hr
    · exact hl.enqueued_iff.mp henq
    · exact absurd htk htaken
    · rw [hlive] at hr; cases hr
  · intro w t ho hlast ht hlive hby hin
    have hawake := hwake.awake
    rw [ho, hlast] at hawake
    rcases hawake.resting w rfl with hwoken | ⟨i, hi⟩ | hnone
    · exact Or.inl hwoken
    · rcases hawake.armed w rfl with hwoken | ⟨a, ha⟩
      · exact Or.inl hwoken
      · refine Or.inr ⟨?_, by rw [ha]; exact hA a w⟩
        cases hth : s.threads i with
        | wake u pc =>
            rw [hth] at hi
            cases pc with
            | enqueue => exact ⟨i, u, Or.inl hth⟩
            | wake => exact ⟨i, u, Or.inr hth⟩
            | _ => cases hi
        | _ => rw [hth] at hi; cases hi
    · have hnot := hnone t (hl.enqueued_iff.mpr hin)
      rw [hby] at hnot
      cases hnot

/-- The second `poll_next` call finds the queue empty and returns `Pending`; then
the task is woken, and its thread stops in the middle of the enqueue. -/
def wokenAsleep : List (Act Unit ℕ ℕ) :=
  List.flatten [
    [.push 0 (), .thread 0, .thread 0, .thread 0, .thread 0, .poll_next 9],
    List.replicate 12 .owner,
    [.polled (.pending ()), .owner, .owner, .owner, .ret, .poll_next 9],
    List.replicate 3 .owner,
    [.ret, .wake 1 0, .thread 1, .thread 1, .thread 1, .thread 1]]

theorem no_wakeup_lost_woken_asleep :
    ∃ s : State Unit ℕ ℕ (AtomicWaker.cell ℕ),
      Transition.run step State.new wokenAsleep = some s ∧ s.hist.last = some (9, .pending) ∧
        (9 ∈ s.hist.log.drop s.hist.registeredAt ∨
          ((∃ i u, s.threads i = .wake u .enqueue ∨ s.threads i = .wake u .wake) ∧
            9 ∈ ((AtomicWaker.cell ℕ).wake s.waker).2)) :=
  ⟨_, rfl, rfl,
    (no_wakeup_lost (AtomicWaker.cell_contract ℕ) _ ⟨wokenAsleep, rfl⟩).2 9 0 rfl rfl (by decide)
      rfl rfl (Or.inr ⟨1, Or.inr rfl, rfl⟩)⟩

end TokioStreamUtil.FuturesUnordered
