/-
What the `queued` flag of a task says about the ready to run queue.

The flag is written by three parties that do not wait for each other: every
`wake_by_ref`, `poll_next` before it polls, and `release_task`. The theorem at
the end reads off the invariant, for every interleaving, when the flag is up and
when it is down.
-/
import TokioStreamUtil.FuturesUnordered.Invariant

set_option autoImplicit false

namespace TokioStreamUtil.FuturesUnordered

open ReadyToRunQueue (Node EnqueuePc)

variable {F O W : Type} {A : AtomicWaker W}

/-! ## The vocabulary -/

/-- Task `t` is in the ready to run queue, between `tail` and `head`. -/
def State.InQueue (s : State F O W A) (t : ℕ) : Prop := Node.task t ∈ s.ready.chain

/-- Thread `i` is inside the `enqueue` of task `t`, called by the `push` that
created it or by a `wake_by_ref` that found its flag down. -/
def State.Enqueueing (s : State F O W A) (i t : ℕ) : Prop :=
  (s.threads i = .push t ∨ s.threads i = .wake t .enqueue) ∧
    (s.ready.producers i).node = some (.task t)

/-- Task `t` is in the list of all tasks. -/
def State.InAll (s : State F O W A) (t : ℕ) : Prop := ∃ l, s.all.Rep l ∧ t ∈ l

/-- Task `t` is in the hands of `poll_next` or of the drop, unlinked and not released. -/
def State.Held (s : State F O W A) (t : ℕ) : Prop := s.owner.held = some t

/-- `poll_next`, or the destructor of the queue, has dequeued `t` and not put its
flag down since. -/
def State.Taken (s : State F O W A) (t : ℕ) : Prop := s.owner.taken s.ready.consumer = some t

variable {s s' : State F O W A} {l : List ℕ} {i j t : ℕ}

/-! ## The queue under the invariant -/

theorem State.Inv.enqueueing_iff (h : s.Inv l) :
    s.Enqueueing i t ↔ (s.ready.producers i).node = some (.task t) :=
  ⟨fun he => he.2, fun hn => ⟨h.calls.producer i t hn, hn⟩⟩

/-- The queue's own bookkeeping: in the chain, or on the way into it. -/
theorem State.Inv.enqueued_iff (h : s.Inv l) :
    s.ready.enqueued t = true ↔ s.InQueue t ∨ ∃ i, s.Enqueueing i t := by
  constructor
  · intro henq
    rcases (h.flags.ready.flag t).mp henq with hin | ⟨i, hi | hi⟩
    · exact Or.inl hin
    · exact Or.inr ⟨i, h.enqueueing_iff.mpr (by rw [hi]; rfl)⟩
    · exact Or.inr ⟨i, h.enqueueing_iff.mpr (by rw [hi]; rfl)⟩
  · rintro (hin | ⟨i, hi⟩)
    · exact (h.flags.ready.flag t).mpr (Or.inl hin)
    · exact h.flags.ready.enqueued_of_node (h.enqueueing_iff.mp hi)

/-- Two threads are never inside an enqueue of the same task. -/
theorem State.Inv.enqueueing_unique (h : s.Inv l) (hi : s.Enqueueing i t)
    (hj : s.Enqueueing j t) : i = j := by
  have hone := h.flags.ready.linked.one (some i) (some j) (.task t) hi.2 hj.2
  exact Option.some.inj hone

/-! ## Retirement is for good -/

theorem retired_move {a : Act F O W} (hm : Move s a s') (hr : s.hist.retired t = true) :
    s'.hist.retired t = true := by
  cases hm with
  | swapQueued hi => unfold State.swapQueued; split <;> exact hr
  | dropInner hi =>
      unfold State.dropInner
      dsimp only
      split
      · split <;> exact hr
      · exact hr
  | dequeueEmpty ho hc => unfold State.dequeueEmpty; split <;> exact hr
  | polled r ho => cases r <;> exact hr
  | relink ho => unfold State.relink; split <;> exact hr
  | release ho =>
      unfold State.retire
      simp [Function.update_apply, hr]
  | dropLoop ho =>
      unfold State.dropLoop
      split
      · exact hr
      · split <;> exact hr
  | dropRelease ho =>
      unfold State.retire
      simp [Function.update_apply, hr]
  | @dropDequeued d ho hc => cases d <;> exact hr
  | _ => exact hr

theorem retired_of_reachable (h : Transition.Reachable step s s')
    (hr : s.hist.retired t = true) : s'.hist.retired t = true :=
  h.invariant (I := fun s => s.hist.retired t = true) hr
    fun _ _ _ hr hs => retired_move (move_of_step hs) hr

theorem State.Inv.queued_of_retired (h : s.Inv l) (hr : s.hist.retired t = true) :
    (s.tasks t).queued = true :=
  (h.flags.flag t (h.places.retired_lt t hr)).mpr (Or.inr (Or.inr hr))

/-- No move starts an enqueue of a retired task: `push` enqueues a new one, and
`wake_by_ref` finds the flag up. -/
theorem node_move (h : s.Inv l) {a : Act F O W} (hm : Move s a s') (hr : s.hist.retired t = true)
    (hn : (s'.ready.producers j).node = some (.task t)) :
    (s.ready.producers j).node = some (.task t) := by
  cases hm with
  | @push i fut hi ho =>
      by_cases hji : j = i
      · have hlt := h.places.retired_lt t hr
        have heq : s.fresh = t := by
          simpa [State.push, ReadyToRunQueue.Sys.beginEnqueue, hji, EnqueuePc.node] using hn
        omega
      · simpa [State.push, ReadyToRunQueue.Sys.beginEnqueue, hji] using hn
  | @produce i hp =>
      by_cases hji : j = i
      · subst hji
        cases hpj : s.ready.producers j <;>
          simp [State.produce, ReadyToRunQueue.Sys.produce, hpj, ReadyToRunQueue.enqueue,
            EnqueuePc.node] at hn ⊢ <;> exact hn
      · simpa [State.produce, ReadyToRunQueue.Sys.produce, hji] using hn
  | @swapQueued i u hi =>
      unfold State.swapQueued at hn
      cases hq : (s.tasks u).queued with
      | true => simpa [hq] using hn
      | false =>
          by_cases hji : j = i
          · have hut : u = t := by
              simpa [hq, ReadyToRunQueue.Sys.beginEnqueue, hji, EnqueuePc.node] using hn
            rw [hut, h.queued_of_retired hr] at hq
            cases hq
          · simpa [hq, ReadyToRunQueue.Sys.beginEnqueue, hji] using hn
  | dropInner hi =>
      unfold State.dropInner at hn
      dsimp only at hn
      split at hn
      · split at hn <;> exact hn
      · exact hn
  | dequeueEmpty ho hc => unfold State.dequeueEmpty at hn; split at hn <;> exact hn
  | polled r ho => cases r <;> exact hn
  | relink ho => unfold State.relink at hn; split at hn <;> exact hn
  | dropLoop ho =>
      unfold State.dropLoop at hn
      split at hn
      · exact hn
      · split at hn <;> exact hn
  | @dropDequeued d ho hc => cases d <;> exact hn
  | _ => exact hn

theorem node_of_reachable (h : Transition.Reachable step (State.new : State F O W A) s)
    (hs : Transition.Reachable step s s') (hr : s.hist.retired t = true)
    (hn : (s'.ready.producers j).node = some (.task t)) :
    (s.ready.producers j).node = some (.task t) := by
  -- carried along: the invariant, the retirement, and that nothing has started since `s`
  have hall : (∃ l, s'.Inv l) ∧ s'.hist.retired t = true ∧
      ((s'.ready.producers j).node = some (.task t) →
        (s.ready.producers j).node = some (.task t)) := by
    refine hs.invariant (I := fun s' => (∃ l, s'.Inv l) ∧ s'.hist.retired t = true ∧
      ((s'.ready.producers j).node = some (.task t) →
        (s.ready.producers j).node = some (.task t))) ⟨inv_of_reachable h, hr, fun hn => hn⟩ ?_
    rintro s₁ a s₂ ⟨⟨l, hl⟩, hr₁, hback⟩ ha
    have hm := move_of_step ha
    exact ⟨inv_move hl hm, retired_move hm hr₁, fun hn₂ => hback (node_move hl hm hr₁ hn₂)⟩
  exact hall.2.2 hn

/-! ## The theorem -/

/-- **The flag governs membership.** In every state of every interleaving of
pushes, wakes, `poll_next` and the drop, for every task allocated so far: it is
in the queue at most once and in at most one enqueue; its flag is down only while
it is linked or held, out of the queue and in no enqueue; its flag is up exactly
while it is in the queue, in an enqueue, dequeued with the flag not yet reset, or
retired; once retired, the flag stays up and no enqueue of it starts; and the
assertion on the flag after `dequeue` holds. -/
theorem queued_flag_governs_membership (s : State F O W A)
    (h : Transition.Reachable step State.new s) :
    (∀ t, s.ready.chain.count (.task t) ≤ 1) ∧
    (∀ i j t, s.Enqueueing i t → s.Enqueueing j t → i = j) ∧
    (∀ t < s.fresh, (s.tasks t).queued = false →
      (s.InAll t ∨ s.Held t) ∧ ¬s.InQueue t ∧ ∀ i, ¬s.Enqueueing i t) ∧
    (∀ t < s.fresh, (s.tasks t).queued = true ↔
      s.InQueue t ∨ (∃ i, s.Enqueueing i t) ∨ s.Taken t ∨ s.hist.retired t = true) ∧
    (∀ t s', s.hist.retired t = true → Transition.Reachable step s s' →
      s'.hist.retired t = true ∧ (s'.tasks t).queued = true ∧
        ∀ i, s'.Enqueueing i t → s.Enqueueing i t) ∧
    ∀ lv, s.owner ≠ .poll lv .assertFailed := by
  obtain ⟨l, hl⟩ := inv_of_reachable h
  refine ⟨?_, ?_, ?_, ?_, ?_, hl.asserted⟩
  · intro t
    exact List.nodup_iff_count_le_one.mp hl.flags.ready.linked.broken.nodup (.task t)
  · intro i j t hi hj
    exact hl.enqueueing_unique hi hj
  · intro t ht hq
    obtain ⟨hout, -, hlive⟩ := hl.flags.of_queued_false ht hq
    refine ⟨?_, ?_, ?_⟩
    · by_cases hheld : s.owner.held = some t
      · exact Or.inr hheld
      · exact Or.inl ⟨l, hl.places.all, (hl.places.mem t).mpr ⟨ht, hlive, hheld⟩⟩
    · intro hin
      rw [hl.enqueued_iff.mpr (Or.inl hin)] at hout
      cases hout
    · intro i hi
      rw [hl.enqueued_iff.mpr (Or.inr ⟨i, hi⟩)] at hout
      cases hout
  · intro t ht
    have hflag := hl.flags.flag t ht
    rw [hl.enqueued_iff, or_assoc] at hflag
    exact hflag
  · intro t s' hr hs
    have hr' := retired_of_reachable hs hr
    obtain ⟨ls, hls⟩ := hs
    obtain ⟨l', hl'⟩ := inv_of_reachable (h.trans_run hls)
    refine ⟨hr', hl'.queued_of_retired hr', ?_⟩
    intro i hi
    rw [hl.enqueueing_iff]
    exact node_of_reachable h ⟨ls, hls⟩ hr hi.2

/-- One future is pushed and polled, and is woken from another thread meanwhile. -/
def wokenWhilePolled : List (Act Unit Unit Unit) :=
  List.flatten [
    [.push 0 (), .thread 0, .thread 0, .thread 0, .thread 0, .poll_next ()],
    List.replicate 12 .owner,
    [.wake 1 0, .thread 1, .thread 1, .thread 1, .thread 1, .thread 1]]

theorem queued_flag_woken_while_polled :
    ∃ s : State Unit Unit Unit (AtomicWaker.cell Unit),
      Transition.run step State.new wokenWhilePolled = some s ∧ s.Held 0 ∧
        (s.InQueue 0 ∨ (∃ i, s.Enqueueing i 0) ∨ s.Taken 0 ∨ s.hist.retired 0 = true) :=
  ⟨_, rfl, rfl,
    ((queued_flag_governs_membership _ ⟨wokenWhilePolled, rfl⟩).2.2.2.1 0 (by decide)).mp rfl⟩

end TokioStreamUtil.FuturesUnordered
