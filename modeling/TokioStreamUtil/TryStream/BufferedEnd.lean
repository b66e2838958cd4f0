/-
How the buffering adaptors end.

When the base has ended and the queue is empty, a call polls the queue once and returns
what comes of it: `Ready(None)`, or `Pending` when the set has met an enqueue of a task
that finished earlier. What an adaptor relies on for this is `Drains`.
-/
import TokioStreamUtil.TryStream.BufferedWaker
import TokioStreamUtil.FuturesOrdered.Drained

set_option autoImplicit false

namespace TokioStreamUtil

open FuturesUnordered (Polled PollNext move_of_step)
open FuturesUnordered.State (outputOf)

/-! ## What an adaptor relies on -/

namespace InProgressQueue

variable {F O W : Type} {A : AtomicWaker W}

/-- The queue stays drained: `Dry calm` says that it is empty, and calls of its
`poll_next` come to `Ready(None)`, or to `Pending` where it is not `calm`. -/
structure Drains (Q : InProgressQueue F O W) (busy : Q.State → Bool) (enqueues : Q.State → Prop)
    (ofCall : Q.Act → Bool) (Holds : List F → List O → Q.State → Prop)
    (Dry : Prop → Q.State → Prop) (rank : Q.State → ℕ) : Prop where
  of_len : ∀ {futs outs calm q}, Holds futs outs q → busy q = false → Q.len q = 0 →
    Q.quiet q = true → (calm → ¬enqueues q) → Dry calm q
  quiet : ∀ {calm q}, Dry calm q → Q.quiet q = true
  poll_next : ∀ {calm q} w, Dry calm q → busy q = false →
    ∃ q', Q.step q (Q.poll_next w) = some q' ∧ Dry calm q' ∧ busy q' = true ∧ rank q' < rank q
  runs : ∀ {calm q q' a}, Dry calm q → Q.runs a = true → Q.step q a = some q' →
    Dry calm q' ∧ busy q' = busy q ∧ (busy q = false → ofCall a = false) ∧
      rank q' + (if ofCall a then 1 else 0) ≤ rank q
  ret : ∀ {calm q r}, Dry calm q → Q.result q = some r →
    (r = .ready none ∨ (r = .pending ∧ ¬calm)) ∧
      ∃ q', Q.step q Q.ret = some q' ∧ Dry calm q' ∧ busy q' = false
  live : ∀ {calm q}, Dry calm q → busy q = true → (∃ r, Q.result q = some r) ∨
    ∃ a q', Q.runs a = true ∧ ofCall a = true ∧ Q.step q a = some q'

/-- Somebody enqueues a task of the set. -/
def unorderedEnqueues : (unordered F O W A).State → Prop := fun q => ∃ i t, q.Enqueueing i t

/-- Somebody enqueues a task of the set of the queue. -/
def orderedEnqueues : (ordered F O W A).State → Prop := fun q =>
  ∃ i t, q.in_progress_queue.Enqueueing i t

variable (Agrees : F → O → Prop)

/-- `FuturesUnordered` stays drained. -/
theorem unordered_drains : (unordered F O W A).Drains unorderedBusy unorderedEnqueues
    FuturesUnordered.Act.ofCall (FuturesUnordered.State.Delivery Agrees)
    FuturesUnordered.State.Drained FuturesUnordered.drainedRank where
  of_len {futs outs calm q} h hbusy hlen hquiet hcalm :=
    .of_empty h.sound.inv (h.sound.is_empty_iff.mpr hlen) (unordered_idle hbusy)
      (of_decide_eq_true hquiet) fun hc i t henq => hcalm hc ⟨i, t, henq⟩
  quiet h := decide_eq_true h.quiet
  poll_next {calm q} w h hbusy := by
    have hidle := unordered_idle hbusy
    obtain ⟨h', hlt⟩ := h.poll_next w hidle
    exact ⟨_, if_pos ⟨by rw [hidle]; rfl, h.quiet⟩, h', rfl, hlt⟩
  runs {calm q q' a} h ha (hs : FuturesUnordered.step q a = some q') := by
    have hm := move_of_step hs
    have hinner : FuturesUnordered.Act.inner a = true → q'.Drained calm ∧
        unorderedBusy q' = unorderedBusy q ∧ (unorderedBusy q = false → a.ofCall = false) ∧
          FuturesUnordered.drainedRank q' + (if a.ofCall then 1 else 0) ≤
            FuturesUnordered.drainedRank q := by
      intro ha
      obtain ⟨h', hle⟩ := h.inner hm ha
      refine ⟨h', ?_, fun hbusy => ?_, hle⟩
      · unfold unorderedBusy
        rw [(FuturesUnordered.frame_move hm ha).idle]
      · exact FuturesUnordered.not_ofCall_of_idle hm ha (unordered_idle hbusy)
    cases a with
    | wake i t => exact hinner rfl
    | thread i => exact hinner rfl
    | owner => exact hinner rfl
    | polled r =>
        cases hm with
        | polled r ho => exact absurd ho h.not_polled
    | _ => cases ha
  ret {calm q r} h hr := by
    dsimp only [unordered] at hr
    split at hr
    · rename_i lv r' ho
      cases hr
      refine ⟨h.result ho, q.ret lv r, ?_, h.ret ho, rfl⟩
      show FuturesUnordered.step q .ret = _
      simp only [FuturesUnordered.step, ho]
      rfl
    · cases hr
  live {calm q} h hbusy := by
    unfold unorderedBusy at hbusy
    rw [Bool.not_eq_true'] at hbusy
    rcases h.live hbusy with ⟨lv, r, ho⟩ | ⟨q', hq⟩
    · refine Or.inl ⟨r, ?_⟩
      dsimp only [unordered]
      rw [ho]
    · exact Or.inr ⟨.owner, q', rfl, rfl, hq⟩

/-- `FuturesOrdered` stays drained. -/
theorem ordered_drains : (ordered F O W A).Drains orderedBusy orderedEnqueues
    FuturesOrdered.Act.ofCall (FuturesOrdered.State.Delivery Agrees)
    FuturesOrdered.State.Drained FuturesOrdered.drainedRank where
  of_len {futs outs calm q} h hbusy hlen hquiet hcalm :=
    .of_len h (ordered_idle hbusy) hlen (of_decide_eq_true hquiet)
      fun hc i t henq => hcalm hc ⟨i, t, henq⟩
  quiet h := decide_eq_true h.set.quiet
  poll_next {calm q} w h hbusy := by
    have hs : FuturesOrdered.step q (.poll_next w) = some { q with pc := .peek w } :=
      if_pos ⟨by rw [ordered_idle hbusy]; rfl, h.set.quiet⟩
    obtain ⟨h', hlt⟩ := h.poll_next hs
    exact ⟨_, hs, h', rfl, hlt⟩
  runs {calm q q' a} h ha (hs : FuturesOrdered.step q a = some q') := by
    have hset : ∀ b : FuturesUnordered.Act (Ordered F) (Ordered O) W, b.inner = true →
        FuturesOrdered.stepSet q b = some q' → q'.Drained calm ∧ orderedBusy q' = orderedBusy q ∧
          (orderedBusy q = false → b.ofCall = false) ∧
            FuturesOrdered.drainedRank q' + (if b.ofCall then 1 else 0) ≤
              FuturesOrdered.drainedRank q := by
      intro b hb hstep
      obtain ⟨h', hle⟩ := h.inner hb hstep
      obtain ⟨p, hp, rfl⟩ := Option.map_eq_some_iff.mp hstep
      refine ⟨h', rfl, fun hbusy => ?_, hle⟩
      exact FuturesUnordered.not_ofCall_of_idle (move_of_step hp) hb (h.set_idle (ordered_idle hbusy))
    cases a with
    | wake i t => exact hset (.wake i t) rfl hs
    | thread i => exact hset (.thread i) rfl hs
    | owner => exact hset .owner rfl hs
    | own =>
        have hs : FuturesOrdered.stepOwn q = some q' := hs
        obtain ⟨h', hlt⟩ := h.own hs
        have hbefore : q.pc.isIdle = false := by
          cases hq : q.pc with
          | idle =>
              simp only [FuturesOrdered.stepOwn, hq] at hs
              cases hs
          | _ => rfl
        have hafter : q'.pc.isIdle = false := by
          obtain ⟨-, -, ⟨-, w, hpc⟩ | ⟨r, -, hpc⟩⟩ := FuturesOrdered.own_cases hs
          · rw [hpc]
            rfl
          · rw [hpc]
            rfl
        unfold orderedBusy
        rw [hbefore, hafter]
        exact ⟨h', rfl, by rintro ⟨⟩, hlt⟩
    | polled r =>
        simp only [FuturesOrdered.step, FuturesOrdered.stepPolled] at hs
        split at hs
        · rename_i lv t ho
          exact absurd ho h.set.not_polled
        · cases hs
    | _ => cases ha
  ret {calm q r} h hr := by
    dsimp only [ordered] at hr
    split at hr
    · rename_i r' hpc
      cases hr
      refine ⟨h.result hpc, q.ret, ?_, h.ret hpc, rfl⟩
      show FuturesOrdered.step q .ret = _
      simp only [FuturesOrdered.step, hpc]
      rfl
    · cases hr
  live {calm q} h hbusy := by
    unfold orderedBusy at hbusy
    rw [Bool.not_eq_true'] at hbusy
    rcases h.live hbusy with ⟨r, hpc⟩ | ⟨q', hq⟩ | ⟨q', hq⟩
    · refine Or.inl ⟨r, ?_⟩
      dsimp only [ordered]
      rw [hpc]
    · exact Or.inr ⟨.own, q', rfl, rfl, hq⟩
    · exact Or.inr ⟨.owner, q', rfl, rfl, hq⟩

end InProgressQueue

namespace Buffered

variable {E T F W : Type} {Q : InProgressQueue F (Except E T) W}

/-! ## A call after the end -/

/-- The label is the return of `poll_next`. -/
def Act.isRet : Act Q → Bool
  | .ret => true
  | _ => false

/-- The label is a step of `poll_next`, with that of the queue, or an answer it waits for. -/
def Act.ofPoll (ofCall : Q.Act → Bool) : Act Q → Bool
  | .own => true
  | .base _ _ => true
  | .queue a => ofCall a
  | _ => false

/-- A call over an ended base and an empty queue is in progress. -/
structure State.Passes (busy : Q.State → Bool) (Dry : Prop → Q.State → Prop) (calm : Prop)
    (s : State Q) : Prop where
  ended : s.stream.is_terminated = true
  queue : Dry calm s.in_progress_queue
  busy : busy s.in_progress_queue = s.pc.polls
  place : s.pc ≠ .idle
  result : ∀ r, s.pc = .done r → r = .ready none ∨ (r = .pending ∧ ¬calm)

/-- A bound on the steps that such a call has left. -/
def passRank (rank : Q.State → ℕ) (s : State Q) : ℕ :=
  match s.pc with
  | .fill _ _ => rank s.in_progress_queue + 1
  | .queue _ => rank s.in_progress_queue + 1
  | _ => 0

variable {busy : Q.State → Bool} {enqueues : Q.State → Prop} {ofCall : Q.Act → Bool}
  {Holds : List F → List (Except E T) → Q.State → Prop} {Dry : Prop → Q.State → Prop}
  {rank : Q.State → ℕ} {calm : Prop} {s s' : State Q}

namespace State.Passes

/-- **Every step of such a call uses it up.** -/
theorem move (hQ : Q.Drains busy enqueues ofCall Holds Dry rank) (h : s.Passes busy Dry calm)
    {a : Act Q} (ha : a.isRet = false) (hm : Move s a s') :
    s'.Passes busy Dry calm ∧
      passRank rank s' + (if a.ofPoll ofCall then 1 else 0) ≤ passRank rank s := by
  have hbusy := h.busy
  have hended := h.ended
  -- the loop over the base is left for the queue
  have hpoll : ∀ {w : W} {len : ℕ} {q : Q.State}, s.pc = .fill w len →
      Q.step s.in_progress_queue (Q.poll_next w) = some q →
      (s.polling w q).Passes busy Dry calm ∧
        passRank rank (s.polling w q) + 1 ≤ passRank rank s := by
    intro w len q hpc hq
    rw [hpc] at hbusy
    obtain ⟨q', hq', hdry, hbusy', hlt⟩ := hQ.poll_next w h.queue hbusy
    rw [hq] at hq'
    cases hq'
    refine ⟨⟨hended, hdry, hbusy', nofun, nofun⟩, ?_⟩
    unfold passRank
    rw [hpc]
    exact Nat.succ_le_succ hlt
  have hrunning : ∀ {w : W} {len : ℕ}, ¬AsksBase s w len := by
    intro w len hb
    rw [hb.running] at hended
    cases hended
  cases hm with
  | poll_next w hpc => exact absurd hpc h.place
  | full hpc hquiet hlimit hq => exact hpoll hpc hq
  | ended hpc hquiet hend hq => exact hpoll hpc hq
  | future hb hq => exact absurd hb hrunning
  | error hb => exact absurd hb hrunning
  | ends hb hq => exact absurd hb hrunning
  | pending hb hq => exact absurd hb hrunning
  | unwinds hb => exact absurd hb hrunning
  | @concludes w r q hpc hr hq =>
      obtain ⟨hcases, q', hq', hdry, hbusy'⟩ := hQ.ret h.queue hr
      rw [hq] at hq'
      cases hq'
      refine ⟨⟨hended, hdry, hbusy', nofun, ?_⟩, ?_⟩
      · intro r' hr'
        cases hr'
        rcases hcases with rfl | ⟨rfl, hcalm⟩
        · left
          unfold State.conclude
          dsimp only
          rw [if_pos hended]
        · exact Or.inr ⟨rfl, hcalm⟩
      · unfold passRank
        rw [hpc]
        exact Nat.succ_le_succ (Nat.zero_le _)
  | @queue a q hruns hq =>
      obtain ⟨hdry, hbusy', hidle, hle⟩ := hQ.runs h.queue hruns hq
      refine ⟨⟨hended, hdry, hbusy'.trans hbusy, h.place, h.result⟩, ?_⟩
      show passRank rank (s.withQueue q) + (if ofCall a then 1 else 0) ≤ _
      unfold passRank
      dsimp only [State.withQueue]
      cases hpc : s.pc with
      | idle => exact absurd hpc h.place
      | fill w len => exact Nat.add_right_comm .. ▸ Nat.add_le_add_right hle 1
      | queue w => exact Nat.add_right_comm .. ▸ Nat.add_le_add_right hle 1
      | done r =>
          rw [hpc] at hbusy
          rw [hidle hbusy]
          exact le_refl 0
  | ret hpc => cases ha

/-- The call begins. -/
theorem begin (hQ : Q.Drains busy enqueues ofCall Holds Dry rank) {futs : List F}
    {outs : List (Except E T)} (hholds : Holds futs outs s.in_progress_queue)
    (hbusy : busy s.in_progress_queue = false) (hquiet : Q.quiet s.in_progress_queue = true)
    (hended : s.stream.is_terminated = true) (hlen : Q.len s.in_progress_queue = 0) (w : W) :
    (s.poll_next w).Passes busy Dry (¬enqueues s.in_progress_queue) :=
  ⟨hended, hQ.of_len hholds hbusy hlen hquiet id, hbusy, nofun, nofun⟩

/-- A call in progress is at its end, or can take its next step. -/
theorem live (hQ : Q.Drains busy enqueues ofCall Holds Dry rank) (h : s.Passes busy Dry calm) :
    (∃ r, s.pc = .done r) ∨ ∃ a s', a.ofPoll ofCall = true ∧ step s a = some s' := by
  have hbusy := h.busy
  cases hpc : s.pc with
  | idle => exact absurd hpc h.place
  | done r => exact Or.inl ⟨r, rfl⟩
  | fill w len =>
      rw [hpc] at hbusy
      obtain ⟨q, hq, -⟩ := hQ.poll_next w h.queue hbusy
      have hquiet := hQ.quiet h.queue
      have hterm : s.stream.terminated = true := h.ended
      refine Or.inr ⟨.own, ?_⟩
      show ∃ s', _ ∧ stepOwn s = some s'
      unfold stepOwn
      rw [hpc]
      dsimp only
      rw [if_pos hquiet]
      split
      · rw [if_pos h.ended]
        unfold State.fillRound
        simp only [IntoFuseStream.poll_next, hterm, if_true]
        show ∃ s', _ ∧ State.pollQueue _ w = some s'
        unfold State.pollQueue
        dsimp only
        rw [hq]
        exact ⟨_, rfl, rfl⟩
      · unfold State.pollQueue
        rw [hq]
        exact ⟨_, rfl, rfl⟩
  | queue w =>
      rw [hpc] at hbusy
      refine Or.inr ?_
      rcases hQ.live h.queue hbusy with ⟨r, hr⟩ | ⟨a, q, hruns, hcall, hq⟩
      · obtain ⟨-, q, hq, -⟩ := hQ.ret h.queue hr
        refine ⟨.own, ({ s with in_progress_queue := q } : State Q).settle (s.conclude r), rfl, ?_⟩
        show stepOwn s = _
        unfold stepOwn
        rw [hpc]
        dsimp only
        rw [hr]
        dsimp only
        rw [hq]
        rfl
      · refine ⟨.queue a, s.withQueue q, hcall, ?_⟩
        show (if _ then _ else _) = _
        rw [if_pos hruns, hq]
        rfl

/-- **Such a call comes to its end**, with `Ready(None)` if the queue was calm. -/
theorem completes (hQ : Q.Drains busy enqueues ofCall Holds Dry rank) (h : s.Passes busy Dry calm) :
    Transition.Completes step Act.isRet (Act.ofPoll ofCall) (fun _ a => a.ofPoll ofCall)
      (State.Passes busy Dry calm)
      (fun e => ∃ r, e.pc = .done r ∧ (r = .ready none ∨ (r = .pending ∧ ¬calm))) s := by
  have hmove : ∀ (s : State Q) a s', a.isRet = false → s.Passes busy Dry calm →
      step s a = some s' → s'.Passes busy Dry calm ∧
        passRank rank s' + (if a.ofPoll ofCall then 1 else 0) ≤ passRank rank s :=
    fun s a s' ha h hs => h.move hQ ha (move_of_step hs)
  refine Transition.completes_of_rank hmove (fun _ h => h) ?_ h
  intro s h
  rcases h.live hQ with ⟨r, hpc⟩ | hnext
  · exact Or.inl ⟨r, hpc, h.result r hpc⟩
  · exact Or.inr hnext

end State.Passes

/-! ## The calls -/

/-- How the calls end. With `Ready(None)` the base has ended, and what has been returned
is one output for each future and each error of the base. From then on a call comes to
`Ready(None)`, or to `Pending` if somebody was enqueueing a task when it was made. A call
that returns `Pending` has been told so: when the queue is empty and the base has not
ended, by the base. -/
structure Watched.EndsWithBase (Agrees : F → Except E T → Prop) (enqueues : Q.State → Prop)
    (ofCall : Q.Act → Bool) (s : Watched Q) : Prop where
  complete : (∃ c ∈ s.calls, c.result = .ready none) → s.state.pc = .idle →
    .base (.ready none) ∈ s.log ∧ ∃ futs outs, futs.Perm (taken s.log) ∧
      List.Forall₂ Agrees futs outs ∧
        (yielded s.calls).Perm (outs ++ (errors s.log).map .error)
  stays : (∃ c ∈ s.calls, c.result = .ready none) → s.state.pc = .idle →
    ∀ w s', Buffered.step s.state (.poll_next w) = some s' →
      Transition.Completes Buffered.step Act.isRet (Act.ofPoll ofCall) (fun _ a => a.ofPoll ofCall)
        (fun _ => True) (fun e => ∃ r, e.pc = .done r ∧
          (r = .ready none ∨ (r = .pending ∧ enqueues s.state.in_progress_queue))) s'
  pending : ∀ c ∈ s.calls, c.result = .pending →
    .base .pending ∈ c.answers ∨ .queue .pending ∈ c.answers
  waits : s.state.pc = .idle → ∀ c, s.calls.getLast? = some c → c.result = .pending →
    s.BaseWaits c
  asked : s.state.pc = .idle → ∀ c, s.calls.getLast? = some c → c.result = .pending →
    s.state.len = 0 → s.state.stream.is_terminated = false → .base .pending ∈ c.answers

/-- When the call that `w` was passed to has returned `Pending`, and no other has been made
since, `w` waits with the queue. -/
def Watched.KeepsWaker (armed : W → Q.State → Prop) (ls : List (Act Q)) (s : Watched Q) : Prop :=
  ∀ pre w call, ls = pre ++ .poll_next w :: call → (∀ a ∈ call, a.calls = false) →
    s.state.pc = .idle → ∀ c, s.calls.getLast? = some c → c.result = .pending →
      armed w s.state.in_progress_queue

theorem fromQueue_flatMap (calls : List (Call E F T)) :
    fromQueue (calls.flatMap Call.answers) = calls.flatMap fun c => fromQueue c.answers :=
  List.flatMap_assoc

theorem errors_flatMap (calls : List (Call E F T)) :
    errors (calls.flatMap Call.answers) = calls.flatMap fun c => errors c.answers :=
  List.filterMap_flatMap ..

/-- What has been returned is what came from the queue, with the errors of the base. -/
theorem yielded_perm {calls : List (Call E F T)} (h : ∀ c ∈ calls, c.Settled) :
    (yielded calls).Perm (fromQueue (calls.flatMap Call.answers) ++
      (errors (calls.flatMap Call.answers)).map .error) := by
  have heach : yielded calls =
      calls.flatMap fun c => fromQueue c.answers ++ (errors c.answers).map .error :=
    List.flatMap_congr fun c hc => (h c hc).item
  rw [heach, fromQueue_flatMap, errors_flatMap, List.map_flatMap]
  exact (List.flatMap_append_perm calls _ _).symm

variable {polls : Q.Polling} {overflows : Q.State → Prop} {Agrees : F → Except E T → Prop}

/-- **The end of the calls.** -/
theorem Watched.Sound.endsWithBase {s : Watched Q} (h : s.Sound busy Holds) (hrests : s.Rests)
    (hQ : Q.Delivers polls busy overflows Agrees Holds)
    (hdrains : Q.Drains busy enqueues ofCall Holds Dry rank)
    (hdelivered : ∀ {futs outs q}, Holds futs outs q →
      ∃ futs', futs'.Subperm futs ∧ List.Forall₂ Agrees futs' outs) :
    s.EndsWithBase Agrees enqueues ofCall where
  complete := by
    intro hnone hpc
    obtain ⟨hterm, hlen⟩ := h.finished hnone
    have hcurrent := h.current
    unfold Watched.Current at hcurrent
    rw [hpc] at hcurrent
    have hlog : s.log = s.calls.flatMap Call.answers := by
      unfold Watched.log
      rw [show s.answers = [] from hcurrent, List.append_nil]
    obtain ⟨futs, hsub, hall⟩ := hdelivered h.queue
    refine ⟨h.ended.mp hterm, futs, fromQueue s.log, ?_, hall, ?_⟩
    · exact hsub.perm_of_length_le (by rw [hall.length_eq, hlen])
    · rw [hlog]
      exact yielded_perm h.settled
  stays := by
    intro hnone hpc w s' hs'
    obtain ⟨hterm, hlen⟩ := h.finished hnone
    have hbusy := h.busy
    rw [hpc] at hbusy
    have hempty := hQ.len_eq h.queue hbusy
    cases move_of_step hs' with
    | poll_next w hpc' =>
        have hpasses := State.Passes.begin hdrains h.queue hbusy (h.quiet (by rw [hpc]; rfl)) hterm
          (by omega) w
        refine (hpasses.completes hdrains).imp (fun _ _ => trivial) ?_
        rintro e ⟨r, hr, hcases⟩
        exact ⟨r, hr, hcases.imp_right fun hpend => ⟨hpend.1, not_not.mp hpend.2⟩⟩
  pending := fun c hc => (h.settled c hc).pending
  waits := fun hpc _ hlast hpending => hrests.waits hQ h hpc hlast hpending
  asked := by
    intro hpc c hlast hpending hlen hrunning
    rcases hrests.waits hQ h hpc hlast hpending with hbase | hterm | ⟨max, -, hfull⟩
    · exact hbase
    · rw [hrunning] at hterm
      cases hterm
    · -- a queue that is full is not empty
      have hpos := max.2
      omega

end Buffered

open Buffered (Watched Allowed)

/-- **How the buffering adaptors end, and when they may sleep**, for every base, every
behaviour of the futures and every interleaving with their wakers. The waker of a call that
has returned `Pending` is registered with the queue: the next wake of one of its tasks
calls it, or it has been called since. -/
theorem buffered_ends_with_base {E T F W : Type} {A : AtomicWaker W}
    (Agrees : F → Except E T → Prop) (n : Option ℕ) :
    (∀ ls s, Transition.Along Watched.step (Allowed InProgressQueue.orderedPolls
        InProgressQueue.orderedOverflows Agrees)
        (Watched.new (InProgressQueue.ordered F (Except E T) W A) n) ls →
      Transition.run Watched.step (Watched.new _ n) ls = some s →
      s.EndsWithBase Agrees InProgressQueue.orderedEnqueues FuturesOrdered.Act.ofCall ∧
        (A.Contract → s.KeepsWaker (fun w q =>
          (FuturesOrdered.State.in_progress_queue q).Armed w) ls)) ∧
    (∀ ls s, Transition.Along Watched.step (Allowed InProgressQueue.unorderedPolls
        (fun _ => False) Agrees)
        (Watched.new (InProgressQueue.unordered F (Except E T) W A) n) ls →
      Transition.run Watched.step (Watched.new _ n) ls = some s →
      s.EndsWithBase Agrees InProgressQueue.unorderedEnqueues FuturesUnordered.Act.ofCall ∧
        (A.Contract → s.KeepsWaker FuturesUnordered.State.Armed ls)) := by
  constructor
  · intro ls s hallowed hrun
    have hQ := InProgressQueue.ordered_delivers (W := W) (A := A) Agrees
    obtain ⟨hsound, hrests⟩ := Watched.rests_of_run hQ hallowed hrun
    constructor
    · refine hsound.endsWithBase hrests hQ (InProgressQueue.ordered_drains Agrees) fun h => ?_
      exact ⟨_, (List.take_sublist _ _).subperm, FuturesOrdered.State.Delivery.delivered h⟩
    · rintro hA pre w call rfl hcall hpc c hlast hpending
      obtain ⟨x, hx, rfl, hallowed'⟩ :=
        Buffered.Observed.exists_run FuturesOrdered.State.pendedAfter (.new _ n) hallowed hrun
      obtain ⟨-, htended⟩ := Buffered.Observed.tended_of_run hQ
        (InProgressQueue.ordered_tends Agrees hA) hallowed' hx
      have hasked := Watched.asked_of_pending InProgressQueue.ordered_asks hcall hrun hpc hlast
        hpending
      have hbusy := hsound.busy
      rw [hpc] at hbusy
      have hidle := InProgressQueue.ordered_idle hbusy
      obtain ⟨d, -, hrel⟩ := FuturesOrdered.State.Delivery.deque hsound.queue
      have howner := hrel.tracks.owner_idle fun w hw => by
        rw [hidle] at hw
        cases hw
      unfold FuturesOrdered.State.AskedBy at hasked
      rw [hidle] at hasked
      exact hasked.armed htended.owes.owes.promises howner
  · intro ls s hallowed hrun
    have hQ := InProgressQueue.unordered_delivers (W := W) (A := A) Agrees
    obtain ⟨hsound, hrests⟩ := Watched.rests_of_run hQ hallowed hrun
    constructor
    · exact hsound.endsWithBase hrests hQ (InProgressQueue.unordered_drains Agrees) fun h =>
        FuturesUnordered.State.Delivery.delivered h
    · rintro hA pre w call rfl hcall hpc c hlast hpending
      obtain ⟨x, hx, rfl, hallowed'⟩ :=
        Buffered.Observed.exists_run FuturesUnordered.State.pendedAfter (.new _ n) hallowed hrun
      obtain ⟨-, htended⟩ := Buffered.Observed.tended_of_run hQ
        (InProgressQueue.unordered_tends Agrees hA) hallowed' hx
      have hasked := Watched.asked_of_pending InProgressQueue.unordered_asks hcall hrun hpc hlast
        hpending
      have hbusy := hsound.busy
      rw [hpc] at hbusy
      exact FuturesUnordered.State.AskedBy.armed hasked htended.owes.promises
        (InProgressQueue.unordered_idle hbusy)

/-- Both futures are woken while they complete, and the wakers are overtaken inside their
enqueues: one links its task after the call that returned `Ready(None)`. -/
def lateWakers : List (Buffered.Act (InProgressQueue.unordered ℕ (Except ℕ ℕ) Unit (.cell Unit))) :=
  List.flatten [
    [.poll_next (), .base 0 (.ready (some (.ok 5)))], List.replicate 4 (.queue (.thread 0)),
    [.base 0 (.ready (some (.ok 6)))], List.replicate 4 (.queue (.thread 0)),
    [.base 0 (.ready none)], List.replicate 7 (.queue .owner),
    [.queue (.wake 1 0), .queue (.thread 1), .queue (.thread 1), .queue (.polled (.ready (.ok 5))),
      .queue .owner, .queue .owner, .own, .ret, .poll_next (), .own],
    List.replicate 11 (.queue .owner),
    [.queue (.wake 2 1), .queue (.thread 2), .queue (.thread 2), .queue (.polled (.ready (.ok 6))),
      .queue .owner, .queue .owner, .own, .ret, .queue (.thread 1), .queue (.thread 1),
      .queue (.thread 2), .queue (.thread 2), .poll_next (), .own],
    List.replicate 3 (.queue .owner), [.own, .ret, .queue (.thread 1), .poll_next (), .own],
    List.replicate 6 (.queue .owner), [.own, .ret]]

theorem buffered_ends_with_base_late_wakers :
    ∃ s : Watched (InProgressQueue.unordered ℕ (Except ℕ ℕ) Unit (.cell Unit)),
      Transition.run Watched.step (Watched.new _ none) lateWakers = some s ∧
      (∃ c ∈ s.calls, c.result = .ready none) ∧ s.EndsWithBase (fun fut o => .ok fut = o)
        InProgressQueue.unorderedEnqueues FuturesUnordered.Act.ofCall ∧
      FuturesUnordered.State.Armed () s.state.in_progress_queue := by
  have hrun : (Transition.run Watched.step
      (Watched.new (InProgressQueue.unordered ℕ (Except ℕ ℕ) Unit (.cell Unit)) none)
      lateWakers).map (fun s => (s.calls.map Buffered.Call.result, s.state.pc)) =
        some ([.ready (some (.ok 5)), .ready (some (.ok 6)), .ready none, .pending], .idle) := rfl
  obtain ⟨s, hs, heq⟩ := Option.map_eq_some_iff.mp hrun
  obtain ⟨hresults, hpc⟩ := Prod.mk.inj heq
  obtain ⟨hends, hkeeps⟩ := (buffered_ends_with_base (fun fut o => .ok fut = o) none).2 lateWakers s
    (Transition.along_of_isSome (by decide +kernel)) hs
  refine ⟨s, hs, List.mem_map.mp (by rw [hresults]; decide), hends, ?_⟩
  -- the last call has returned `Pending`
  have hlast := congrArg List.getLast? hresults
  rw [List.getLast?_map] at hlast
  obtain ⟨c, hc, hpending⟩ := Option.map_eq_some_iff.mp hlast
  exact hkeeps (AtomicWaker.cell_contract Unit) (lateWakers.take (lateWakers.length - 10)) ()
    (lateWakers.drop (lateWakers.length - 9)) rfl (by decide) hpc c hc hpending

/-- A call after `Ready(None)` may return `Pending`. -/
theorem buffered_pending_after_none :
    ¬ ∀ n ls (s : Watched (InProgressQueue.unordered ℕ (Except ℕ ℕ) Unit (.cell Unit))),
      Transition.Along Watched.step (Allowed InProgressQueue.unorderedPolls (fun _ => False)
        fun fut o => .ok fut = o) (Watched.new _ n) ls →
      Transition.run Watched.step (Watched.new _ n) ls = some s →
      ∀ (i j : ℕ) (c c' : Buffered.Call ℕ ℕ ℕ), s.calls[i]? = some c → s.calls[j]? = some c' →
        i < j → c.result = .ready none → c'.result = .ready none := by
  intro hclaim
  have hrun : (Transition.run Watched.step
      (Watched.new (InProgressQueue.unordered ℕ (Except ℕ ℕ) Unit (.cell Unit)) none)
      lateWakers).map (fun s => s.calls.map Buffered.Call.result) =
        some [.ready (some (.ok 5)), .ready (some (.ok 6)), .ready none, .pending] := rfl
  obtain ⟨s, hs, hresults⟩ := Option.map_eq_some_iff.mp hrun
  have hresult : ∀ (i : ℕ) r, (s.calls.map Buffered.Call.result)[i]? = some r →
      ∃ c : Buffered.Call ℕ ℕ ℕ, s.calls[i]? = some c ∧ c.result = r := by
    intro i r hi
    rw [List.getElem?_map] at hi
    exact Option.map_eq_some_iff.mp hi
  obtain ⟨c, hc, hnone⟩ := hresult 2 (.ready none) (by rw [hresults]; rfl)
  obtain ⟨c', hc', hpending⟩ := hresult 3 .pending (by rw [hresults]; rfl)
  have hbad := hclaim none lateWakers s (Transition.along_of_isSome (by decide +kernel)) hs 2 3 c c'
    hc hc' (by decide) hnone
  rw [hpending] at hbad
  cases hbad

end TokioStreamUtil
