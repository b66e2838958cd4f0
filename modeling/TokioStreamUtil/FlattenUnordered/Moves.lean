/-
Everything one step of `FlattenUnordered` can do.

As for the bucket: one constructor for each transition, with the place it is taken
from and the bits it has seen. The step function is cut open here once.
-/
import TokioStreamUtil.FlattenUnordered.Model
import TokioStreamUtil.FuturesUnordered.Moves

set_option autoImplicit false

namespace TokioStreamUtil.FlattenUnordered

open FuturesUnordered (Polled PollNext)
open Word (need)

variable {B I T W : Type} {A : AtomicWaker WrappedWaker}

/-- `start_polling` has succeeded. -/
def State.claim (s : State I T W A) (w : W) : State I T W A :=
  { s with
    poll_state := { s.poll_state with state := POLLING, poller := .replace .stream w }
    pc := .replace
      { waker := w
        poll_state_value := s.poll_state.state
        need_to_poll_next := NONE
        next_item := none }
    hist := { s.hist with claimed := s.poll_state.state, basePolled := false, innerPolled := false } }

/-- The base is polled. -/
def State.pollBase (s : State I T W A) : State I T W A :=
  { s with hist := { s.hist with basePolled := true, basePended := false } }

/-- The loop over the base goes on to poll it. -/
structure AsksBase (s : State I T W A) (l : Locals T W) : Prop where
  pc : s.pc = .base l
  need : need .stream l.poll_state_value = true
  room : s.is_exceeded_limit = false
  running : s.is_stream_done = false

/-- The bucket's `poll_next` is about to return `r`. -/
structure BucketReturns (s : State I T W A) (l : Locals T W)
    (lv : FuturesUnordered.Locals WrappedWaker) (r : PollNext (Option (T × PollStreamFut I))) :
    Prop where
  pc : s.pc = .innerPoll l
  owner : s.inner_streams.owner = .poll lv (.done r)

/-- One step, transition by transition, with its label. -/
inductive Move (next_step : B → Option (FlowStep I T)) (s : State I T W A) :
    Act B I T W → State I T W A → Prop where
  | poll_next (w : W) (hpc : s.pc = .idle) : Move next_step s (.poll_next w) (s.poll_next w)
  -- the start
  | spin {w : W} (i : ℕ) (hpc : s.pc = .start w) (hw : Word.waking s.poll_state.state = true) :
      Move next_step s (.own i) s
  | claim {w : W} (i : ℕ) (hpc : s.pc = .start w) (hw : Word.waking s.poll_state.state = false) :
      Move next_step s (.own i) (s.claim w)
  | replace {l : Locals T W} {k : WrappedWaker} {w : W} (i : ℕ) (hpc : s.pc = .replace l)
      (hp : s.poll_state.poller = .replace k w) :
      Move next_step s (.own i) { s with poll_state := s.poll_state.replace_waker k w }
  | replaced {l : Locals T W} (i : ℕ) (hpc : s.pc = .replace l)
      (hp : ∀ k w, s.poll_state.poller ≠ .replace k w) :
      Move next_step s (.own i) (s.setPc (.base l))
  -- the base
  | baseSkip {l : Locals T W} (i : ℕ) (hpc : s.pc = .base l)
      (hneed : need .stream l.poll_state_value = false) (hpush : s.inner_streams.pushing = ∅) :
      Move next_step s (.own i) (s.setPc (.inner l))
  | baseDone {l : Locals T W} (i : ℕ) (hpc : s.pc = .base l) (hdone : s.is_stream_done = true)
      (hpush : s.inner_streams.pushing = ∅) :
      Move next_step s (.own i) (s.setPc (.inner l))
  | baseLimit {l : Locals T W} (i : ℕ) (hpc : s.pc = .base l) (hlimit : s.is_exceeded_limit = true)
      (hdone : s.is_stream_done = false) (hpush : s.inner_streams.pushing = ∅) :
      Move next_step s (.own i) (s.setPc (.inner
        { l with need_to_poll_next := l.need_to_poll_next ||| NEED_TO_POLL_STREAM }))
  | baseReturn {l : Locals T W} {i : ℕ} {item : B} {x : T} (hb : AsksBase s l)
      (hpush : s.inner_streams.pushing = ∅) (hstep : next_step item = some (.Return x)) :
      Move next_step s (.base i (.ready (some item))) (s.pollBase.baseReturn l x)
  | baseContinue {l : Locals T W} {i : ℕ} {item : B} {inner_stream : I} (hb : AsksBase s l)
      (hpush : s.inner_streams.pushing = ∅) (hstep : next_step item = some (.Continue inner_stream))
      (hi : s.inner_streams.threads i = .idle) (ho : s.inner_streams.owner = .idle) :
      Move next_step s (.base i (.ready (some item)))
        { s.pollBase with
          inner_streams := s.inner_streams.push i
            { stream := some inner_stream, source := s.hist.sources }
          pc := .base
            { l with poll_state_value := l.poll_state_value ||| NEED_TO_POLL_INNER_STREAMS }
          hist := { s.pollBase.hist with
            events := s.hist.events ++ [.taken s.hist.sources]
            sources := s.hist.sources + 1 } }
  | baseEnds {l : Locals T W} {i : ℕ} (hb : AsksBase s l) (hpush : s.inner_streams.pushing = ∅) :
      Move next_step s (.base i (.ready none))
        ({ s.pollBase with is_stream_done := true }.record .base_done)
  | basePending {l : Locals T W} {i : ℕ} (hb : AsksBase s l) (hpush : s.inner_streams.pushing = ∅) :
      Move next_step s (.base i .pending)
        (({ s.pollBase with
          hist := { s.pollBase.hist with basePended := true, baseWoken := false } }.record
            .pending).setPc (.inner l))
  | baseUnwinds {l : Locals T W} {i : ℕ} {r : PollNext B} (hb : AsksBase s l)
      (hr : r = .unwound ∨ ∃ item, r = .ready (some item) ∧ next_step item = none) :
      Move next_step s (.base i r) (s.pollBase.unwind l)
  -- the bucket
  | innerSkip {l : Locals T W} (i : ℕ) (hpc : s.pc = .inner l)
      (hneed : need .inner_streams l.poll_state_value = false) :
      Move next_step s (.own i) (s.setPc (.finish l))
  | innerPoll {l : Locals T W} (i : ℕ) (hpc : s.pc = .inner l)
      (hneed : need .inner_streams l.poll_state_value = true)
      (ho : s.inner_streams.owner = .idle) (hpush : s.inner_streams.pushing = ∅) :
      Move next_step s (.own i)
        { s with
          inner_streams := s.inner_streams.poll_next .inner_streams
          pc := .innerPoll l
          hist := { s.hist with innerPolled := true } }
  | innerItem {l : Locals T W} {lv : FuturesUnordered.Locals WrappedWaker} {i : ℕ} {x : T}
      {fut : PollStreamFut I} (hb : BucketReturns s l lv (.ready (some (some (x, fut)))))
      (hi : s.inner_streams.threads i = .idle) :
      Move next_step s (.own i)
        { s with
          inner_streams := (s.inner_streams.ret lv (.ready (some (some (x, fut))))).push i fut
          pc := .finish
            { l with
              next_item := some { value := x, origin := .inner fut.source }
              need_to_poll_next := l.need_to_poll_next ||| NEED_TO_POLL_INNER_STREAMS } }
  | innerEnd {l : Locals T W} {lv : FuturesUnordered.Locals WrappedWaker} (i : ℕ)
      (hb : BucketReturns s l lv (.ready (some none))) :
      Move next_step s (.own i)
        { s with
          inner_streams := s.inner_streams.ret lv (.ready (some none))
          pc := .finish
            { l with need_to_poll_next := l.need_to_poll_next ||| NEED_TO_POLL_INNER_STREAMS } }
  | innerNone {l : Locals T W} {lv : FuturesUnordered.Locals WrappedWaker}
      {r : PollNext (Option (T × PollStreamFut I))} (i : ℕ) (hb : BucketReturns s l lv r)
      (hr : r = .ready none ∨ r = .pending) :
      Move next_step s (.own i)
        { s with inner_streams := s.inner_streams.ret lv r, pc := .finish l }
  | innerUnwinds {l : Locals T W} {lv : FuturesUnordered.Locals WrappedWaker} (i : ℕ)
      (hb : BucketReturns s l lv .unwound) :
      Move next_step s (.own i)
        ({ s with inner_streams := s.inner_streams.ret lv .unwound }.unwind l)
  | stream {lv : FuturesUnordered.Locals WrappedWaker} {t : ℕ} {fut : PollStreamFut I}
      (r : StreamPolled I T) (ho : s.inner_streams.owner = .poll lv (.poll t))
      (hf : (s.inner_streams.tasks t).future = some fut) :
      Move next_step s (.inner r)
        ({ s with inner_streams := s.inner_streams.polled lv t (fut.poll r) }.answered t fut r)
  | owner {q : FuturesUnordered.State (PollStreamFut I) (Option (T × PollStreamFut I)) WrappedWaker A}
      (hq : FuturesUnordered.Move s.inner_streams .owner q) :
      Move next_step s .owner
        ((s.inner_streams.wakes .owner).foldl (fun s' k => s'.wake_by_ref .poll k)
          { s with inner_streams := q })
  -- the end
  | stop {l : Locals T W} (i : ℕ) (hpc : s.pc = .finish l) (hpush : s.inner_streams.pushing = ∅) :
      Move next_step s (.own i) (s.stop_polling l)
  | wake {w : W} (i : ℕ) (hpc : s.pc = .wake w) : Move next_step s (.own i) (s.wake w)
  | ret {w : W} {r : PollNext T} (hpc : s.pc = .done w r) : Move next_step s .ret (s.ret w r)
  -- the other threads
  | wakeTask {i t : ℕ}
      {q : FuturesUnordered.State (PollStreamFut I) (Option (T × PollStreamFut I)) WrappedWaker A}
      (hcalls : callsDone s i = true) (hq : FuturesUnordered.Move s.inner_streams (.wake i t) q) :
      Move next_step s (.wakeTask i t) { s with inner_streams := q }
  | thread {i : ℕ}
      {q : FuturesUnordered.State (PollStreamFut I) (Option (T × PollStreamFut I)) WrappedWaker A}
      (hcalls : callsDone s i = true) (hq : FuturesUnordered.Move s.inner_streams (.thread i) q) :
      Move next_step s (.thread i)
        { s with
          inner_streams := q
          calls := Function.update s.calls i (s.inner_streams.wakes (.thread i)) }
  | call {i : ℕ} {k : WrappedWaker} {ks : List WrappedWaker} (hcalls : s.calls i = k :: ks)
      (hi : s.poll_state.wakers (.thread i) = .idle) :
      Move next_step s (.call i)
        ({ s with calls := Function.update s.calls i ks }.wake_by_ref (.thread i) k)
  | wake_by_ref {i : ℕ} (k : WrappedWaker) (hi : s.poll_state.wakers (.thread i) = .idle) :
      Move next_step s (.wake_by_ref i k) (s.wake_by_ref (.thread i) k)
  | waker {c : Caller} {ps : Sys Caller W}
      (hs : SharedPollState.wakerStep s.poll_state c = some ps) :
      Move next_step s (.waker c) { s with poll_state := ps }

theorem Waker.eq_idle {pc : Waker W} (h : pc.isIdle = true) : pc = .idle := by
  cases pc with
  | idle => rfl
  | _ => cases h

variable {next_step : B → Option (FlowStep I T)} {s s' : State I T W A}

/-- The base is polled at the head of its loop. -/
theorem asks_base {i : ℕ} {r : PollNext B} (hm : Move next_step s (.base i r) s') :
    ∃ l, AsksBase s l := by
  cases hm with
  | baseReturn hb hpush hstep => exact ⟨_, hb⟩
  | baseContinue hb hpush hstep hi ho => exact ⟨_, hb⟩
  | baseEnds hb hpush => exact ⟨_, hb⟩
  | basePending hb hpush => exact ⟨_, hb⟩
  | baseUnwinds hb hr => exact ⟨_, hb⟩

theorem pushing_of_pollFree (h : pollFree s = true) : s.inner_streams.pushing = ∅ := by
  unfold pollFree at h
  rw [Bool.and_eq_true, decide_eq_true_iff] at h
  exact h.2

theorem idle_of_callsDone {i : ℕ} (h : callsDone s i = true) :
    s.calls i = [] ∧ s.poll_state.wakers (.thread i) = .idle := by
  unfold callsDone at h
  rw [Bool.and_eq_true, List.isEmpty_iff] at h
  exact ⟨h.1, Waker.eq_idle h.2⟩

theorem move_of_start {w : W} (i : ℕ) (hpc : s.pc = .start w) :
    Move next_step s (.own i) (s.start_polling w) := by
  unfold State.start_polling
  cases hw : Word.waking s.poll_state.state with
  | true =>
      rw [start_polling_of_waking _ hw, Sys.start_polling_of_waking hw]
      exact .spin i hpc hw
  | false =>
      rw [start_polling_of_not_waking _ hw, Sys.start_polling_of_not_waking hw]
      exact .claim i hpc hw

theorem move_of_baseHead {l : Locals T W} (i : ℕ) (hpc : s.pc = .base l)
    (hpush : s.inner_streams.pushing = ∅) (hs : s.baseHead l = some s') :
    Move next_step s (.own i) s' := by
  unfold State.baseHead at hs
  split at hs
  · split at hs
    · rename_i hleave
      cases hs
      cases hdone : s.is_stream_done with
      | true => exact .baseDone i hpc hdone hpush
      | false =>
          rw [hdone, Bool.or_false] at hleave
          exact .baseLimit i hpc hleave hdone hpush
    · cases hs
  · rename_i hneed
    cases hs
    refine .baseSkip i hpc ?_ hpush
    rw [Bool.eq_false_iff, ne_eq, need_iff]
    exact hneed

theorem move_of_baseBody {l : Locals T W} {i : ℕ} {r : PollNext B} (hb : AsksBase s l)
    (hpush : s.inner_streams.pushing = ∅) (hs : s.pollBase.baseBody next_step l i r = some s') :
    Move next_step s (.base i r) s' := by
  cases r with
  | pending =>
      cases hs
      exact .basePending hb hpush
  | unwound =>
      cases hs
      exact .baseUnwinds hb (Or.inl rfl)
  | ready item =>
      cases item with
      | none =>
          cases hs
          exact .baseEnds hb hpush
      | some item =>
          unfold State.baseBody at hs
          dsimp only at hs
          split at hs
          · rename_i x hstep
            cases hs
            exact .baseReturn hb hpush hstep
          · rename_i inner_stream hstep
            obtain ⟨u, hu, rfl⟩ := Option.map_eq_some_iff.mp hs
            obtain ⟨q, hq, rfl⟩ := Option.map_eq_some_iff.mp hu
            cases FuturesUnordered.move_of_step hq with
            | push fut hi ho => exact .baseContinue hb hpush hstep hi ho
          · rename_i hstep
            cases hs
            exact .baseUnwinds hb (Or.inr ⟨item, rfl, hstep⟩)

theorem move_of_innerBody {l : Locals T W} {lv : FuturesUnordered.Locals WrappedWaker} {i : ℕ}
    {r : PollNext (Option (T × PollStreamFut I))} (hb : BucketReturns s l lv r)
    (hs : { s with inner_streams := s.inner_streams.ret lv r }.innerBody l i r = some s') :
    Move next_step s (.own i) s' := by
  cases r with
  | pending =>
      cases hs
      exact .innerNone i hb (Or.inr rfl)
  | unwound =>
      cases hs
      exact .innerUnwinds i hb
  | ready o =>
      cases o with
      | none =>
          cases hs
          exact .innerNone i hb (Or.inl rfl)
      | some o =>
          cases o with
          | none =>
              cases hs
              exact .innerEnd i hb
          | some o =>
              obtain ⟨x, fut⟩ := o
              obtain ⟨u, hu, rfl⟩ := Option.map_eq_some_iff.mp hs
              obtain ⟨q, hq, rfl⟩ := Option.map_eq_some_iff.mp hu
              cases FuturesUnordered.move_of_step hq with
              | push fut hi ho => exact .innerItem hb hi

theorem move_of_stepOwn {i : ℕ} (hpush : s.inner_streams.pushing = ∅)
    (hs : stepOwn s i = some s') : Move next_step s (.own i) s' := by
  unfold stepOwn at hs
  split at hs
  · rename_i w hpc
    cases hs
    exact move_of_start i hpc
  · rename_i l hpc
    cases hs
    unfold State.replace_waker
    split
    · rename_i k w hp
      exact .replace i hpc hp
    · rename_i hp
      exact .replaced i hpc hp
  · rename_i l hpc
    exact move_of_baseHead i hpc hpush hs
  · rename_i l hpc
    unfold State.innerHead at hs
    split at hs
    · rename_i hneed
      obtain ⟨u, hu, rfl⟩ := Option.map_eq_some_iff.mp hs
      obtain ⟨q, hq, rfl⟩ := Option.map_eq_some_iff.mp hu
      cases FuturesUnordered.move_of_step hq with
      | poll_next w ho hp => exact .innerPoll i hpc ((need_iff .inner_streams).mpr hneed) ho hp
    · rename_i hneed
      cases hs
      refine .innerSkip i hpc ?_
      rw [Bool.eq_false_iff, ne_eq, need_iff]
      exact hneed
  · rename_i l hpc
    split at hs
    · rename_i lv r ho
      exact move_of_innerBody ⟨hpc, ho⟩ hs
    · cases hs
  · rename_i l hpc
    cases hs
    exact .stop i hpc hpush
  · rename_i w hpc
    cases hs
    exact .wake i hpc
  · cases hs

/-- **Inversion.** Every step is a move. -/
theorem move_of_step {a : Act B I T W} (hs : step next_step s a = some s') :
    Move next_step s a s' := by
  cases a with
  | poll_next w =>
      simp only [step] at hs
      split at hs
      · rename_i hpc
        cases hs
        exact .poll_next w hpc
      · cases hs
  | own i =>
      simp only [step, Option.ite_none_right_eq_some] at hs
      exact move_of_stepOwn (pushing_of_pollFree hs.1) hs.2
  | base i r =>
      simp only [step, Option.ite_none_right_eq_some] at hs
      obtain ⟨hfree, hs⟩ := hs
      unfold stepBase at hs
      split at hs
      · rename_i l hpc
        split at hs
        · rename_i hask
          obtain ⟨hneed, hroom, hrunning⟩ := hask
          exact move_of_baseBody ⟨hpc, (need_iff .stream).mpr hneed, hroom, hrunning⟩
            (pushing_of_pollFree hfree) hs
        · cases hs
      · cases hs
  | inner r =>
      simp only [step, Option.ite_none_right_eq_some] at hs
      obtain ⟨-, hs⟩ := hs
      unfold stepStream at hs
      split at hs
      · rename_i lv t ho
        split at hs
        · rename_i fut hf
          cases hs
          exact .stream r ho hf
        · cases hs
      · cases hs
  | owner =>
      simp only [step, Option.ite_none_right_eq_some] at hs
      obtain ⟨-, hs⟩ := hs
      obtain ⟨u, hu, rfl⟩ := Option.map_eq_some_iff.mp hs
      obtain ⟨q, hq, rfl⟩ := Option.map_eq_some_iff.mp hu
      exact .owner (FuturesUnordered.move_of_step hq)
  | wakeTask i t =>
      simp only [step, Option.ite_none_right_eq_some] at hs
      obtain ⟨hcalls, hs⟩ := hs
      obtain ⟨q, hq, rfl⟩ := Option.map_eq_some_iff.mp hs
      exact .wakeTask hcalls (FuturesUnordered.move_of_step hq)
  | thread i =>
      simp only [step, Option.ite_none_right_eq_some] at hs
      obtain ⟨hcalls, hs⟩ := hs
      obtain ⟨u, hu, rfl⟩ := Option.map_eq_some_iff.mp hs
      obtain ⟨q, hq, rfl⟩ := Option.map_eq_some_iff.mp hu
      exact .thread hcalls (FuturesUnordered.move_of_step hq)
  | call i =>
      simp only [step] at hs
      split at hs
      · cases hs
      · rename_i k ks hcalls
        obtain ⟨hi, hs⟩ := Option.ite_none_right_eq_some.mp hs
        cases hs
        exact .call hcalls (Waker.eq_idle hi)
  | wake_by_ref i k =>
      simp only [step, Option.ite_none_right_eq_some, Option.some.injEq] at hs
      obtain ⟨⟨hcalls, -⟩, rfl⟩ := hs
      exact .wake_by_ref k (idle_of_callsDone hcalls).2
  | waker c =>
      obtain ⟨ps, hps, rfl⟩ := Option.map_eq_some_iff.mp hs
      exact .waker hps
  | ret =>
      simp only [step] at hs
      split at hs
      · rename_i w r hpc
        cases hs
        exact .ret hpc
      · cases hs

end TokioStreamUtil.FlattenUnordered
