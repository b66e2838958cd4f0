/-
`FusedStream`, for every adaptor that implements it.

For `TryBuffered` the flag is that of the base with `is_empty` of the queue. The queue may
be empty while a task that finished earlier is still on its way into the ready to run
queue; a call that meets it there returns `Pending`, under the flag.
-/
import TokioStreamUtil.Lib.FusedStack
import TokioStreamUtil.TryStream.Fused
import TokioStreamUtil.TryStream.BufferedEnd
import TokioStreamUtil.FlattenUnordered.Fused

set_option autoImplicit false

namespace TokioStreamUtil

open PollLoop (Source)
open Buffered (Watched Allowed)
open FlattenUnordered (WrappedWaker FlowStep)

/-! ## `TryBuffered` -/

namespace TryBuffered

variable {E T F W : Type} {A : AtomicWaker W}

/-- `FusedStream::is_terminated`. -/
def is_terminated (s : TryBuffered E T F W A) : Bool :=
  s.stream.is_terminated && FuturesOrdered.State.is_empty s.in_progress_queue

/-- The contract of `FusedStream`, in one state, but for a call made while a task is being
enqueued: that one may return `Pending`. -/
structure Fused (s : Watched (InProgressQueue.ordered F (Except E T) W A)) : Prop where
  stays : s.state.pc = .idle → is_terminated s.state = true →
    ∀ w s', Buffered.step s.state (.poll_next w) = some s' →
      Transition.Completes Buffered.step Buffered.Act.isRet
        (Buffered.Act.ofPoll FuturesOrdered.Act.ofCall)
        (fun _ a => a.ofPoll FuturesOrdered.Act.ofCall) (fun e => is_terminated e = true)
        (fun e => ∃ r, e.pc = .done r ∧ (r = .ready none ∨
          (r = .pending ∧ InProgressQueue.orderedEnqueues s.state.in_progress_queue))) s'
  ended : s.state.pc = .idle → (s.calls.getLast?.map Buffered.Call.result) = some (.ready none) →
    is_terminated s.state = true

/-- Between calls an empty queue manages nothing. -/
theorem is_empty_iff {Agrees : F → Except E T → Prop} {futs : List F} {outs : List (Except E T)}
    {q : FuturesOrdered.State F (Except E T) W A} (h : q.Delivery Agrees futs outs) :
    q.is_empty = true ↔ q.len = 0 := by
  obtain ⟨d, -, hrel⟩ := h.deque
  have hsound : q.in_progress_queue.Sound := ⟨hrel.inv, hrel.ledger⟩
  unfold FuturesOrdered.State.is_empty FuturesOrdered.State.len
  rw [Bool.and_eq_true_iff, Nat.add_eq_zero_iff, hsound.is_empty_iff, List.isEmpty_iff,
    ← List.length_eq_zero_iff]
  rfl

/-- The flag stays up through a call made under it. -/
theorem is_terminated_of_passes {calm : Prop} {s : TryBuffered E T F W A}
    (h : s.Passes InProgressQueue.orderedBusy FuturesOrdered.State.Drained calm) :
    is_terminated s = true := by
  have hset := h.queue.set.empty
  have houtputs := MaxHeap.elems_of_peek_none h.queue.outputs
  unfold is_terminated FuturesOrdered.State.is_empty
  rw [h.ended, hset, houtputs]
  rfl

/-- **The contract of `TryBuffered`**, in every state of every run in which nothing unwinds. -/
theorem fused_of_run (n : Option ℕ)
    {ls : List (Buffered.Act (InProgressQueue.ordered F (Except E T) W A))}
    {s : Watched (InProgressQueue.ordered F (Except E T) W A)}
    (hallowed : Transition.Along Watched.step (Allowed InProgressQueue.orderedPolls
      InProgressQueue.orderedOverflows fun _ _ => True) (Watched.new _ n) ls)
    (hrun : Transition.run Watched.step (Watched.new _ n) ls = some s) : Fused s := by
  have hQ := InProgressQueue.ordered_delivers (W := W) (A := A) fun (_ : F) (_ : Except E T) => True
  have hdrains := InProgressQueue.ordered_drains (W := W) (A := A)
    fun (_ : F) (_ : Except E T) => True
  have hsound := Watched.Sound.of_run hQ hallowed hrun
  have hquiet : s.state.pc = .idle →
      (InProgressQueue.ordered F (Except E T) W A).quiet s.state.in_progress_queue = true :=
    fun hpc => hsound.quiet (by rw [hpc]; rfl)
  have hbusy : s.state.pc = .idle →
      InProgressQueue.orderedBusy s.state.in_progress_queue = false := by
    intro hpc
    rw [hsound.busy, hpc]
    rfl
  refine ⟨?_, ?_⟩
  · intro hpc hterm w s' hs'
    obtain ⟨hended, hempty⟩ := Bool.and_eq_true_iff.mp hterm
    cases Buffered.move_of_step hs' with
    | poll_next w hpc' =>
        have hpasses := Buffered.State.Passes.begin hdrains hsound.queue (hbusy hpc) (hquiet hpc)
          hended ((is_empty_iff hsound.queue).mp hempty) w
        refine (hpasses.completes hdrains).imp (fun e he => is_terminated_of_passes he) ?_
        rintro e ⟨r, hr, hcases⟩
        exact ⟨r, hr, hcases.imp_right fun hpend => ⟨hpend.1, not_not.mp hpend.2⟩⟩
  · intro hpc hlast
    obtain ⟨c, hc, hnone⟩ := Option.map_eq_some_iff.mp hlast
    obtain ⟨hended, hlen⟩ := hsound.finished ⟨c, List.mem_of_getLast? hc, hnone⟩
    have hempty := hQ.len_eq hsound.queue (hbusy hpc)
    refine Bool.and_eq_true_iff.mpr ⟨hended, (is_empty_iff hsound.queue).mpr ?_⟩
    show (InProgressQueue.ordered F (Except E T) W A).len s.state.in_progress_queue = 0
    omega

end TryBuffered

/-! ## All of them -/

/-- **The contract of `FusedStream`.** A call made under the flag comes to its end, returns
`Ready(None)` and leaves the flag up, and the flag is up after every call that returned
`Ready(None)`. -/
theorem fused_stream_contract :
    (∀ (φ Fut T E : Type) (call : φ → T → Fut × φ) (f : φ),
      (TryFilter.poll_next (E := E) call).machine.AlwaysFused (OneAtATime.source T E Bool)
        TryFilter.is_terminated (.ready none) (TryFilter.new f)) ∧
    (∀ (φ Fut T U E : Type) (call : φ → T → Fut × φ) (f : φ),
      (TryFilterMap.poll_next (E := E) (U := U) call).machine.AlwaysFused
        (OneAtATime.source T E (Except E (Option U))) TryFilterMap.is_terminated (.ready none)
        (TryFilterMap.new f)) ∧
    (∀ (φ Fut T U E : Type) (call : φ → T → Fut × φ) (f : φ),
      (AndThen.poll_next (E := E) (U := U) call).machine.AlwaysFused
        (OneAtATime.source T E (Except E U)) Chained.is_terminated (.ready none)
        (Chained.new f)) ∧
    (∀ (φ Fut T E E' : Type) (call : φ → E → Fut × φ) (f : φ),
      (OrElse.poll_next call : OneAtATime _ Fut T E (Except E' T) _).machine.AlwaysFused
        (OneAtATime.source T E (Except E' T)) Chained.is_terminated (.ready none)
        (Chained.new f)) ∧
    (∀ (φ Fut T E : Type) (call : φ → T → Fut × φ) (f : φ),
      (TryTakeWhile.poll_next (E := E) call).machine.AlwaysFused
        (OneAtATime.source T E (Except E Bool)) TryTakeWhile.is_terminated (.ready none)
        (TryTakeWhile.new f)) ∧
    (∀ (φ Fut T E : Type) (call : φ → T → Fut × φ) (f : φ),
      (TrySkipWhile.poll_next (E := E) call).machine.AlwaysFused
        (OneAtATime.source T E (Except E Bool)) TrySkipWhile.is_terminated (.ready none)
        (TrySkipWhile.new f)) ∧
    (∀ (I T E E' : Type) (into : E → E'),
      (TryFlatten.machine T into).AlwaysFused (TryFlatten.source I T E E')
        TryFlatten.is_terminated (.ready none) (TryFlatten.new I)) ∧
    (∀ (φ Fut S T E : Type) (call : φ → S → Fut × φ) (init : S) (f : φ),
      (TryUnfold.machine (T := T) (E := E) call).AlwaysFused (.absent _)
        (fun self _ => TryUnfold.is_terminated self) (.ready none) (TryUnfold.new init f)) ∧
    (∀ (T E : Type) (capacity : ℕ) (h : 0 < capacity),
      (TryChunks.machine T E).AlwaysFused (.absent _) (fun self _ => TryChunks.is_terminated self)
        (.ready none) (Chunks.new T E capacity h)) ∧
    (∀ (T E : Type) (capacity : ℕ) (h : 0 < capacity),
      (TryReadyChunks.machine T E).AlwaysFused (.absent _)
        (fun self _ => TryReadyChunks.is_terminated self) (.ready none) (Chunks.new T E capacity h)) ∧
    (∀ (B I T W : Type) (A : AtomicWaker WrappedWaker)
      (next_step : B → Option (FlowStep I T)) (limit : Option ℕ) ls s,
      (∀ a ∈ ls, a.unwinds next_step = false) →
      Transition.run (FlattenUnordered.step next_step)
        (FlattenUnordered.State.new I T W A limit) ls = some s → s.Fused next_step) ∧
    (∀ (E T F W : Type) (A : AtomicWaker W) (n : Option ℕ) ls s,
      Transition.Along Watched.step (Allowed InProgressQueue.orderedPolls
        InProgressQueue.orderedOverflows fun _ _ => True)
        (Watched.new (InProgressQueue.ordered F (Except E T) W A) n) ls →
      Transition.run Watched.step (Watched.new _ n) ls = some s → TryBuffered.Fused s) :=
  ⟨fun _ _ _ _ call _ => (TryFilter.fuses call).machine.always rfl,
    fun _ _ _ _ _ call _ => (TryFilterMap.fuses call).machine.always trivial,
    fun _ _ _ _ _ call _ => (AndThen.fuses call).machine.always trivial,
    fun _ _ _ _ _ call _ => (OrElse.fuses call).machine.always trivial,
    fun _ _ _ _ call _ => (TryTakeWhile.fuses call).machine.always rfl,
    fun _ _ _ _ call _ => (TrySkipWhile.fuses call).machine.always ⟨rfl, fun _ => rfl⟩,
    fun _ _ _ _ into => (TryFlatten.fuses into).always trivial,
    fun _ _ _ _ _ call _ _ => (TryUnfold.fuses call).always fun hne => absurd rfl hne,
    fun T E _ _ => (TryChunks.fuses T E).always nofun,
    fun T E _ _ => (TryReadyChunks.fuses T E).always nofun,
    fun _ _ _ _ _ _ limit _ _ hunwind hrun => FlattenUnordered.fused_of_run limit hunwind hrun,
    fun _ _ _ _ _ n _ _ hallowed hrun => TryBuffered.fused_of_run n hallowed hrun⟩

/-- Both futures are woken while they complete. One waker has enqueued its task, the other
is overtaken inside its enqueue. -/
def lateWaker : List (Buffered.Act (InProgressQueue.ordered ℕ (Except ℕ ℕ) Unit (.cell Unit))) :=
  List.flatten [
    [.poll_next (), .base 0 (.ready (some (.ok 5)))], List.replicate 4 (.queue (.thread 0)),
    [.base 0 (.ready (some (.ok 6)))], List.replicate 4 (.queue (.thread 0)),
    [.base 0 (.ready none), .queue .own], List.replicate 7 (.queue .owner),
    [.queue (.wake 1 0), .queue (.thread 1), .queue (.thread 1), .queue (.polled (.ready (.ok 5))),
      .queue .owner, .queue .owner, .queue .own, .own, .ret, .poll_next (), .own, .queue .own],
    List.replicate 11 (.queue .owner),
    [.queue (.wake 2 1), .queue (.thread 2), .queue (.thread 2), .queue (.polled (.ready (.ok 6))),
      .queue .owner, .queue .owner, .queue .own, .own, .ret],
    List.replicate 3 (.queue (.thread 1)), List.replicate 2 (.queue (.thread 2))]

/-- A `TryFilter` refuses its only item, and the base ends. -/
def refusesAll : List (PollLoop.Act Unit (OneAtATime.Answer ℕ ℕ Bool)) :=
  [.call (), .answer (.base (.ready (some (.ok 5)))), .answer (.future (.ready false)),
    .answer (.base (.ready none))]

/-- The flags of a `TryBuffered` with a late waker and of that `TryFilter` are up. -/
theorem fused_stream_contract_late_waker :
    (∃ s, Transition.run Watched.step (Watched.new _ none) lateWaker = some s ∧
      s.state.pc = .idle ∧ TryBuffered.is_terminated s.state = true ∧ TryBuffered.Fused s) ∧
    ∃ (call : ℕ → ℕ → ℕ × ℕ) (s : _),
      (TryFilter.poll_next call).machine.run (TryFilter.new 0) refusesAll = some s ∧
      PollLoop.results s.calls = [.ready none] ∧
      s.Terminated (OneAtATime.source ℕ ℕ Bool) TryFilter.is_terminated ∧
      PollLoop.Fused (TryFilter.poll_next call).machine (OneAtATime.source ℕ ℕ Bool)
        TryFilter.is_terminated (.ready none) s := by
  obtain ⟨hfilter, -, -, -, -, -, -, -, -, -, -, hbuffered⟩ := fused_stream_contract
  constructor
  · have hrun : (Transition.run Watched.step
        (Watched.new (InProgressQueue.ordered ℕ (Except ℕ ℕ) Unit (.cell Unit)) none)
        lateWaker).map (fun s => (s.state.pc, TryBuffered.is_terminated s.state)) =
        some (.idle, true) := rfl
    obtain ⟨s, hs, hat⟩ := Option.map_eq_some_iff.mp hrun
    obtain ⟨hpc, hterm⟩ := Prod.mk.inj hat
    exact ⟨s, hs, hpc, hterm, hbuffered ℕ ℕ ℕ Unit (.cell Unit) none lateWaker s
      (Transition.along_of_isSome (by decide +kernel)) hs⟩
  · have hrun : ((TryFilter.poll_next (E := ℕ) fun (n item : ℕ) => (item, n + 1)).machine.run
        (TryFilter.new 0) refusesAll).map (fun s => (PollLoop.results s.calls,
          TryFilter.is_terminated s.self (s.ended (OneAtATime.source ℕ ℕ Bool)))) =
        some ([.ready none], true) := rfl
    obtain ⟨s, hs, hat⟩ := Option.map_eq_some_iff.mp hrun
    obtain ⟨hresults, hterm⟩ := Prod.mk.inj hat
    exact ⟨_, s, hs, hresults, hterm,
      hfilter ℕ ℕ ℕ ℕ _ 0 refusesAll s (Transition.along_of_isSome rfl) hs⟩

/-- The next call. -/
def nextCall : List (Buffered.Act (InProgressQueue.ordered ℕ (Except ℕ ℕ) Unit (.cell Unit))) :=
  [.poll_next (), .own, .queue .own] ++ List.replicate 6 (.queue .owner) ++ [.queue .own, .own, .ret]

/-- Under the flag of `TryBuffered`, the next call may return `Pending`. -/
theorem try_buffered_pending_under_flag :
    ¬ ∀ (n : Option ℕ) ls₁ ls₂
      (s₁ s₂ : Watched (InProgressQueue.ordered ℕ (Except ℕ ℕ) Unit (.cell Unit))) r,
      Transition.Along Watched.step (Allowed InProgressQueue.orderedPolls
        InProgressQueue.orderedOverflows fun _ _ => True) (Watched.new _ n) (ls₁ ++ ls₂) →
      Transition.run Watched.step (Watched.new _ n) ls₁ = some s₁ →
      Transition.run Watched.step s₁ ls₂ = some s₂ → s₁.state.pc = .idle →
      TryBuffered.is_terminated s₁.state = true →
      s₂.calls.map Buffered.Call.result = s₁.calls.map Buffered.Call.result ++ [r] →
      r = .ready none := by
  intro hclaim
  have hfirst : (Transition.run Watched.step
      (Watched.new (InProgressQueue.ordered ℕ (Except ℕ ℕ) Unit (.cell Unit)) none)
      lateWaker).map (fun s => (s.state.pc, TryBuffered.is_terminated s.state,
        s.calls.map Buffered.Call.result)) =
      some (.idle, true, [.ready (some (.ok 5)), .ready (some (.ok 6))]) := rfl
  have hboth : (Transition.run Watched.step
      (Watched.new (InProgressQueue.ordered ℕ (Except ℕ ℕ) Unit (.cell Unit)) none)
      (lateWaker ++ nextCall)).map (fun s => s.calls.map Buffered.Call.result) =
      some [.ready (some (.ok 5)), .ready (some (.ok 6)), .pending] := rfl
  obtain ⟨s₁, hs₁, hat⟩ := Option.map_eq_some_iff.mp hfirst
  obtain ⟨s₂, hs₂, hresults⟩ := Option.map_eq_some_iff.mp hboth
  simp only [Prod.mk.injEq] at hat
  obtain ⟨hpc, hterm, hbefore⟩ := hat
  obtain ⟨s, hs, hs₂⟩ := Transition.run_append_eq_some.mp hs₂
  rw [hs₁] at hs
  cases hs
  have hbad := hclaim none lateWaker nextCall s₁ s₂ .pending
    (Transition.along_of_isSome (by decide +kernel)) hs₁ hs₂ hpc hterm
    (by rw [hresults, hbefore]; rfl)
  cases hbad

end TokioStreamUtil
