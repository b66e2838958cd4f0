/-
The limit of `FlattenUnordered` and of `TryFlattenUnordered`.

Both are machines around a `FlattenUnordered`, the one directly and the other with
translated answers, and what is said of them (`Limited`) is said once.
-/
import TokioStreamUtil.FlattenUnordered.Limit
import TokioStreamUtil.TryStream.TryFlattenUnordered

set_option autoImplicit false

namespace TokioStreamUtil

open FlattenUnordered
open TryFlattenUnordered (propagate)

variable {B I E E' T W : Type} {A : AtomicWaker WrappedWaker}

/-- A `FlattenUnordered` is itself. -/
theorem FlattenUnordered.wraps_self (next_step : B → Option (FlowStep I T)) :
    Wraps next_step (FlattenUnordered.step next_step)
      (fun s : FlattenUnordered.State I T W A => s) fun _ a => a :=
  ⟨fun _ _ => Option.map_id', fun _ => rfl, fun _ _ => rfl, fun _ r => ⟨r, rfl⟩,
    fun _ _ r => ⟨r, rfl⟩, fun _ _ => rfl, fun _ _ => rfl, fun _ _ => rfl⟩

namespace TryFlattenUnordered

/-- The wrappers hand on the end of the base, whether they have seen it before or not. -/
theorem label_ended (into : E → E') (s : State I E' T W A) (i : ℕ) :
    s.label into (.base i (.ready none)) = .base i (.ready none) := by
  unfold State.label
  dsimp only
  cases hstream : s.stream.is_terminated with
  | true => rw [NestedTryStreamIntoEither.poll_next_of_terminated into hstream]
  | false =>
      rw [NestedTryStreamIntoEither.poll_next_of_running into hstream]
      rfl

/-- A `TryFlattenUnordered` translates the answers. -/
theorem wraps_inner (into : E → E') :
    Wraps (T := Except E' T) PropagateBaseStreamError.next_step (step (I := I) (A := A) (W := W) into)
      State.inner (State.label into) := by
  refine ⟨fun s a => ?_, fun _ => rfl, fun _ _ => rfl, fun _ _ => ⟨_, rfl⟩, fun _ _ _ => ⟨_, rfl⟩,
    label_ended into, fun s a => ?_, fun s a => ?_⟩
  · unfold step
    rw [Option.map_map]
    exact Option.map_id'
  · cases a <;> rfl
  · cases a <;> rfl

/-- An error of the base is returned, converted. -/
theorem label_of_takes (into : E → E') {s s' : State I E' T W A}
    (hfused : s.stream.is_terminated = true → s.inner.is_stream_done = true) {i : ℕ}
    {item : Except E I} {x : Except E' T} (htake : takes (propagate into) item = some x)
    (hs : step into s (.base i (.ready (some item))) = some s') :
    ∃ item' : BaseStreamItem I E' T,
      s.label into (.base i (.ready (some item))) = .base i (.ready (some item')) ∧
        PropagateBaseStreamError.next_step item' = some (.Return x) := by
  obtain ⟨inner, hinner, -⟩ := Option.map_eq_some_iff.mp hs
  have hrunning := running_of_fused into hfused (FlattenUnordered.move_of_step hinner) i _ rfl
  cases item with
  | ok stream => cases htake
  | error e =>
      cases htake
      refine ⟨.Right (Single.new (.error (into e))), ?_, rfl⟩
      unfold State.label
      dsimp only
      rw [NestedTryStreamIntoEither.poll_next_of_running into hrunning]
      rfl

end TryFlattenUnordered

/-- **The bucket keeps its limit, and an item that is returned ends the call.** In
every state of every run of `FlattenUnordered`, with any flow controller, and of
`TryFlattenUnordered`, whoever unwinds: with a limit the bucket holds at most as many
streams, inside a call and between calls, and the base is polled only while it holds
fewer; the base is not polled after it has returned `None`; a call that takes an item
of the base that the flow controller returns comes to its end with this item, without
polling an inner stream, and if it still had the inner streams to poll, the need for
that is in the word until the next call takes it over. -/
theorem within_limit (next_step : B → Option (FlowStep I T)) (into : E → E') (limit : Option ℕ) :
    (∀ s : FlattenUnordered.State I T W A,
      Transition.Reachable (FlattenUnordered.step next_step) (.new I T W A limit) s →
      Limited (FlattenUnordered.step next_step) (fun s => s) (takes next_step) limit s) ∧
    ∀ s : TryFlattenUnordered.State I E' T W A,
      Transition.Reachable (TryFlattenUnordered.step into) (.new I E' T W A limit) s →
      Limited (TryFlattenUnordered.step into) TryFlattenUnordered.State.inner
        (takes (propagate into)) limit s := by
  refine ⟨fun s hreach => ?_, fun s hreach => ?_⟩
  · obtain ⟨hinv, hcapped⟩ := hreach.invariant
      (I := fun s => s.Inv ∧ s.Capped (limit.bind NonZeroUsize.new))
      ⟨State.Inv.new limit, capped_new limit⟩ fun s a s' h hs =>
        have hm := FlattenUnordered.move_of_step hs
        ⟨inv_move h.1 hm, capped_move h.1 h.2 hm⟩
    exact (wraps_self next_step).limited hinv hcapped fun i item x s' htake _ =>
      ⟨item, rfl, takes_eq htake⟩
  · obtain ⟨hinv, hcapped, hfused⟩ := hreach.invariant
      (I := fun s => s.inner.Inv ∧ s.inner.Capped (limit.bind NonZeroUsize.new) ∧
        (s.stream.is_terminated = true → s.inner.is_stream_done = true))
      ⟨State.Inv.new limit, capped_new limit, nofun⟩ fun s a s' h hs =>
        have hm := (TryFlattenUnordered.wraps_inner into).move hs
        ⟨inv_move h.1 hm, capped_move h.1 h.2.1 hm, TryFlattenUnordered.fused_step into h.2.2 hs⟩
    exact (TryFlattenUnordered.wraps_inner into).limited hinv hcapped fun i item x s' htake hs =>
      TryFlattenUnordered.label_of_takes into hfused htake hs

/-- A call that has taken a stream of the base, and can poll the base again. -/
def streamTaken : List (Act (Except ℕ Unit) Unit (Except (ℕ × Bool) ℕ) Unit) :=
  [.poll_next ()] ++ List.replicate 4 (.own 0) ++ [.base 0 (.ready (some (.ok ())))] ++
    List.replicate 4 (.thread 0)

theorem within_limit_stream_taken :
    (∃ s s₁ : FlattenUnordered.State Unit (Except (ℕ × Bool) ℕ) Unit (AtomicWaker.cell WrappedWaker),
      Transition.run (FlattenUnordered.step (propagate fun e => (e, true))) (.new _ _ _ _ (some 2))
        streamTaken = some s ∧
      FlattenUnordered.step (propagate fun e => (e, true)) s (.base 0 (.ready (some (.error 3)))) =
        some s₁ ∧
      Limited (FlattenUnordered.step (propagate fun e => (e, true))) (fun s => s)
        (takes (propagate fun e => (e, true))) (some 2) s) ∧
    ∃ s s₁ : TryFlattenUnordered.State Unit (ℕ × Bool) ℕ Unit (AtomicWaker.cell WrappedWaker),
      Transition.run (TryFlattenUnordered.step fun e => (e, true)) (.new _ _ _ _ _ (some 2))
        streamTaken = some s ∧
      TryFlattenUnordered.step (fun e => (e, true)) s (.base 0 (.ready (some (.error 3)))) = some s₁ ∧
      Limited (TryFlattenUnordered.step fun e => (e, true)) TryFlattenUnordered.State.inner
        (takes (propagate fun e => (e, true))) (some 2) s :=
  have hlimit := within_limit (A := AtomicWaker.cell WrappedWaker) (W := Unit)
    (propagate (I := Unit) (T := ℕ) fun e : ℕ => (e, true)) (fun e : ℕ => (e, true)) (some 2)
  have htry := within_limit (A := AtomicWaker.cell WrappedWaker) (W := Unit)
    (fun _ : ℕ => (none : Option (FlowStep Unit ℕ))) (fun e : ℕ => (e, true)) (some 2)
  ⟨⟨_, _, rfl, rfl, hlimit.1 _ ⟨streamTaken, rfl⟩⟩, ⟨_, _, rfl, rfl, htry.2 _ ⟨streamTaken, rfl⟩⟩⟩

end TokioStreamUtil
