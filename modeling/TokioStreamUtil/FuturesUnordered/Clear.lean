/-
`clear`, and the sets it leaves behind.

`clear` is `*self = Self::new()`: the set is dropped where it stands and a new one takes
its place. Wakers of the old tasks may still be about, and a wake that has upgraded its
reference holds the old queue, so every set goes on beside its successors until its queue
is gone. `Sets` keeps them all.
-/
import TokioStreamUtil.Lib.Generations
import TokioStreamUtil.FuturesUnordered.References

set_option autoImplicit false

namespace TokioStreamUtil.FuturesUnordered

variable {F O W : Type} {A : AtomicWaker W}

/-- The set its owner has, and those that `clear` has replaced, the last one first.
`clearing` tells a drop in progress that is that of a `clear`. -/
abbrev Sets (F O W : Type) (A : AtomicWaker W) := Generations (State F O W A)

namespace Sets

def new : Sets F O W A := .start State.new

/-- A step of the set, a step that one of its predecessors still takes, and `clear` with
its two halves: drop the set, put a new one in its place. -/
abbrev Act (F O W : Type) := Generations.Act (FuturesUnordered.Act F O W)

/-- One step. The new set is there as soon as the old one has no task: the destructor of
the old queue may be `clear`'s own or that of a wake, and nobody waits for it here. -/
def step : Sets F O W A → Act F O W → Option (Sets F O W A) :=
  Generations.step FuturesUnordered.step State.new .drop fun s => s.owner.emptied

end Sets

/-! ## The theorem -/

/-- **Every owning reference is given back exactly once.** In every run of pushes, polls,
wakes, `clear` and the drop, for every set there has been: no reference is given back
twice; it is out as long as the task is linked, held, dropped, in the queue, in an enqueue
or just dequeued, and no longer; a task whose reference has been given back has no future;
once set and queue are gone every reference has been given back; a queue that outlives its
set is held by a wake; and the destructor of the queue meets no `Inconsistent`, does not
abort, stops only at an empty queue, and does stop. -/
theorem owning_reference_given_back_once (S : Sets F O W A)
    (h : Transition.Reachable Sets.step Sets.new S) : ∀ s ∈ S.all,
    (∀ t, s.hist.freed t ≤ 1) ∧
    (∀ t < s.fresh, s.hist.freed t = 0 ↔
      s.InAll t ∨ s.Held t ∨ s.Dropping t ∨ s.InQueue t ∨ (∃ i, s.Enqueueing i t) ∨ s.Taken t) ∧
    (∀ t, 0 < s.hist.freed t → (s.tasks t).future = none) ∧
    (s.owner = .gone → ∀ t < s.fresh, s.hist.freed t = 1) ∧
    s.owner ≠ .aborted ∧
    (s.owner = .dropped → s.holders ≠ ∅) ∧
    (s.owner = .dropQueue →
      s.ready.consumer ≠ .done .Inconsistent ∧
      (s.ready.consumer = .done .Empty → ∀ t, ¬s.InQueue t) ∧
      ∃ k s', Transition.run step s (List.replicate k .owner) = some s' ∧ s'.owner = .gone) := by
  intro s hs
  have hacc : s.Accounted :=
    Generations.forall_of_reachable State.Accounted.new (fun _ _ _ hI => hI.step) h s hs
  refine ⟨hacc.freed_le_one, fun t => hacc.freed_eq_zero_iff, fun t => hacc.future_of_freed,
    fun ho t => hacc.freed_of_gone ho, hacc.not_aborted, hacc.holders,
    fun ho => ?_⟩
  obtain ⟨q, hcall⟩ := hacc.undisturbed ho
  obtain ⟨l, hl⟩ := hacc.inv
  refine ⟨fun hc => (hcall.result hc).1 rfl, fun hc t hin => ?_,
    hl.dropQueue_ends hacc.queueDrop ho⟩
  have hchain := hcall.callChain
  rw [hc] at hchain
  have hstub : s.ready.chain = [.stub] := hchain
  unfold State.InQueue at hin
  rw [hstub] at hin
  simp at hin

/-- A pending future is woken on another thread, the set is cleared while that wake is on
its way into the queue, and the wake lets go of the old queue after a new future has been
pushed. -/
def clearedWhileWoken : List (Sets.Act Unit Unit Unit) :=
  List.flatten [
    [.current (.push 0 ())], List.replicate 4 (.current (.thread 0)),
    [.current (.poll_next ())], List.replicate 12 (.current .owner),
    [.current (.polled (.pending ()))], List.replicate 3 (.current .owner),
    [.current .ret, .current (.wake 1 0)], List.replicate 3 (.current (.thread 1)),
    [.clear], List.replicate 4 (.current .owner),
    [.renew, .current (.push 0 ())], List.replicate 5 (.replaced 0 (.thread 1)),
    List.replicate 10 (.replaced 0 .owner)]

theorem owning_reference_given_back_once_cleared_while_woken :
    ∃ (S : Sets Unit Unit Unit (AtomicWaker.cell Unit)) (s : State Unit Unit Unit _),
      Transition.run Sets.step Sets.new clearedWhileWoken = some S ∧ S.replaced = [s] ∧
        s.owner = .gone ∧ s.hist.freed 0 = 1 :=
  ⟨_, _, rfl, rfl, rfl,
    (owning_reference_given_back_once _ ⟨clearedWhileWoken, rfl⟩ _
      (List.mem_cons_of_mem _ List.mem_cons_self)).2.2.2.1 rfl 0 (by decide)⟩

end TokioStreamUtil.FuturesUnordered
