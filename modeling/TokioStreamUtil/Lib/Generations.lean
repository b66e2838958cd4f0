/-
Machines that are replaced while they are still in use.

The owner of a machine closes it and has a new one from then on, while others may go on
with the old one. `Generations` keeps every machine there has been. What holds of a new
machine and is kept by its steps holds of each of them.
-/
import TokioStreamUtil.Lib.Transition

set_option autoImplicit false

/-- The machine its owner has, and those that it has replaced, the last one first. -/
structure Generations (σ : Type*) where
  current : σ
  replaced : List σ
  /-- The machine the owner has is being closed to be replaced. -/
  clearing : Bool

namespace Generations

variable {σ α : Type*}

/-- Every machine there has been. -/
def all (G : Generations σ) : List σ := G.current :: G.replaced

/-- A step of the machine, a step that one of its predecessors still takes, and `clear` with
its two halves: close the machine, put a new one in its place. -/
inductive Act (α : Type*) where
  | current (a : α)
  | replaced (k : ℕ) (a : α)
  | clear
  | renew

/-- The first machine. -/
def start (new : σ) : Generations σ where
  current := new
  replaced := []
  clearing := false

/-- One step, of a machine that is closed by the label `close` and may be replaced once it
is `closed`. -/
def step (next : σ → α → Option σ) (new : σ) (close : α) (closed : σ → Bool) (G : Generations σ) :
    Act α → Option (Generations σ)
  | .current a => (next G.current a).map fun s => { G with current := s }
  | .replaced k a =>
      match G.replaced[k]? with
      | some s => (next s a).map fun s' => { G with replaced := G.replaced.set k s' }
      | none => none
  | .clear => (next G.current close).map fun s => { G with current := s, clearing := true }
  | .renew =>
      if G.clearing ∧ closed G.current then
        some { current := new, replaced := G.current :: G.replaced, clearing := false }
      else none

variable {next : σ → α → Option σ} {new : σ} {close : α} {closed : σ → Bool}
  {G G' : Generations σ}

/-- A step moves one machine by a step of its own, or begins a new one. -/
theorem mem_all_of_step {a : Act α} (hs : step next new close closed G a = some G') {s' : σ}
    (hmem : s' ∈ G'.all) : s' ∈ G.all ∨ s' = new ∨ ∃ s ∈ G.all, ∃ b, next s b = some s' := by
  unfold all at hmem ⊢
  cases a with
  | current a =>
      simp only [step, Option.map_eq_some_iff] at hs
      obtain ⟨s₁, hs₁, rfl⟩ := hs
      rcases List.mem_cons.mp hmem with rfl | hmem
      · exact Or.inr (Or.inr ⟨G.current, List.mem_cons_self, a, hs₁⟩)
      · exact Or.inl (List.mem_cons_of_mem _ hmem)
  | replaced k a =>
      simp only [step] at hs
      cases hk : G.replaced[k]? with
      | none => rw [hk] at hs; cases hs
      | some s =>
          rw [hk] at hs
          simp only [Option.map_eq_some_iff] at hs
          obtain ⟨s₁, hs₁, rfl⟩ := hs
          have hold : s ∈ G.replaced := List.mem_of_getElem? hk
          rcases List.mem_cons.mp hmem with rfl | hmem
          · exact Or.inl List.mem_cons_self
          · rcases List.mem_or_eq_of_mem_set hmem with hmem | rfl
            · exact Or.inl (List.mem_cons_of_mem _ hmem)
            · exact Or.inr (Or.inr ⟨s, List.mem_cons_of_mem _ hold, a, hs₁⟩)
  | clear =>
      simp only [step, Option.map_eq_some_iff] at hs
      obtain ⟨s₁, hs₁, rfl⟩ := hs
      rcases List.mem_cons.mp hmem with rfl | hmem
      · exact Or.inr (Or.inr ⟨G.current, List.mem_cons_self, close, hs₁⟩)
      · exact Or.inl (List.mem_cons_of_mem _ hmem)
  | renew =>
      simp only [step, Option.ite_none_right_eq_some, Option.some.injEq] at hs
      obtain ⟨-, rfl⟩ := hs
      rcases List.mem_cons.mp hmem with rfl | hmem
      · exact Or.inr (Or.inl rfl)
      · exact Or.inl hmem

/-- What holds of a new machine and is kept by its steps holds of every machine there has
been. -/
theorem forall_of_reachable {I : σ → Prop} (hnew : I new)
    (hstep : ∀ s a s', I s → next s a = some s' → I s')
    (h : Transition.Reachable (step next new close closed) (start new) G) : ∀ s ∈ G.all, I s := by
  refine h.invariant (I := fun G => ∀ s ∈ G.all, I s) ?_ ?_
  · intro s hs
    rw [List.mem_singleton.mp hs]
    exact hnew
  · intro G a G' hall hs s' hmem
    rcases mem_all_of_step hs hmem with hold | rfl | ⟨s, hold, b, hb⟩
    · exact hall s' hold
    · exact hnew
    · exact hstep s b s' (hall s hold) hb

end Generations
