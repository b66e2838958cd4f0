/-
First come, first served.

A system keeps a line when every step puts what joins at the back and takes what it serves
from the front (`KeepsLine`). Over a run, those in line followed by those that join are
those that are served followed by those still in line; so the one in place `n` is the one
served `n`-th, whoever joins behind it.

Calls of a service are another matter: each one serves somebody, or is cut short. A rank
that is at most one between calls turns that into a bound on the number of calls.
-/
import TokioStreamUtil.Lib.Transition
import Mathlib.Data.List.Basic

set_option autoImplicit false

namespace Transition

variable {σ α β : Type*}

/-- What the steps of the run from `s` give out, in their order. -/
def emitted (step : σ → α → Option σ) (f : σ → α → List β) : σ → List α → List β
  | _, [] => []
  | s, a :: ls => f s a ++ ((step s a).map fun s' => emitted step f s' ls).getD []

theorem emitted_cons {step : σ → α → Option σ} (f : σ → α → List β) {s s' : σ} {a : α}
    (h : step s a = some s') (ls : List α) :
    emitted step f s (a :: ls) = f s a ++ emitted step f s' ls := by
  rw [emitted, h, Option.map_some, Option.getD_some]

theorem count_cons {step : σ → α → Option σ} (counted : σ → α → Bool) {s s' : σ} {a : α}
    (h : step s a = some s') (ls : List α) :
    count step counted s (a :: ls) =
      (if counted s a then 1 else 0) + count step counted s' ls := by
  rw [count, h, Option.map_some, Option.getD_some]

/-- Under the invariant `I`, what joins in a step joins at the back of the line, and what is
served is served from the front. -/
structure KeepsLine (step : σ → α → Option σ) (I : σ → Prop) (line : σ → List β)
    (joins serves : σ → α → List β) : Prop where
  inv : ∀ {s a s'}, I s → step s a = some s' → I s'
  line : ∀ {s a s'}, I s → step s a = some s' → line s ++ joins s a = serves s a ++ line s'

namespace KeepsLine

variable {step : σ → α → Option σ} {I : σ → Prop} {line : σ → List β} {joins serves : σ → α → List β}
  {s s' : σ} {ls : List α} {x : β} {n : ℕ}

/-- Nobody is lost, and nobody is overtaken. -/
theorem run (h : KeepsLine step I line joins serves) (hs : I s)
    (hrun : Transition.run step s ls = some s') :
    line s ++ emitted step joins s ls = emitted step serves s ls ++ line s' := by
  induction ls generalizing s with
  | nil =>
      rw [run_nil, Option.some.injEq] at hrun
      simp [emitted, hrun]
  | cons a ls ih =>
      rw [run_cons, Option.bind_eq_some_iff] at hrun
      obtain ⟨s₁, ha, hrun⟩ := hrun
      rw [emitted_cons joins ha, emitted_cons serves ha]
      calc line s ++ (joins s a ++ emitted step joins s₁ ls)
          = (line s ++ joins s a) ++ emitted step joins s₁ ls := (List.append_assoc ..).symm
        _ = serves s a ++ (line s₁ ++ emitted step joins s₁ ls) := by
            rw [h.line hs ha, List.append_assoc]
        _ = serves s a ++ emitted step serves s₁ ls ++ line s' := by
            rw [ih (h.inv hs ha) hrun, List.append_assoc]

/-- The one in place `n` is served when `n` have been served before. -/
theorem served (h : KeepsLine step I line joins serves) (hs : I s)
    (hrun : Transition.run step s ls = some s') (hx : (line s)[n]? = some x)
    (hn : n < (emitted step serves s ls).length) : (emitted step serves s ls)[n]? = some x := by
  have hlt : n < (line s).length := (List.getElem?_eq_some_iff.mp hx).1
  calc (emitted step serves s ls)[n]?
      = (emitted step serves s ls ++ line s')[n]? := (List.getElem?_append_left hn).symm
    _ = (line s ++ emitted step joins s ls)[n]? := by rw [h.run hs hrun]
    _ = some x := (List.getElem?_append_left hlt).trans hx

/-- As long as the one in place `n` is not served, those served are the first ones before it. -/
theorem waits (h : KeepsLine step I line joins serves) (hs : I s)
    (hrun : Transition.run step s ls = some s') (hx : (line s)[n]? = some x)
    (hn : (emitted step serves s ls).length ≤ n) :
    emitted step serves s ls <+: (line s).take n := by
  have hlt : n < (line s).length := (List.getElem?_eq_some_iff.mp hx).1
  have hpre : emitted step serves s ls <+: line s ++ emitted step joins s ls :=
    ⟨line s', (h.run hs hrun).symm⟩
  have htake : (line s).take n <+: line s ++ emitted step joins s ls :=
    (List.take_prefix n (line s)).trans (List.prefix_append _ _)
  exact List.prefix_of_prefix_length_le hpre htake (by rw [List.length_take]; omega)

end KeepsLine

/-- When the steps that are counted are paid for by what is given out, by the steps that are
cut short, and by a rank, then so are those of a run. -/
theorem count_le_emitted {step : σ → α → Option σ} {I : σ → Prop} (f : σ → α → List β)
    (counted cut : σ → α → Bool) (rank : σ → ℕ)
    (hstep : ∀ s a s', I s → step s a = some s' → I s' ∧
      rank s + (if counted s a then 1 else 0) ≤
        (f s a).length + (if cut s a then 1 else 0) + rank s')
    {ls : List α} {s s' : σ} (hs : I s) (hrun : run step s ls = some s') :
    rank s + count step counted s ls ≤
      (emitted step f s ls).length + count step cut s ls + rank s' := by
  induction ls generalizing s with
  | nil =>
      rw [run_nil, Option.some.injEq] at hrun
      simp [emitted, count, hrun]
  | cons a ls ih =>
      rw [run_cons, Option.bind_eq_some_iff] at hrun
      obtain ⟨s₁, ha, hrun⟩ := hrun
      obtain ⟨hs₁, hle⟩ := hstep s a s₁ hs ha
      have hrest := ih hs₁ hrun
      rw [count_cons counted ha, count_cons cut ha, emitted_cons f ha, List.length_append]
      omega

end Transition
