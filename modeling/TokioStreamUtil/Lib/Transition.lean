/-
Labelled transition systems given by an executable step function.

`step s a = none` says that label `a` is not enabled in `s`. A run is a list of
labels, so a concrete run is evaluated rather than derived, and every statement
about all interleavings is a statement about all lists of labels.

The rules below are all that the developments built on top use: an invariant of
one step is an invariant of a run (`run_invariant`), the same for runs whose labels
are restricted (`run_invariant_of_labels`), what each step appends to a list the run
appends in order (`run_append_of_labels`), and a system whose steps are matched by
zero or more steps of another only reaches states whose image the other reaches
(`Reachable.map`). What is asked of each label in the state it is taken in is `Along`,
that something was done and not undone is `Since`, and that a call in progress comes to
its end is `Completes`.
-/
import Mathlib.Data.List.Basic
import Mathlib.Data.Option.Basic

set_option autoImplicit false

namespace Transition

variable {σ τ α β : Type*}

/-- The state after the labels `ls`, taken in order from `s`. -/
def run (step : σ → α → Option σ) : σ → List α → Option σ
  | s, [] => some s
  | s, a :: ls => (step s a).bind fun s' => run step s' ls

@[simp] theorem run_nil (step : σ → α → Option σ) (s : σ) : run step s [] = some s := rfl

@[simp] theorem run_cons (step : σ → α → Option σ) (s : σ) (a : α) (ls : List α) :
    run step s (a :: ls) = (step s a).bind fun s' => run step s' ls := rfl

theorem run_append (step : σ → α → Option σ) (s : σ) (l₁ l₂ : List α) :
    run step s (l₁ ++ l₂) = (run step s l₁).bind fun s' => run step s' l₂ := by
  induction l₁ generalizing s with
  | nil => rfl
  | cons a l₁ ih =>
      simp only [List.cons_append, run_cons, Option.bind_assoc]
      congr 1
      funext s'
      exact ih s'

/-- A run over `l₁ ++ l₂` is a run over `l₁` continued by one over `l₂`. -/
theorem run_append_eq_some {step : σ → α → Option σ} {s s'' : σ} {l₁ l₂ : List α} :
    run step s (l₁ ++ l₂) = some s'' ↔
      ∃ s', run step s l₁ = some s' ∧ run step s' l₂ = some s'' := by
  rw [run_append, Option.bind_eq_some_iff]

/-- A run that ends with the label `a`. -/
theorem run_concat_eq_some {step : σ → α → Option σ} {s s'' : σ} {ls : List α} {a : α} :
    run step s (ls ++ [a]) = some s'' ↔
      ∃ s', run step s ls = some s' ∧ step s' a = some s'' := by
  rw [run_append_eq_some]
  simp

/-! ## Invariants -/

/-- What every step with a label in `P` preserves, every run with labels in `P` preserves. -/
theorem run_invariant_of_labels {step : σ → α → Option σ} {I : σ → Prop} {P : α → Prop}
    (hstep : ∀ s a s', P a → I s → step s a = some s' → I s') :
    ∀ (ls : List α) (s s' : σ), (∀ a ∈ ls, P a) → I s → run step s ls = some s' → I s' := by
  intro ls
  induction ls with
  | nil =>
      intro s s' _ hs h
      rw [run_nil, Option.some.injEq] at h
      exact h ▸ hs
  | cons a ls ih =>
      intro s s'' hP hs h
      rw [run_cons, Option.bind_eq_some_iff] at h
      obtain ⟨s', h₁, h₂⟩ := h
      have ha : P a := hP a List.mem_cons_self
      have hls : ∀ b ∈ ls, P b := fun b hb => hP b (List.mem_cons_of_mem a hb)
      exact ih s' s'' hls (hstep s a s' ha hs h₁) h₂

/-- What every step preserves, every run preserves. -/
theorem run_invariant {step : σ → α → Option σ} {I : σ → Prop}
    (hstep : ∀ s a s', I s → step s a = some s' → I s') {ls : List α} {s s' : σ}
    (hs : I s) (h : run step s ls = some s') : I s' :=
  run_invariant_of_labels (P := fun _ => True) (fun s a s' _ => hstep s a s') ls s s'
    (fun _ _ => trivial) hs h

/-- An invariant that speaks of how many labels have been counted so far. -/
theorem run_invariant_counting {step : σ → α → Option σ} {I : σ → ℕ → Prop} (counted : α → Bool)
    (hstep : ∀ s n a s', I s n → step s a = some s' → I s' (n + if counted a then 1 else 0)) :
    ∀ {ls : List α} {s s' : σ} {n : ℕ}, I s n → run step s ls = some s' →
      I s' (n + ls.countP counted) := by
  intro ls
  induction ls with
  | nil =>
      intro s s' n hs h
      rw [run_nil, Option.some.injEq] at h
      exact h ▸ hs
  | cons a ls ih =>
      intro s s'' n hs h
      rw [run_cons, Option.bind_eq_some_iff] at h
      obtain ⟨s', h₁, h₂⟩ := h
      have hle := ih (hstep s n a s' hs h₁) h₂
      rw [List.countP_cons, Nat.add_comm (ls.countP counted), ← Nat.add_assoc]
      exact hle

/-- When each step appends to `f` what its label says, a run appends what its labels
say, in their order. `I` is an invariant that the steps may use. -/
theorem run_append_of_labels {step : σ → α → Option σ} {I : σ → Prop} {P : α → Prop}
    {f : σ → List β} {g : α → List β}
    (hstep : ∀ s a s', P a → I s → step s a = some s' → I s' ∧ f s' = f s ++ g a) :
    ∀ (ls : List α) (s s' : σ), (∀ a ∈ ls, P a) → I s → run step s ls = some s' →
      I s' ∧ f s' = f s ++ ls.flatMap g := by
  intro ls
  induction ls with
  | nil =>
      intro s s' _ hs h
      rw [run_nil, Option.some.injEq] at h
      subst h
      exact ⟨hs, (List.append_nil _).symm⟩
  | cons a ls ih =>
      intro s s'' hP hs h
      rw [run_cons, Option.bind_eq_some_iff] at h
      obtain ⟨s', h₁, h₂⟩ := h
      obtain ⟨hs', hf⟩ := hstep s a s' (hP a List.mem_cons_self) hs h₁
      obtain ⟨hs'', hf'⟩ := ih s' s'' (fun b hb => hP b (List.mem_cons_of_mem a hb)) hs' h₂
      refine ⟨hs'', ?_⟩
      rw [hf', hf, List.append_assoc, List.flatMap_cons]

/-! ## Labels that depend on the state -/

/-- Each label of the run from `s` is one that `P` allows in the state it is taken in. -/
def Along (step : σ → α → Option σ) (P : σ → α → Prop) : σ → List α → Prop
  | _, [] => True
  | s, a :: ls => P s a ∧ ∀ s', step s a = some s' → Along step P s' ls

/-- Where every label is allowed, every run is. -/
theorem along_of_forall {step : σ → α → Option σ} {P : σ → α → Prop} (hP : ∀ s a, P s a) (s : σ)
    (ls : List α) : Along step P s ls := by
  induction ls generalizing s with
  | nil => trivial
  | cons a ls ih => exact ⟨hP s a, fun s' _ => ih s'⟩

/-- That a concrete run is allowed can be evaluated. -/
theorem along_of_isSome {step : σ → α → Option σ} {P : σ → α → Prop} [∀ s a, Decidable (P s a)]
    {s : σ} {ls : List α} (h : (run (fun s a => if P s a then step s a else none) s ls).isSome) :
    Along step P s ls := by
  induction ls generalizing s with
  | nil => trivial
  | cons a ls ih =>
      rw [run_cons] at h
      by_cases ha : P s a
      · rw [if_pos ha] at h
        refine ⟨ha, fun s' hs' => ih ?_⟩
        rw [hs', Option.bind_some] at h
        exact h
      · rw [if_neg ha] at h
        cases h

/-- What every allowed step preserves, every run of allowed steps preserves. -/
theorem run_invariant_along {step : σ → α → Option σ} {I : σ → Prop} {P : σ → α → Prop}
    (hstep : ∀ s a s', P s a → I s → step s a = some s' → I s') {ls : List α} {s s' : σ}
    (hP : Along step P s ls) (hs : I s) (h : run step s ls = some s') : I s' := by
  induction ls generalizing s with
  | nil =>
      rw [run_nil, Option.some.injEq] at h
      exact h ▸ hs
  | cons a ls ih =>
      rw [run_cons, Option.bind_eq_some_iff] at h
      obtain ⟨s₁, h₁, h₂⟩ := h
      exact ih (hP.2 s₁ h₁) (hstep s a s₁ hP.1 hs h₁) h₂

/-! ## Since when -/

/-- A step that `P` allows has been taken, and none with a label in `Q` since. -/
def Since (step : σ → α → Option σ) (P : σ → α → Prop) (Q : α → Prop) (s : σ) (ls : List α) : Prop :=
  ∃ l₁ a l₂ s₁, ls = l₁ ++ a :: l₂ ∧ run step s l₁ = some s₁ ∧ P s₁ a ∧ ∀ b ∈ l₂, ¬Q b

theorem not_since_nil {step : σ → α → Option σ} {P : σ → α → Prop} {Q : α → Prop} {s : σ} :
    ¬Since step P Q s [] := by
  rintro ⟨l₁, a, l₂, -, hls, -⟩
  exact List.append_ne_nil_of_right_ne_nil l₁ (List.cons_ne_nil a l₂) hls.symm

/-- The last step is such a step, or one that does not undo it. -/
theorem since_concat {step : σ → α → Option σ} {P : σ → α → Prop} {Q : α → Prop} {s s' : σ}
    {ls : List α} (h : run step s ls = some s') (a : α) :
    Since step P Q s (ls ++ [a]) ↔ P s' a ∨ (Since step P Q s ls ∧ ¬Q a) := by
  constructor
  · rintro ⟨l₁, b, l₂, s₁, hls, hrun, hb, hl₂⟩
    rcases List.eq_nil_or_concat l₂ with rfl | ⟨l₃, c, rfl⟩
    · obtain ⟨rfl, hab⟩ := List.append_inj' hls rfl
      cases hab
      obtain rfl := Option.some.inj (hrun.symm.trans h)
      exact Or.inl hb
    · rw [List.concat_eq_append, ← List.cons_append, ← List.append_assoc] at hls
      obtain ⟨rfl, hac⟩ := List.append_inj' hls rfl
      cases hac
      rw [List.concat_eq_append] at hl₂
      refine Or.inr ⟨⟨l₁, b, l₃, s₁, rfl, hrun, hb, fun d hd => ?_⟩, ?_⟩
      · exact hl₂ d (List.mem_append_left _ hd)
      · exact hl₂ a (List.mem_append_right _ (List.mem_singleton_self a))
  · rintro (ha | ⟨⟨l₁, b, l₂, s₁, rfl, hrun, hb, hl₂⟩, ha⟩)
    · exact ⟨ls, a, [], s', rfl, h, ha, nofun⟩
    · refine ⟨l₁, b, l₂ ++ [a], s₁, by simp, hrun, hb, fun d hd => ?_⟩
      rcases List.mem_append.mp hd with hd | hd
      · exact hl₂ d hd
      · rw [List.mem_singleton.mp hd]
        exact ha

theorem Since.append {step : σ → α → Option σ} {P : σ → α → Prop} {Q : α → Prop} {s : σ}
    {ls ls' : List α} (h : Since step P Q s ls) (hls' : ∀ b ∈ ls', ¬Q b) :
    Since step P Q s (ls ++ ls') := by
  obtain ⟨l₁, a, l₂, s₁, rfl, hrun, ha, hl₂⟩ := h
  refine ⟨l₁, a, l₂ ++ ls', s₁, by simp, hrun, ha, fun b hb => ?_⟩
  rcases List.mem_append.mp hb with hb | hb
  · exact hl₂ b hb
  · exact hls' b hb

/-! ## Images of runs -/

/-- When each allowed step is a step of a second system between the images, an allowed
run is a run between the images. -/
theorem run_map {step : σ → α → Option σ} {step₂ : τ → β → Option τ} {P : σ → α → Prop} (f : σ → τ)
    (g : α → β) (hstep : ∀ s a, P s a → step₂ (f s) (g a) = (step s a).map f) {s : σ} {ls : List α}
    (hP : Along step P s ls) : run step₂ (f s) (ls.map g) = (run step s ls).map f := by
  induction ls generalizing s with
  | nil => rfl
  | cons a ls ih =>
      rw [List.map_cons, run_cons, run_cons, hstep s a hP.1]
      cases ha : step s a with
      | none => rfl
      | some s' => exact ih (hP.2 s' ha)

/-- When each step between images comes from an allowed step, so does each run. -/
theorem run_lift {step : σ → α → Option σ} {step₂ : τ → β → Option τ} {P : σ → α → Prop} (f : σ → τ)
    (g : α → β)
    (hlift : ∀ s b t, step₂ (f s) b = some t → ∃ a s', P s a ∧ g a = b ∧ step s a = some s' ∧ f s' = t)
    {s : σ} {ls : List β} {t : τ} (h : run step₂ (f s) ls = some t) :
    ∃ ls' s', Along step P s ls' ∧ ls'.map g = ls ∧ run step s ls' = some s' ∧ f s' = t := by
  induction ls generalizing s with
  | nil =>
      rw [run_nil, Option.some.injEq] at h
      exact ⟨[], s, trivial, rfl, rfl, h⟩
  | cons b ls ih =>
      rw [run_cons, Option.bind_eq_some_iff] at h
      obtain ⟨t', hb, h⟩ := h
      obtain ⟨a, s₁, hPa, rfl, ha, rfl⟩ := hlift s b t' hb
      obtain ⟨ls', s', halong, rfl, hrun, hs'⟩ := ih h
      refine ⟨a :: ls', s', ⟨hPa, fun s₂ hs₂ => ?_⟩, rfl, ?_, hs'⟩
      · obtain rfl := Option.some.inj (ha.symm.trans hs₂)
        exact halong
      · rw [run_cons, ha]
        exact hrun

/-! ## Calls that come to their end -/

/-- How many steps of the run from `s` are counted. -/
def count (step : σ → α → Option σ) (counted : σ → α → Bool) : σ → List α → ℕ
  | _, [] => 0
  | s, a :: ls =>
      (if counted s a then 1 else 0) +
        ((step s a).map fun s' => count step counted s' ls).getD 0

theorem count_append {step : σ → α → Option σ} (counted : σ → α → Bool) {s s' : σ} {l₁ : List α}
    (h : run step s l₁ = some s') (l₂ : List α) :
    count step counted s (l₁ ++ l₂) = count step counted s l₁ + count step counted s' l₂ := by
  induction l₁ generalizing s with
  | nil =>
      rw [run_nil, Option.some.injEq] at h
      rw [List.nil_append, count, Nat.zero_add, h]
  | cons b l₁ ih =>
      rw [run_cons, Option.bind_eq_some_iff] at h
      obtain ⟨s₁, hb, h⟩ := h
      rw [List.cons_append, count, count, hb, Option.map_some, Option.map_some, Option.getD_some,
        Option.getD_some, ih h, Nat.add_assoc]

theorem count_concat {step : σ → α → Option σ} (counted : σ → α → Bool) {s s' : σ} {ls : List α}
    (h : run step s ls = some s') (a : α) :
    count step counted s (ls ++ [a]) =
      count step counted s ls + if counted s' a then 1 else 0 := by
  rw [count_append counted h, count]
  cases step s' a with
  | none => rfl
  | some s₁ => rfl

/-- The call in progress in `s` comes to its end, whatever anybody does meanwhile: as
long as it has not returned, its counted steps are bounded, and it is at its end or
can take a step of its own. `P` holds all the while. -/
def Completes (step : σ → α → Option σ) (returns own : α → Bool) (counted : σ → α → Bool)
    (P atEnd : σ → Prop) (s : σ) : Prop :=
  ∃ bound, ∀ ls s', (∀ a ∈ ls, returns a = false) → run step s ls = some s' →
    P s' ∧ count step counted s ls ≤ bound ∧
      (atEnd s' ∨ ∃ a s'', own a = true ∧ step s' a = some s'')

theorem Completes.imp {step : σ → α → Option σ} {returns own : α → Bool} {counted : σ → α → Bool}
    {P P' atEnd atEnd' : σ → Prop} {s : σ} (h : Completes step returns own counted P atEnd s)
    (hP : ∀ s, P s → P' s) (hend : ∀ s, atEnd s → atEnd' s) :
    Completes step returns own counted P' atEnd' s := by
  obtain ⟨bound, hbound⟩ := h
  refine ⟨bound, fun ls s' hls hrun => ?_⟩
  obtain ⟨hs', hle, hlive⟩ := hbound ls s' hls hrun
  exact ⟨hP s' hs', hle, hlive.imp_left (hend s')⟩

/-- A call completes when its counted steps use up a rank that nobody adds to. -/
theorem completes_of_rank {step : σ → α → Option σ} {returns own : α → Bool}
    {counted : σ → α → Bool} {P atEnd I : σ → Prop} {rank : σ → ℕ}
    (hstep : ∀ s a s', returns a = false → I s → step s a = some s' →
      I s' ∧ rank s' + (if counted s a then 1 else 0) ≤ rank s)
    (hP : ∀ s, I s → P s) (hlive : ∀ s, I s → atEnd s ∨ ∃ a s', own a = true ∧ step s a = some s')
    {s : σ} (hs : I s) : Completes step returns own counted P atEnd s := by
  -- the counted steps and the rank that is left make up the rank at the start
  have hall : ∀ (ls : List α) (s s' : σ), (∀ a ∈ ls, returns a = false) → I s →
      run step s ls = some s' → I s' ∧ rank s' + count step counted s ls ≤ rank s := by
    intro ls
    induction ls with
    | nil =>
        intro s s' _ hs hrun
        rw [run_nil, Option.some.injEq] at hrun
        exact hrun ▸ ⟨hs, Nat.le_refl _⟩
    | cons a ls ih =>
        intro s s'' hret hs hrun
        rw [run_cons, Option.bind_eq_some_iff] at hrun
        obtain ⟨s', ha, hrun⟩ := hrun
        obtain ⟨hs', hle⟩ := hstep s a s' (hret a List.mem_cons_self) hs ha
        obtain ⟨hs'', hle'⟩ := ih s' s'' (fun b hb => hret b (List.mem_cons_of_mem a hb)) hs' hrun
        refine ⟨hs'', ?_⟩
        rw [count, ha, Option.map_some, Option.getD_some]
        omega
  refine ⟨rank s, fun ls s' hret hrun => ?_⟩
  obtain ⟨hs', hle⟩ := hall ls s s' hret hs hrun
  exact ⟨hP s' hs', by omega, hlive s' hs'⟩

/-- `s` is reached from `s₀` by some run. -/
def Reachable (step : σ → α → Option σ) (s₀ s : σ) : Prop :=
  ∃ ls, run step s₀ ls = some s

namespace Reachable

variable {step : σ → α → Option σ} {s₀ s s' : σ}

theorem refl (step : σ → α → Option σ) (s : σ) : Reachable step s s := ⟨[], rfl⟩

theorem of_run {ls : List α} (h : run step s₀ ls = some s) : Reachable step s₀ s := ⟨ls, h⟩

theorem tail {a : α} (h : Reachable step s₀ s) (ha : step s a = some s') :
    Reachable step s₀ s' := by
  obtain ⟨ls, hls⟩ := h
  exact ⟨ls ++ [a], run_concat_eq_some.mpr ⟨s, hls, ha⟩⟩

theorem trans_run {ls : List α} (h : Reachable step s₀ s) (hls : run step s ls = some s') :
    Reachable step s₀ s' := by
  obtain ⟨ls₀, h₀⟩ := h
  exact ⟨ls₀ ++ ls, run_append_eq_some.mpr ⟨s, h₀, hls⟩⟩

/-- The invariant rule: true at the start, kept by every step. -/
theorem invariant {I : σ → Prop} (h : Reachable step s₀ s) (h₀ : I s₀)
    (hstep : ∀ s a s', I s → step s a = some s' → I s') : I s := by
  obtain ⟨ls, hls⟩ := h
  exact run_invariant hstep h₀ hls

/-- The simulation rule: when, on states where `I` holds, each step of the first
system is matched by a run of the second between the images, the image of a
reachable state is reachable. -/
theorem map {step₂ : τ → β → Option τ} {I : σ → Prop} (f : σ → τ)
    (h : Reachable step s₀ s) (h₀ : I s₀)
    (hstep : ∀ s a s', I s → step s a = some s' → I s')
    (hsim : ∀ s a s', I s → step s a = some s' → ∃ bs, run step₂ (f s) bs = some (f s')) :
    Reachable step₂ (f s₀) (f s) := by
  have hboth : I s ∧ Reachable step₂ (f s₀) (f s) := by
    refine invariant (I := fun s => I s ∧ Reachable step₂ (f s₀) (f s)) h
      ⟨h₀, refl step₂ (f s₀)⟩ ?_
    rintro s a s' ⟨hI, hr⟩ ha
    obtain ⟨bs, hbs⟩ := hsim s a s' hI ha
    exact ⟨hstep s a s' hI ha, hr.trans_run hbs⟩
  exact hboth.2

end Reachable

end Transition
