/-
Functions that ask their environment in a loop.

A call of such a function runs up to its first question (`enter`), and from each
answer up to the next question, or to its result (`resume`). The environment answers
as it likes: an answer that the question does not admit is not enabled. The finished
calls are history, each with what it asked and what it was answered, so a statement
about a run can speak of one call or of the order across calls.

An invariant has two parts, one between calls and one at the head of the loop. The
rule is `run_keeps`: what both stretches keep, every run keeps.
-/
import TokioStreamUtil.Lib.Transition

set_option autoImplicit false

namespace PollLoop

/-! ## Machines -/

/-- What a stretch of a call comes to: a question, or a result. -/
inductive Flow (σ ρ : Type*) where
  | again (s : σ)
  | ret (r : ρ) (s : σ)

/-- The fields after the stretch. -/
def Flow.self {σ ρ : Type*} : Flow σ ρ → σ
  | .again s => s
  | .ret _ s => s

/-- A function over the state `σ` with arguments `κ` and results `ρ`. `asks` is the
question at the head of the loop, `resume` goes on with the answer to it. -/
structure Machine (κ σ θ α ρ : Type*) where
  enter : κ → σ → Flow σ ρ
  asks : σ → θ
  resume : σ → α → Option (Flow σ ρ)

/-- A finished call: its argument, the questions with their answers, the result. -/
structure Call (κ θ α ρ : Type*) where
  arg : κ
  asked : List (θ × α)
  result : ρ
  deriving DecidableEq

/-- The state between two steps. `current` is the call in progress, with what it
has asked so far. -/
structure State (κ σ θ α ρ : Type*) where
  self : σ
  calls : List (Call κ θ α ρ)
  current : Option (κ × List (θ × α))

/-- A call is made, or an answer comes. -/
inductive Act (κ α : Type*) where
  | call (k : κ)
  | answer (a : α)
  deriving DecidableEq

variable {κ σ θ α ρ : Type*}

/-- Before the first call. -/
def State.start (self : σ) : State κ σ θ α ρ := { self := self, calls := [], current := none }

/-- The state after a stretch of the call `k`, which has asked `asked`. -/
def Flow.state (calls : List (Call κ θ α ρ)) (k : κ) (asked : List (θ × α)) :
    Flow σ ρ → State κ σ θ α ρ
  | .again s => { self := s, calls := calls, current := some (k, asked) }
  | .ret r s => { self := s, calls := calls ++ [⟨k, asked, r⟩], current := none }

namespace Machine

variable (M : Machine κ σ θ α ρ)

/-- One step. -/
def step (s : State κ σ θ α ρ) : Act κ α → Option (State κ σ θ α ρ)
  | .call k =>
      match s.current with
      | none => some ((M.enter k s.self).state s.calls k [])
      | some _ => none
  | .answer a =>
      match s.current with
      | some (k, asked) =>
          (M.resume s.self a).map fun f => f.state s.calls k (asked ++ [(M.asks s.self, a)])
      | none => none

/-- The state after the labels `ls`, from before the first call. -/
def run (self : σ) (ls : List (Act κ α)) : Option (State κ σ θ α ρ) :=
  Transition.run M.step (.start self) ls

end Machine

/-! ## What a run has seen -/

/-- The answers to the finished calls, in order. -/
def answered (calls : List (Call κ θ α ρ)) : List α := calls.flatMap fun c => c.asked.map Prod.snd

/-- What the finished calls have asked, with the answers, in order. -/
def log (calls : List (Call κ θ α ρ)) : List (θ × α) := calls.flatMap Call.asked

/-- The same, with what the call in progress has asked. -/
def State.log (s : State κ σ θ α ρ) : List (θ × α) :=
  match s.current with
  | none => PollLoop.log s.calls
  | some (_, asked) => PollLoop.log s.calls ++ asked

/-- The results of the finished calls, in order. -/
def results (calls : List (Call κ θ α ρ)) : List ρ := calls.map Call.result

@[simp] theorem answered_concat (calls : List (Call κ θ α ρ)) (c : Call κ θ α ρ) :
    answered (calls ++ [c]) = answered calls ++ c.asked.map Prod.snd := by
  unfold answered
  rw [List.flatMap_append, List.flatMap_singleton]

@[simp] theorem log_concat (calls : List (Call κ θ α ρ)) (c : Call κ θ α ρ) :
    log (calls ++ [c]) = log calls ++ c.asked := by
  unfold log
  rw [List.flatMap_append, List.flatMap_singleton]

@[simp] theorem results_concat (calls : List (Call κ θ α ρ)) (c : Call κ θ α ρ) :
    results (calls ++ [c]) = results calls ++ [c.result] := List.map_append

/-! ## Histories -/

/-- `P` holds of every entry, with what stands before it. -/
def Throughout {β : Type*} (P : List β → β → Prop) (l : List β) : Prop :=
  ∀ before x later, l = before ++ x :: later → P before x

section

variable {β : Type*} {P : List β → β → Prop} {l : List β}

theorem Throughout.nil : Throughout P [] := by
  intro before x later heq
  exact absurd heq.symm (List.append_ne_nil_of_right_ne_nil _ (List.cons_ne_nil _ _))

/-- One entry more. -/
theorem Throughout.concat (h : Throughout P l) {x : β} (hx : P l x) : Throughout P (l ++ [x]) := by
  intro before y later heq
  rcases List.eq_nil_or_concat later with rfl | ⟨later, z, rfl⟩
  · -- it is the last one
    obtain ⟨rfl, hlast⟩ := List.append_inj' heq rfl
    exact (List.cons.inj hlast).1 ▸ hx
  · rw [List.concat_eq_append, ← List.cons_append, ← List.append_assoc] at heq
    exact h before y later (List.append_inj' heq rfl).1

end

/-! ## Runs that go on -/

namespace Machine

variable (M : Machine κ σ θ α ρ)

/-- From the state `s`, between calls, the calls `later` may follow. -/
def Continues (s : State κ σ θ α ρ) (later : List (Call κ θ α ρ)) : Prop :=
  ∃ ls s', Transition.run M.step s ls = some s' ∧ s'.current = none ∧ s'.calls = s.calls ++ later

end Machine

/-- The state, with calls before it. -/
def State.after (earlier : List (Call κ θ α ρ)) (s : State κ σ θ α ρ) : State κ σ θ α ρ :=
  { s with calls := earlier ++ s.calls }

theorem State.after_start {s : State κ σ θ α ρ} (hs : s.current = none) :
    (State.start s.self).after s.calls = s := by
  obtain ⟨self, calls, current⟩ := s
  subst hs
  unfold State.after State.start
  rw [List.append_nil]

/-- The earlier calls have no part in a step. -/
theorem step_after (M : Machine κ σ θ α ρ) (earlier : List (Call κ θ α ρ))
    (s : State κ σ θ α ρ) (a : Act κ α) :
    M.step (s.after earlier) a = (M.step s a).map (State.after earlier) := by
  have hstate : ∀ (f : Flow σ ρ) k asked,
      f.state (earlier ++ s.calls) k asked = (f.state s.calls k asked).after earlier := by
    intro f k asked
    cases f with
    | again s => rfl
    | ret r s' =>
        unfold Flow.state State.after
        dsimp only
        rw [List.append_assoc]
  obtain ⟨self, calls, current⟩ := s
  cases a with
  | call k =>
      cases current with
      | none => exact congrArg some (hstate (M.enter k self) k [])
      | some c => rfl
  | answer a =>
      cases current with
      | none => rfl
      | some c =>
          obtain ⟨k, asked⟩ := c
          show (M.resume self a).map _ = ((M.resume self a).map _).map _
          rw [Option.map_map]
          congr 1
          funext f
          exact hstate f k _

theorem run_after (M : Machine κ σ θ α ρ) (earlier : List (Call κ θ α ρ))
    (s : State κ σ θ α ρ) (ls : List (Act κ α)) :
    Transition.run M.step (s.after earlier) ls =
      (Transition.run M.step s ls).map (State.after earlier) := by
  induction ls generalizing s with
  | nil => rfl
  | cons a ls ih =>
      rw [Transition.run_cons, Transition.run_cons, step_after]
      cases M.step s a with
      | none => rfl
      | some s' => exact ih s'

/-- What may follow depends on the fields alone. -/
theorem Machine.continues_iff {M : Machine κ σ θ α ρ} {s : State κ σ θ α ρ}
    (hs : s.current = none) {later : List (Call κ θ α ρ)} :
    M.Continues s later ↔
      ∃ ls s', M.run s.self ls = some s' ∧ s'.current = none ∧ s'.calls = later := by
  have hafter : ∀ ls, Transition.run M.step s ls = (M.run s.self ls).map (State.after s.calls) := by
    intro ls
    have h := run_after M s.calls (.start s.self) ls
    rw [State.after_start hs] at h
    exact h
  constructor
  · rintro ⟨ls, s', hrun, hidle, hcalls⟩
    rw [hafter] at hrun
    obtain ⟨s'', hfresh, rfl⟩ := Option.map_eq_some_iff.mp hrun
    exact ⟨ls, s'', hfresh, hidle, List.append_cancel_left hcalls⟩
  · rintro ⟨ls, s', hrun, hidle, rfl⟩
    refine ⟨ls, s'.after s.calls, ?_, hidle, rfl⟩
    rw [hafter, hrun]
    rfl

/-! ## Images of machines -/

section

variable {σ' θ' α' : Type*} (f : σ → σ') (g : θ → θ') (b : α → α')

/-- The image of a stretch. -/
def Flow.map : Flow σ ρ → Flow σ' ρ
  | .again s => .again (f s)
  | .ret r s => .ret r (f s)

/-- The image of a call: the same result, and the images of the questions and answers. -/
def Call.map (c : Call κ θ α ρ) : Call κ θ' α' ρ := ⟨c.arg, c.asked.map (Prod.map g b), c.result⟩

/-- The image of a state. -/
def State.map (s : State κ σ θ α ρ) : State κ σ' θ' α' ρ where
  self := f s.self
  calls := s.calls.map (Call.map g b)
  current := s.current.map fun c => (c.1, c.2.map (Prod.map g b))

/-- The image of a label. -/
def Act.map : Act κ α → Act κ α'
  | .call k => .call k
  | .answer a => .answer (b a)

variable {f g b}

theorem Flow.state_map (fl : Flow σ ρ) (calls : List (Call κ θ α ρ)) (k : κ)
    (asked : List (θ × α)) :
    (fl.map f).state (calls.map (Call.map g b)) k (asked.map (Prod.map g b)) =
      (fl.state calls k asked).map f g b := by
  cases fl with
  | again s => rfl
  | ret r s =>
      unfold Flow.map Flow.state State.map
      dsimp only
      rw [List.map_append]
      rfl

/-- Where a stretch of the one machine is a stretch of the other between the images, so
is a step. -/
theorem step_map {M : Machine κ σ θ α ρ} {M' : Machine κ σ' θ' α' ρ} {s : State κ σ θ α ρ}
    {a : Act κ α} (henter : ∀ k, M'.enter k (f s.self) = (M.enter k s.self).map f)
    (hasks : M'.asks (f s.self) = g (M.asks s.self))
    (hresume : ∀ x, a = .answer x → M'.resume (f s.self) (b x) = (M.resume s.self x).map (Flow.map f)) :
    M'.step (s.map f g b) (a.map b) = (M.step s a).map (State.map f g b) := by
  obtain ⟨self, calls, current⟩ := s
  cases a with
  | call k =>
      cases current with
      | some c => rfl
      | none =>
          refine congrArg some ?_
          show (M'.enter k (f self)).state _ k (List.map (Prod.map g b) []) = _
          rw [henter k]
          exact Flow.state_map _ _ _ _
  | answer x =>
      cases current with
      | none => rfl
      | some c =>
          obtain ⟨k, asked⟩ := c
          show (M'.resume (f self) (b x)).map _ = ((M.resume self x).map _).map _
          rw [hresume x rfl, Option.map_map, Option.map_map]
          congr 1
          funext fl
          show (fl.map f).state _ k (asked.map (Prod.map g b) ++ [(M'.asks (f self), b x)]) = _
          have hasked : asked.map (Prod.map g b) ++ [(M'.asks (f self), b x)] =
              (asked ++ [(M.asks self, x)]).map (Prod.map g b) := by
            rw [hasks, List.map_append]
            rfl
          rw [hasked]
          exact Flow.state_map _ _ _ _

end

/-! ## Invariants -/

section

variable (I : σ → List (Call κ θ α ρ) → Prop)
  (J : σ → List (Call κ θ α ρ) → κ → List (θ × α) → Prop)

/-- `I` holds between calls, `J` at the head of the loop. -/
def State.Holds (s : State κ σ θ α ρ) : Prop :=
  match s.current with
  | none => I s.self s.calls
  | some (k, asked) => J s.self s.calls k asked

/-- A stretch of the call `k` ends where the invariant holds. -/
def Flow.Keeps (calls : List (Call κ θ α ρ)) (k : κ) (asked : List (θ × α)) : Flow σ ρ → Prop
  | .again s => J s calls k asked
  | .ret r s => I s (calls ++ [⟨k, asked, r⟩])

variable {I J}

theorem Flow.Keeps.holds {calls : List (Call κ θ α ρ)} {k : κ} {asked : List (θ × α)}
    {f : Flow σ ρ} (h : f.Keeps I J calls k asked) : (f.state calls k asked).Holds I J := by
  cases f with
  | again s => exact h
  | ret r s => exact h

/-- What a stretch keeps, taken together. -/
theorem Flow.Keeps.and {I' : σ → List (Call κ θ α ρ) → Prop}
    {J' : σ → List (Call κ θ α ρ) → κ → List (θ × α) → Prop} {calls : List (Call κ θ α ρ)} {k : κ}
    {asked : List (θ × α)} {f : Flow σ ρ} (h : f.Keeps I J calls k asked)
    (h' : f.Keeps I' J' calls k asked) :
    f.Keeps (fun s calls => I s calls ∧ I' s calls)
      (fun s calls k asked => J s calls k asked ∧ J' s calls k asked) calls k asked := by
  cases f with
  | again s => exact ⟨h, h'⟩
  | ret r s => exact ⟨h, h'⟩

theorem State.Holds.idle {s : State κ σ θ α ρ} (h : s.Holds I J) (hs : s.current = none) :
    I s.self s.calls := by
  unfold State.Holds at h
  rw [hs] at h
  exact h

variable {M : Machine κ σ θ α ρ} {P : State κ σ θ α ρ → Act κ α → Prop} {new : σ}
  {ls : List (Act κ α)} {s : State κ σ θ α ρ}

/-- **The rule for runs whose labels are restricted.** What both stretches of a call
keep, every run of allowed labels keeps. -/
theorem run_keeps_along (hnew : I new [])
    (henter : ∀ s k, s.current = none → P s (.call k) → I s.self s.calls →
      (M.enter k s.self).Keeps I J s.calls k [])
    (hresume : ∀ s k asked a f, s.current = some (k, asked) → P s (.answer a) →
      J s.self s.calls k asked → M.resume s.self a = some f →
      f.Keeps I J s.calls k (asked ++ [(M.asks s.self, a)]))
    (hP : Transition.Along M.step P (.start new) ls) (h : M.run new ls = some s) :
    s.Holds I J := by
  refine Transition.run_invariant_along (I := State.Holds I J) ?_ hP hnew h
  rintro s a s' hPa hs hstep
  cases a with
  | call k =>
      unfold Machine.step at hstep
      dsimp only at hstep
      split at hstep
      · rename_i hcurrent
        cases hstep
        exact (henter s k hcurrent hPa (hs.idle hcurrent)).holds
      · cases hstep
  | answer a =>
      unfold Machine.step at hstep
      dsimp only at hstep
      split at hstep
      · rename_i k asked hcurrent
        obtain ⟨f, hf, rfl⟩ := Option.map_eq_some_iff.mp hstep
        unfold State.Holds at hs
        rw [hcurrent] at hs
        exact (hresume s k asked a f hcurrent hPa hs hf).holds
      · cases hstep

/-- **The rule for runs.** What both stretches of a call keep, every run keeps. -/
theorem run_keeps (hnew : I new [])
    (henter : ∀ s calls k, I s calls → (M.enter k s).Keeps I J calls k [])
    (hresume : ∀ s calls k asked a f, J s calls k asked → M.resume s a = some f →
      f.Keeps I J calls k (asked ++ [(M.asks s, a)]))
    (h : M.run new ls = some s) : s.Holds I J :=
  run_keeps_along (P := fun _ _ => True) hnew (fun s k _ _ hs => henter s.self s.calls k hs)
    (fun s k asked a f _ _ hs hf => hresume s.self s.calls k asked a f hs hf)
    (Transition.along_of_forall (fun _ _ => trivial) _ _) h

end

end PollLoop
