/-
A machine over a machine.

Some questions of a machine are polls of a source. Where the source is itself a machine,
such a question is a call of it, which runs to its end before the machine above goes on.
The two together are a machine again. Its questions are those of the upper that are not
polls, those of the lower, and the calls from the one to the other, which have one answer.

A run of the two is a run of each (`Tracks`), in which the upper has been answered what
the lower has returned. So what holds in every run of the upper over any source, and in
every run of the lower, holds of both in the stack.
-/
import TokioStreamUtil.Lib.PollLoop

set_option autoImplicit false

namespace PollLoop

variable {κ σ θ α β ρ σ₂ θ₂ α₂ ρ₂ : Type*}

/-! ## The source of a machine -/

/-- Which questions are polls of the source, and what is the source's answer. -/
structure Feed (θ α β : Type*) where
  polls : θ → Bool
  reply : β → α
  given : α → Option β
  given_reply : ∀ r, given (reply r) = some r

namespace Feed

variable (D : Feed θ α β)

/-- What the source has answered. -/
def answers (log : List (θ × α)) : List β := log.filterMap fun x => D.given x.2

/-- What others have answered. -/
def others (log : List (θ × α)) : List (θ × α) := log.filter fun x => (D.given x.2).isNone

variable {D}

@[simp] theorem answers_append (l₁ l₂ : List (θ × α)) :
    D.answers (l₁ ++ l₂) = D.answers l₁ ++ D.answers l₂ := List.filterMap_append

@[simp] theorem others_append (l₁ l₂ : List (θ × α)) :
    D.others (l₁ ++ l₂) = D.others l₁ ++ D.others l₂ := List.filter_append ..

@[simp] theorem answers_reply (q : θ) (r : β) : D.answers [(q, D.reply r)] = [r] := by
  simp [answers, D.given_reply]

@[simp] theorem others_reply (q : θ) (r : β) : D.others [(q, D.reply r)] = [] := by
  simp [others, D.given_reply]

theorem answers_other (q : θ) {a : α} (h : (D.given a).isNone) : D.answers [(q, a)] = [] := by
  simp [answers, Option.isNone_iff_eq_none.mp h]

theorem others_other (q : θ) {a : α} (h : (D.given a).isNone) : D.others [(q, a)] = [(q, a)] := by
  simp [others, h]

end Feed

/-! ## One stretch of a call -/

/-- The result, where the stretch has one. -/
def Flow.result : Flow σ ρ → Option ρ
  | .again _ => none
  | .ret r _ => some r

/-- Between calls, what was asked is what the finished calls have asked. -/
theorem State.log_of_idle {s : State κ σ θ α ρ} (hs : s.current = none) :
    s.log = PollLoop.log s.calls := by
  unfold State.log
  rw [hs]

/-- The state after the stretch `f`, which has asked `asked`. -/
structure Stretch (s : State κ σ θ α ρ) (f : Flow σ ρ) (asked : List (θ × α))
    (s' : State κ σ θ α ρ) : Prop where
  self : s'.self = f.self
  results : results s'.calls = results s.calls ++ f.result.toList
  current : s'.current.isSome = f.result.isNone
  log : s'.log = s.log ++ asked

theorem stretch_state {s : State κ σ θ α ρ} (f : Flow σ ρ) (k : κ) {before asked : List (θ × α)}
    (hlog : s.log = log s.calls ++ before) :
    Stretch s f asked (f.state s.calls k (before ++ asked)) := by
  cases f with
  | again s' =>
      refine ⟨rfl, (List.append_nil _).symm, rfl, ?_⟩
      rw [hlog, List.append_assoc]
      rfl
  | ret r s' =>
      refine ⟨rfl, results_concat _ _, rfl, ?_⟩
      show log (s.calls ++ [_]) = _
      rw [log_concat, hlog, List.append_assoc]

namespace Machine

variable {M : Machine κ σ θ α ρ} {s s' : State κ σ θ α ρ}

/-- A call begins. -/
theorem step_call {k : κ} (h : M.step s (.call k) = some s') :
    s.current = none ∧ Stretch s (M.enter k s.self) [] s' := by
  unfold step at h
  dsimp only at h
  split at h
  · rename_i hcurrent
    rw [Option.some.injEq] at h
    subst h
    have hlog : s.log = log s.calls ++ [] := by
      rw [State.log_of_idle hcurrent, List.append_nil]
    exact ⟨hcurrent, stretch_state _ k hlog⟩
  · cases h

/-- A question is answered. -/
theorem step_answer {a : α} (h : M.step s (.answer a) = some s') :
    s.current.isSome ∧
      ∃ f, M.resume s.self a = some f ∧ Stretch s f [(M.asks s.self, a)] s' := by
  unfold step at h
  dsimp only at h
  split at h
  · rename_i k asked hcurrent
    obtain ⟨f, hf, rfl⟩ := Option.map_eq_some_iff.mp h
    refine ⟨by rw [hcurrent]; rfl, f, hf, stretch_state f k ?_⟩
    unfold State.log
    rw [hcurrent]
  · cases h

/-- Between calls, a call can begin. -/
theorem exists_step_call (hs : s.current = none) (k : κ) :
    ∃ s', M.step s (.call k) = some s' ∧ Stretch s (M.enter k s.self) [] s' := by
  have h : M.step s (.call k) = some ((M.enter k s.self).state s.calls k []) := by
    unfold step
    rw [hs]
  exact ⟨_, h, (step_call h).2⟩

/-- Inside a call, what the question admits is an answer. -/
theorem exists_step_answer (hs : s.current.isSome) {a : α} {f : Flow σ ρ}
    (hf : M.resume s.self a = some f) :
    ∃ s', M.step s (.answer a) = some s' ∧ Stretch s f [(M.asks s.self, a)] s' := by
  obtain ⟨⟨k, asked⟩, hcurrent⟩ := Option.isSome_iff_exists.mp hs
  have h : M.step s (.answer a) =
      some (f.state s.calls k (asked ++ [(M.asks s.self, a)])) := by
    unfold step
    dsimp only
    rw [hcurrent]
    dsimp only
    rw [hf, Option.map_some]
  obtain ⟨-, f', hf', hstretch⟩ := step_answer h
  rw [hf, Option.some.injEq] at hf'
  subst hf'
  exact ⟨_, h, hstretch⟩

/-- While a call goes on, nothing is returned, and every answer is one question more. -/
theorem goes_on_of_answers {answers : List α}
    (hrun : Transition.run M.step s (answers.map .answer) = some s')
    (hcurrent : s'.current.isSome) :
    s.current.isSome ∧ results s'.calls = results s.calls ∧
      s'.log.length = s.log.length + answers.length := by
  induction answers generalizing s with
  | nil =>
      cases hrun
      exact ⟨hcurrent, rfl, rfl⟩
  | cons a answers ih =>
      rw [List.map_cons, Transition.run_cons] at hrun
      obtain ⟨s₁, hstep, hrest⟩ := Option.bind_eq_some_iff.mp hrun
      obtain ⟨hs, f, -, hstretch⟩ := step_answer hstep
      obtain ⟨hs₁, hresults, hlength⟩ := ih hrest
      -- the call has gone on, so the stretch has no result
      have hnone : f.result = none := by
        rw [← Option.isNone_iff_eq_none, ← hstretch.current]
        exact hs₁
      refine ⟨hs, ?_, ?_⟩
      · rw [hresults, hstretch.results, hnone]
        exact List.append_nil _
      · rw [hlength, hstretch.log]
        simp only [List.length_append, List.length_cons, List.length_nil]
        omega

end Machine

/-! ## The stack -/

/-- The fields of both. `inside` says that a call of the lower is in progress. -/
structure Stacked (σ σ₂ : Type*) where
  upper : σ
  lower : σ₂
  inside : Bool

namespace Stacked

/-- A question of the upper that is no poll, the call of the lower, a question of the
lower. -/
inductive Question (θ θ₂ : Type*) where
  | upper (q : θ)
  | call
  | lower (q : θ₂)

/-- An answer to each. -/
inductive Answer (α α₂ : Type*) where
  | upper (a : α)
  | called
  | lower (a : α₂)
  deriving DecidableEq

/-- What the upper has asked others than the lower. -/
def uppers (log : List (Question θ θ₂ × Answer α α₂)) : List (θ × α) :=
  log.filterMap fun
    | (.upper q, .upper a) => some (q, a)
    | _ => none

/-- What the lower has asked. -/
def lowers (log : List (Question θ θ₂ × Answer α α₂)) : List (θ₂ × α₂) :=
  log.filterMap fun
    | (.lower q, .lower a) => some (q, a)
    | _ => none

/-- The source of the stack is that of the lower. -/
def feed (θ α : Type*) (D : Feed θ₂ α₂ β) : Feed (Question θ θ₂) (Answer α α₂) β where
  polls := fun
    | .lower q => D.polls q
    | _ => false
  reply := fun r => .lower (D.reply r)
  given := fun
    | .lower a => D.given a
    | _ => none
  given_reply := D.given_reply

/-- Each question has an answer of its kind. -/
def Matched (log : List (Question θ θ₂ × Answer α α₂)) : Prop :=
  ∀ q a, (q, a) ∈ log →
    match a with
    | .upper _ => ∃ q', q = .upper q'
    | .called => q = .call
    | .lower _ => ∃ q', q = .lower q'

section

variable (l₁ l₂ : List (Question θ θ₂ × Answer α α₂))

@[simp] theorem uppers_append : uppers (l₁ ++ l₂) = uppers l₁ ++ uppers l₂ :=
  List.filterMap_append

@[simp] theorem lowers_append : lowers (l₁ ++ l₂) = lowers l₁ ++ lowers l₂ :=
  List.filterMap_append

variable {l₁ l₂}

theorem Matched.append (h₁ : Matched l₁) (h₂ : Matched l₂) : Matched (l₁ ++ l₂) := by
  intro q a hmem
  rcases List.mem_append.mp hmem with hmem | hmem
  · exact h₁ q a hmem
  · exact h₂ q a hmem

end

section

variable {D : Feed θ₂ α₂ β} (log : List (Question θ θ₂ × Answer α α₂))

/-- The questions of the upper are no polls of the base. -/
theorem uppers_others : uppers ((feed θ α D).others log) = uppers log := by
  unfold uppers Feed.others
  rw [List.filterMap_filter]
  congr 1
  funext x
  rcases x with ⟨_ | _ | _, _ | _ | _⟩ <;> simp [feed]

theorem lowers_others : lowers ((feed θ α D).others log) = D.others (lowers log) := by
  unfold lowers Feed.others
  rw [List.filterMap_filter, List.filter_filterMap]
  congr 1
  funext x
  rcases x with ⟨_ | _ | _, _ | _ | _⟩ <;> simp [feed, Option.filter]

variable {log}

/-- The base of the stack has answered the lower. -/
theorem Matched.answers (h : Matched log) : (feed θ α D).answers log = D.answers (lowers log) := by
  unfold lowers Feed.answers
  rw [List.filterMap_filterMap]
  refine List.filterMap_congr fun x hx => ?_
  obtain ⟨q, a⟩ := x
  have hkind := h q a hx
  cases a with
  | upper a =>
      obtain ⟨q', rfl⟩ := hkind
      rfl
  | called =>
      subst hkind
      rfl
  | lower a =>
      obtain ⟨q', rfl⟩ := hkind
      rfl

end

end Stacked

open Stacked (Question Answer uppers lowers)

/-- The upper goes on, or returns. -/
def Flow.atop (l : σ₂) : Flow σ ρ → Flow (Stacked σ σ₂) ρ :=
  Flow.map fun u => { upper := u, lower := l, inside := false }

namespace Machine

variable (U : Machine κ σ θ α ρ) (D : Feed θ α ρ₂) (L : Machine Unit σ₂ θ₂ α₂ ρ₂)

/-- The lower goes on, or returns to the upper. -/
def within (u : σ) : Flow σ₂ ρ₂ → Option (Flow (Stacked σ σ₂) ρ)
  | .again l => some (.again { upper := u, lower := l, inside := true })
  | .ret r l => (U.resume u (D.reply r)).map (Flow.atop l)

/-- The machine `U`, whose source is `L`. -/
def atop : Machine κ (Stacked σ σ₂) (Question θ θ₂) (Answer α α₂) ρ where
  enter := fun k s => (U.enter k s.upper).atop s.lower
  asks := fun s =>
    if s.inside then .lower (L.asks s.lower)
    else if D.polls (U.asks s.upper) then .call
    else .upper (U.asks s.upper)
  resume := fun s a =>
    match a with
    | .upper a =>
        if !s.inside && !D.polls (U.asks s.upper) && (D.given a).isNone then
          (U.resume s.upper a).map (Flow.atop s.lower)
        else none
    | .called =>
        if !s.inside && D.polls (U.asks s.upper) then U.within D s.upper (L.enter () s.lower)
        else none
    | .lower a =>
        if s.inside then (L.resume s.lower a).bind (U.within D s.upper) else none

/-- The stack before its first call. -/
def stack (u : σ) (l : σ₂) : Stacked σ σ₂ := { upper := u, lower := l, inside := false }

variable {U D}

/-- Where every result of the lower is an answer, the upper goes on with it. -/
theorem exists_within {u : σ} (h : ∀ r, ∃ f, U.resume u (D.reply r) = some f) (g : Flow σ₂ ρ₂) :
    ∃ f, U.within D u g = some f := by
  cases g with
  | again l => exact ⟨_, rfl⟩
  | ret r l =>
      obtain ⟨f, hf⟩ := h r
      refine ⟨f.atop l, ?_⟩
      show (U.resume u (D.reply r)).map _ = _
      rw [hf]
      rfl

end Machine

/-! ## A run of the stack is a run of each -/

/-- The stack is in the state `s` where the upper is in `u` and the lower in `l`. -/
structure Tracks (U : Machine κ σ θ α ρ) (D : Feed θ α ρ₂)
    (s : State κ (Stacked σ σ₂) (Question θ θ₂) (Answer α α₂) ρ) (u : State κ σ θ α ρ)
    (l : State Unit σ₂ θ₂ α₂ ρ₂) : Prop where
  upper : u.self = s.self.upper
  lower : l.self = s.self.lower
  results : results u.calls = results s.calls
  current : u.current.isSome = s.current.isSome
  inside : l.current.isSome = s.self.inside
  polling : s.self.inside = true → s.current.isSome
  waits : s.self.inside = true → D.polls (U.asks s.self.upper) = true
  /-- The upper was answered what the lower has returned. -/
  fed : D.answers u.log = PollLoop.results l.calls
  uppers : D.others u.log = uppers s.log
  lowers : l.log = lowers s.log
  matched : Stacked.Matched s.log
  /-- A call of the lower is a question of the stack when it begins, and one of the upper
  when it has returned. -/
  asked : s.log.length = u.log.length + l.log.length + s.self.inside.toNat

section

variable {U : Machine κ σ θ α ρ} {D : Feed θ α ρ₂} {L : Machine Unit σ₂ θ₂ α₂ ρ₂}
  {s s' : State κ (Stacked σ σ₂) (Question θ θ₂) (Answer α α₂) ρ} {u u' u₀ : State κ σ θ α ρ}
  {l l' l₀ : State Unit σ₂ θ₂ α₂ ρ₂}

theorem Tracks.start (u : σ) (l : σ₂) :
    Tracks U D (State.start (Machine.stack u l) : State κ _ (Question θ θ₂) (Answer α α₂) ρ)
      (.start u) (.start l) where
  upper := rfl
  lower := rfl
  results := rfl
  current := rfl
  inside := rfl
  polling := fun h => absurd h Bool.false_ne_true
  waits := fun h => absurd h Bool.false_ne_true
  fed := rfl
  uppers := rfl
  lowers := rfl
  matched := by
    intro q a hmem
    cases hmem
  asked := rfl

@[simp] theorem Flow.atop_self (f : Flow σ ρ) (l : σ₂) :
    (f.atop l).self = { upper := f.self, lower := l, inside := false } := by
  cases f <;> rfl

@[simp] theorem Flow.atop_result (f : Flow σ ρ) (l : σ₂) : (f.atop l).result = f.result := by
  cases f <;> rfl

theorem Flow.ret_of_atop {f : Flow σ ρ} {l : σ₂} {r : ρ} {s : Stacked σ σ₂}
    (h : f.atop l = .ret r s) : ∃ u, f = .ret r u := by
  cases f with
  | again u => cases h
  | ret r' u =>
      cases h
      exact ⟨u, rfl⟩

/-- Between calls of the stack, both are between calls. -/
theorem Tracks.idle (h : Tracks U D s u l) (hs : s.current = none) :
    u.current = none ∧ l.current = none ∧ s.self = Machine.stack s.self.upper s.self.lower := by
  have hu : u.current = none := by
    rw [← Option.not_isSome_iff_eq_none, h.current, hs]
    simp
  have hout : s.self.inside = false := by
    rw [Bool.eq_false_iff]
    intro hin
    have hcurrent := h.polling hin
    simp [hs] at hcurrent
  refine ⟨hu, ?_, ?_⟩
  · rw [← Option.not_isSome_iff_eq_none, h.inside, hout]
    simp
  · unfold Machine.stack
    rw [← hout]

/-- The upper makes a stretch of its own. -/
theorem Tracks.own (h : Tracks U D s u l) {f : Flow σ ρ} {asked : List (θ × α)}
    {asked' : List (Question θ θ₂ × Answer α α₂)} (hout : s.self.inside = false)
    (hs : Stretch s (f.atop s.self.lower) asked' s') (hu : Stretch u f asked u')
    (hanswers : D.answers asked = []) (huppers : D.others asked = Stacked.uppers asked')
    (hlowers : Stacked.lowers asked' = []) (hmatched : Stacked.Matched asked')
    (hlength : asked'.length = asked.length) : Tracks U D s' u' l where
  upper := by rw [hu.self, hs.self, Flow.atop_self]
  lower := by rw [h.lower, hs.self, Flow.atop_self]
  results := by rw [hu.results, hs.results, h.results, Flow.atop_result]
  current := by rw [hu.current, hs.current, Flow.atop_result]
  inside := by rw [h.inside, hout, hs.self, Flow.atop_self]
  polling := by simp [hs.self]
  waits := by simp [hs.self]
  fed := by rw [hu.log, Feed.answers_append, hanswers, List.append_nil, h.fed]
  uppers := by rw [hu.log, hs.log, Feed.others_append, Stacked.uppers_append, h.uppers, huppers]
  lowers := by rw [hs.log, Stacked.lowers_append, hlowers, List.append_nil, h.lowers]
  matched := by
    rw [hs.log]
    exact h.matched.append hmatched
  asked := by
    have hasked := h.asked
    rw [hout] at hasked
    rw [hs.log, hu.log, hs.self, Flow.atop_self, List.length_append, List.length_append, hlength]
    show _ = _ + _ + false.toNat
    omega

/-- The lower makes a stretch, and the upper goes on when it returns. -/
theorem Tracks.within (h : Tracks U D s u l) {g : Flow σ₂ ρ₂} {f : Flow (Stacked σ σ₂) ρ}
    {asked : List (θ₂ × α₂)} {asked' : List (Question θ θ₂ × Answer α α₂)}
    (hcurrent : s.current.isSome) (hpolls : D.polls (U.asks s.self.upper) = true)
    (hf : U.within D s.self.upper g = some f)
    (hs : Stretch s f asked' s') (hl : Stretch l g asked l')
    (huppers : Stacked.uppers asked' = []) (hlowers : Stacked.lowers asked' = asked)
    (hmatched : Stacked.Matched asked')
    (hlength : asked'.length + s.self.inside.toNat = asked.length + 1) :
    ∃ u', Transition.Reachable U.step u u' ∧ Tracks U D s' u' l' := by
  have hlog : l'.log = Stacked.lowers s'.log := by
    rw [hl.log, hs.log, Stacked.lowers_append, hlowers, h.lowers]
  have hkinds : Stacked.Matched s'.log := by
    rw [hs.log]
    exact h.matched.append hmatched
  have hkeep : Stacked.uppers s'.log = Stacked.uppers s.log := by
    rw [hs.log, Stacked.uppers_append, huppers, List.append_nil]
  have hasked : s'.log.length = u.log.length + l'.log.length + 1 := by
    have hbefore := h.asked
    rw [hs.log, hl.log, List.length_append, List.length_append]
    omega
  cases g with
  | again l₁ =>
      -- the upper waits
      simp only [Machine.within, Option.some.injEq] at hf
      subst hf
      refine ⟨u, .refl _ _, ?_⟩
      have hself : s'.self = { upper := s.self.upper, lower := l₁, inside := true } := hs.self
      have hinside : s'.current.isSome = true := hs.current
      constructor
      · rw [hself, h.upper]
      · rw [hself, hl.self]
        rfl
      · rw [hs.results, h.results]
        exact (List.append_nil _).symm
      · rw [hinside, h.current, hcurrent]
      · rw [hself, hl.current]
        rfl
      · exact fun _ => hinside
      · rw [hself]
        exact fun _ => hpolls
      · rw [h.fed, hl.results]
        exact (List.append_nil _).symm
      · rw [h.uppers, hkeep]
      · exact hlog
      · exact hkinds
      · rw [hasked, hself]
        rfl
  | ret r l₁ =>
      -- the upper is answered `r`
      obtain ⟨f', hresume, rfl⟩ := Option.map_eq_some_iff.mp hf
      rw [← h.upper] at hresume
      obtain ⟨u', hstep, hu⟩ := Machine.exists_step_answer (h.current.trans hcurrent) hresume
      refine ⟨u', (Transition.Reachable.refl _ _).tail hstep, ?_⟩
      have hself : s'.self = { upper := f'.self, lower := l₁, inside := false } := by
        rw [hs.self, Flow.atop_self]
      constructor
      · rw [hself, hu.self]
      · rw [hself, hl.self]
        rfl
      · rw [hs.results, hu.results, h.results, Flow.atop_result]
      · rw [hs.current, hu.current, Flow.atop_result]
      · rw [hself, hl.current]
        rfl
      · simp [hself]
      · simp [hself]
      · rw [hu.log, hl.results, Feed.answers_append, Feed.answers_reply, h.fed]
        rfl
      · rw [hu.log, hkeep, Feed.others_append, Feed.others_reply, List.append_nil, h.uppers]
      · exact hlog
      · exact hkinds
      · rw [hasked, hself, hu.log, List.length_append]
        show _ = _ + 1 + _ + 0
        omega

/-- **Every step of the stack** is one of the upper, one of the lower, or one of each. -/
theorem Tracks.step (h : Tracks U D s u l) {a : Act κ (Answer α α₂)}
    (hs : (U.atop D L).step s a = some s') :
    ∃ u' l', Transition.Reachable U.step u u' ∧ Transition.Reachable L.step l l' ∧
      Tracks U D s' u' l' := by
  cases a with
  | call k =>
      obtain ⟨hidle, hstretch⟩ := Machine.step_call hs
      obtain ⟨hu, -, hself⟩ := h.idle hidle
      have hout : s.self.inside = false := by
        rw [hself]
        rfl
      obtain ⟨u', hstep, hstretch'⟩ := Machine.exists_step_call (M := U) hu k
      rw [h.upper] at hstretch'
      exact ⟨u', l, (Transition.Reachable.refl _ _).tail hstep, .refl _ _,
        h.own hout hstretch hstretch' rfl rfl rfl (by simp [Stacked.Matched]) rfl⟩
  | answer a =>
      obtain ⟨hcurrent, f, hf, hstretch⟩ := Machine.step_answer hs
      cases a with
      | upper a =>
          simp only [Machine.atop, Option.ite_none_right_eq_some, Bool.and_eq_true,
            Bool.not_eq_eq_eq_not, Bool.not_true] at hf
          obtain ⟨⟨⟨hout, hpolls⟩, hgiven⟩, hf⟩ := hf
          obtain ⟨f', hresume, rfl⟩ := Option.map_eq_some_iff.mp hf
          rw [← h.upper] at hresume
          obtain ⟨u', hstep, hu⟩ := Machine.exists_step_answer (h.current.trans hcurrent) hresume
          refine ⟨u', l, (Transition.Reachable.refl _ _).tail hstep, .refl _ _,
            h.own hout hstretch hu (Feed.answers_other _ hgiven) ?_ ?_ ?_ rfl⟩
          · rw [Feed.others_other _ hgiven, h.upper]
            simp [Machine.atop, hout, hpolls, Stacked.uppers]
          · simp [Machine.atop, hout, hpolls, Stacked.lowers]
          · simp [Machine.atop, hout, hpolls, Stacked.Matched]
      | called =>
          simp only [Machine.atop, Option.ite_none_right_eq_some, Bool.and_eq_true,
            Bool.not_eq_eq_eq_not, Bool.not_true] at hf
          obtain ⟨⟨hout, hpolls⟩, hf⟩ := hf
          have hl : l.current = none := by
            rw [← Option.not_isSome_iff_eq_none, h.inside, hout]
            simp
          obtain ⟨l', hstep, hstretch'⟩ := Machine.exists_step_call (M := L) hl ()
          rw [← h.lower] at hf
          obtain ⟨u', hreach, htracks⟩ := h.within hcurrent hpolls hf hstretch hstretch'
            (by simp [Machine.atop, hout, hpolls, Stacked.uppers])
            (by simp [Machine.atop, hout, hpolls, Stacked.lowers])
            (by simp [Machine.atop, hout, hpolls, Stacked.Matched]) (by simp [hout])
          exact ⟨u', l', hreach, (Transition.Reachable.refl _ _).tail hstep, htracks⟩
      | lower a =>
          simp only [Machine.atop, Option.ite_none_right_eq_some] at hf
          obtain ⟨hin, hf⟩ := hf
          obtain ⟨g, hresume, hf⟩ := Option.bind_eq_some_iff.mp hf
          rw [← h.lower] at hresume
          obtain ⟨l', hstep, hstretch'⟩ := Machine.exists_step_answer (h.inside.trans hin) hresume
          obtain ⟨u', hreach, htracks⟩ := h.within hcurrent (h.waits hin) hf hstretch hstretch'
            (by simp [Machine.atop, hin, Stacked.uppers])
            (by simp [Machine.atop, hin, Stacked.lowers, h.lower])
            (by simp [Machine.atop, hin, Stacked.Matched]) (by simp [hin])
          exact ⟨u', l', hreach, (Transition.Reachable.refl _ _).tail hstep, htracks⟩

/-- **Every run of the stack** is a run of the upper and a run of the lower. -/
theorem tracks_of_run {u₀ : σ} {l₀ : σ₂} {ls : List (Act κ (Answer α α₂))}
    (hrun : (U.atop D L).run (Machine.stack u₀ l₀) ls = some s) :
    ∃ us ls' u l, U.run u₀ us = some u ∧ L.run l₀ ls' = some l ∧ Tracks U D s u l := by
  have hboth : ∃ u l, Transition.Reachable U.step (.start u₀) u ∧
      Transition.Reachable L.step (.start l₀) l ∧ Tracks U D s u l := by
    refine Transition.run_invariant (I := fun s => ∃ u l, Transition.Reachable U.step (.start u₀) u ∧
      Transition.Reachable L.step (.start l₀) l ∧ Tracks U D s u l) ?_
      ⟨_, _, .refl _ _, .refl _ _, .start u₀ l₀⟩ hrun
    rintro s a s' ⟨u, l, hu, hl, h⟩ hs
    obtain ⟨u', l', hu', hl', h'⟩ := h.step hs
    obtain ⟨us, hus⟩ := hu'
    obtain ⟨ls, hls⟩ := hl'
    exact ⟨u', l', hu.trans_run hus, hl.trans_run hls, h'⟩
  obtain ⟨u, l, ⟨us, hus⟩, ⟨ls', hls'⟩, h⟩ := hboth
  exact ⟨us, ls', u, l, hus, hls', h⟩

end

end PollLoop
