/-
Poll loops that know when they have ended.

Such a function has a flag, read between its calls, which may depend on whether a
source that it polls has ended. The contract is `Fused`: a call made under the flag
comes to its end with the result `done` and leaves the flag up, and the flag is up
after every call that returned `done`. What a machine has to show for it is `Fuses`,
one stretch of a call at a time.
-/
import TokioStreamUtil.Lib.PollLoop

set_option autoImplicit false

namespace PollLoop

variable {κ σ θ α ρ : Type*}

/-! ## The source -/

/-- Which answers are those of a source, and by which of them it ends. -/
structure Source (α : Type*) where
  asked : α → Bool
  ended : α → Bool

/-- There is no source. -/
def Source.absent (α : Type*) : Source α := { asked := fun _ => false, ended := fun _ => false }

/-- The source has ended. -/
def State.ended (S : Source α) (s : State κ σ θ α ρ) : Bool := s.log.any fun x => S.ended x.2

/-- A source that has ended gives no other answer. -/
def Source.Obeyed (S : Source α) (s : State κ σ θ α ρ) : Act κ α → Prop
  | .call _ => True
  | .answer a => s.ended S = true → S.asked a = true → S.ended a = true

/-! ## The contract -/

/-- The call in progress comes to its end, whatever allowed answers it gets, and `Q`
holds there. -/
inductive Ends (M : Machine κ σ θ α ρ) (allowed : State κ σ θ α ρ → Act κ α → Prop)
    (Q : State κ σ θ α ρ → Prop) : State κ σ θ α ρ → Prop where
  | idle {s : State κ σ θ α ρ} (hs : s.current = none) (hQ : Q s) : Ends M allowed Q s
  | ask {s : State κ σ θ α ρ}
      (hlive : ∃ a s', allowed s (.answer a) ∧ M.step s (.answer a) = some s')
      (hnext : ∀ a s', allowed s (.answer a) → M.step s (.answer a) = some s' →
        Ends M allowed Q s') : Ends M allowed Q s

section

variable (M : Machine κ σ θ α ρ) (S : Source α) (is_terminated : σ → Bool → Bool) (done : ρ)

/-- The flag of a state, over that of the source. -/
def State.Terminated (s : State κ σ θ α ρ) : Prop := is_terminated s.self (s.ended S) = true

/-- The contract, in one state. -/
structure Fused (s : State κ σ θ α ρ) : Prop where
  stays : s.current = none → s.Terminated S is_terminated →
    ∀ k s', M.step s (.call k) = some s' → Ends M S.Obeyed
      (fun e => (results e.calls).getLast? = some done ∧ e.Terminated S is_terminated) s'
  ended : s.current = none → (results s.calls).getLast? = some done →
    s.Terminated S is_terminated

/-- The contract, in every state of every run over a source that stays ended. -/
def Machine.AlwaysFused (new : σ) : Prop :=
  ∀ ls s, Transition.Along M.step S.Obeyed (.start new) ls → M.run new ls = some s →
    Fused M S is_terminated done s

/-! ## The rule -/

/-- A stretch ends where the invariants hold, and under the flag if it returns `done`. -/
def Flow.Leaves (I J : σ → Prop) (source_ended : Bool) : Flow σ ρ → Prop
  | .again s => J s
  | .ret r s => I s ∧ (r = done → is_terminated s source_ended = true)

/-- What the source may answer. -/
def Source.Allows (source_ended : Bool) (a : α) : Prop :=
  source_ended = true → S.asked a = true → S.ended a = true

/-- A stretch returns `done` under the flag, or asks one question and does so then. -/
def Flow.Stops (source_ended : Bool) : Flow σ ρ → Prop
  | .ret r s => r = done ∧ is_terminated s source_ended = true
  | .again s =>
      (∃ a f, S.Allows source_ended a ∧ M.resume s a = some f) ∧
      ∀ a f, S.Allows source_ended a → M.resume s a = some f →
        ∃ s', f = .ret done s' ∧ is_terminated s' (source_ended || S.ended a) = true

/-- What a machine has to show: `I` holds between calls and `J` at the head of the
loop, a result `done` is returned under the flag, and a call made under the flag stops. -/
structure Machine.Fuses (I J : σ → Prop) : Prop where
  enter : ∀ k s b, I s → (M.enter k s).Leaves is_terminated done I J b
  resume : ∀ s a f b, J s → S.Allows b a → M.resume s a = some f →
    f.Leaves is_terminated done I J (b || S.ended a)
  stops : ∀ k s b, I s → is_terminated s b = true → (M.enter k s).Stops M S is_terminated done b

variable {M S is_terminated done} {I J : σ → Prop} {s : State κ σ θ α ρ}

theorem ended_of_idle (hs : s.current = none) :
    s.ended S = (log s.calls).any fun x => S.ended x.2 := by
  unfold State.ended State.log
  rw [hs]

theorem ended_of_asked {k : κ} {asked : List (θ × α)} (hs : s.current = some (k, asked)) :
    s.ended S = (log s.calls ++ asked).any fun x => S.ended x.2 := by
  unfold State.ended State.log
  rw [hs]

/-- One question more: the source has ended if it had, or does by the answer. -/
theorem any_concat (l : List (θ × α)) (q : θ) (a : α) :
    (l ++ [(q, a)]).any (fun x => S.ended x.2) = (l.any (fun x => S.ended x.2) || S.ended a) := by
  rw [List.any_append, List.any_cons, List.any_nil, Bool.or_false]

/-- What holds between calls: the invariant, and the flag after `done`. -/
def Closed (S : Source α) (is_terminated : σ → Bool → Bool) (done : ρ) (I : σ → Prop) (s : σ)
    (calls : List (Call κ θ α ρ)) : Prop :=
  I s ∧ ((results calls).getLast? = some done →
    is_terminated s ((log calls).any fun x => S.ended x.2) = true)

/-- A stretch that leaves the invariants keeps what holds between calls. -/
theorem Flow.Leaves.keeps {f : Flow σ ρ} {calls : List (Call κ θ α ρ)} {k : κ}
    {asked : List (θ × α)} {b : Bool} (h : f.Leaves is_terminated done I J b)
    (hb : b = (log calls ++ asked).any fun x => S.ended x.2) :
    f.Keeps (Closed S is_terminated done I) (fun s _ _ _ => J s) calls k asked := by
  cases f with
  | again s => exact h
  | ret r s =>
      refine ⟨h.1, fun hlast => ?_⟩
      rw [results_concat, List.getLast?_append, List.getLast?_singleton, Option.some_or,
        Option.some.injEq] at hlast
      rw [log_concat, ← hb]
      exact h.2 hlast

/-- A call that returns `done` under the flag has come to its end. -/
theorem ends_ret {calls : List (Call κ θ α ρ)} (k : κ) {asked : List (θ × α)} {s : σ}
    (hflag : is_terminated s ((log calls ++ asked).any fun x => S.ended x.2) = true) :
    Ends M S.Obeyed
      (fun e => (results e.calls).getLast? = some done ∧ e.Terminated S is_terminated)
      ((Flow.ret done s).state calls k asked) := by
  refine .idle rfl ⟨?_, ?_⟩
  · show (results (calls ++ [_])).getLast? = _
    rw [results_concat, List.getLast?_append, List.getLast?_singleton]
    rfl
  · unfold State.Terminated
    rw [ended_of_idle rfl]
    show is_terminated s ((log (calls ++ [_])).any _) = true
    rw [log_concat]
    exact hflag

/-- A call that asks comes to its end when, after every allowed answer, the stretch that
follows does. -/
theorem ends_again {Q : State κ σ θ α ρ → Prop} {calls : List (Call κ θ α ρ)} {k : κ}
    {asked : List (θ × α)} {s : σ} {b : Bool}
    (hb : b = (log calls ++ asked).any fun x => S.ended x.2)
    (hlive : ∃ a f, S.Allows b a ∧ M.resume s a = some f)
    (hnext : ∀ a f, S.Allows b a → M.resume s a = some f →
      Ends M S.Obeyed Q (f.state calls k (asked ++ [(M.asks s, a)]))) :
    Ends M S.Obeyed Q ((Flow.again s : Flow σ ρ).state calls k asked) := by
  have hended : State.ended S ((Flow.again s : Flow σ ρ).state calls k asked) = b := by
    rw [ended_of_asked rfl, hb]
    rfl
  obtain ⟨a, f, hallow, hresume⟩ := hlive
  refine .ask ⟨a, f.state calls k (asked ++ [(M.asks s, a)]), ?_, ?_⟩ ?_
  · intro h hasked
    exact hallow (hended.symm.trans h) hasked
  · show (M.resume s a).map _ = _
    rw [hresume]
    rfl
  · intro a s' hallow hstep
    obtain ⟨f, hf, rfl⟩ := Option.map_eq_some_iff.mp hstep
    exact hnext a f (fun h hasked => hallow (hended.trans h) hasked) hf

/-- A call made under the flag stops. -/
theorem Flow.Stops.ends {f : Flow σ ρ} {calls : List (Call κ θ α ρ)} {k : κ} {b : Bool}
    (h : f.Stops M S is_terminated done b) (hb : b = (log calls).any fun x => S.ended x.2) :
    Ends M S.Obeyed
      (fun e => (results e.calls).getLast? = some done ∧ e.Terminated S is_terminated)
      (f.state calls k []) := by
  cases f with
  | ret r s =>
      obtain ⟨rfl, hflag⟩ := h
      refine ends_ret k ?_
      rw [List.append_nil, ← hb]
      exact hflag
  | again s =>
      refine ends_again (by rw [List.append_nil, hb]) h.1 ?_
      intro a f hallow hresume
      obtain ⟨s', rfl, hflag⟩ := h.2 a f hallow hresume
      refine ends_ret k ?_
      rw [List.nil_append, any_concat, ← hb]
      exact hflag

/-- Where every stretch leaves the invariants, a machine is fused if the calls made under
the flag come to their end. -/
theorem alwaysFused_of_leaves {new : σ} (hnew : I new)
    (henter : ∀ k s b, I s → (M.enter k s).Leaves is_terminated done I J b)
    (hresume : ∀ s a f b, J s → S.Allows b a → M.resume s a = some f →
      f.Leaves is_terminated done I J (b || S.ended a))
    (hends : ∀ k s (calls : List (Call κ θ α ρ)), I s →
      is_terminated s ((log calls).any fun x => S.ended x.2) = true →
      Ends M S.Obeyed
        (fun e => (results e.calls).getLast? = some done ∧ e.Terminated S is_terminated)
        ((M.enter k s).state calls k [])) :
    M.AlwaysFused S is_terminated done new := by
  intro ls s halong hrun
  have hholds : s.Holds (Closed S is_terminated done I) (fun s _ _ _ => J s) := by
    refine run_keeps_along ⟨hnew, by simp [results]⟩ ?_ ?_ halong hrun
    · intro s k _ _ hclosed
      refine (henter k s.self ((log s.calls).any fun x => S.ended x.2) hclosed.1).keeps ?_
      rw [List.append_nil]
    · intro s k asked a f hcurrent hallow hJ hf
      refine (hresume s.self a f (s.ended S) hJ hallow hf).keeps ?_
      rw [← List.append_assoc, any_concat, ended_of_asked hcurrent]
  refine ⟨?_, ?_⟩
  · intro hcurrent hterm k s' hstep
    unfold Machine.step at hstep
    rw [hcurrent] at hstep
    cases hstep
    refine hends k s.self s.calls (hholds.idle hcurrent).1 ?_
    rw [← ended_of_idle hcurrent]
    exact hterm
  · intro hcurrent hlast
    unfold State.Terminated
    rw [ended_of_idle hcurrent]
    exact (hholds.idle hcurrent).2 hlast

/-- **The rule.** A machine that fuses is fused in every state of every run. -/
theorem Machine.Fuses.always {new : σ} (h : M.Fuses S is_terminated done I J) (hnew : I new) :
    M.AlwaysFused S is_terminated done new := by
  refine alwaysFused_of_leaves hnew h.enter h.resume ?_
  intro k s calls hs hflag
  exact (h.stops k s _ hs hflag).ends rfl

end

end PollLoop
