/-
A fused machine over a fused machine.

The flag of a stack is that of the upper over that of the lower. So the upper may be told
that its source has ended before the source has said so: the flag of the lower is up, and
its next call is going to return `done`. What a machine has to show is therefore said
under either value of the flag below it (`FusesOver`). A stack of two machines that show it
shows it again.
-/
import TokioStreamUtil.Lib.FusedLoop
import TokioStreamUtil.Lib.Stacked

set_option autoImplicit false

namespace PollLoop

variable {σ θ α β ρ σ₂ θ₂ α₂ ρ₂ : Type*}

/-- The source that a machine polls, and by which of its answers it ends. -/
def Feed.source (D : Feed θ α β) (ends : β → Bool) : Source α where
  asked := fun a => (D.given a).isSome
  ended := fun a => (D.given a).any ends

instance {κ : Type*} (S : Source α) (s : State κ σ θ α ρ) : (a : Act κ α) → Decidable (S.Obeyed s a)
  | .call _ => inferInstanceAs (Decidable True)
  | .answer a => inferInstanceAs
      (Decidable (s.ended S = true → S.asked a = true → S.ended a = true))

section

variable {D : Feed θ α β} {ends : β → Bool} {a : α} {b : Bool}

@[simp] theorem Feed.source_ended_reply (r : β) : (D.source ends).ended (D.reply r) = ends r := by
  simp [source, D.given_reply]

theorem Feed.source_ended_other (h : (D.given a).isSome = false) :
    (D.source ends).ended a = false := by
  rw [Option.isSome_eq_false_iff, Option.isNone_iff_eq_none] at h
  simp [source, h]

theorem Feed.allows_reply {r : β} (h : b = true → ends r = true) :
    (D.source ends).Allows b (D.reply r) :=
  fun hb _ => (source_ended_reply r).trans (h hb)

/-- Others than the source answer as they like. -/
theorem Feed.allows_other (h : (D.given a).isSome = false) : (D.source ends).Allows b a :=
  fun _ hasked => absurd (h.symm.trans hasked) Bool.false_ne_true

end

/-! ## The rule -/

section

variable (M : Machine Unit σ θ α ρ) (D : Feed θ α β) (ends : β → Bool)
  (is_terminated : σ → Bool → Bool) (done : ρ)

/-- A call that was made under the flag, from one of its stretches on: it polls the source
only if that has ended, and it returns `done` under the flag. -/
inductive Finishes : Bool → Flow σ ρ → Prop where
  | ret {b : Bool} {s : σ} (hflag : is_terminated s b = true) : Finishes b (.ret done s)
  | ask {b : Bool} {s : σ} (hpolls : D.polls (M.asks s) = true → b = true)
      (hlive : ∃ a f, (D.source ends).Allows b a ∧ M.resume s a = some f)
      (hnext : ∀ a f, (D.source ends).Allows b a → M.resume s a = some f →
        Finishes (b || (D.source ends).ended a) f) : Finishes b (.again s)

/-- What a machine has to show under either value of the flag below it. `I` holds between
calls and `J` at the head of the loop. -/
structure Machine.FusesOver (I J : σ → Prop) : Prop where
  enter : ∀ s b, I s → (M.enter () s).Leaves is_terminated done I J b
  resume : ∀ s a f b, J s → (D.source ends).Allows b a → M.resume s a = some f →
    f.Leaves is_terminated done I J (b || (D.source ends).ended a)
  finishes : ∀ s b, I s → is_terminated s b = true →
    Finishes M D ends is_terminated done b (M.enter () s)
  mono : ∀ s, is_terminated s false = true → is_terminated s true = true
  /-- Just the polls of the source are answered by the source, and by any of its results. -/
  given : ∀ s a f, M.resume s a = some f → (D.given a).isSome = D.polls (M.asks s)
  polled : ∀ s r, J s → D.polls (M.asks s) = true → ∃ f, M.resume s (D.reply r) = some f

variable {M D ends is_terminated done} {I J : σ → Prop}

/-- Such a call comes to its end, whatever allowed answers it gets. -/
theorem Finishes.ends_of_state {f : Flow σ ρ} {b : Bool}
    (h : Finishes M D ends is_terminated done b f) (calls : List (Call Unit θ α ρ))
    (asked : List (θ × α)) (hb : b = (log calls ++ asked).any fun x => (D.source ends).ended x.2) :
    Ends M (D.source ends).Obeyed
      (fun e => (results e.calls).getLast? = some done ∧ e.Terminated (D.source ends) is_terminated)
      (f.state calls () asked) := by
  induction h generalizing asked with
  | ret hflag =>
      refine ends_ret () ?_
      rw [← hb]
      exact hflag
  | ask _ hlive _ ih =>
      refine ends_again hb hlive ?_
      intro a f hallow hf
      refine ih a f hallow hf _ ?_
      rw [← List.append_assoc, any_concat, ← hb]

/-- A machine that shows it is fused in every state of every run. -/
theorem Machine.FusesOver.always {new : σ} (h : M.FusesOver D ends is_terminated done I J)
    (hnew : I new) : M.AlwaysFused (D.source ends) is_terminated done new := by
  refine alwaysFused_of_leaves hnew (fun _ => h.enter) h.resume ?_
  intro k s calls hs hflag
  refine (h.finishes s _ hs hflag).ends_of_state calls [] ?_
  rw [List.append_nil]

end

/-! ## Stacks -/

/-- The flag of a stack. -/
def Stacked.is_terminated (upper : σ → Bool → Bool) (lower : σ₂ → Bool → Bool)
    (s : Stacked σ σ₂) (b : Bool) : Bool :=
  upper s.upper (lower s.lower b)

/-- Between calls of the stack, both are between calls. -/
structure Stacked.Between (I : σ → Prop) (I₂ : σ₂ → Prop) (s : Stacked σ σ₂) : Prop where
  upper : I s.upper
  lower : I₂ s.lower
  outside : s.inside = false

/-- The upper has asked. The lower is inside a call only by a poll of the upper. -/
structure Stacked.Asking (U : Machine Unit σ θ α ρ) (D : Feed θ α ρ₂) (J : σ → Prop)
    (I₂ J₂ : σ₂ → Prop) (s : Stacked σ σ₂) : Prop where
  upper : J s.upper
  outside : s.inside = false → I₂ s.lower
  inside : s.inside = true → D.polls (U.asks s.upper) = true ∧ J₂ s.lower

section

variable {U : Machine Unit σ θ α ρ} {D : Feed θ α ρ₂} {L : Machine Unit σ₂ θ₂ α₂ ρ₂}
  {D₂ : Feed θ₂ α₂ β} {ends : ρ₂ → Bool} {ends₂ : β → Bool} {flag : σ → Bool → Bool}
  {flag₂ : σ₂ → Bool → Bool} {done : ρ} {done₂ : ρ₂} {I J : σ → Prop} {I₂ J₂ : σ₂ → Prop}

/-- What goes on with an answer to the stack. -/
theorem Machine.resume_atop {s : Stacked σ σ₂} {a : Stacked.Answer α α₂}
    {f : Flow (Stacked σ σ₂) ρ} (h : (U.atop D L).resume s a = some f) :
    (∃ x f', a = .upper x ∧ s.inside = false ∧ D.polls (U.asks s.upper) = false ∧
      (D.given x).isSome = false ∧ U.resume s.upper x = some f' ∧ f = f'.atop s.lower) ∨
    (a = .called ∧ s.inside = false ∧ D.polls (U.asks s.upper) = true ∧
      U.within D s.upper (L.enter () s.lower) = some f) ∨
    ∃ x g, a = .lower x ∧ s.inside = true ∧ L.resume s.lower x = some g ∧
      U.within D s.upper g = some f := by
  cases a with
  | upper x =>
      obtain ⟨hguard, h⟩ := Option.ite_none_right_eq_some.mp h
      obtain ⟨f', hf', rfl⟩ := Option.map_eq_some_iff.mp h
      simp only [Bool.and_eq_true, Bool.not_eq_true', Option.isNone_iff_eq_none] at hguard
      obtain ⟨⟨hout, hpolls⟩, hgiven⟩ := hguard
      exact Or.inl ⟨x, f', rfl, hout, hpolls, by rw [hgiven]; rfl, hf', rfl⟩
  | called =>
      obtain ⟨hguard, h⟩ := Option.ite_none_right_eq_some.mp h
      simp only [Bool.and_eq_true, Bool.not_eq_true'] at hguard
      exact Or.inr (Or.inl ⟨rfl, hguard.1, hguard.2, h⟩)
  | lower x =>
      obtain ⟨hin, h⟩ := Option.ite_none_right_eq_some.mp h
      obtain ⟨g, hg, hf⟩ := Option.bind_eq_some_iff.mp h
      exact Or.inr (Or.inr ⟨x, g, rfl, hin, hg, hf⟩)

namespace Machine.FusesOver

/-- A flag that is up over a running source is up. -/
theorem flag_of_running (h : U.FusesOver D ends flag done I J) {s : σ} (hs : flag s false = true)
    (b : Bool) : flag s b = true := by
  cases b with
  | false => exact hs
  | true => exact h.mono s hs

/-- The upper goes on when it has polled. -/
theorem exists_within (h : U.FusesOver D ends flag done I J) {u : σ} (hJ : J u)
    (hpolls : D.polls (U.asks u) = true) (g : Flow σ₂ ρ₂) : ∃ f, U.within D u g = some f :=
  Machine.exists_within (fun r => h.polled u r hJ hpolls) g

/-- A stretch of the upper alone. -/
theorem leaves_atop {f : Flow σ ρ} {l : σ₂} {b : Bool} (hf : f.Leaves flag done I J (flag₂ l b))
    (hl : I₂ l) : (f.atop l).Leaves (Stacked.is_terminated flag flag₂) done
      (Stacked.Between I I₂) (Stacked.Asking U D J I₂ J₂) b := by
  cases f with
  | again u => exact ⟨hf, fun _ => hl, fun hin => absurd hin Bool.false_ne_true⟩
  | ret r u => exact ⟨⟨hf.1, hl, rfl⟩, hf.2⟩

/-- A stretch of the lower, and of the upper if the lower has returned. -/
theorem leaves_within (h : U.FusesOver D ends flag done I J)
    (hends : ∀ r, ends r = true → r = done₂) {u : σ} (hJ : J u)
    (hpolls : D.polls (U.asks u) = true) {g : Flow σ₂ ρ₂} {b : Bool}
    (hg : g.Leaves flag₂ done₂ I₂ J₂ b) {f : Flow (Stacked σ σ₂) ρ}
    (hf : U.within D u g = some f) :
    f.Leaves (Stacked.is_terminated flag flag₂) done (Stacked.Between I I₂)
      (Stacked.Asking U D J I₂ J₂) b := by
  cases g with
  | again l =>
      cases hf
      exact ⟨hJ, fun hout => absurd hout.symm Bool.false_ne_true, fun _ => ⟨hpolls, hg⟩⟩
  | ret r l =>
      obtain ⟨f', hf', rfl⟩ := Option.map_eq_some_iff.mp hf
      have hleaves := h.resume u _ f' false hJ
        (Feed.allows_reply fun hb => absurd hb Bool.false_ne_true) hf'
      rw [Feed.source_ended_reply, Bool.false_or] at hleaves
      refine leaves_atop ?_ hg.1
      cases f' with
      | again u' => exact hleaves
      | ret r' u' =>
          refine ⟨hleaves.1, fun hdone => ?_⟩
          have hflag := hleaves.2 hdone
          cases hr : ends r with
          | true =>
              -- the lower has returned `done`, so its flag is up
              rw [hr] at hflag
              rw [hg.2 (hends r hr)]
              exact hflag
          | false =>
              rw [hr] at hflag
              exact h.flag_of_running hflag _

/-- The lower comes to its end first, and the upper goes on with `done`. -/
theorem finishes_within (h : U.FusesOver D ends flag done I J)
    (h₂ : L.FusesOver D₂ ends₂ flag₂ done₂ I₂ J₂) {u : σ} (hJ : J u)
    (hpolls : D.polls (U.asks u) = true)
    (hnext : ∀ f b l, U.resume u (D.reply done₂) = some f → I₂ l → flag₂ l b = true →
      Finishes (U.atop D L) (Stacked.feed θ α D₂) ends₂ (Stacked.is_terminated flag flag₂) done b
        (f.atop l))
    {g : Flow σ₂ ρ₂} {b : Bool} (hg : Finishes L D₂ ends₂ flag₂ done₂ b g)
    (hleaves : g.Leaves flag₂ done₂ I₂ J₂ b) {f : Flow (Stacked σ σ₂) ρ}
    (hf : U.within D u g = some f) :
    Finishes (U.atop D L) (Stacked.feed θ α D₂) ends₂ (Stacked.is_terminated flag flag₂) done b f := by
  -- the upper stands still meanwhile, so the induction is on the call of the lower
  induction hg generalizing f with
  | @ret b l hflag =>
      obtain ⟨f', hf', rfl⟩ := Option.map_eq_some_iff.mp hf
      exact hnext f' b l hf' hleaves.1 hflag
  | @ask b l hbase hlive _ ih =>
      cases hf
      refine .ask hbase ?_ ?_
      · obtain ⟨a, g, hallow, hg⟩ := hlive
        obtain ⟨f, hf⟩ := h.exists_within hJ hpolls g
        refine ⟨.lower a, f, hallow, ?_⟩
        show (L.resume l a).bind (U.within D u) = some f
        rw [hg]
        exact hf
      · intro a f hallow hresume
        rcases Machine.resume_atop hresume with ⟨_, _, _, hout, _⟩ | ⟨_, hout, _⟩ | ⟨a, g, rfl, _, hg, hf⟩
        · exact absurd hout.symm Bool.false_ne_true
        · exact absurd hout.symm Bool.false_ne_true
        · exact ih a g hallow hg (h₂.resume l a g b hleaves hallow hg) hf

/-- A call of the stack comes to its end as that of the upper does. -/
theorem finishes_atop (h : U.FusesOver D ends flag done I J)
    (h₂ : L.FusesOver D₂ ends₂ flag₂ done₂ I₂ J₂) (hdone : ends done₂ = true)
    {f : Flow σ ρ} {bU : Bool} (hf : Finishes U D ends flag done bU f)
    (hleaves : f.Leaves flag done I J bU) {b : Bool} {l : σ₂} (hl : I₂ l) (hb : flag₂ l b = bU) :
    Finishes (U.atop D L) (Stacked.feed θ α D₂) ends₂ (Stacked.is_terminated flag flag₂) done b
      (f.atop l) := by
  -- by induction on the call of the upper, over every lower under the same flag
  induction hf generalizing b l with
  | @ret bU u hflag =>
      refine .ret ?_
      show flag u (flag₂ l b) = true
      rw [hb]
      exact hflag
  | @ask bU u hbase hlive hnext ih =>
      have hpolling : (Stacked.feed θ α D₂).polls ((U.atop D L).asks (Machine.stack u l)) = false := by
        cases hpolls : D.polls (U.asks u) <;> simp [Machine.atop, Machine.stack, Stacked.feed, hpolls]
      refine .ask (fun hp => absurd (hpolling.symm.trans hp) Bool.false_ne_true) ?_ ?_
      · cases hpolls : D.polls (U.asks u) with
        | true =>
            obtain ⟨f, hf⟩ := h.exists_within hleaves hpolls (L.enter () l)
            refine ⟨.called, f, Feed.allows_other rfl, ?_⟩
            show (if !false && D.polls (U.asks u) then _ else none) = _
            rw [hpolls]
            exact hf
        | false =>
            obtain ⟨a, f, -, hf⟩ := hlive
            have hgiven : (D.given a).isSome = false := (h.given u a f hf).trans hpolls
            refine ⟨.upper a, f.atop l, Feed.allows_other rfl, ?_⟩
            show (if !false && !D.polls (U.asks u) && (D.given a).isNone then _ else none) = _
            rw [hpolls, ← Option.not_isSome, hgiven, hf]
            rfl
      · intro a f hallow hresume
        rcases Machine.resume_atop hresume with
          ⟨a, f, rfl, _, _, hgiven, hf, rfl⟩ | ⟨rfl, _, hpolls, hf⟩ | ⟨_, _, _, hin, _⟩
        · -- the upper goes on alone
          have hallow' : (D.source ends).Allows bU a := Feed.allows_other hgiven
          refine ih a f hallow' hf (h.resume u a f bU hleaves hallow' hf) hl ?_
          rw [Feed.source_ended_other hgiven, Bool.or_false,
            show ((Stacked.feed θ α D₂).source ends₂).ended (.upper a) = false from rfl, Bool.or_false]
          exact hb
        · -- it polls the lower, whose flag is up
          rw [show ((Stacked.feed θ α D₂).source ends₂).ended .called = false from rfl, Bool.or_false]
          have hup := hbase hpolls
          refine h.finishes_within h₂ hleaves hpolls ?_ (h₂.finishes l b hl (hb.trans hup))
            (h₂.enter l b hl) hf
          intro f b' l' hf' hl' hb'
          have hallow' : (D.source ends).Allows bU (D.reply done₂) := Feed.allows_reply fun _ => hdone
          refine ih _ f hallow' hf' (h.resume u _ f bU hleaves hallow' hf') hl' ?_
          rw [hb', hup]
          rfl
        · exact absurd hin Bool.false_ne_true

/-- **Stacks fuse.** -/
theorem atop (h : U.FusesOver D ends flag done I J) (h₂ : L.FusesOver D₂ ends₂ flag₂ done₂ I₂ J₂)
    (hends : ∀ r, ends r = true ↔ r = done₂) :
    (U.atop D L).FusesOver (Stacked.feed θ α D₂) ends₂ (Stacked.is_terminated flag flag₂) done
      (Stacked.Between I I₂) (Stacked.Asking U D J I₂ J₂) where
  enter := fun s b hs => leaves_atop (h.enter s.upper _ hs.upper) hs.lower
  resume := by
    intro s a f b hs hallow hresume
    rcases Machine.resume_atop hresume with
      ⟨a, f, rfl, hout, _, hgiven, hf, rfl⟩ | ⟨rfl, hout, hpolls, hf⟩ | ⟨a, g, rfl, hin, hg, hf⟩
    · rw [show ((Stacked.feed θ α D₂).source ends₂).ended (.upper a) = false from rfl, Bool.or_false]
      refine leaves_atop ?_ (hs.outside hout)
      have hleaves := h.resume s.upper a f (flag₂ s.lower b) hs.upper (Feed.allows_other hgiven) hf
      rw [Feed.source_ended_other hgiven, Bool.or_false] at hleaves
      exact hleaves
    · rw [show ((Stacked.feed θ α D₂).source ends₂).ended .called = false from rfl, Bool.or_false]
      exact h.leaves_within (fun r => (hends r).mp) hs.upper hpolls
        (h₂.enter s.lower b (hs.outside hout)) hf
    · obtain ⟨hpolls, hJ⟩ := hs.inside hin
      exact h.leaves_within (fun r => (hends r).mp) hs.upper hpolls
        (h₂.resume s.lower a g b hJ hallow hg) hf
  finishes := fun s b hs hflag => h.finishes_atop h₂ ((hends done₂).mpr rfl)
    (h.finishes s.upper _ hs.upper hflag) (h.enter s.upper _ hs.upper) hs.lower rfl
  mono := by
    intro s hs
    unfold Stacked.is_terminated at hs ⊢
    cases hlower : flag₂ s.lower false with
    | false =>
        -- the upper says so whatever the lower says
        rw [hlower] at hs
        exact h.flag_of_running hs _
    | true =>
        rw [hlower] at hs
        rw [h₂.mono s.lower hlower]
        exact hs
  given := by
    intro s a f hresume
    rcases Machine.resume_atop hresume with
      ⟨a, f, rfl, hout, hpolls, _⟩ | ⟨rfl, hout, hpolls, _⟩ | ⟨a, g, rfl, hin, hg, _⟩
    · simp [Machine.atop, Stacked.feed, hout, hpolls]
    · simp [Machine.atop, Stacked.feed, hout, hpolls]
    · simp only [Machine.atop, hin, if_true]
      exact h₂.given s.lower a g hg
  polled := by
    intro s r hs hpolls
    cases hin : s.inside with
    | false =>
        -- only the lower polls the base
        cases hupper : D.polls (U.asks s.upper) <;>
          simp [Machine.atop, Stacked.feed, hin, hupper] at hpolls
    | true =>
        obtain ⟨hupper, hJ⟩ := hs.inside hin
        simp only [Machine.atop, hin, if_true] at hpolls
        obtain ⟨g, hg⟩ := h₂.polled s.lower r hJ hpolls
        obtain ⟨f, hf⟩ := h.exists_within hs.upper hupper g
        refine ⟨f, ?_⟩
        show (if s.inside = true then (L.resume s.lower (D₂.reply r)).bind _ else none) = _
        rw [if_pos hin, hg]
        exact hf

end Machine.FusesOver

end

end PollLoop
