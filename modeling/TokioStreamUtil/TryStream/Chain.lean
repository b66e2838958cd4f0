/-
Chains of adaptors.

`stream.try_filter(p).and_then(f).map_ok(g)` is a `MapOk` over an `AndThen` over a `TryFilter`
over the stream. Each of them polls the one below it, which runs to its own result first.
The machine of a chain is the stack of the machines, and its environment is the base at the
bottom and the futures of all adaptors, which answer as they like.

What one adaptor does over any base carries over to a chain, by induction on the chain: the
base of an adaptor is then the chain below it, whose results are what the adaptor is
answered.
-/
import TokioStreamUtil.Lib.FusedStack
import TokioStreamUtil.TryStream.Mapped
import TokioStreamUtil.TryStream.While

set_option autoImplicit false

namespace TokioStreamUtil

open PollLoop OneAtATime OneByOne

/-! ## Streams over a base -/

/-- A stream over a base of items `Except E T`: its machine, how it polls the base, its
fields at first, and over those of the base `size_hint` and, where it implements
`FusedStream`, `is_terminated`. `yields` is the list function it is to compute, from the items
of the base and what others than the base have answered. `pends` tells the pending answers. -/
structure Pipe (T E U E' : Type) : Type 1 where
  σ : Type
  θ : Type
  α : Type
  machine : Machine Unit σ θ α (TryPoll U E')
  feed : Feed θ α (TryPoll T E)
  new : σ
  size_hint : ∀ MAX, σ → SizeHint MAX → SizeHint MAX
  is_terminated : Option (σ → Bool → Bool)
  yields : List (Except E T) → List (θ × α) → List (Except E' U)
  pends : α → Bool

namespace Pipe

/-- A stream over a stream. -/
def atop {T E T₂ E₂ T₃ E₃ : Type} (U : Pipe T₂ E₂ T₃ E₃) (L : Pipe T E T₂ E₂) :
    Pipe T E T₃ E₃ where
  σ := Stacked U.σ L.σ
  θ := Stacked.Question U.θ L.θ
  α := Stacked.Answer U.α L.α
  machine := U.machine.atop U.feed L.machine
  feed := Stacked.feed U.θ U.α L.feed
  new := Machine.stack U.new L.new
  size_hint := fun MAX s hint => U.size_hint MAX s.upper (L.size_hint MAX s.lower hint)
  is_terminated := U.is_terminated.bind fun upper =>
    L.is_terminated.map (Stacked.is_terminated upper)
  yields := fun xs log => U.yields (L.yields xs (Stacked.lowers log)) (Stacked.uppers log)
  pends := fun
    | .upper a => U.pends a
    | .called => false
    | .lower a => L.pends a

variable {T E U E' : Type}

/-- What stands before the first `None` is what the list function makes of what the base has
given before its first `None`, in every state of every run. -/
def Computes (P : Pipe T E U E') : Prop :=
  ∀ ls s, P.machine.run P.new ls = some s →
    untilEnd (results s.calls) = P.yields (untilEnd (P.feed.answers s.log)) (P.feed.others s.log)

/-- A hint that is right about what the base gives from some state between calls on makes
one that is right about what the stream yields from there on. -/
def Estimates (P : Pipe T E U E') : Prop :=
  ∀ ls s, P.machine.run P.new ls = some s → s.current = none →
    ∀ later, P.machine.Continues s later → ∀ (MAX : ℕ) (hint : SizeHint MAX),
      hint.Brackets (.ready none ∈ P.feed.answers (log later))
        (untilEnd (P.feed.answers (log later))).length →
      (P.size_hint MAX s.self hint).Brackets (.ready none ∈ results later)
        (untilEnd (results later)).length

/-- A stretch of a call is pending only by a pending answer. -/
structure Waits (P : Pipe T E U E') : Prop where
  enter : ∀ s s', P.machine.enter () s ≠ .ret .pending s'
  resume : ∀ s a s', P.machine.resume s a = some (.ret .pending s') → P.pends a = true
  reply : ∀ r, P.pends (P.feed.reply r) = true → r = .pending

end Pipe

/-! ## Stacks keep the laws -/

namespace Pipe

section

variable {T E T₂ E₂ T₃ E₃ : Type} {U : Pipe T₂ E₂ T₃ E₃} {L : Pipe T E T₂ E₂}

/-- The list function of the stack, from what was asked below and above. -/
theorem yields_atop {log : List (Stacked.Question U.θ L.θ × Stacked.Answer U.α L.α)}
    (h : Stacked.Matched log) :
    (U.atop L).yields (untilEnd ((U.atop L).feed.answers log)) ((U.atop L).feed.others log) =
      U.yields (L.yields (untilEnd (L.feed.answers (Stacked.lowers log)))
        (L.feed.others (Stacked.lowers log))) (Stacked.uppers log) := by
  show U.yields (L.yields (untilEnd ((Stacked.feed U.θ U.α L.feed).answers log))
    (Stacked.lowers ((Stacked.feed U.θ U.α L.feed).others log)))
    (Stacked.uppers ((Stacked.feed U.θ U.α L.feed).others log)) = _
  rw [h.answers, Stacked.lowers_others, Stacked.uppers_others]

/-- The stack computes the one function after the other. -/
theorem Computes.atop (hU : U.Computes) (hL : L.Computes) : (U.atop L).Computes := by
  intro ls s hrun
  obtain ⟨us, ls', u, l, hu, hl, h⟩ :=
    tracks_of_run (U := U.machine) (D := U.feed) (L := L.machine) hrun
  have hupper := hU us u hu
  -- the upper was given what the lower has returned
  rw [h.results, h.fed, hL ls' l hl, h.lowers, h.uppers] at hupper
  exact hupper.trans (yields_atop h.matched).symm

/-- The hint of the upper is asked over that of the lower. -/
theorem Estimates.atop (hU : U.Estimates) (hL : L.Estimates) : (U.atop L).Estimates := by
  intro ls s hrun hidle later hlater MAX hint hbase
  obtain ⟨us, ls', u, l, hu, hl, h⟩ :=
    tracks_of_run (U := U.machine) (D := U.feed) (L := L.machine) hrun
  obtain ⟨huidle, hlidle, hself⟩ := h.idle hidle
  -- what follows is a run of each as well
  obtain ⟨ls₂, s₂, hrun₂, hidle₂, rfl⟩ := (Machine.continues_iff hidle).mp hlater
  rw [hself] at hrun₂
  obtain ⟨us₂, ls₂', u₂, l₂, hu₂, hl₂, h₂⟩ :=
    tracks_of_run (U := U.machine) (D := U.feed) (L := L.machine) hrun₂
  obtain ⟨huidle₂, hlidle₂, -⟩ := h₂.idle hidle₂
  rw [← h.upper] at hu₂
  rw [← h.lower] at hl₂
  have hlater_u := (Machine.continues_iff huidle).mpr ⟨us₂, u₂, hu₂, huidle₂, rfl⟩
  have hlater_l := (Machine.continues_iff hlidle).mpr ⟨ls₂', l₂, hl₂, hlidle₂, rfl⟩
  have hgiven : (U.atop L).feed.answers (log s₂.calls) = L.feed.answers (log l₂.calls) := by
    rw [← State.log_of_idle hidle₂, ← State.log_of_idle hlidle₂, h₂.lowers]
    exact h₂.matched.answers
  have hfed : U.feed.answers (log u₂.calls) = results l₂.calls := by
    rw [← State.log_of_idle huidle₂]
    exact h₂.fed
  rw [hgiven] at hbase
  have hlower := hL ls' l hl hlidle _ hlater_l MAX hint hbase
  rw [← hfed] at hlower
  have hupper := hU us u hu huidle _ hlater_u MAX _ hlower
  rw [h.upper, h.lower, h₂.results] at hupper
  exact hupper

/-- The stack is pending when the upper is, and that is when its own answer or the lower is. -/
theorem Waits.atop (hU : U.Waits) (hL : L.Waits) : (U.atop L).Waits where
  enter := by
    intro s s' h
    obtain ⟨u, hu⟩ := Flow.ret_of_atop h
    exact hU.enter s.upper u hu
  resume := by
    -- the lower has returned, and the upper is pending by its result
    have hwithin : ∀ (u : U.σ) (g : Flow L.σ (TryPoll T₂ E₂)) (s' : Stacked U.σ L.σ),
        U.machine.within U.feed u g = some (.ret .pending s') → ∃ l, g = .ret .pending l := by
      intro u g s' h
      cases g with
      | again l => cases h
      | ret r l =>
          obtain ⟨f, hf, hatop⟩ := Option.map_eq_some_iff.mp h
          obtain ⟨u', rfl⟩ := Flow.ret_of_atop hatop
          obtain rfl := hU.reply r (hU.resume u _ u' hf)
          exact ⟨l, rfl⟩
    intro s a s' h
    cases a with
    | upper a =>
        obtain ⟨-, h⟩ := Option.ite_none_right_eq_some.mp h
        obtain ⟨f, hf, hatop⟩ := Option.map_eq_some_iff.mp h
        obtain ⟨u', rfl⟩ := Flow.ret_of_atop hatop
        exact hU.resume s.upper a u' hf
    | called =>
        obtain ⟨-, h⟩ := Option.ite_none_right_eq_some.mp h
        obtain ⟨l, hl⟩ := hwithin _ _ _ h
        exact absurd hl (hL.enter s.lower l)
    | lower a =>
        obtain ⟨-, h⟩ := Option.ite_none_right_eq_some.mp h
        obtain ⟨g, hg, hf⟩ := Option.bind_eq_some_iff.mp h
        obtain ⟨l, rfl⟩ := hwithin _ _ _ hf
        exact hL.resume s.lower a l hg
  reply := fun r h => hL.reply r h

end

section

variable {T E U E' : Type}

/-- A pending call was answered so last. -/
theorem Waits.pending_of_run {P : Pipe T E U E'} (h : P.Waits) {ls : List (Act Unit P.α)}
    {s : State Unit P.σ P.θ P.α (TryPoll U E')} (hrun : P.machine.run P.new ls = some s) :
    ∀ c ∈ s.calls, c.result = .pending → ∃ x ∈ c.asked.getLast?, P.pends x.2 = true := by
  have hconcat : ∀ (calls : List (Call Unit P.θ P.α (TryPoll U E'))) c,
      (∀ c ∈ calls, c.result = .pending → ∃ x ∈ c.asked.getLast?, P.pends x.2 = true) →
      (c.result = .pending → ∃ x ∈ c.asked.getLast?, P.pends x.2 = true) →
      ∀ c' ∈ calls ++ [c], c'.result = .pending → ∃ x ∈ c'.asked.getLast?, P.pends x.2 = true := by
    intro calls c hcalls hc c' hmem
    rcases List.mem_append.mp hmem with hmem | hmem
    · exact hcalls c' hmem
    · obtain rfl := List.mem_singleton.mp hmem
      exact hc
  have hholds : s.Holds
      (fun _ calls => ∀ c ∈ calls, c.result = .pending →
        ∃ x ∈ c.asked.getLast?, P.pends x.2 = true)
      (fun _ calls _ _ => ∀ c ∈ calls, c.result = .pending →
        ∃ x ∈ c.asked.getLast?, P.pends x.2 = true) := by
    refine run_keeps (fun c hc => by cases hc) ?_ ?_ hrun
    · intro self calls k hcalls
      cases henter : P.machine.enter k self with
      | again s' => exact hcalls
      | ret r s' =>
          refine hconcat calls _ hcalls ?_
          rintro rfl
          exact absurd henter (h.enter self s')
    · intro self calls k asked a fl hcalls hresume
      cases fl with
      | again s' => exact hcalls
      | ret r s' =>
          refine hconcat calls _ hcalls ?_
          rintro rfl
          exact ⟨(P.machine.asks self, a), List.getLast?_concat, h.resume self a s' hresume⟩
  unfold State.Holds at hholds
  split at hholds <;> exact hholds

end

end Pipe

/-! ## One adaptor -/

namespace OneAtATime

variable {σ Fut T E R U E' : Type}

/-- A round polls the base when no future is in progress. -/
def feed (Fut T E R : Type) : Feed (Option Fut) (Answer T E R) (TryPoll T E) where
  polls := Option.isNone
  reply := .base
  given := fun
    | .base r => some r
    | .future _ => none
  given_reply := fun _ => rfl

theorem resolved_others (log : List (Option Fut × Answer T E R)) :
    resolved ((feed Fut T E R).others log) = resolved log := by
  unfold resolved futureAnswers Feed.others
  rw [List.filterMap_filter]
  congr 2
  funext x
  rcases x with ⟨q, _ | _⟩ <;> rfl

/-- With no future in progress, every answer of the base is taken. -/
theorem exists_resume_base {ρ : Type} {B : OneAtATime σ Fut T E R ρ} {s : σ}
    (hp : B.pending s = none) (r : TryPoll T E) : ∃ f, B.machine.resume s (.base r) = some f := by
  unfold machine
  dsimp only
  rw [hp]
  cases r with
  | pending => exact ⟨_, rfl⟩
  | ready item => exact ⟨_, rfl⟩

/-- The adaptor, with its list function over what the futures have resolved to. -/
def pipe (B : OneAtATime σ Fut T E R (Option (Except E' U))) (new : σ)
    (size_hint : ∀ MAX, σ → SizeHint MAX → SizeHint MAX)
    (is_terminated : Option (σ → Bool → Bool))
    (yields : List (Except E T) → List R → List (Except E' U)) : Pipe T E U E' where
  σ := σ
  θ := Option Fut
  α := Answer T E R
  machine := B.machine
  feed := feed Fut T E R
  new := new
  size_hint := size_hint
  is_terminated := is_terminated
  yields := fun xs log => yields xs (resolved log)
  pends := Answer.isPending

variable {B : OneAtATime σ Fut T E R (Option (Except E' U))} {new : σ}
  {size_hint : ∀ MAX, σ → SizeHint MAX → SizeHint MAX} {is_terminated : Option (σ → Bool → Bool)}
  {yields : List (Except E T) → List R → List (Except E' U)}

theorem pipe_computes (h : ∀ ls s, B.machine.run new ls = some s →
      untilEnd (results s.calls) = yields (untilEnd (baseAnswers s.log)) (resolved s.log)) :
    (B.pipe new size_hint is_terminated yields).Computes := by
  intro ls s hrun
  exact (h ls s hrun).trans (congrArg (yields _) (resolved_others s.log).symm)

theorem pipe_estimates (h : ∀ MAX, B.Estimates MAX new (size_hint MAX)) :
    (B.pipe new size_hint is_terminated yields).Estimates :=
  fun ls s hrun hidle later hlater MAX hint hbase => h MAX ls s hrun hidle later hlater hint hbase

theorem pipe_waits (hstart : ∀ s s', B.start s ≠ .ret .pending s')
    (hfuture : ∀ s res s', B.onFuture s res ≠ .ret .pending s')
    (hbase : ∀ s item s', B.onBase s item ≠ .ret .pending s') :
    (B.pipe new size_hint is_terminated yields).Waits where
  enter := hstart
  resume := by
    intro s a s' h
    cases hp : B.pending s with
    | some fut =>
        rcases resume_of_some hp h with ⟨rfl, -⟩ | ⟨res, rfl, hf⟩
        · rfl
        · exact absurd hf.symm (hfuture s res s')
    | none =>
        rcases resume_of_none hp h with ⟨rfl, -⟩ | ⟨item, rfl, hf⟩
        · rfl
        · exact absurd hf.symm (hbase s item s')
  reply := by
    intro r h
    cases r with
    | pending => rfl
    | ready item => cases h

end OneAtATime

/-! ## Every adaptor keeps the laws -/

/-- The three laws. -/
structure Pipe.Lawful {T E U E' : Type} (P : Pipe T E U E') : Prop where
  computes : P.Computes
  estimates : P.Estimates
  waits : P.Waits

theorem Pipe.Lawful.atop {T E T₂ E₂ T₃ E₃ : Type} {P : Pipe T₂ E₂ T₃ E₃} {Q : Pipe T E T₂ E₂}
    (hP : P.Lawful) (hQ : Q.Lawful) : (P.atop Q).Lawful :=
  ⟨hP.computes.atop hQ.computes, hP.estimates.atop hQ.estimates, hP.waits.atop hQ.waits⟩

variable {φ Fut T U E E' : Type}

theorem untilEnd_eq_beforeMark {α : Type} (rs : List (Poll (Option α))) :
    untilEnd rs = beforeMark (rs.filterMap Poll.value) := by
  induction rs with
  | nil => rfl
  | cons r rs ih =>
      rcases r with _ | _ | x
      · exact ih
      · rfl
      · exact congrArg (x :: ·) ih

/-- An adaptor that follows its rule, up to the first end. -/
theorem OneAtATime.Follows.untilEnd {σ A R ρ : Type} {B : OneAtATime σ Fut T E R (Option ρ)}
    {L : Rule (Except E T) A R ρ} {call : φ → A → Fut × φ} {closure : σ → φ} {holds : σ → A → Prop}
    (hB : B.Follows L call closure holds) {new : σ} (hnew : B.pending new = none)
    (ls : List (Act Unit (Answer T E R))) (s : Run σ Fut T E R ρ)
    (hrun : B.machine.run new ls = some s) :
    untilEnd (results s.calls) = L.yields (untilEnd (baseAnswers s.log)) (resolved s.log) := by
  -- the rule speaks of all results, the list function of those before the first end
  have hreturned := (hB.computes ⟨hnew, rfl⟩ hrun).returned
  rw [untilEnd_eq_beforeMark, untilEnd_eq_beforeMark (baseAnswers s.log)]
  exact (congrArg beforeMark hreturned).trans (Rule.beforeMark_outputs L _ _)

/-- The adaptors that map. -/
def Mapped.pipe (B : OneAtATime (Mapped φ) Empty T E Empty (Option (Except E' U)))
    (onItem : φ → Except E T → Except E' U × φ) (f : φ)
    (size_hint : ∀ MAX, Mapped φ → SizeHint MAX → SizeHint MAX)
    (is_terminated : Option (Mapped φ → Bool → Bool)) : Pipe T E U E' :=
  B.pipe { f := f } size_hint is_terminated fun xs _ => tasks onItem f xs

theorem Mapped.lawful {onItem : φ → Except E T → Except E' U × φ} {f : φ}
    {size_hint : ∀ MAX, Mapped φ → SizeHint MAX → SizeHint MAX}
    {is_terminated : Option (Mapped φ → Bool → Bool)}
    (h : ∀ MAX, (Mapped.poll_next onItem).Estimates MAX { f := f } (size_hint MAX)) :
    (Mapped.pipe (Mapped.poll_next onItem) onItem f size_hint is_terminated).Lawful where
  computes := by
    refine pipe_computes fun ls s hrun => ?_
    rw [(inLine_of_run hrun).results]
    exact untilEnd_answers onItem f _
  estimates := pipe_estimates h
  waits := by
    refine pipe_waits (by simp [Mapped.poll_next]) (fun _ res => res.elim) ?_
    intro s item s'
    cases item <;> simp [Mapped.poll_next]

/-- `IntoStream`, which has no closure. -/
def IntoStream.pipe (T E : Type) : Pipe T E T E :=
  Mapped.pipe (IntoStream.poll_next T E) (fun f item => (item, f)) () (fun _ => Mapped.size_hint)
    (some Mapped.is_terminated)

/-- The fields of `MapOk`, `MapErr`, `InspectOk` and `InspectErr`: `f`, and as `stream` an
`IntoStream`, which they put over what they are called on. -/
def Mapped.over_into_stream
    (B : OneAtATime (Mapped φ) Empty T E Empty (Option (Except E' U)))
    (onItem : φ → Except E T → Except E' U × φ) (f : φ) : Pipe T E U E' :=
  (Mapped.pipe B onItem f (fun _ => Mapped.size_hint) (some Mapped.is_terminated)).atop
    (IntoStream.pipe T E)

theorem Mapped.over_into_stream_lawful (onItem : φ → Except E T → Except E' U × φ) (f : φ) :
    (Mapped.over_into_stream (Mapped.poll_next onItem) onItem f).Lawful :=
  (Mapped.lawful fun _ => Mapped.estimates f).atop (Mapped.lawful fun _ => Mapped.estimates ())

/-- `TryFilter`. -/
def TryFilter.pipe (E : Type) (call : φ → T → Fut × φ) (f : φ) : Pipe T E T E :=
  (TryFilter.poll_next call).pipe (TryFilter.new f) (fun _ => TryFilter.size_hint)
    (some TryFilter.is_terminated) (TryFilter.rule T E).yields

theorem TryFilter.lawful (call : φ → T → Fut × φ) (f : φ) : (TryFilter.pipe E call f).Lawful where
  computes := pipe_computes ((TryFilter.follows call).untilEnd rfl)
  estimates := pipe_estimates fun _ => (TryFilter.counts call).estimates_lossy (TryFilter.fuses call) rfl
  waits := by
    refine pipe_waits (by simp [TryFilter.poll_next]) ?_ ?_
    · intro s res s'
      cases res <;> simp [TryFilter.poll_next]
    · intro s item s'
      rcases item with _ | _ | _ <;> simp [TryFilter.poll_next]

/-- `TryFilterMap`. -/
def TryFilterMap.pipe (E : Type) (call : φ → T → Fut × φ) (f : φ) : Pipe T E U E :=
  (TryFilterMap.poll_next call).pipe (TryFilterMap.new f) (fun _ => TryFilterMap.size_hint)
    (some TryFilterMap.is_terminated) (TryFilterMap.rule T U E).yields

theorem TryFilterMap.lawful (call : φ → T → Fut × φ) (f : φ) :
    (TryFilterMap.pipe (U := U) E call f).Lawful where
  computes := pipe_computes ((TryFilterMap.follows call).untilEnd rfl)
  estimates := pipe_estimates fun _ =>
    (TryFilterMap.counts call).estimates_lossy (TryFilterMap.fuses call) trivial
  waits := by
    refine pipe_waits (by simp [TryFilterMap.poll_next]) ?_ ?_
    · intro s res s'
      rcases res with _ | _ | _ <;> simp [TryFilterMap.poll_next]
    · intro s item s'
      rcases item with _ | _ | _ <;> simp [TryFilterMap.poll_next]

/-- `AndThen`. -/
def AndThen.pipe (E : Type) (call : φ → T → Fut × φ) (f : φ) : Pipe T E U E :=
  (AndThen.poll_next call).pipe (Chained.new f) (fun _ => Chained.size_hint)
    (some Chained.is_terminated) (AndThen.rule T U E).yields

theorem AndThen.lawful (call : φ → T → Fut × φ) (f : φ) :
    (AndThen.pipe (U := U) E call f).Lawful where
  computes := pipe_computes ((AndThen.follows call).untilEnd rfl)
  estimates := pipe_estimates fun _ =>
    (AndThen.counts call).estimates_exact (AndThen.fuses call) trivial
  waits := by
    refine pipe_waits (by simp [AndThen.poll_next]) (by simp [AndThen.poll_next]) ?_
    intro s item s'
    rcases item with _ | _ | _ <;> simp [AndThen.poll_next]

/-- `OrElse`. -/
def OrElse.pipe (T E' : Type) (call : φ → E → Fut × φ) (f : φ) : Pipe T E T E' :=
  (OrElse.poll_next call).pipe (Chained.new f) (fun _ => Chained.size_hint)
    (some Chained.is_terminated) (OrElse.rule T E E').yields

theorem OrElse.lawful (call : φ → E → Fut × φ) (f : φ) :
    (OrElse.pipe T E' call f).Lawful where
  computes := pipe_computes ((OrElse.follows call).untilEnd rfl)
  estimates := pipe_estimates fun _ =>
    (OrElse.counts call).estimates_exact (OrElse.fuses call) trivial
  waits := by
    refine pipe_waits (by simp [OrElse.poll_next]) (by simp [OrElse.poll_next]) ?_
    intro s item s'
    rcases item with _ | _ | _ <;> simp [OrElse.poll_next]

/-- `TrySkipWhile`. -/
def TrySkipWhile.pipe (E : Type) (call : φ → T → Fut × φ) (f : φ) : Pipe T E T E :=
  (TrySkipWhile.poll_next call).pipe (TrySkipWhile.new f) (fun _ => TrySkipWhile.size_hint)
    (some TrySkipWhile.is_terminated) TrySkipWhile.yields

theorem TrySkipWhile.yields_of_run (call : φ → T → Fut × φ) (f : φ)
    (ls : List (Act Unit (Answer T E (Except E Bool))))
    (s : Run (TrySkipWhile φ Fut T) Fut T E (Except E Bool) (Except E T))
    (hrun : (TrySkipWhile.poll_next call).machine.run (TrySkipWhile.new f) ls = some s) :
    untilEnd (results s.calls) = TrySkipWhile.yields (untilEnd (baseAnswers s.log)) (resolved s.log) := by
  have hholds : s.Holds (While.AtRest call f TrySkipWhile.fields TrySkipWhile.Out)
      (While.Inside call f TrySkipWhile.fields TrySkipWhile.Out fun _ => True) := by
    refine run_keeps ⟨?_, .nil _, ⟨rfl, Iff.rfl⟩, fun c hc => by cases hc⟩ ?_ ?_ hrun
    · exact .idle [] List.not_mem_nil ⟨rfl, rfl, rfl, rfl, rfl, rfl⟩
    · intro self calls k h
      refine ⟨?_, trivial⟩
      rw [List.append_nil]
      exact h
    · intro self calls k asked a fl h hresume
      exact TrySkipWhile.round_keeps h.1 hresume
  exact (While.books_of_holds hholds).out.1

theorem TrySkipWhile.lawful (call : φ → T → Fut × φ) (f : φ) :
    (TrySkipWhile.pipe E call f).Lawful where
  computes := pipe_computes (TrySkipWhile.yields_of_run call f)
  estimates := pipe_estimates fun _ => (TrySkipWhile.counts call).estimates_lossy
    (TrySkipWhile.fuses call) ⟨rfl, fun hdone => absurd hdone Bool.false_ne_true⟩
  waits := by
    refine pipe_waits (by simp [TrySkipWhile.poll_next]) ?_ ?_
    · intro s res s'
      rcases res with _ | _ | _ <;> simp [TrySkipWhile.poll_next]
    · intro s item s'
      by_cases hdone : s.done_skipping
      · simp [TrySkipWhile.poll_next, hdone]
      · rcases item with _ | _ | _ <;> simp [TrySkipWhile.poll_next, hdone]

/-- `TryTakeWhile`. -/
def TryTakeWhile.pipe (E : Type) (call : φ → T → Fut × φ) (f : φ) : Pipe T E T E :=
  (TryTakeWhile.poll_next call).pipe (TryTakeWhile.new f) (fun _ => TryTakeWhile.size_hint)
    (some TryTakeWhile.is_terminated) TryTakeWhile.yields

theorem TryTakeWhile.yields_of_run (call : φ → T → Fut × φ) (f : φ)
    (ls : List (Act Unit (Answer T E (Except E Bool))))
    (s : Run (TryTakeWhile φ Fut T) Fut T E (Except E Bool) (Except E T))
    (hrun : (TryTakeWhile.poll_next call).machine.run (TryTakeWhile.new f) ls = some s) :
    untilEnd (results s.calls) = TryTakeWhile.yields (untilEnd (baseAnswers s.log)) (resolved s.log) := by
  have hholds : s.Holds (While.AtRest call f TryTakeWhile.fields TryTakeWhile.Out)
      (While.Inside call f TryTakeWhile.fields TryTakeWhile.Out fun self =>
        self.done_taking = false) := by
    refine run_keeps ⟨?_, .nil _, ⟨rfl, ?_⟩, fun c hc => by cases hc⟩ ?_ ?_ hrun
    · exact .idle [] List.not_mem_nil ⟨rfl, rfl, rfl, rfl, rfl, rfl⟩
    · intro hmem
      cases hmem
    · intro self calls k h
      exact TryTakeWhile.start_keeps h
    · intro self calls k asked a fl h hresume
      exact TryTakeWhile.round_keeps h.1 h.2 hresume
  exact (While.books_of_holds hholds).out.1

theorem TryTakeWhile.lawful (call : φ → T → Fut × φ) (f : φ) :
    (TryTakeWhile.pipe E call f).Lawful where
  computes := pipe_computes (TryTakeWhile.yields_of_run call f)
  estimates := pipe_estimates fun _ => TryTakeWhile.estimates call f
  waits := by
    refine pipe_waits ?_ ?_ ?_
    · intro s s'
      by_cases hdone : s.done_taking <;> simp [TryTakeWhile.poll_next, hdone]
    · intro s res s'
      rcases res with _ | _ | _ <;> simp [TryTakeWhile.poll_next]
    · intro s item s'
      rcases item with _ | _ | _ <;> simp [TryTakeWhile.poll_next]

/-! ## Chains -/

/-- A chain of method calls on a stream of items `Except E T`. The bottom is the call of
`into_stream` on it. -/
inductive Chain (T E : Type) : Type → Type → Type 1
  | into_stream : Chain T E T E
  | map_ok {U V E' φ : Type} (stream : Chain T E U E') (call : φ → U → V × φ) (f : φ) :
      Chain T E V E'
  | map_err {U E₁ E₂ φ : Type} (stream : Chain T E U E₁) (call : φ → E₁ → E₂ × φ) (f : φ) :
      Chain T E U E₂
  | err_into {U E₁ E₂ : Type} (stream : Chain T E U E₁) (into : E₁ → E₂) : Chain T E U E₂
  | inspect_ok {U E' φ : Type} (stream : Chain T E U E') (call : φ → U → φ) (f : φ) :
      Chain T E U E'
  | inspect_err {U E' φ : Type} (stream : Chain T E U E') (call : φ → E' → φ) (f : φ) :
      Chain T E U E'
  | try_filter {U E' φ Fut : Type} (stream : Chain T E U E') (call : φ → U → Fut × φ) (f : φ) :
      Chain T E U E'
  | try_filter_map {U V E' φ Fut : Type} (stream : Chain T E U E') (call : φ → U → Fut × φ)
      (f : φ) : Chain T E V E'
  | and_then {U V E' φ Fut : Type} (stream : Chain T E U E') (call : φ → U → Fut × φ) (f : φ) :
      Chain T E V E'
  | or_else {U E₁ E₂ φ Fut : Type} (stream : Chain T E U E₁) (call : φ → E₁ → Fut × φ) (f : φ) :
      Chain T E U E₂
  | try_skip_while {U E' φ Fut : Type} (stream : Chain T E U E') (call : φ → U → Fut × φ)
      (f : φ) : Chain T E U E'
  | try_take_while {U E' φ Fut : Type} (stream : Chain T E U E') (call : φ → U → Fut × φ)
      (f : φ) : Chain T E U E'

/-- The stack of the adaptors. -/
def Chain.pipe {T E U E' : Type} : Chain T E U E' → Pipe T E U E'
  | .into_stream => IntoStream.pipe T E
  | .map_ok stream call f =>
      (Mapped.over_into_stream (MapOk.poll_next call) (MapOk.onItem call) f).atop stream.pipe
  | .map_err stream call f =>
      (Mapped.over_into_stream (MapErr.poll_next call) (MapErr.onItem call) f).atop stream.pipe
  | .err_into stream into =>
      (Mapped.pipe (ErrInto.poll_next into) (ErrInto.onItem into) () (fun _ => ErrInto.size_hint)
        none).atop stream.pipe
  | .inspect_ok stream call f =>
      (Mapped.over_into_stream (InspectOk.poll_next call) (InspectOk.onItem call) f).atop stream.pipe
  | .inspect_err stream call f =>
      (Mapped.over_into_stream (InspectErr.poll_next call) (InspectErr.onItem call) f).atop stream.pipe
  | .try_filter stream call f => (TryFilter.pipe _ call f).atop stream.pipe
  | .try_filter_map stream call f => (TryFilterMap.pipe _ call f).atop stream.pipe
  | .and_then stream call f => (AndThen.pipe _ call f).atop stream.pipe
  | .or_else stream call f => (OrElse.pipe _ _ call f).atop stream.pipe
  | .try_skip_while stream call f => (TrySkipWhile.pipe _ call f).atop stream.pipe
  | .try_take_while stream call f => (TryTakeWhile.pipe _ call f).atop stream.pipe

/-- Every chain keeps the laws, by induction on the chain. -/
theorem Chain.lawful (c : Chain T E U E') : c.pipe.Lawful := by
  induction c with
  | into_stream => exact Mapped.lawful fun _ => Mapped.estimates ()
  | map_ok stream call f ih => exact (Mapped.over_into_stream_lawful _ f).atop ih
  | map_err stream call f ih => exact (Mapped.over_into_stream_lawful _ f).atop ih
  | err_into stream into ih => exact (Mapped.lawful fun _ => ErrInto.estimates into).atop ih
  | inspect_ok stream call f ih => exact (Mapped.over_into_stream_lawful _ f).atop ih
  | inspect_err stream call f ih => exact (Mapped.over_into_stream_lawful _ f).atop ih
  | try_filter stream call f ih => exact (TryFilter.lawful call f).atop ih
  | try_filter_map stream call f ih => exact (TryFilterMap.lawful call f).atop ih
  | and_then stream call f ih => exact (AndThen.lawful call f).atop ih
  | or_else stream call f ih => exact (OrElse.lawful call f).atop ih
  | try_skip_while stream call f ih => exact (TrySkipWhile.lawful call f).atop ih
  | try_take_while stream call f ih => exact (TryTakeWhile.lawful call f).atop ih

/-- **Chains compute.** In every state of every run of every chain of adaptors, for all
their closures and wherever the pending answers fall: what the chain has returned before its
first `None` is the list function of each adaptor applied, in the order of the chain, to what
the base has given before its first `None` and the futures of that adaptor have resolved to.
And a call has returned `Pending` only when the last answer from outside, of the base or of
a future somewhere in the chain, was pending. -/
theorem chains_compute_list_functions (T E U E' : Type) (c : Chain T E U E')
    (ls : List (Act Unit c.pipe.α)) (s : State Unit c.pipe.σ c.pipe.θ c.pipe.α (TryPoll U E'))
    (hrun : c.pipe.machine.run c.pipe.new ls = some s) :
    untilEnd (results s.calls) =
        c.pipe.yields (untilEnd (c.pipe.feed.answers s.log)) (c.pipe.feed.others s.log) ∧
      ∀ call ∈ s.calls, call.result = .pending →
        ∃ x ∈ call.asked.getLast?, c.pipe.pends x.2 = true :=
  ⟨c.lawful.computes ls s hrun, c.lawful.waits.pending_of_run hrun⟩

/-- `stream.try_filter(p).map_ok(g)`, where `g` adds the number of its call. -/
def filteredThenMapped : Chain ℕ ℕ ℕ ℕ :=
  .map_ok (.try_filter .into_stream (fun _ item => (item, ())) ()) (fun n ok => (ok + n, n + 1)) 0

/-- The predicate refuses the first item and is pending on the second. -/
def refusesFirst : List (Act Unit (Stacked.Answer
    (Stacked.Answer (Answer ℕ ℕ Empty) (Answer ℕ ℕ Empty))
    (Stacked.Answer (Answer ℕ ℕ Bool) (Answer ℕ ℕ Empty)))) :=
  [.call (), .answer (.upper .called), .answer .called, .answer (.lower .called),
    .answer (.lower (.lower (.base (.ready (some (.ok 5)))))),
    .answer (.lower (.upper (.future (.ready false)))), .answer (.lower .called),
    .answer (.lower (.lower (.base (.ready (some (.ok 6)))))),
    .answer (.lower (.upper (.future .pending))),
    .call (), .answer (.upper .called), .answer .called,
    .answer (.lower (.upper (.future (.ready true)))),
    .call (), .answer (.upper .called), .answer .called, .answer (.lower .called),
    .answer (.lower (.lower (.base (.ready (some (.ok 7)))))),
    .answer (.lower (.upper (.future (.ready true))))]

theorem chains_compute_list_functions_filtered :
    ∃ s, filteredThenMapped.pipe.machine.run filteredThenMapped.pipe.new refusesFirst = some s ∧
      untilEnd (results s.calls) = [.ok 6, .ok 8] ∧
      untilEnd (results s.calls) = filteredThenMapped.pipe.yields
        (untilEnd (filteredThenMapped.pipe.feed.answers s.log))
        (filteredThenMapped.pipe.feed.others s.log) := by
  have hrun : (filteredThenMapped.pipe.machine.run filteredThenMapped.pipe.new refusesFirst).map
      (fun s => untilEnd (results s.calls)) = some [.ok 6, .ok 8] := rfl
  obtain ⟨s, hs, hyielded⟩ := Option.map_eq_some_iff.mp hrun
  exact ⟨s, hs, hyielded,
    (chains_compute_list_functions ℕ ℕ ℕ ℕ filteredThenMapped refusesFirst s hs).1⟩

/-- **The hint of a chain is right.** In every state between calls of every run of every
chain: a hint of the base that is right about what the base gives from there on makes a hint
that is right about what the chain yields from there on. -/
theorem chain_hints_bracket (T E U E' : Type) (c : Chain T E U E') : c.pipe.Estimates :=
  c.lawful.estimates

/-- The second item is with its future, the base gives one more and then the end: the chain
yields two, and its hint was at most two. -/
theorem chain_hints_bracket_filtered :
    ∃ s later, filteredThenMapped.pipe.machine.run filteredThenMapped.pipe.new
        (refusesFirst.take 9) = some s ∧ s.current = none ∧
      filteredThenMapped.pipe.machine.Continues s later ∧
      untilEnd (filteredThenMapped.pipe.feed.answers (log later)) = [.ok 7] ∧
      results later = [.ready (some (.ok 6)), .ready (some (.ok 8)), .ready none] ∧
      filteredThenMapped.pipe.size_hint 9 s.self (⟨1, by decide⟩, some ⟨1, by decide⟩) =
        (Usize.zero, some ⟨2, by decide⟩) ∧
      SizeHint.Brackets ((Usize.zero, some ⟨2, by decide⟩) : SizeHint 9)
        (.ready none ∈ results later) (untilEnd (results later)).length := by
  have hrun : (filteredThenMapped.pipe.machine.run filteredThenMapped.pipe.new
      (refusesFirst.take 9)).map (fun s => (s.current.isNone,
        filteredThenMapped.pipe.size_hint 9 s.self (⟨1, by decide⟩, some ⟨1, by decide⟩))) =
          some (true, (Usize.zero, some ⟨2, by decide⟩)) := rfl
  obtain ⟨s, hs, heq⟩ := Option.map_eq_some_iff.mp hrun
  obtain ⟨hidle, hhint⟩ := Prod.mk.inj heq
  replace hidle := Option.isNone_iff_eq_none.mp hidle
  -- from there on
  have hrest : (filteredThenMapped.pipe.machine.run s.self (refusesFirst.drop 9 ++
      [.call (), .answer (.upper .called), .answer .called, .answer (.lower .called),
        .answer (.lower (.lower (.base (.ready none))))])).map
      (fun s' => (s'.current.isNone, filteredThenMapped.pipe.feed.answers (log s'.calls),
        results s'.calls)) =
      some (true, [.ready (some (.ok 7)), .ready none],
        [.ready (some (.ok 6)), .ready (some (.ok 8)), .ready none]) := by
    cases hs
    rfl
  obtain ⟨s', hs', heq'⟩ := Option.map_eq_some_iff.mp hrest
  obtain ⟨hidle', heq'⟩ := Prod.mk.inj heq'
  obtain ⟨hgiven, hyielded⟩ := Prod.mk.inj heq'
  have hlater := (Machine.continues_iff hidle).mpr
    ⟨_, s', hs', Option.isNone_iff_eq_none.mp hidle', rfl⟩
  refine ⟨s, s'.calls, hs, hidle, hlater, by rw [hgiven]; rfl, hyielded, hhint, ?_⟩
  have hbrackets := chain_hints_bracket ℕ ℕ ℕ ℕ filteredThenMapped _ s hs hidle _ hlater 9
    (⟨1, by decide⟩, some ⟨1, by decide⟩)
  rw [hgiven, hhint] at hbrackets
  refine hbrackets ⟨fun _ => le_rfl, ?_⟩
  rintro u ⟨⟩
  exact le_rfl

end TokioStreamUtil
