/-
`FusedStream` of chains of adaptors.

The flag of an adaptor reads that of the stream below it, so the flag of a chain reads
through to the base. It may be up before the base has ended: `TryTakeWhile` ends the chain
by itself, and the adaptors over it have to be right about it. `ErrInto` has no flag, and
neither has a chain with one.
-/
import TokioStreamUtil.TryStream.Chain

set_option autoImplicit false

namespace TokioStreamUtil

open PollLoop OneAtATime

variable {φ Fut T U E E' R σ : Type}

/-- A stream ends by its first `None`. -/
def ends : TryPoll U E → Bool
  | .ready none => true
  | _ => false

theorem ends_iff (r : TryPoll U E) : ends r = true ↔ r = .ready none := by
  rcases r with _ | _ | item <;> simp [ends]

/-! ## One adaptor -/

namespace OneAtATime

theorem source_eq : (feed Fut T E R).source ends = source T E R := by
  unfold Feed.source source
  congr 1 <;> funext a
  · rcases a with r | r <;> rfl
  · rcases a with (_ | _ | item) | r <;> rfl

variable {ρ : Type} {B : OneAtATime σ Fut T E R (Option ρ)} {is_terminated : σ → Bool → Bool}
  {Inv : σ → Prop}

/-- What an adaptor has to show for its flag is enough under a flag that is up early. -/
theorem Fuses.fusesOver (h : B.Fuses is_terminated Inv)
    (hmono : ∀ s, is_terminated s false = true → is_terminated s true = true) :
    B.machine.FusesOver (feed Fut T E R) ends is_terminated (.ready none) Inv Inv where
  enter := h.machine.enter ()
  resume := by
    rw [source_eq]
    exact h.machine.resume
  finishes := by
    intro s b hs hflag
    show Finishes _ _ _ _ _ b (B.start s)
    rcases h.stops s b hs hflag with ⟨s', hstart, hs'⟩ | ⟨s', s'', hstart, hp, rfl, hend, hs''⟩
    · rw [hstart]
      exact .ret hs'
    · rw [hstart]
      refine .ask (fun _ => rfl) ?_ ?_
      · exact ⟨.base (.ready none), B.onBase s' none, fun _ _ => rfl, resume_base hp none⟩
      · -- the base has ended, so it can only say so again
        intro a f hallow hf
        rcases resume_of_none hp hf with ⟨rfl, rfl⟩ | ⟨_ | item, rfl, rfl⟩
        · exact absurd (hallow rfl rfl) (by simp [Feed.source, feed, ends])
        · rw [hend]
          exact .ret hs''
        · exact absurd (hallow rfl rfl) (by simp [Feed.source, feed, ends])
  mono := hmono
  given := by
    intro s a f hf
    show _ = (B.pending s).isNone
    cases hp : B.pending s with
    | some fut => rcases resume_of_some hp hf with ⟨rfl, -⟩ | ⟨res, rfl, -⟩ <;> rfl
    | none => rcases resume_of_none hp hf with ⟨rfl, -⟩ | ⟨item, rfl, -⟩ <;> rfl
  polled := by
    intro s r _ hpolls
    have hp : B.pending s = none := Option.isNone_iff_eq_none.mp hpolls
    exact exists_resume_base hp r

end OneAtATime

/-! ## Chains -/

/-- The flag, where there is one, is right over every base. -/
def Pipe.Fuses (P : Pipe T E U E') : Prop :=
  ∀ is_terminated, P.is_terminated = some is_terminated →
    ∃ I J, I P.new ∧ P.machine.FusesOver P.feed ends is_terminated (.ready none) I J

theorem Pipe.Fuses.atop {T₂ E₂ T₃ E₃ : Type} {P : Pipe T₂ E₂ T₃ E₃} {Q : Pipe T E T₂ E₂}
    (hP : P.Fuses) (hQ : Q.Fuses) : (P.atop Q).Fuses := by
  intro is_terminated hflag
  obtain ⟨upper, hupper, hflag⟩ := Option.bind_eq_some_iff.mp hflag
  obtain ⟨lower, hlower, rfl⟩ := Option.map_eq_some_iff.mp hflag
  obtain ⟨I, J, hnew, hfuses⟩ := hP upper hupper
  obtain ⟨I₂, J₂, hnew₂, hfuses₂⟩ := hQ lower hlower
  exact ⟨Stacked.Between I I₂, Stacked.Asking P.machine P.feed J I₂ J₂, ⟨hnew, hnew₂, rfl⟩,
    hfuses.atop hfuses₂ ends_iff⟩

/-- An adaptor with a flag. -/
theorem OneAtATime.pipe_fuses {B : OneAtATime σ Fut T E R (Option (Except E' U))} {new : σ}
    {size_hint : ∀ MAX, σ → SizeHint MAX → SizeHint MAX} {is_terminated : σ → Bool → Bool}
    {yields : List (Except E T) → List R → List (Except E' U)} {Inv : σ → Prop}
    (h : B.Fuses is_terminated Inv) (hnew : Inv new)
    (hmono : ∀ s, is_terminated s false = true → is_terminated s true = true) :
    (B.pipe new size_hint (some is_terminated) yields).Fuses := by
  rintro flag hflag
  obtain rfl := Option.some.inj hflag
  exact ⟨Inv, Inv, hnew, h.fusesOver hmono⟩

theorem Mapped.pipe_fuses (onItem : φ → Except E T → Except E' U × φ) (f : φ)
    (size_hint : ∀ MAX, Mapped φ → SizeHint MAX → SizeHint MAX) :
    (Mapped.pipe (Mapped.poll_next onItem) onItem f size_hint (some Mapped.is_terminated)).Fuses :=
  OneAtATime.pipe_fuses Mapped.fuses trivial fun _ _ => rfl

theorem Mapped.over_into_stream_fuses (onItem : φ → Except E T → Except E' U × φ) (f : φ) :
    (Mapped.over_into_stream (Mapped.poll_next onItem) onItem f).Fuses :=
  (Mapped.pipe_fuses _ _ _).atop (Mapped.pipe_fuses _ _ _)

/-- The flag of every chain is right, by induction on the chain. -/
theorem Chain.fuses (c : Chain T E U E') : c.pipe.Fuses := by
  induction c with
  | into_stream => exact Mapped.pipe_fuses _ _ _
  | map_ok stream call f ih => exact (Mapped.over_into_stream_fuses _ f).atop ih
  | map_err stream call f ih => exact (Mapped.over_into_stream_fuses _ f).atop ih
  | err_into stream into ih =>
      -- it has no flag
      intro is_terminated hflag
      cases hflag
  | inspect_ok stream call f ih => exact (Mapped.over_into_stream_fuses _ f).atop ih
  | inspect_err stream call f ih => exact (Mapped.over_into_stream_fuses _ f).atop ih
  | try_filter stream call f ih =>
      refine Pipe.Fuses.atop (OneAtATime.pipe_fuses (TryFilter.fuses call) rfl ?_) ih
      simp [TryFilter.is_terminated]
  | try_filter_map stream call f ih =>
      refine Pipe.Fuses.atop (OneAtATime.pipe_fuses (TryFilterMap.fuses call) trivial ?_) ih
      simp [TryFilterMap.is_terminated]
  | and_then stream call f ih =>
      refine Pipe.Fuses.atop (OneAtATime.pipe_fuses (AndThen.fuses call) trivial ?_) ih
      simp [Chained.is_terminated]
  | or_else stream call f ih =>
      refine Pipe.Fuses.atop (OneAtATime.pipe_fuses (OrElse.fuses call) trivial ?_) ih
      simp [Chained.is_terminated]
  | try_skip_while stream call f ih =>
      refine Pipe.Fuses.atop
        (OneAtATime.pipe_fuses (TrySkipWhile.fuses call) ⟨rfl, fun _ => rfl⟩ ?_) ih
      simp [TrySkipWhile.is_terminated]
  | try_take_while stream call f ih =>
      refine Pipe.Fuses.atop (OneAtATime.pipe_fuses (TryTakeWhile.fuses call) rfl ?_) ih
      intro s hs
      unfold TryTakeWhile.is_terminated at hs ⊢
      rw [Bool.and_false, Bool.or_false] at hs
      rw [hs, Bool.true_or]

/-- **Chains are fused.** In every state of every run of every chain of adaptors that has a
flag, over a base that stays ended, for all the closures and wherever the pending answers
fall: the flag is up after every call that returned `Ready(None)`, and a call made under the
flag comes to its end, returns `Ready(None)` and leaves the flag up. -/
theorem chains_are_fused (T E U E' : Type) (c : Chain T E U E')
    (is_terminated : c.pipe.σ → Bool → Bool) (hflag : c.pipe.is_terminated = some is_terminated) :
    c.pipe.machine.AlwaysFused (c.pipe.feed.source ends) is_terminated (.ready none) c.pipe.new := by
  obtain ⟨I, J, hnew, hfuses⟩ := c.fuses is_terminated hflag
  exact hfuses.always hnew

/-- `stream.try_take_while(p).map_ok(g)`, where `g` adds the number of its call. -/
def takenThenMapped : Chain ℕ ℕ ℕ ℕ :=
  .map_ok (.try_take_while .into_stream (fun _ item => (item, ())) ()) (fun n ok => (ok + n, n + 1)) 0

/-- The predicate accepts the first item and refuses the second. -/
def refusesSecond : List (Act Unit (Stacked.Answer
    (Stacked.Answer (Answer ℕ ℕ Empty) (Answer ℕ ℕ Empty))
    (Stacked.Answer (Answer ℕ ℕ (Except ℕ Bool)) (Answer ℕ ℕ Empty)))) :=
  [.call (), .answer (.upper .called), .answer .called, .answer (.lower .called),
    .answer (.lower (.lower (.base (.ready (some (.ok 5)))))),
    .answer (.lower (.upper (.future (.ready (.ok true))))),
    .call (), .answer (.upper .called), .answer .called, .answer (.lower .called),
    .answer (.lower (.lower (.base (.ready (some (.ok 6)))))),
    .answer (.lower (.upper (.future (.ready (.ok false)))))]

/-- The flag is up then, over a base that goes on. -/
theorem chains_are_fused_taken :
    ∃ is_terminated s, takenThenMapped.pipe.is_terminated = some is_terminated ∧
      takenThenMapped.pipe.machine.run takenThenMapped.pipe.new refusesSecond = some s ∧
      results s.calls = [.ready (some (.ok 5)), .ready none] ∧
      s.ended (takenThenMapped.pipe.feed.source ends) = false ∧
      Fused takenThenMapped.pipe.machine (takenThenMapped.pipe.feed.source ends) is_terminated
        (.ready none) s := by
  have hrun : (takenThenMapped.pipe.machine.run takenThenMapped.pipe.new refusesSecond).map
      (fun s => (results s.calls, s.ended (takenThenMapped.pipe.feed.source ends))) =
        some ([.ready (some (.ok 5)), .ready none], false) := rfl
  obtain ⟨s, hs, heq⟩ := Option.map_eq_some_iff.mp hrun
  obtain ⟨hresults, hended⟩ := Prod.mk.inj heq
  refine ⟨_, s, rfl, hs, hresults, hended, ?_⟩
  refine chains_are_fused ℕ ℕ ℕ ℕ takenThenMapped _ rfl refusesSecond s ?_ hs
  exact Transition.along_of_isSome rfl

end TokioStreamUtil
