/-
The calls of a chain of adaptors come to an end.

A chain takes every answer to the question it has asked, at whichever of its levels: so a
call is never stuck. With the bound on its questions, it ends unless the base goes on giving
items that some adaptor refuses.
-/
import TokioStreamUtil.TryStream.ChainWork

set_option autoImplicit false

namespace TokioStreamUtil

open PollLoop OneAtATime

variable {φ Fut T U E E' R σ : Type}

/-! ## A call is never stuck -/

/-- Inside a call, the question is a poll of the base, and every answer of the base is taken,
or another, which has an answer. -/
def Pipe.Live (P : Pipe T E U E') : Prop :=
  ∀ ls s, P.machine.run P.new ls = some s → s.current.isSome →
    (P.feed.polls (P.machine.asks s.self) = true →
      ∀ r, ∃ f, P.machine.resume s.self (P.feed.reply r) = some f) ∧
    (P.feed.polls (P.machine.asks s.self) = false →
      ∃ a f, (P.feed.given a).isNone ∧ P.machine.resume s.self a = some f)

theorem OneAtATime.pipe_live (B : OneAtATime σ Fut T E R (Option (Except E' U))) (new : σ)
    (size_hint : ∀ MAX, σ → SizeHint MAX → SizeHint MAX) (is_terminated : Option (σ → Bool → Bool))
    (yields : List (Except E T) → List R → List (Except E' U)) :
    (B.pipe new size_hint is_terminated yields).Live := by
  intro ls s _ _
  refine ⟨fun hpolls r => ?_, fun hpolls => ?_⟩
  · have hp : B.pending s.self = none := Option.isNone_iff_eq_none.mp hpolls
    exact exists_resume_base hp r
  · obtain ⟨fut, hp⟩ : ∃ fut, B.pending s.self = some fut :=
      Option.isSome_iff_exists.mp (Option.isNone_eq_false_iff.mp hpolls)
    refine ⟨.future .pending, .ret .pending s.self, rfl, ?_⟩
    show B.machine.resume s.self (.future .pending) = _
    unfold OneAtATime.machine
    dsimp only
    rw [hp]
    rfl

/-- A question of the stack is one of the upper, or of the lower, or a call of the lower,
which begins and may return at once. -/
theorem Pipe.Live.atop {T₂ E₂ T₃ E₃ : Type} {P : Pipe T₂ E₂ T₃ E₃} {Q : Pipe T E T₂ E₂}
    (hP : P.Live) (hQ : Q.Live) : (P.atop Q).Live := by
  intro ls s hrun hcurrent
  obtain ⟨us, ls', u, l, hu, hl, h⟩ :=
    tracks_of_run (U := P.machine) (D := P.feed) (L := Q.machine) hrun
  obtain ⟨hpolled, hother⟩ := hP us u hu (h.current.trans hcurrent)
  have hlower := hQ ls' l hl
  rw [h.inside] at hlower
  have hwaits := h.waits
  rw [h.upper] at hpolled hother
  rw [h.lower] at hlower
  obtain ⟨⟨upper, lower, inside⟩, calls, current⟩ := s
  cases inside with
  | true =>
      obtain ⟨hpolled₂, hother₂⟩ := hlower rfl
      have hwithin : ∀ g : Flow Q.σ (TryPoll T₂ E₂), ∃ f,
          P.machine.within P.feed upper g = some f := Machine.exists_within (hpolled (hwaits rfl))
      -- the lower is asked, and when it returns the upper has been waiting for it
      refine ⟨fun hpolls r => ?_, fun hpolls => ?_⟩
      · obtain ⟨g, hg⟩ := hpolled₂ hpolls r
        obtain ⟨f, hf⟩ := hwithin g
        refine ⟨f, ?_⟩
        show (Q.machine.resume lower (Q.feed.reply r)).bind _ = _
        rw [hg]
        exact hf
      · obtain ⟨a, g, hgiven, hg⟩ := hother₂ hpolls
        obtain ⟨f, hf⟩ := hwithin g
        refine ⟨.lower a, f, hgiven, ?_⟩
        show (Q.machine.resume lower a).bind _ = _
        rw [hg]
        exact hf
  | false =>
      cases hupper : P.feed.polls (P.machine.asks upper) with
      | true =>
          -- the lower is called
          obtain ⟨f, hf⟩ := Machine.exists_within (hpolled hupper) (Q.machine.enter () lower)
          refine ⟨fun hpolls => ?_, fun _ => ⟨.called, f, rfl, ?_⟩⟩
          · simp [Pipe.atop, Machine.atop, Stacked.feed, hupper] at hpolls
          · simp only [Pipe.atop, Machine.atop]
            rw [hupper]
            exact hf
      | false =>
          -- a future of the upper is polled
          obtain ⟨a, f, hgiven, hf⟩ := hother hupper
          refine ⟨fun hpolls => ?_, fun _ => ⟨.upper a, f.atop lower, rfl, ?_⟩⟩
          · simp [Pipe.atop, Machine.atop, Stacked.feed, hupper] at hpolls
          · simp only [Pipe.atop, Machine.atop]
            rw [hupper, hgiven, hf]
            rfl

theorem Mapped.over_into_stream_live
    (B : OneAtATime (Mapped φ) Empty T E Empty (Option (Except E' U)))
    (onItem : φ → Except E T → Except E' U × φ) (f : φ) :
    (Mapped.over_into_stream B onItem f).Live :=
  (pipe_live _ _ _ _ _).atop (pipe_live _ _ _ _ _)

/-- No chain is ever stuck, by induction on the chain. -/
theorem Chain.live (c : Chain T E U E') : c.pipe.Live := by
  induction c with
  | into_stream => exact pipe_live _ _ _ _ _
  | map_ok stream call f ih => exact (Mapped.over_into_stream_live _ _ f).atop ih
  | map_err stream call f ih => exact (Mapped.over_into_stream_live _ _ f).atop ih
  | err_into stream into ih => exact (pipe_live _ _ _ _ _).atop ih
  | inspect_ok stream call f ih => exact (Mapped.over_into_stream_live _ _ f).atop ih
  | inspect_err stream call f ih => exact (Mapped.over_into_stream_live _ _ f).atop ih
  | try_filter stream call f ih => exact (pipe_live _ _ _ _ _).atop ih
  | try_filter_map stream call f ih => exact (pipe_live _ _ _ _ _).atop ih
  | and_then stream call f ih => exact (pipe_live _ _ _ _ _).atop ih
  | or_else stream call f ih => exact (pipe_live _ _ _ _ _).atop ih
  | try_skip_while stream call f ih => exact (pipe_live _ _ _ _ _).atop ih
  | try_take_while stream call f ih => exact (pipe_live _ _ _ _ _).atop ih

/-! ## A call ends -/

/-- **Calls of a chain end.** In every state of every run of every chain of adaptors in which
a call is in progress: if the question is a poll of the base, the call goes on with every
answer of the base, and else there is an answer with which it goes on; and the answers it
goes on with are fewer than the bound on the questions of the run, which no answer raises but
an item of the base. -/
theorem chain_calls_end (T E U E' : Type) (c : Chain T E U E') (ls : List (Act Unit c.pipe.α))
    (s : State Unit c.pipe.σ c.pipe.θ c.pipe.α (TryPoll U E'))
    (hrun : c.pipe.machine.run c.pipe.new ls = some s) (hcurrent : s.current.isSome) :
    (c.pipe.feed.polls (c.pipe.machine.asks s.self) = true →
        ∀ r, ∃ s', c.pipe.machine.step s (.answer (c.pipe.feed.reply r)) = some s') ∧
      (c.pipe.feed.polls (c.pipe.machine.asks s.self) = false →
        ∃ a s', (c.pipe.feed.given a).isNone ∧ c.pipe.machine.step s (.answer a) = some s') ∧
      ∀ (answers : List c.pipe.α) s',
        Transition.run c.pipe.machine.step s (answers.map .answer) = some s' → s'.current.isSome →
        answers.length < c.length *
          (2 * itemCount (c.pipe.feed.answers s'.log) + stopCount (results s.calls) + 1) := by
  obtain ⟨hpolled, hother⟩ := c.live ls s hrun hcurrent
  refine ⟨fun hpolls r => ?_, fun hpolls => ?_, fun answers s' hanswers hcurrent' => ?_⟩
  · obtain ⟨f, hf⟩ := hpolled hpolls r
    obtain ⟨s', hstep, -⟩ := Machine.exists_step_answer hcurrent hf
    exact ⟨s', hstep⟩
  · obtain ⟨a, f, hgiven, hf⟩ := hother hpolls
    obtain ⟨s', hstep, -⟩ := Machine.exists_step_answer hcurrent hf
    exact ⟨a, s', hgiven, hstep⟩
  · have hall := Transition.run_append_eq_some.mpr ⟨s, hrun, hanswers⟩
    have hfrugal := c.frugal _ s' hall
    -- the call has gone on, so nothing was returned since `s`
    obtain ⟨-, hresults, hlength⟩ := Machine.goes_on_of_answers hanswers hcurrent'
    have hasked := hfrugal.asked
    rw [hlength, hresults] at hasked
    omega

/-- The predicate has refused the first item, and the chain polls the base again. -/
theorem chain_calls_end_filtered :
    ∃ s, filteredThenMapped.pipe.machine.run filteredThenMapped.pipe.new (refusesFirst.take 7) =
        some s ∧
      s.current.isSome ∧ s.calls = [] ∧
      (∀ r, ∃ s', filteredThenMapped.pipe.machine.step s
        (.answer (.lower (.lower (.base r)))) = some s') ∧
      ∀ (answers : List filteredThenMapped.pipe.α) s',
        Transition.run filteredThenMapped.pipe.machine.step s (answers.map .answer) = some s' →
        s'.current.isSome →
        answers.length <
          4 * (2 * itemCount (filteredThenMapped.pipe.feed.answers s'.log) + 0 + 1) := by
  have hrun : (filteredThenMapped.pipe.machine.run filteredThenMapped.pipe.new
      (refusesFirst.take 7)).map (fun s => (s.current.isSome, s.calls.length,
        filteredThenMapped.pipe.feed.polls (filteredThenMapped.pipe.machine.asks s.self))) =
          some (true, 0, true) := rfl
  obtain ⟨s, hs, heq⟩ := Option.map_eq_some_iff.mp hrun
  obtain ⟨hcurrent, hrest⟩ := Prod.mk.inj heq
  obtain ⟨hcalls, hpolls⟩ := Prod.mk.inj hrest
  have hnil := List.length_eq_zero_iff.mp hcalls
  obtain ⟨hpolled, -, hbound⟩ := chain_calls_end ℕ ℕ ℕ ℕ filteredThenMapped _ s hs hcurrent
  rw [hnil] at hbound
  exact ⟨s, hs, hcurrent, hnil, hpolled hpolls, hbound⟩

end TokioStreamUtil
