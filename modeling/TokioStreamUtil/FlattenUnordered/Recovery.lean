/-
What is left after a poll has unwound.

The bomb of `poll_next` gives the word back with both need bits set, whatever the call
had done with them. So the next call is handed both, and unless the flow controller
returns an item it polls the base and the bucket (`Recovering`). The bucket has lost
the stream that unwound and no other, and no item: the slot is empty wherever a call
can unwind.
-/
import TokioStreamUtil.FlattenUnordered.Limit

set_option autoImplicit false

namespace TokioStreamUtil.FlattenUnordered

open FuturesUnordered (Polled PollNext)
open Word (need polling waking)

variable {B I T W : Type} {A : AtomicWaker WrappedWaker}

/-! ## The step that unwinds -/

variable {next_step : B → Option (FlowStep I T)} {s s' : State I T W A}

/-- The call unwinds: `poll_next` had the word, and is about to unwind into its caller. -/
def State.UnwindsTo (s s' : State I T W A) : Prop :=
  s.pc.holds = true ∧ ∃ w, s'.pc = .done w .unwound

theorem stop_polling_calm (s : State I T W A) (l : Locals T W) (w : W) :
    (s.stop_polling l).pc ≠ .done w .unwound := by
  unfold State.stop_polling
  dsimp only
  split
  · rintro ⟨⟩
  · split
    · rintro ⟨⟩
    · rintro ⟨⟩

/-- **The bomb sets both need bits** and clears all the others. -/
theorem word_of_unwind {a : Act B I T W} (hm : Move next_step s a s') (h : s.UnwindsTo s') :
    s'.poll_state.state = NEED_TO_POLL_ALL := by
  obtain ⟨hholds, w, hdone⟩ := h
  have hsame : s'.pc = s.pc → False := by
    intro hpc
    rw [← hpc, hdone] at hholds
    cases hholds
  cases hm with
  | baseUnwinds hb hr => rfl
  | innerUnwinds i hb => rfl
  | stream r ho hf => exact (hsame (answered_frame _ _ _ _).1).elim
  | owner hq => exact (hsame (wakes_frame _ _).2.1).elim
  | stop i hpc hpush => exact absurd hdone (stop_polling_calm s _ w)
  | wake i hpc => cases hdone
  | ret hpc => cases hdone
  | _ => first | exact (hsame rfl).elim | cases hdone

/-- An answer of the base, or what the flow controller makes of it, that unwinds. -/
theorem unwinds_base {i : ℕ} {r : PollNext B}
    (hr : (Act.base i r : Act B I T W).unwinds next_step = true)
    (hm : Move next_step s (.base i r) s') : s.UnwindsTo s' := by
  cases hm with
  | baseReturn hb hpush hstep =>
      change (next_step _).isNone = true at hr
      rw [hstep] at hr
      cases hr
  | baseContinue hb hpush hstep hi ho =>
      change (next_step _).isNone = true at hr
      rw [hstep] at hr
      cases hr
  | baseEnds hb hpush => cases hr
  | basePending hb hpush => cases hr
  | @baseUnwinds l i r hb hr =>
      refine ⟨?_, l.waker, rfl⟩
      rw [hb.pc]
      rfl

/-! ## A stream that unwinds -/

/-- The bucket is unwinding, and `poll_next` with it. -/
def State.Unwinding (s : State I T W A) : Prop :=
  (∃ l, s.pc = .innerPoll l ∧ s.inner_streams.owner.result = some .unwound) ∨
    ∃ w, s.pc = .done w .unwound

/-- The bomb of the bucket's `poll_next` has the task. -/
theorem unwinding_of_stream (hinv : s.Inv)
    (hstream : ∀ t fut, (s.inner_streams.tasks t).future = some fut → ∃ st, fut.stream = some st)
    (hm : Move next_step s (.inner .unwind) s') : s'.Unwinding := by
  cases hm with
  | @stream lv t fut r ho hf =>
      obtain ⟨st, hst⟩ := hstream t fut hf
      obtain ⟨l, hl⟩ := hinv.bucket.innerPoll_of_not_idle (by rw [ho]; rfl)
      unfold PollStreamFut.poll State.answered
      rw [hst]
      exact Or.inl ⟨l, hl, rfl⟩

/-- A call that has come to its result waits for its return. -/
theorem done_stays {a : Act B I T W} {w : W} {r : PollNext T} (hpc : s.pc = .done w r)
    (ha : a.isRet = false) (hm : Move next_step s a s') : s'.pc = .done w r := by
  cases hm with
  | stream r ho hf => exact (answered_frame _ _ _ _).1.trans hpc
  | owner hq => exact (wakes_frame _ _).2.1.trans hpc
  | ret hpc' => cases ha
  | wakeTask hcalls hq => exact hpc
  | thread hcalls hq => exact hpc
  | call hcalls hi => exact hpc
  | wake_by_ref k hi => exact hpc
  | waker hs => exact hpc
  -- `poll_next` moves on its own only elsewhere
  | _ =>
      first
      | cases hpc.symm.trans (AsksBase.pc ‹_›)
      | cases hpc.symm.trans (BucketReturns.pc ‹_›)
      | cases hpc.symm.trans ‹s.pc = _›

/-- A call that is unwinding does not stop doing so. -/
theorem unwinding_move {a : Act B I T W} (h : s.Unwinding) (ha : a.isRet = false)
    (hm : Move next_step s a s') : s'.Unwinding := by
  have hframe : ∀ {b : InnerAct I T} {q : FuturesUnordered.State (PollStreamFut I)
      (Option (T × PollStreamFut I)) WrappedWaker A}, FuturesUnordered.Move s.inner_streams b q →
      b.inner = true → s.inner_streams.owner.result = some .unwound →
      q.owner.result = some .unwound := by
    intro b q hq hb hres
    rcases (FuturesUnordered.frame_move hq hb).result with hkept | ⟨hnone, -⟩
    · rw [hkept, hres]
    · rw [hres] at hnone
      cases hnone
  rcases h with ⟨l, hpc, hres⟩ | ⟨w, hpc⟩
  · have hreturns : ∀ {l' lv r}, BucketReturns s l' lv r → r = .unwound := by
      intro l' lv r hb
      have hr := hb.owner ▸ hres
      exact Option.some.inj hr
    cases hm with
    | @baseUnwinds l' i r hb hr => exact Or.inr ⟨l'.waker, rfl⟩
    | innerItem hb hi => cases hreturns hb
    | innerEnd i hb => cases hreturns hb
    | innerNone i hb hr =>
        cases hreturns hb
        rcases hr with hr | hr <;> cases hr
    | @innerUnwinds l' lv i hb => exact Or.inr ⟨l'.waker, rfl⟩
    | stream r ho hf =>
        rw [ho] at hres
        cases hres
    | owner hq =>
        left
        refine ⟨l, (wakes_frame _ _).2.1.trans hpc, ?_⟩
        rw [wakes_bucket]
        exact hframe hq rfl hres
    | ret hpc' => cases ha
    | wakeTask hcalls hq => exact Or.inl ⟨l, hpc, hframe hq rfl hres⟩
    | thread hcalls hq => exact Or.inl ⟨l, hpc, hframe hq rfl hres⟩
    | call hcalls hi => exact Or.inl ⟨l, hpc, hres⟩
    | wake_by_ref k hi => exact Or.inl ⟨l, hpc, hres⟩
    | waker hs => exact Or.inl ⟨l, hpc, hres⟩
    | _ => first | cases hpc.symm.trans (AsksBase.pc ‹_›) | cases hpc.symm.trans ‹s.pc = _›
  · exact Or.inr ⟨w, done_stays hpc ha hm⟩

/-! ## The next call -/

/-- How far the call after has come that was handed both need bits: it has still both
to do, or it has polled the base (or that is done, or the bucket was `full`) and then
the bucket, unless an item was `returned`. -/
def Pc.Recovering (returned full : Prop) (basePolled innerPolled done : Bool) : Pc T W → Prop
  | .replace l => ∀ k, need k l.poll_state_value = true
  | .base l => ∀ k, need k l.poll_state_value = true
  | .inner l =>
      returned ∨
        (basePolled = true ∨ done = true ∨ full) ∧ need .inner_streams l.poll_state_value = true
  | .innerPoll _ => returned ∨ (basePolled = true ∨ done = true ∨ full) ∧ innerPolled = true
  | .finish _ => returned ∨ (basePolled = true ∨ done = true ∨ full) ∧ innerPolled = true
  | _ => True

/-- The bucket is at its limit where `poll_next` asks for that. -/
def State.AtLimit (s : State I T W A) : Prop :=
  (∃ l, s.pc = .base l) ∧ s.is_exceeded_limit = true

/-- The flow controller returns what the base answers in the step. -/
def Act.TakesReturn (next_step : B → Option (FlowStep I T)) (a : Act B I T W) : Prop :=
  ∃ i item x, a = .base i (.ready (some item)) ∧ takes next_step item = some x

/-- After a poll has unwound: both bits wait for the next call, or that call has them. -/
structure State.Recovering (s : State I T W A) (returned full : Prop) : Prop where
  waiting : s.pc.started = false → ∀ k, need k s.poll_state.state = true
  place : s.pc.Recovering returned full s.hist.basePolled s.hist.innerPolled s.is_stream_done

namespace State.Recovering

variable {returned full returned' full' : Prop}

theorem mono (h : s.Recovering returned full) (hreturned : returned → returned')
    (hfull : full → full') : s.Recovering returned' full' := by
  have hplace := h.place
  refine ⟨h.waiting, ?_⟩
  cases hpc : s.pc with
  | inner l =>
      rw [hpc] at hplace
      exact hplace.imp hreturned (And.imp_left (Or.imp_right (Or.imp_right hfull)))
  | innerPoll l =>
      rw [hpc] at hplace
      exact hplace.imp hreturned (And.imp_left (Or.imp_right (Or.imp_right hfull)))
  | finish l =>
      rw [hpc] at hplace
      exact hplace.imp hreturned (And.imp_left (Or.imp_right (Or.imp_right hfull)))
  | _ =>
      rw [hpc] at hplace
      exact hplace

/-- The call is where both bits do not wait any more. -/
theorem of_place (hstarted : s.pc.started = true)
    (hplace : s.pc.Recovering returned full s.hist.basePolled s.hist.innerPolled s.is_stream_done) :
    s.Recovering returned full :=
  ⟨fun hnot => absurd (hstarted.symm.trans hnot) (by decide), hplace⟩

end State.Recovering

section Recovering

variable {returned full : Prop}

theorem recovering_wakes (ks : List WrappedWaker) : ∀ {s : State I T W A},
    s.Recovering returned full →
      (ks.foldl (fun s' k => s'.wake_by_ref .poll k) s).Recovering returned full := by
  induction ks with
  | nil => exact fun h => h
  | cons k ks ih =>
      intro s h
      exact ih ⟨fun hstarted k' => need_wake_of_need k' (h.waiting hstarted k') _ k, h.place⟩

/-- **Every move of the call brings it on**, and notes whether an item was returned or
the bucket was full. -/
theorem recovering_move {a : Act B I T W} (h : s.Recovering returned full) (ha : a.isRet = false)
    (hm : Move next_step s a s') :
    s'.Recovering (returned ∨ a.TakesReturn next_step) (full ∨ s.AtLimit) := by
  have hkeep : s.Recovering (returned ∨ a.TakesReturn next_step) (full ∨ s.AtLimit) :=
    h.mono Or.inl Or.inl
  have hplace := hkeep.place
  cases hm with
  | @poll_next w hpc => exact ⟨fun _ => h.waiting (by rw [hpc]; rfl), trivial⟩
  | spin i hpc hw => exact hkeep
  | claim i hpc hw => exact .of_place rfl fun k => h.waiting (by rw [hpc]; rfl) k
  | replace i hpc hp =>
      refine .of_place (by show s.pc.started = true; rw [hpc]; rfl) ?_
      exact hplace
  | replaced i hpc hp =>
      rw [hpc] at hplace
      exact .of_place rfl hplace
  -- after the reset the base is polled, so it is not skipped
  | baseSkip i hpc hneed hpush =>
      rw [hpc] at hplace
      rw [hplace .stream] at hneed
      cases hneed
  | baseDone i hpc hdone hpush =>
      rw [hpc] at hplace
      exact .of_place rfl (Or.inr ⟨Or.inr (Or.inl hdone), hplace .inner_streams⟩)
  -- the one way past the base without a poll of it, while it is running
  | baseLimit i hpc hlimit hdone hpush =>
      rw [hpc] at hplace
      exact .of_place rfl
        (Or.inr ⟨Or.inr (Or.inr (Or.inr ⟨⟨_, hpc⟩, hlimit⟩)), hplace .inner_streams⟩)
  | @baseReturn l i item x hb hpush hstep =>
      have htakes : takes next_step item = some x := by
        unfold takes
        rw [hstep]
      exact .of_place rfl (Or.inl (Or.inr ⟨i, item, x, rfl, htakes⟩))
  | baseContinue hb hpush hstep hi ho =>
      rw [hb.pc] at hplace
      refine .of_place rfl fun k => ?_
      dsimp only
      rw [need_or, hplace k]
      rfl
  | baseEnds hb hpush =>
      refine .of_place (by show s.pc.started = true; rw [hb.pc]; rfl) ?_
      show s.pc.Recovering _ _ _ _ _
      rw [hb.pc] at hplace ⊢
      exact hplace
  | basePending hb hpush =>
      rw [hb.pc] at hplace
      exact .of_place rfl (Or.inr ⟨Or.inl rfl, hplace .inner_streams⟩)
  | baseUnwinds hb hr => exact .of_place rfl trivial
  -- the bucket is skipped only behind a `Return`
  | innerSkip i hpc hneed =>
      rw [hpc] at hplace
      refine .of_place rfl (hplace.imp_right fun hboth => ?_)
      rw [hboth.2] at hneed
      cases hneed
  | innerPoll i hpc hneed ho hpush =>
      rw [hpc] at hplace
      exact .of_place rfl (hplace.imp_right fun hboth => ⟨hboth.1, rfl⟩)
  | innerItem hb hi =>
      rw [hb.pc] at hplace
      exact .of_place rfl hplace
  | innerEnd i hb =>
      rw [hb.pc] at hplace
      exact .of_place rfl hplace
  | innerNone i hb hr =>
      rw [hb.pc] at hplace
      exact .of_place rfl hplace
  | innerUnwinds i hb => exact .of_place rfl trivial
  | stream r ho hf =>
      unfold State.answered
      split
      all_goals exact ⟨h.waiting, hplace⟩
  | owner hq => exact recovering_wakes _ ⟨h.waiting, hplace⟩
  | stop i hpc hpush =>
      unfold State.stop_polling
      dsimp only
      split
      · exact .of_place rfl trivial
      · split
        · exact .of_place rfl trivial
        · exact .of_place rfl trivial
  | wake i hpc => exact .of_place rfl trivial
  | ret hpc => cases ha
  | wakeTask hcalls hq => exact ⟨h.waiting, hplace⟩
  | thread hcalls hq => exact ⟨h.waiting, hplace⟩
  | call hcalls hi =>
      exact ⟨fun hstarted k => need_wake_of_need k (h.waiting hstarted k) _ _, hplace⟩
  | wake_by_ref k hi =>
      exact ⟨fun hstarted k' => need_wake_of_need k' (h.waiting hstarted k') _ _, hplace⟩
  | waker hs =>
      refine ⟨fun hstarted k => ?_, hplace⟩
      show need k _ = true
      rw [need_wakerStep k hs, h.waiting hstarted k]

/-- Somewhere in the run from `s` the bucket was at its limit where `poll_next` asked. -/
def LimitMet (next_step : B → Option (FlowStep I T)) (s : State I T W A) (ls : List (Act B I T W)) :
    Prop :=
  ∃ l₁ l₂ t, ls = l₁ ++ l₂ ∧ Transition.run (step next_step) s l₁ = some t ∧ t.AtLimit

/-- **A whole call**: what it notes has happened in it. -/
theorem recovering_run {ls : List (Act B I T W)} (h : s.Recovering returned full)
    (hls : ∀ a ∈ ls, a.isRet = false) (hrun : Transition.run (step next_step) s ls = some s') :
    s'.Recovering (returned ∨ ∃ a ∈ ls, a.TakesReturn next_step) (full ∨ LimitMet next_step s ls) := by
  induction ls generalizing s returned full with
  | nil =>
      rw [Transition.run_nil, Option.some.injEq] at hrun
      exact hrun ▸ h.mono Or.inl Or.inl
  | cons a ls ih =>
      rw [Transition.run_cons, Option.bind_eq_some_iff] at hrun
      obtain ⟨s₁, hs, hrun⟩ := hrun
      have hone := recovering_move h (hls a List.mem_cons_self) (move_of_step hs)
      refine (ih hone (fun b hb => hls b (List.mem_cons_of_mem a hb)) hrun).mono ?_ ?_
      · rintro ((hreturned | htakes) | ⟨b, hb, htakes⟩)
        · exact Or.inl hreturned
        · exact Or.inr ⟨a, List.mem_cons_self, htakes⟩
        · exact Or.inr ⟨b, List.mem_cons_of_mem a hb, htakes⟩
      · rintro ((hfull | hlimit) | ⟨l₁, l₂, t, rfl, hrun₁, hlimit⟩)
        · exact Or.inl hfull
        · exact Or.inr ⟨[], a :: ls, s, rfl, rfl, hlimit⟩
        · refine Or.inr ⟨a :: l₁, l₂, t, rfl, ?_, hlimit⟩
          rw [Transition.run_cons, hs]
          exact hrun₁

end Recovering

/-! ## From the unwinding to the next call -/

/-- The call has unwound, and the word has both need bits. -/
structure State.Unwound (s : State I T W A) : Prop where
  inv : s.Inv
  pc : ∃ w, s.pc = .done w .unwound
  needs : ∀ k, need k s.poll_state.state = true

namespace State.Unwound

theorem move {a : Act B I T W} (h : s.Unwound) (ha : a.isRet = false) (hm : Move next_step s a s') :
    s'.Unwound := by
  obtain ⟨w, hpc⟩ := h.pc
  refine ⟨inv_move h.inv hm, ⟨w, done_stays hpc ha hm⟩, fun k => ?_⟩
  rcases need_move k hm (h.needs k) with hneed | ⟨v, hstart, -⟩
  · exact hneed
  · cases hpc.symm.trans hstart

theorem ret (h : s.Unwound) (hm : Move next_step s .ret s') :
    s'.Inv ∧ s'.Recovering False False := by
  refine ⟨inv_move h.inv hm, ?_⟩
  cases hm with
  | ret hpc => exact ⟨fun _ => h.needs, trivial⟩

end State.Unwound

/-- Both need bits are set, the poll does not have the word, and `start_polling` takes
it if no waker has. -/
structure State.Ready (s : State I T W A) : Prop where
  polling : polling s.poll_state.state = false
  needs : ∀ k, need k s.poll_state.state = true
  succeeds : (∀ c, (s.poll_state.wakers c).critical = false) →
    (SharedPollState.start_polling s.poll_state.state).2 = some s.poll_state.state

theorem ready_of_needs (h : s.Inv) (hpc : s.pc.holds = false)
    (hneeds : ∀ k, need k s.poll_state.state = true) : s.Ready := by
  refine ⟨?_, hneeds, fun hfree => ?_⟩
  · rw [h.shared.exclusive.polling, h.shared.critical, hpc]
  · have hwaking : waking s.poll_state.state = false := by
      by_contra hset
      obtain ⟨c, hc⟩ := h.shared.exclusive.waking.mp (Bool.not_eq_false _ ▸ hset)
      rw [hfree c] at hc
      cases hc
    rw [start_polling_of_not_waking _ hwaking]

/-- What a call that has just unwound leaves behind: a word in which the need bits are
set and nobody is at work; both bits stay until the next `start_polling`, which only a
waker that has the word holds up; and the call that it starts, if it comes to its
`stop_polling` without an item that is returned, has polled the bucket, and the base
unless that is done or the bucket was at its limit. -/
structure State.Recovery (next_step : B → Option (FlowStep I T)) (s : State I T W A) : Prop where
  polling : polling s.poll_state.state = false
  waking : waking s.poll_state.state = false
  needs : ∀ k, need k s.poll_state.state = true
  before : ∀ (ls : List (Act B I T W)) s', (∀ a ∈ ls, a.isRet = false) →
    Transition.run (step next_step) s ls = some s' → s'.Ready
  between : ∀ (ls ls' : List (Act B I T W)) s', (∀ a ∈ ls, a.isRet = false) →
    (∀ a ∈ ls', a.isRet = false) → Transition.run (step next_step) s (ls ++ .ret :: ls') = some s' →
    s'.pc.started = false → s'.Ready
  next : ∀ (ls ls' : List (Act B I T W)) s' l, (∀ a ∈ ls, a.isRet = false) →
    (∀ a ∈ ls', a.isRet = false) → Transition.run (step next_step) s (ls ++ .ret :: ls') = some s' →
    s'.pc = .finish l → (∃ a ∈ ls', a.TakesReturn next_step) ∨
      s'.hist.innerPolled = true ∧ (s'.hist.basePolled = true ∨ s'.is_stream_done = true ∨
        LimitMet next_step s (ls ++ .ret :: ls'))

/-- **A call that unwinds leaves all that the next one needs.** -/
theorem recovery_of_unwind {a : Act B I T W} (hinv : s.Inv) (hm : Move next_step s a s')
    (hunwinds : s.UnwindsTo s') : s'.Recovery next_step := by
  have hword := word_of_unwind hm hunwinds
  have hneeds : ∀ k, need k s'.poll_state.state = true := by
    intro k
    rw [hword]
    exact need_all k
  have hunwound : s'.Unwound := ⟨inv_move hinv hm, hunwinds.2, hneeds⟩
  have hbefore : ∀ (ls : List (Act B I T W)) t, (∀ a ∈ ls, a.isRet = false) →
      Transition.run (step next_step) s' ls = some t → t.Unwound :=
    fun ls t hls hrun => Transition.run_invariant_of_labels (I := State.Unwound)
      (fun s a s' ha h hs => h.move ha (move_of_step hs)) ls s' t hls hunwound hrun
  have hafter : ∀ (ls ls' : List (Act B I T W)) t, (∀ a ∈ ls, a.isRet = false) →
      (∀ a ∈ ls', a.isRet = false) → Transition.run (step next_step) s' (ls ++ .ret :: ls') = some t →
      t.Inv ∧ t.Recovering (False ∨ ∃ a ∈ ls', a.TakesReturn next_step)
        (False ∨ LimitMet next_step s' (ls ++ .ret :: ls')) := by
    intro ls ls' t hls hls' hrun
    obtain ⟨s₁, hrun₁, hrun⟩ := Transition.run_append_eq_some.mp hrun
    rw [Transition.run_cons, Option.bind_eq_some_iff] at hrun
    obtain ⟨s₂, hret, hrun₂⟩ := hrun
    obtain ⟨hinv₂, hrecovering⟩ := (hbefore ls s₁ hls hrun₁).ret (move_of_step hret)
    have hinvt : t.Inv :=
      Transition.run_invariant (fun _ _ _ h hs => inv_move h (move_of_step hs)) hinv₂ hrun₂
    refine ⟨hinvt, (recovering_run hrecovering hls' hrun₂).mono id (Or.imp_right ?_)⟩
    rintro ⟨l₁, l₂, u, rfl, hrunu, hlimit⟩
    refine ⟨ls ++ .ret :: l₁, l₂, u, by rw [List.append_assoc, List.cons_append], ?_, hlimit⟩
    rw [Transition.run_append_eq_some]
    refine ⟨s₁, hrun₁, ?_⟩
    rw [Transition.run_cons, hret]
    exact hrunu
  refine ⟨?_, ?_, hneeds, fun ls t hls hrun => ?_, fun ls ls' t hls hls' hrun hstarted => ?_,
    fun ls ls' t l hls hls' hrun hpc => ?_⟩
  · rw [hword]
    decide
  · rw [hword]
    decide
  · have ht := hbefore ls t hls hrun
    obtain ⟨w, hpc⟩ := ht.pc
    exact ready_of_needs ht.inv (by rw [hpc]; rfl) ht.needs
  · obtain ⟨hinvt, hrecovering⟩ := hafter ls ls' t hls hls' hrun
    refine ready_of_needs hinvt ?_ (hrecovering.waiting hstarted)
    cases hpc : t.pc with
    | idle => rfl
    | start w => rfl
    | _ =>
        rw [hpc] at hstarted
        cases hstarted
  · obtain ⟨-, hrecovering⟩ := hafter ls ls' t hls hls' hrun
    have hplace := hrecovering.place
    rw [hpc] at hplace
    rcases hplace with (hfalse | hreturned) | ⟨hbase, hpolled⟩
    · exact hfalse.elim
    · exact Or.inl hreturned
    · refine Or.inr ⟨hpolled, hbase.imp_right (Or.imp_right ?_)⟩
      exact fun hfull => hfull.resolve_left id

/-! ## What is kept over the whole run -/

/-- Stream `k` has unwound in the run. -/
def Lost (next_step : B → Option (FlowStep I T)) (s₀ : State I T W A) (ls : List (Act B I T W))
    (k : ℕ) : Prop :=
  ∃ l₁ l₂ t, ls = l₁ ++ .inner .unwind :: l₂ ∧ Transition.run (step next_step) s₀ l₁ = some t ∧
    t.Polls k

/-- What has been yielded, and the streams that are kept. `lost` are those that have
unwound. -/
structure State.Whole (lost : ℕ → Prop) (s : State I T W A) : Prop where
  /-- What has been yielded from `o` is what it has given, in order, up to what is on
  its way. -/
  inOrder : ∀ o, itemsOf o (yielded s.hist.events) <+: o.gave s.hist.events
  /-- Between calls nothing is on its way. -/
  items : s.pc = .idle → ∀ o, itemsOf o (yielded s.hist.events) = o.gave s.hist.events
  /-- A stream that was taken and has neither ended nor unwound is in the bucket. -/
  kept : (∀ l, s.pc ≠ .innerPoll l) → ∀ k, .taken k ∈ s.hist.events → .ended k ∉ s.hist.events →
    ¬ lost k → ∃ t fut, s.inner_streams.Holds t fut ∧ fut.source = k ∧ fut.stream.isSome = true
  /-- What `poll_next` returns is what the history says. -/
  told : ∀ w r, s.pc = .done w r → s.hist.events.getLast?.bind Event.outcome = some r

/-- What holds of every run, whoever unwinds. -/
structure State.Kept (lost : ℕ → Prop) (s : State I T W A) : Prop where
  inv : s.Inv
  items : s.Items
  taken : s.Taken (fun _ => True) lost
  told : s.Told

namespace State.Kept

variable {lost lost' : ℕ → Prop}

theorem new (lost : ℕ → Prop) (limit : Option ℕ) : (State.new I T W A limit).Kept lost :=
  ⟨State.Inv.new limit, Items.new, Taken.new _ lost, nofun⟩

theorem stream (h : s.Kept lost) (t : ℕ) (fut : PollStreamFut I)
    (hf : (s.inner_streams.tasks t).future = some fut) : ∃ st, fut.stream = some st :=
  (h.taken.tasks t fut hf).stream.imp fun _ hst => hst.1

theorem imp (h : s.Kept lost) (hlost : ∀ k, lost k → lost' k) : s.Kept lost' :=
  ⟨h.inv, h.items, ⟨h.taken.tasks, h.taken.carried, h.taken.taken, h.taken.produced,
    fun k hk => (h.taken.kept k hk).imp_right (Or.imp_left (hlost k))⟩, h.told⟩

theorem move {a : Act B I T W} (h : s.Kept lost) (hlost : ∀ k, s.Unwinds a k → lost k)
    (hm : Move next_step s a s') : s'.Kept lost where
  inv := inv_move h.inv hm
  items := items_move h.inv h.items h.stream hm
  taken := taken_move h.inv h.taken hlost (a.brings_any next_step) hm
  told := told_move h.inv h.told hm

/-- **A whole run**: a stream is lost where it unwinds, and nowhere else. -/
theorem run {limit : Option ℕ} {ls : List (Act B I T W)}
    (hrun : Transition.run (step next_step) (State.new I T W A limit) ls = some s) :
    s.Kept (Lost next_step (State.new I T W A limit) ls) := by
  induction ls using List.reverseRecOn generalizing s with
  | nil =>
      rw [Transition.run_nil, Option.some.injEq] at hrun
      exact hrun ▸ .new _ limit
  | append_singleton ls a ih =>
      obtain ⟨s₁, hrun₁, hs⟩ := Transition.run_concat_eq_some.mp hrun
      refine ((ih hrun₁).imp ?_).move ?_ (move_of_step hs)
      · rintro k ⟨l₁, l₂, t, rfl, hrunt, hpolls⟩
        exact ⟨l₁, l₂ ++ [a], t, by rw [List.append_assoc, List.cons_append], hrunt, hpolls⟩
      · rintro k ⟨rfl, hpolls⟩
        exact ⟨ls, [], s₁, rfl, hrun₁, hpolls⟩

theorem whole (h : s.Kept lost) : s.Whole lost where
  inOrder := by
    intro o
    rw [← itemsOf_given, h.items.balance]
    unfold itemsOf
    rw [List.filter_append, List.map_append]
    exact List.prefix_append _ _
  items := by
    intro hpc o
    have hbalance := h.items.balance
    have hout := carrying_of_outside h.inv (by rw [hpc]; intro l hl; cases hl)
    rw [hout, hpc] at hbalance
    rw [← itemsOf_given, hbalance]
    exact congrArg (itemsOf o) (List.append_nil _).symm
  kept := by
    intro hpc k htaken hrunning hnot
    rcases h.taken.kept k ((h.taken.taken k).mp htaken) with hended | hlost | ⟨t, fut, hholds, hsource⟩ |
      ⟨x, fut, hmem, -⟩
    · exact absurd hended hrunning
    · exact absurd hlost hnot
    · obtain ⟨st, hst⟩ := h.stream t fut hholds.future
      exact ⟨t, fut, hholds, hsource, by rw [hst]; rfl⟩
    · rw [carrying_of_outside h.inv hpc] at hmem
      cases hmem
  told := fun w r hpc => h.told r (by rw [hpc]; rfl)

end State.Kept

/-! ## The theorem -/

/-- **A poll that unwinds costs one stream at most.** In every run, whoever unwinds and
however often, with wakes at any time: a call in which the base, the flow controller or
an inner stream unwinds does unwind, and leaves what the next call needs (`Recovery`);
and all the while the items are yielded in order, none twice and none lost, and the
bucket keeps every stream that was taken, until it ends or unwinds itself (`Whole`),
where what the streams have given and which of them have ended is what their answers
say. -/
theorem recovers_from_unwinding (next_step : B → Option (FlowStep I T)) (limit : Option ℕ)
    (ls : List (Act B I T W)) (s : State I T W A)
    (hrun : Transition.run (step next_step) (State.new I T W A limit) ls = some s) :
    s.Whole (Lost next_step (State.new I T W A limit) ls) ∧
    (∀ a s', step next_step s a = some s' →
      answers s'.hist.events = answers s.hist.events ++ s.says next_step a) ∧
    (∀ a s', step next_step s a = some s' → s.UnwindsTo s' → s'.Recovery next_step) ∧
    (∀ i r s', (Act.base i r : Act B I T W).unwinds next_step = true →
      step next_step s (.base i r) = some s' → s.UnwindsTo s') ∧
    (∀ s', step next_step s (.inner .unwind) = some s' → ∀ ls' s'', (∀ a ∈ ls', a.isRet = false) →
      Transition.run (step next_step) s' ls' = some s'' → s''.Unwinding) := by
  have hkept := State.Kept.run hrun
  refine ⟨hkept.whole, fun a s' hs => ?_, fun a s' hs hunwinds => ?_, fun i r s' hr hs => ?_,
    fun s' hs ls' s'' hls' hrun' => ?_⟩
  · exact answers_move (move_of_step hs)
  · exact recovery_of_unwind hkept.inv (move_of_step hs) hunwinds
  · exact unwinds_base hr (move_of_step hs)
  · exact Transition.run_invariant_of_labels (I := State.Unwinding)
      (fun s a s' ha h hs => unwinding_move h ha (move_of_step hs)) ls' s' s'' hls'
      (unwinding_of_stream hkept.inv hkept.stream (move_of_step hs)) hrun'

/-- The base gives a stream for `0`, and the flow controller unwinds on anything else. -/
def zeroOnly (n : ℕ) : Option (FlowStep Unit ℕ) := if n = 0 then some (.Continue ()) else none

/-- Two streams are taken, one of them unwinds, and the next call polls the base. -/
def oneUnwinds : List (Act ℕ Unit ℕ Unit) :=
  let call := [.poll_next ()] ++ List.replicate 4 (.own 0)
  let given := [.base 0 (.ready (some 0))] ++ List.replicate 4 (.thread 0)
  call ++ given ++ given ++ [.base 0 .pending, .own 0] ++ List.replicate 7 .owner ++
    [.inner .unwind, .owner, .owner, .own 0, .ret] ++ call

theorem recovers_from_unwinding_one_unwinds :
    ∃ s s' : State Unit ℕ Unit (AtomicWaker.cell WrappedWaker),
      Transition.run (step zeroOnly) (State.new Unit ℕ Unit _ none) oneUnwinds = some s ∧
      step zeroOnly s (.base 0 (.ready (some 7))) = some s' ∧
      s.Whole (Lost zeroOnly (State.new Unit ℕ Unit (AtomicWaker.cell WrappedWaker) none) oneUnwinds) ∧
      s'.Recovery zeroOnly := by
  have hrun : (Transition.run (step zeroOnly)
      (State.new Unit ℕ Unit (AtomicWaker.cell WrappedWaker) none)
      (oneUnwinds ++ [.base 0 (.ready (some 7))])).isSome = true := rfl
  obtain ⟨s', hs'⟩ := Option.isSome_iff_exists.mp hrun
  obtain ⟨s, hs, hlast⟩ := Transition.run_concat_eq_some.mp hs'
  obtain ⟨hwhole, -, hrecovery, hbase, -⟩ := recovers_from_unwinding zeroOnly none oneUnwinds s hs
  exact ⟨s, s', hs, hlast, hwhole, hrecovery _ s' hlast (hbase 0 (.ready (some 7)) s' rfl hlast)⟩

end TokioStreamUtil.FlattenUnordered
