/-
No need bit and no wake-up of the outer waker is lost.

A need bit is never cleared but by `start_polling`, which hands it to the call that
it starts. After a call has returned `Pending`, the outer waker has been called, or
somebody is committed to calling it (`Committed`), or there is nothing to call it
for and nobody has claimed to have woken the stream (`Asleep`): the next
`wake_by_ref` on a wrapped waker then becomes the one that is committed.
-/
import TokioStreamUtil.FlattenUnordered.Invariant

set_option autoImplicit false

namespace TokioStreamUtil.FlattenUnordered

open FuturesUnordered (Polled PollNext)
open Word (need woken waking NeedsOnly)

variable {B I T W : Type} {A : AtomicWaker WrappedWaker}

/-! ## Need bits -/

section NeedBits

variable {ι : Type} [DecidableEq ι] {ps ps' : Sys ι W} (k : WrappedWaker)

/-- `wake_by_ref` adds a need bit. -/
theorem need_wake_by_ref (i : ι) (k' : WrappedWaker) :
    need k (ps.wake_by_ref i k').state = (need k ps.state || k == k') := by
  rw [← start_waking_need k' k ps.state]
  unfold Sys.wake_by_ref
  split
  · rename_i hstart
    rw [hstart]
    rfl
  · rename_i hstart
    rw [hstart]

/-- A need bit that is set stays so, whoever calls `wake_by_ref`. -/
theorem need_wake_of_need (h : need k ps.state = true) (i : ι) (k' : WrappedWaker) :
    need k (ps.wake_by_ref i k').state = true := by
  rw [need_wake_by_ref, h, Bool.true_or]

/-- The bit of the waker that is called is set. -/
theorem need_wake_self (ps : Sys ι W) (i : ι) : need k (ps.wake_by_ref i k).state = true := by
  rw [need_wake_by_ref, beq_self_eq_true, Bool.or_true]

/-- No step of a `wake_by_ref` call clears one. -/
theorem need_wakerStep {i : ι} (hs : SharedPollState.wakerStep ps i = some ps') :
    need k ps'.state = need k ps.state := by
  unfold SharedPollState.wakerStep at hs
  split at hs
  · cases hs
  · cases hs
    rfl
  · cases hs
    exact stop_waking_need k ps.state
  · cases hs
    rfl

end NeedBits

/-- What `poll_next` does on its own account, apart from the start, clears none. -/
theorem need_stop_polling (k : WrappedWaker) {s : State I T W A} {l : Locals T W} :
    need k (s.stop_polling l).poll_state.state =
      (need k l.need_to_poll_next || need k s.poll_state.state) := by
  rw [← stop_polling_need k l.need_to_poll_next (s.force_wake l) s.poll_state.state]
  unfold State.stop_polling
  dsimp only
  split
  · rfl
  · split <;> rfl

variable {next_step : B → Option (FlowStep I T)} {s s' : State I T W A}

/-- The bits of the wakers that the bucket calls are added. -/
theorem need_wakes (k : WrappedWaker) (ks : List WrappedWaker) : ∀ {s : State I T W A},
    need k s.poll_state.state = true →
      need k (ks.foldl (fun s' k => s'.wake_by_ref .poll k) s).poll_state.state = true := by
  induction ks with
  | nil => exact fun h => h
  | cons k' ks ih =>
      intro s h
      exact ih (need_wake_of_need k h _ k')

/-- **A need bit stays** until `start_polling` hands it to a call. -/
theorem need_move {a : Act B I T W} (k : WrappedWaker) (hm : Move next_step s a s')
    (h : need k s.poll_state.state = true) :
    need k s'.poll_state.state = true ∨
      ∃ w, s.pc = .start w ∧ s' = s.claim w ∧ need k s'.hist.claimed = true := by
  cases hm with
  | @claim w i hpc hw => exact Or.inr ⟨w, hpc, rfl, h⟩
  | baseUnwinds hb hr => exact Or.inl (need_all k)
  | innerUnwinds i hb => exact Or.inl (need_all k)
  | stream r ho hf =>
      left
      unfold State.answered
      split <;> exact h
  | owner hq => exact Or.inl (need_wakes k _ h)
  | stop i hpc hpush =>
      left
      rw [need_stop_polling, h, Bool.or_true]
  | call hcalls hi =>
      exact Or.inl (need_wake_of_need k h _ _)
  | wake_by_ref k' hi =>
      exact Or.inl (need_wake_of_need k h _ _)
  | waker hs =>
      left
      show need k _ = true
      rw [need_wakerStep k hs, h]
  | _ => exact Or.inl h

/-! ## What a call does with the bits it was handed -/

/-- What has become of the bits `claimed` so far: they are still in the local
variables, or their part has been polled, or the base is done. -/
def Pc.Accounted (claimed : Word) (basePolled innerPolled done : Bool) : Pc T W → Prop
  | .replace l => ∀ k, need k claimed = true → need k l.poll_state_value = true
  | .base l => ∀ k, need k claimed = true → need k l.poll_state_value = true
  | .inner l =>
      (need .stream claimed = true →
        basePolled = true ∨ done = true ∨ need .stream l.need_to_poll_next = true) ∧
      (need .inner_streams claimed = true →
        need .inner_streams l.poll_state_value = true ∨
          need .inner_streams l.need_to_poll_next = true)
  | .innerPoll l =>
      (need .stream claimed = true →
        basePolled = true ∨ done = true ∨ need .stream l.need_to_poll_next = true) ∧
      innerPolled = true
  | .finish l =>
      (need .stream claimed = true →
        basePolled = true ∨ done = true ∨ need .stream l.need_to_poll_next = true) ∧
      (need .inner_streams claimed = true →
        innerPolled = true ∨ need .inner_streams l.need_to_poll_next = true)
  | _ => True

/-- The bits handed to the call in progress are accounted for. -/
def State.Accounted (s : State I T W A) : Prop :=
  s.pc.Accounted s.hist.claimed s.hist.basePolled s.hist.innerPolled s.is_stream_done

/-- Calls of wrapped wakers are no part of the account. -/
theorem accounted_wakes (ks : List WrappedWaker) : ∀ {s : State I T W A}, s.Accounted →
    (ks.foldl (fun s' k => s'.wake_by_ref .poll k) s).Accounted := by
  induction ks with
  | nil => exact fun h => h
  | cons k ks ih => exact fun h => ih (s := _) h

theorem accounted_move {a : Act B I T W} (h : s.Accounted) (hm : Move next_step s a s') :
    s'.Accounted := by
  unfold State.Accounted at h
  cases hm with
  | claim i hpc hw => exact fun k hk => hk
  | replaced i hpc hp => rw [hpc] at h; exact h
  | baseSkip i hpc hneed hpush =>
      rw [hpc] at h
      refine ⟨fun hk => ?_, fun hk => Or.inl (h .inner_streams hk)⟩
      rw [h .stream hk] at hneed
      cases hneed
  | baseDone i hpc hdone hpush =>
      rw [hpc] at h
      exact ⟨fun _ => Or.inr (Or.inl hdone), fun hk => Or.inl (h .inner_streams hk)⟩
  | baseLimit i hpc hlimit hdone hpush =>
      rw [hpc] at h
      refine ⟨fun _ => Or.inr (Or.inr ?_), fun hk => Or.inl (h .inner_streams hk)⟩
      dsimp only
      rw [need_or]
      exact Bool.or_eq_true_iff.mpr (Or.inr (by decide))
  -- the bucket is not polled, and its bit goes into `need_to_poll_next`
  | baseReturn hb hpush hstep =>
      rw [hb.pc] at h
      refine ⟨fun _ => Or.inl rfl, fun hk => Or.inr ?_⟩
      have hin : need .inner_streams NEED_TO_POLL_INNER_STREAMS = true := by decide
      dsimp only
      rw [need_or, need_or, need_and, h .inner_streams hk, hin]
      simp
  | baseContinue hb hpush hstep hi ho =>
      rw [hb.pc] at h
      intro k hk
      dsimp only
      rw [need_or, h k hk]
      rfl
  | baseEnds hb hpush =>
      show s.pc.Accounted _ _ _ _
      rw [hb.pc] at h ⊢
      exact h
  | basePending hb hpush =>
      rw [hb.pc] at h
      exact ⟨fun _ => Or.inl rfl, fun hk => Or.inl (h .inner_streams hk)⟩
  -- the bit of the bucket is not in the value, so it was put off
  | innerSkip i hpc hneed =>
      rw [hpc] at h
      refine ⟨h.1, fun hk => Or.inr ?_⟩
      rcases h.2 hk with hvalue | hnext
      · rw [hvalue] at hneed
        cases hneed
      · exact hnext
  | innerPoll i hpc hneed ho hpush =>
      rw [hpc] at h
      exact ⟨h.1, rfl⟩
  | innerItem hb hi =>
      rw [hb.pc] at h
      refine ⟨fun hk => ?_, fun _ => Or.inl h.2⟩
      rcases h.1 hk with hpolled | hdone | hnext
      · exact Or.inl hpolled
      · exact Or.inr (Or.inl hdone)
      · refine Or.inr (Or.inr ?_)
        dsimp only
        rw [need_or, hnext]
        rfl
  | innerEnd i hb =>
      rw [hb.pc] at h
      refine ⟨fun hk => ?_, fun _ => Or.inl h.2⟩
      rcases h.1 hk with hpolled | hdone | hnext
      · exact Or.inl hpolled
      · exact Or.inr (Or.inl hdone)
      · refine Or.inr (Or.inr ?_)
        dsimp only
        rw [need_or, hnext]
        rfl
  | innerNone i hb hr =>
      rw [hb.pc] at h
      exact ⟨h.1, fun _ => Or.inl h.2⟩
  | stream r ho hf =>
      unfold State.answered
      split <;> exact h
  | owner hq => exact accounted_wakes _ h
  -- the account is closed
  | stop i hpc hpush =>
      unfold State.stop_polling
      dsimp only
      split
      · trivial
      · split <;> trivial
  | poll_next w hpc => trivial
  | baseUnwinds hb hr => trivial
  | innerUnwinds i hb => trivial
  | wake i hpc => trivial
  | ret hpc => trivial
  | _ => exact h

/-! ## The outer waker -/

/-- The call of `c` has won `start_waking` and is going to call `w`. -/
def Sys.Committed (ps : Sys Caller W) (w : W) (c : Caller) : Prop :=
  match ps.wakers c with
  | .idle => False
  | .reading k => ps.inner_waker k = some w
  | .stopping inner_waker => inner_waker = some w
  | .waking w' => w' = w

/-- There is nothing to poll, except for a base that the limit withholds, and the
next `wake_by_ref` wakes. -/
structure Asleep (value : Word) (full : Bool) : Prop where
  woken : woken value = false
  waking : waking value = false
  inner : need .inner_streams value = false
  stream : need .stream value = true → full = true

/-- The outer waker that `poll_next` has gone to sleep on. -/
def Pc.resting (last : Option (W × PollNext T)) : Pc T W → Option W
  | .idle =>
      match last with
      | some (w, .pending) => some w
      | _ => none
  | .done w .pending => some w
  | _ => none

/-- The promise to the outer waker. -/
structure Promise (ps : Sys Caller W) (mark : ℕ) (full : Bool) (resting : Option W) : Prop where
  mark_le : mark ≤ ps.log.length
  resting : ∀ w, resting = some w →
    w ∈ ps.log.drop mark ∨ (∃ c, ps.Committed w c) ∨ Asleep ps.state full

/-- Who rests holds the cells, and does not hold the word. -/
theorem resting_outer {pc : Pc T W} {last : Option (W × PollNext T)} {w : W}
    (h : pc.resting last = some w) : pc.outer last = some w ∧ pc.holds = false := by
  cases pc with
  | idle =>
      cases last with
      | none => cases h
      | some wr =>
          obtain ⟨v, r⟩ := wr
          cases r with
          | pending => exact ⟨h, rfl⟩
          | _ => cases h
  | done v r =>
      cases r with
      | pending => exact ⟨h, rfl⟩
      | _ => cases h
  | _ => cases h

namespace Promise

variable {ps ps' : Sys Caller W} {mark : ℕ} {full : Bool} {resting resting' : Option W}

/-- `poll_next` moves on without falling asleep on anything new. -/
theorem advance (h : Promise ps mark full resting)
    (hrest : ∀ w, resting' = some w → resting = some w) : Promise ps mark full resting' :=
  ⟨h.mark_le, fun w hw => h.resting w (hrest w hw)⟩

/-- A `wake_by_ref` begins: if the stream is asleep, this is the call that wakes it. -/
theorem wake_by_ref {pc : Pc T W} {last : Option (W × PollNext T)} (hs : Shared pc last ps)
    (h : Promise ps mark full (pc.resting last)) {c : Caller} (hc : ps.wakers c = .idle)
    (k : WrappedWaker) : Promise (ps.wake_by_ref c k) mark full (pc.resting last) := by
  have hother : ∀ c' w, ps.Committed w c' → c' ≠ c := by
    rintro c' w hcom rfl
    unfold Sys.Committed at hcom
    rw [hc] at hcom
    exact hcom
  cases hfree : Word.polling ps.state || Word.woken ps.state || Word.waking ps.state with
  | true =>
      rw [Sys.wake_by_ref_of_busy hfree]
      refine ⟨h.mark_le, fun w hw => ?_⟩
      rcases h.resting w hw with hwoken | hcom | hasleep
      · exact Or.inl hwoken
      · exact Or.inr (Or.inl hcom)
      · rw [hs.exclusive.polling, hs.critical, (resting_outer hw).2, hasleep.woken,
          hasleep.waking] at hfree
        cases hfree
  | false =>
      rw [Sys.wake_by_ref_of_free hfree]
      refine ⟨h.mark_le, fun w hw => ?_⟩
      rcases h.resting w hw with hwoken | ⟨c', hcom⟩ | hasleep
      · exact Or.inl hwoken
      · refine Or.inr (Or.inl ⟨c', ?_⟩)
        unfold Sys.Committed
        dsimp only
        rw [Function.update_of_ne (hother c' w hcom)]
        exact hcom
      · refine Or.inr (Or.inl ⟨c, ?_⟩)
        unfold Sys.Committed
        dsimp only
        rw [Function.update_self]
        exact hs.armed w (resting_outer hw).1 k

/-- A `wake_by_ref` call moves on: what it is committed to, it keeps or does. -/
theorem wakerStep {pc : Pc T W} {last : Option (W × PollNext T)} (hs : Shared pc last ps)
    (h : Promise ps mark full (pc.resting last)) {c : Caller}
    (hstep : SharedPollState.wakerStep ps c = some ps') :
    Promise ps' mark full (pc.resting last) := by
  have hasleep_out : ∀ full, Asleep ps.state full → (ps.wakers c).critical = false :=
    fun _ hasleep => hs.exclusive.not_critical hasleep.waking c
  have hkeep : ∀ {pc' : Waker W} {v : Word} {c' : Caller} {w : W}, c' ≠ c → ps.Committed w c' →
      Sys.Committed { ps with state := v, wakers := Function.update ps.wakers c pc' } w c' := by
    intro pc' v c' w hne hcom
    unfold Sys.Committed
    dsimp only
    rw [Function.update_of_ne hne]
    exact hcom
  unfold SharedPollState.wakerStep at hstep
  cases hc : ps.wakers c with
  | idle => rw [hc] at hstep; cases hstep
  | reading k =>
      rw [hc] at hstep
      cases hstep
      refine ⟨h.mark_le, fun w hw => ?_⟩
      rcases h.resting w hw with hwoken | ⟨c', hcom⟩ | hasleep
      · exact Or.inl hwoken
      · refine Or.inr (Or.inl ⟨c', ?_⟩)
        by_cases hne : c' = c
        · subst hne
          unfold Sys.Committed at hcom
          rw [hc] at hcom
          unfold Sys.Committed Sys.setWaker
          dsimp only
          rw [Function.update_self]
          exact hcom
        · exact hkeep (v := ps.state) hne hcom
      · have hout := hasleep_out full hasleep
        rw [hc] at hout
        cases hout
  | stopping inner_waker =>
      rw [hc] at hstep
      cases hstep
      refine ⟨h.mark_le, fun w hw => ?_⟩
      rcases h.resting w hw with hwoken | ⟨c', hcom⟩ | hasleep
      · exact Or.inl hwoken
      · refine Or.inr (Or.inl ⟨c', ?_⟩)
        by_cases hne : c' = c
        · subst hne
          unfold Sys.Committed at hcom
          rw [hc] at hcom
          subst hcom
          unfold Sys.Committed Sys.stop_waking Sys.setWaker
          dsimp only
          rw [Function.update_self]
        · exact hkeep hne hcom
      · have hout := hasleep_out full hasleep
        rw [hc] at hout
        cases hout
  | waking w' =>
      rw [hc] at hstep
      cases hstep
      have hdrop : (ps.log ++ [w']).drop mark = ps.log.drop mark ++ [w'] :=
        List.drop_append_of_le_length h.mark_le
      refine ⟨?_, fun w hw => ?_⟩
      · show mark ≤ (ps.log ++ [w']).length
        rw [List.length_append]
        exact Nat.le_add_right_of_le h.mark_le
      · show w ∈ (ps.log ++ [w']).drop mark ∨ _
        rw [hdrop, List.mem_append, List.mem_singleton]
        rcases h.resting w hw with hwoken | ⟨c', hcom⟩ | hasleep
        · exact Or.inl (Or.inl hwoken)
        · by_cases hne : c' = c
          · subst hne
            unfold Sys.Committed at hcom
            rw [hc] at hcom
            exact Or.inl (Or.inr hcom.symm)
          · exact Or.inr (Or.inl ⟨c', hkeep (v := ps.state) hne hcom⟩)
        · exact Or.inr (Or.inr hasleep)

end Promise

/-- The promise of a state. -/
def State.Promise (s : State I T W A) : Prop :=
  FlattenUnordered.Promise s.poll_state s.hist.stoppedAt s.is_exceeded_limit
    (s.pc.resting s.hist.last)

/-- While `poll_next` rests, nobody changes the length of the bucket. -/
theorem exceeded_of_resting (h : s.Inv) {w : W} (hrest : s.pc.resting s.hist.last = some w)
    {a : InnerAct I T} (ha : a.inner = true)
    {q : FuturesUnordered.State (PollStreamFut I) (Option (T × PollStreamFut I)) WrappedWaker A}
    (hq : FuturesUnordered.Move s.inner_streams a q) :
    State.is_exceeded_limit { s with inner_streams := q } = s.is_exceeded_limit := by
  have hout : ∀ l, s.pc ≠ .innerPoll l := by
    intro l hl
    have hholds := (resting_outer hrest).2
    rw [hl] at hholds
    cases hholds
  have hbefore := h.bucket.sound.len_eq (h.bucket.idle hout)
  have hafter := (h.bucket.inner ha hq).sound.len_eq ((h.bucket.inner ha hq).idle hout)
  rw [(FuturesUnordered.frame_move hq ha).unfinished, ← hbefore] at hafter
  unfold State.is_exceeded_limit
  dsimp only
  rw [hafter]

/-- A thread moves inside the bucket. -/
theorem promise_inner (h : s.Inv) (hp : s.Promise) {a : InnerAct I T} (ha : a.inner = true)
    {q : FuturesUnordered.State (PollStreamFut I) (Option (T × PollStreamFut I)) WrappedWaker A}
    (hq : FuturesUnordered.Move s.inner_streams a q) :
    State.Promise { s with inner_streams := q } := by
  refine ⟨hp.mark_le, fun w hw => ?_⟩
  rw [exceeded_of_resting h hw ha hq]
  exact hp.resting w hw

/-- `poll_next` calls wrapped wakers while it has the word. -/
theorem promise_wakes (ks : List WrappedWaker) : ∀ {s : State I T W A}, s.Inv →
    s.pc.holds = true → s.Promise →
      (ks.foldl (fun s' k => s'.wake_by_ref .poll k) s).Promise := by
  induction ks with
  | nil => exact fun _ _ hp => hp
  | cons k ks ih =>
      intro s h hpc hp
      exact ih (h.wake_by_ref .poll k fun _ => hpc) hpc (hp.wake_by_ref h.shared h.shared.slot k)

theorem force_wake_eq (s : State I T W A) (l : Locals T W) :
    s.force_wake l = (need .stream l.need_to_poll_next && !s.is_exceeded_limit ||
      need .inner_streams l.need_to_poll_next) := rfl

/-- A call that returns `Pending` without a wake leaves the stream asleep. -/
theorem asleep_of_not_force_wake {l : Locals T W} (hneeds : NeedsOnly l.need_to_poll_next)
    (hforce : s.force_wake l = false) (hstream : need .stream s.poll_state.state = false)
    (hinner : need .inner_streams s.poll_state.state = false) :
    Asleep (SharedPollState.stop_polling l.need_to_poll_next (s.force_wake l)
      s.poll_state.state).1 s.is_exceeded_limit := by
  have hparts := hforce
  rw [force_wake_eq, Bool.or_eq_false_iff] at hparts
  refine ⟨?_, (stop_polling_free _ _ _).2, ?_, fun hbit => ?_⟩
  · rw [stop_polling_woken _ _ _ hneeds, hforce, hstream, hinner]
    rfl
  · rw [stop_polling_need, hparts.2, hinner]
    rfl
  · rw [stop_polling_need, hstream, Bool.or_false] at hbit
    have hroom := hparts.1
    rw [hbit, Bool.true_and] at hroom
    simpa using hroom

/-- `stop_polling` gives the promise. -/
theorem promise_stop_polling (h : s.Inv) {l : Locals T W} (hpc : s.pc = .finish l) :
    (s.stop_polling l).Promise := by
  have hneeds : NeedsOnly l.need_to_poll_next := h.shared.needs l (by rw [hpc]; rfl)
  unfold State.stop_polling
  dsimp only
  split
  · exact ⟨Nat.le_refl _, nofun⟩
  · split
    · exact ⟨Nat.le_refl _, nofun⟩
    · rename_i hforce
      rw [Bool.or_eq_true, not_or, Bool.not_eq_true] at hforce
      obtain ⟨hforce, hbits⟩ := hforce
      rw [decide_eq_true_iff, needs_iff, Bool.not_eq_true, Bool.or_eq_false_iff] at hbits
      refine ⟨Nat.le_refl _, fun w hw => Or.inr (Or.inr ?_)⟩
      exact asleep_of_not_force_wake hneeds hforce hbits.1 hbits.2

/-- **Every move keeps the promise.** -/
theorem promise_move {a : Act B I T W} (h : s.Inv) (hp : s.Promise) (hm : Move next_step s a s') :
    s'.Promise := by
  cases hm with
  | poll_next w hpc => exact ⟨hp.mark_le, nofun⟩
  | spin i hpc hw => exact hp
  | claim i hpc hw => exact ⟨hp.mark_le, nofun⟩
  | replace i hpc hpl =>
      refine ⟨hp.mark_le, fun w hw => ?_⟩
      have hnone : (s.pc.resting s.hist.last) = some w := hw
      rw [hpc] at hnone
      cases hnone
  | replaced i hpc hpl => exact ⟨hp.mark_le, nofun⟩
  | baseSkip i hpc hneed hpush => exact ⟨hp.mark_le, nofun⟩
  | baseDone i hpc hdone hpush => exact ⟨hp.mark_le, nofun⟩
  | baseLimit i hpc hlimit hdone hpush => exact ⟨hp.mark_le, nofun⟩
  | baseReturn hb hpush hstep => exact ⟨hp.mark_le, nofun⟩
  | baseContinue hb hpush hstep hi ho => exact ⟨hp.mark_le, nofun⟩
  | baseEnds hb hpush => exact hp
  | basePending hb hpush => exact ⟨hp.mark_le, nofun⟩
  | baseUnwinds hb hr => exact ⟨hp.mark_le, nofun⟩
  | innerSkip i hpc hneed => exact ⟨hp.mark_le, nofun⟩
  | innerPoll i hpc hneed ho hpush => exact ⟨hp.mark_le, nofun⟩
  | innerItem hb hi => exact ⟨hp.mark_le, nofun⟩
  | innerEnd i hb => exact ⟨hp.mark_le, nofun⟩
  | innerNone i hb hr => exact ⟨hp.mark_le, nofun⟩
  | innerUnwinds i hb => exact ⟨hp.mark_le, nofun⟩
  | @stream lv t fut r ho hf =>
      obtain ⟨l, hl⟩ := h.bucket.innerPoll_of_not_idle (by rw [ho]; rfl)
      have hawake : ∀ w, s.pc.resting s.hist.last = some w → False := by
        intro w hw
        rw [hl] at hw
        cases hw
      unfold State.answered
      split
      all_goals exact ⟨hp.mark_le, fun w hw => (hawake w hw).elim⟩
  | @owner q hq =>
      obtain ⟨l, hl⟩ := h.bucket.innerPoll_of_not_idle (FuturesUnordered.owner_not_idle hq)
      have hinv : State.Inv { s with inner_streams := q } := ⟨h.shared, h.bucket.inner rfl hq⟩
      exact promise_wakes _ hinv (by show s.pc.holds = true; rw [hl]; rfl)
        (promise_inner h hp rfl hq)
  | stop i hpc hpush => exact promise_stop_polling h hpc
  | @wake w i hpc =>
      have hdrop : (s.poll_state.log ++ [w]).drop s.hist.stoppedAt =
          s.poll_state.log.drop s.hist.stoppedAt ++ [w] :=
        List.drop_append_of_le_length hp.mark_le
      refine ⟨?_, fun v hv => Or.inl ?_⟩
      · show _ ≤ (s.poll_state.log ++ [w]).length
        rw [List.length_append]
        exact Nat.le_add_right_of_le hp.mark_le
      · cases hv
        show w ∈ (s.poll_state.log ++ [w]).drop s.hist.stoppedAt
        rw [hdrop]
        exact List.mem_append_right _ (List.mem_singleton_self w)
  | @ret w r hpc =>
      refine ⟨hp.mark_le, fun v hv => ?_⟩
      have hp' := hp.resting v
      rw [hpc] at hp'
      cases r with
      | pending => exact hp' hv
      | _ => cases hv
  | wakeTask hcalls hq => exact promise_inner h hp rfl hq
  | thread hcalls hq => exact promise_inner h hp rfl hq
  | call hcalls hi => exact hp.wake_by_ref h.shared hi _
  | wake_by_ref k hi => exact hp.wake_by_ref h.shared hi k
  | waker hs => exact hp.wakerStep h.shared hs

/-- The promise and the account hold in every reachable state. -/
theorem promise_of_reachable {limit : Option ℕ}
    (h : Transition.Reachable (step next_step) (State.new I T W A limit) s) :
    s.Inv ∧ s.Accounted ∧ s.Promise := by
  refine h.invariant (I := fun s => s.Inv ∧ s.Accounted ∧ s.Promise)
    ⟨State.Inv.new limit, trivial, Nat.le_refl _, nofun⟩ ?_
  rintro s a s' ⟨hi, ha, hp⟩ hs
  have hm := move_of_step hs
  exact ⟨inv_move hi hm, accounted_move ha hm, promise_move hi hp hm⟩

/-! ## The theorem -/

/-- **No need bit is lost, and no sleeper is forgotten.** In every state of every
interleaving: (a) a step leaves a need bit set unless it is the `start_polling`
that hands it to a call, and when that call stops polling, it has polled the part
the bit stands for, or the base is done, or the bit is set again; (b) when
`poll_next` has returned `Pending` to `w` and has not been called since, and the
inner streams need to be polled, or the base does and the bucket has room, then `w`
has been called since that call stopped polling, or a `wake_by_ref` that has won
`start_waking` is about to call it. -/
theorem need_bits_delivered (next_step : B → Option (FlowStep I T)) (limit : Option ℕ)
    (s : State I T W A)
    (h : Transition.Reachable (step next_step) (State.new I T W A limit) s) :
    (∀ a s' k, step next_step s a = some s' → need k s.poll_state.state = true →
      need k s'.poll_state.state = true ∨
        ∃ w, s.pc = .start w ∧ s' = s.claim w ∧ need k s'.hist.claimed = true) ∧
    (∀ i l s' k, s.pc = .finish l → step next_step s (.own i) = some s' →
      need k s.hist.claimed = true →
        (k = .stream ∧ (s.hist.basePolled = true ∨ s.is_stream_done = true)) ∨
        (k = .inner_streams ∧ s.hist.innerPolled = true) ∨
        need k s'.poll_state.state = true) ∧
    (∀ w, s.pc = .idle → s.hist.last = some (w, .pending) →
      (need .inner_streams s.poll_state.state = true ∨
        need .stream s.poll_state.state = true ∧ s.is_exceeded_limit = false) →
      w ∈ s.poll_state.log.drop s.hist.stoppedAt ∨ ∃ c, s.poll_state.Committed w c) := by
  obtain ⟨hinv, haccount, hpromise⟩ := promise_of_reachable h
  refine ⟨fun a s' k hs hk => need_move k (move_of_step hs) hk, ?_, ?_⟩
  · intro i l s' k hpc hs hk
    have hstop : s' = s.stop_polling l := by
      change (if pollFree s = true then stepOwn s i else none) = some s' at hs
      unfold stepOwn at hs
      rw [hpc] at hs
      split at hs
      · exact (Option.some.inj hs).symm
      · cases hs
    unfold State.Accounted at haccount
    rw [hpc] at haccount
    rw [hstop, need_stop_polling]
    cases k with
    | stream =>
        rcases haccount.1 hk with hpolled | hdone | hnext
        · exact Or.inl ⟨rfl, Or.inl hpolled⟩
        · exact Or.inl ⟨rfl, Or.inr hdone⟩
        · exact Or.inr (Or.inr (by rw [hnext]; rfl))
    | inner_streams =>
        rcases haccount.2 hk with hpolled | hnext
        · exact Or.inr (Or.inl ⟨rfl, hpolled⟩)
        · exact Or.inr (Or.inr (by rw [hnext]; rfl))
  · intro w hpc hlast hbits
    have hrest : s.pc.resting s.hist.last = some w := by rw [hpc, hlast]; rfl
    rcases hpromise.resting w hrest with hwoken | hcom | hasleep
    · exact Or.inl hwoken
    · exact Or.inr hcom
    · rcases hbits with hbit | ⟨hbit, hroom⟩
      · rw [hasleep.inner] at hbit
        cases hbit
      · rw [hasleep.stream hbit] at hroom
        cases hroom

/-- The base answers pending, and its waker is called afterwards. -/
def wokenAsleep : List (Act Unit Unit ℕ ℕ) :=
  [.poll_next 7] ++ List.replicate 4 (.own 0) ++
    [.base 0 .pending, .own 0, .own 0, .ret, .wake_by_ref 0 .stream]

theorem need_bits_delivered_woken_asleep :
    ∃ s : State Unit ℕ ℕ (AtomicWaker.cell WrappedWaker),
      Transition.run (step fun _ => none) (State.new Unit ℕ ℕ _ none) wokenAsleep = some s ∧
        s.hist.last = some (7, .pending) ∧ need .stream s.poll_state.state = true ∧
        (7 ∈ s.poll_state.log.drop s.hist.stoppedAt ∨ ∃ c, s.poll_state.Committed 7 c) :=
  ⟨_, rfl, rfl, rfl,
    (need_bits_delivered (fun _ => none) none _ ⟨wokenAsleep, rfl⟩).2.2 7 rfl rfl
      (Or.inr ⟨rfl, rfl⟩)⟩

end TokioStreamUtil.FlattenUnordered
