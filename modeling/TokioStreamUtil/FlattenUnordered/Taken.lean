/-
The streams that `FlattenUnordered` has taken from the base.

A stream that was taken stays in the bucket, or is on its way back to it, until it
ends or unwinds: `lost` are those that have unwound. All this holds of every run,
and a poll that unwinds costs no stream but the one that it polls.
-/
import TokioStreamUtil.FlattenUnordered.Invariant

set_option autoImplicit false

namespace TokioStreamUtil.FlattenUnordered

open FuturesUnordered (Polled PollNext)

variable {B I T W : Type} {A : AtomicWaker WrappedWaker}

/-! ## What is no matter of the bucket -/

/-- Calls of wrapped wakers leave the bucket alone. -/
theorem wakes_bucket (ks : List WrappedWaker) : ∀ (s : State I T W A),
    (ks.foldl (fun s' k => s'.wake_by_ref .poll k) s).inner_streams = s.inner_streams := by
  induction ks with
  | nil => exact fun _ => rfl
  | cons k ks ih => exact fun s => ih _

/-- Calls of wrapped wakers change neither the bucket nor its limit. -/
theorem wakes_limit (ks : List WrappedWaker) : ∀ (s : State I T W A),
    (ks.foldl (fun s' k => s'.wake_by_ref .poll k) s).limit = s.limit := by
  induction ks with
  | nil => exact fun _ => rfl
  | cons k ks ih => exact fun s => ih _

/-- What a stream answers is no matter of the bucket. -/
theorem answered_bucket (s : State I T W A) (t : ℕ) (fut : PollStreamFut I) (r : StreamPolled I T) :
    (s.answered t fut r).inner_streams = s.inner_streams ∧ (s.answered t fut r).limit = s.limit := by
  unfold State.answered
  split <;> exact ⟨rfl, rfl⟩

/-- Nor does it move `poll_next`, or the word. -/
theorem answered_frame (s : State I T W A) (t : ℕ) (fut : PollStreamFut I) (r : StreamPolled I T) :
    (s.answered t fut r).pc = s.pc ∧ (s.answered t fut r).is_stream_done = s.is_stream_done ∧
      (s.answered t fut r).poll_state = s.poll_state := by
  unfold State.answered
  split <;> exact ⟨rfl, rfl, rfl⟩

theorem stop_polling_bucket (s : State I T W A) (l : Locals T W) :
    (s.stop_polling l).inner_streams = s.inner_streams ∧ (s.stop_polling l).limit = s.limit := by
  unfold State.stop_polling
  dsimp only
  split
  · exact ⟨rfl, rfl⟩
  · exact ⟨rfl, rfl⟩

/-! ## The streams in the bucket -/

/-- The inner streams that the environment hands over satisfy `P`. -/
def Act.Brings (next_step : B → Option (FlowStep I T)) (P : I → Prop) : Act B I T W → Prop
  | .base _ (.ready (some item)) => ∀ st, next_step item = some (.Continue st) → P st
  | .inner (.pending st) => P st
  | .inner (.item _ st) => P st
  | _ => True

theorem Act.brings_any (next_step : B → Option (FlowStep I T)) (a : Act B I T W) :
    a.Brings next_step fun _ => True := by
  unfold Act.Brings
  split
  · exact fun _ _ => trivial
  all_goals trivial

/-- The rest of a stream that has not ended: `P` holds of it, and the base gave it. -/
structure PollStreamFut.Live (P : I → Prop) (sources : ℕ) (fut : PollStreamFut I) : Prop where
  stream : ∃ st, fut.stream = some st ∧ P st
  source : fut.source < sources

section Streams

variable {q q' : FuturesUnordered.State (PollStreamFut I) (Option (T × PollStreamFut I))
  WrappedWaker A}

/-- The bucket keeps the rest of stream `k`, or is about to return it. -/
def Keeps (q : FuturesUnordered.State (PollStreamFut I) (Option (T × PollStreamFut I))
    WrappedWaker A) (k : ℕ) : Prop :=
  (∃ t fut, q.Holds t fut ∧ fut.source = k) ∨
    ∃ x fut, some (x, fut) ∈ q.owner.carrying ∧ fut.source = k

/-- The streams that have been taken: each has ended, or is `lost`, or is kept. -/
structure Taken (P : I → Prop) (lost : ℕ → Prop) (events : List (Event T)) (sources : ℕ)
    (q : FuturesUnordered.State (PollStreamFut I) (Option (T × PollStreamFut I)) WrappedWaker A) :
    Prop where
  tasks : ∀ t fut, (q.tasks t).future = some fut → fut.Live P sources
  carried : ∀ x fut, some (x, fut) ∈ q.owner.carrying → fut.Live P sources
  taken : ∀ k, .taken k ∈ events ↔ k < sources
  produced : ∀ k x, .produced k x ∈ events → k < sources
  kept : ∀ k < sources, .ended k ∈ events ∨ lost k ∨ Keeps q k

namespace Taken

variable {P : I → Prop} {lost : ℕ → Prop} {events : List (Event T)} {sources : ℕ}

theorem new (P : I → Prop) (lost : ℕ → Prop) : Taken P lost ([] : List (Event T)) 0 (FuturesUnordered.State.new (A := A) :
    FuturesUnordered.State (PollStreamFut I) (Option (T × PollStreamFut I)) WrappedWaker A) :=
  ⟨nofun, nofun, fun _ => ⟨nofun, nofun⟩, nofun, nofun⟩

/-- Something happens, but no stream is taken. -/
theorem record (h : Taken P lost events sources q) {e : Event T} (htaken : ∀ k, e ≠ .taken k)
    (hproduced : ∀ k x, e = .produced k x → k < sources) :
    Taken P lost (events ++ [e]) sources q := by
  refine ⟨h.tasks, h.carried, fun k => ?_, fun k x hk => ?_, fun k hk => ?_⟩
  · rw [List.mem_append, List.mem_singleton, h.taken k]
    exact or_iff_left fun he => htaken k he.symm
  · rcases List.mem_append.mp hk with hk | he
    · exact h.produced k x hk
    · exact hproduced k x (List.mem_singleton.mp he).symm
  · exact (h.kept k hk).imp_left (List.mem_append_left _)

/-- The machinery of the bucket moves. -/
theorem inner (h : Taken P lost events sources q) (hsound : q.Sound) {a : InnerAct I T}
    (ha : a.inner = true) (hm : FuturesUnordered.Move q a q') : Taken P lost events sources q' := by
  have hframe := FuturesUnordered.frame_move hm ha
  refine ⟨fun t fut hf => h.tasks t fut (hframe.future t fut hf), ?_, h.taken, h.produced,
    fun k hk => ?_⟩
  · rw [hframe.carrying]
    exact h.carried
  · refine (h.kept k hk).imp_right (Or.imp_right fun hkeeps => ?_)
    rcases hkeeps with ⟨t, fut, hholds, hsource⟩ | hcarried
    · exact Or.inl ⟨t, fut, hholds.inner hsound ha hm, hsource⟩
    · right
      rw [hframe.carrying]
      exact hcarried

/-- A future is pushed between calls: the rest of a stream that the base gave. -/
theorem push (hsound : q.Sound) (ho : q.owner = .idle) (i : ℕ) {fut : PollStreamFut I}
    (hfut : fut.Live P sources)
    (htasks : ∀ t fut', (q.tasks t).future = some fut' → fut'.Live P sources)
    (htaken : ∀ k, .taken k ∈ events ↔ k < sources)
    (hproduced : ∀ k x, .produced k x ∈ events → k < sources)
    (hkept : ∀ k < sources, .ended k ∈ events ∨ lost k ∨ (∃ t fut', q.Holds t fut' ∧ fut'.source = k) ∨
      fut.source = k) : Taken P lost events sources (q.push i fut) := by
  have hempty : (q.push i fut).owner.carrying = [] := by
    show q.owner.carrying = []
    rw [ho]
    rfl
  refine ⟨fun t fut' hf => ?_, ?_, htaken, hproduced, fun k hk => ?_⟩
  · change (Function.update q.tasks q.fresh _ t).future = some fut' at hf
    by_cases ht : t = q.fresh
    · rw [ht, Function.update_self] at hf
      cases hf
      exact hfut
    · rw [Function.update_of_ne ht] at hf
      exact htasks t fut' hf
  · rw [hempty]
    nofun
  · rcases hkept k hk with hended | hlost | ⟨t, fut', hholds, hsource⟩ | hsource
    · exact Or.inl hended
    · exact Or.inr (Or.inl hlost)
    · exact Or.inr (Or.inr (Or.inl ⟨t, fut', hholds.push i fut, hsource⟩))
    · exact Or.inr (Or.inr (Or.inl ⟨q.fresh, fut, hsound.holds_push i fut, hsource⟩))

/-- The base gives a stream. -/
theorem take (h : Taken P lost events sources q) (hsound : q.Sound) (ho : q.owner = .idle) (i : ℕ)
    {st : I} (hst : P st) : Taken P lost (events ++ [.taken sources]) (sources + 1)
      (q.push i { stream := some st, source := sources }) := by
  refine push hsound ho i ⟨⟨st, rfl, hst⟩, Nat.lt_succ_self _⟩ ?_ (fun k => ?_) (fun k x hk => ?_)
    (fun k hk => ?_)
  · intro t fut' hf
    have hlive := h.tasks t fut' hf
    exact ⟨hlive.stream, Nat.lt_succ_of_lt hlive.source⟩
  · rw [List.mem_append, List.mem_singleton, h.taken k, Event.taken.injEq]
    omega
  · rcases List.mem_append.mp hk with hk | he
    · exact Nat.lt_succ_of_lt (h.produced k x hk)
    · cases List.mem_singleton.mp he
  · rcases Nat.lt_succ_iff_lt_or_eq.mp hk with hk | hk
    · rcases h.kept k hk with hended | hlost | hholds | ⟨x, fut', hmem, -⟩
      · exact Or.inl (List.mem_append_left _ hended)
      · exact Or.inr (Or.inl hlost)
      · exact Or.inr (Or.inr (Or.inl hholds))
      · rw [ho] at hmem
        cases hmem
    · exact Or.inr (Or.inr (Or.inr hk.symm))

/-- The bucket returns, without the rest of a stream. -/
theorem ret (h : Taken P lost events sources q) {lv : FuturesUnordered.Locals WrappedWaker}
    {r : PollNext (Option (T × PollStreamFut I))}
    (hnone : ∀ x fut, some (x, fut) ∉ q.owner.carrying) : Taken P lost events sources (q.ret lv r) := by
  refine ⟨h.tasks, nofun, h.taken, h.produced, fun k hk => ?_⟩
  refine (h.kept k hk).imp_right (Or.imp_right fun hkeeps => ?_)
  rcases hkeeps with ⟨t, fut, hholds, hsource⟩ | ⟨x, fut, hmem, -⟩
  · exact Or.inl ⟨t, fut, ⟨hholds.pushed, hholds.unfinished, hholds.future⟩, hsource⟩
  · exact absurd hmem (hnone x fut)

/-- The bucket returns an item, and the rest of its stream is pushed. -/
theorem repush (h : Taken P lost events sources q) (hsound : q.Sound) (i : ℕ)
    {lv : FuturesUnordered.Locals WrappedWaker} {x : T} {fut : PollStreamFut I}
    (ho : q.owner = .poll lv (.done (.ready (some (some (x, fut)))))) :
    Taken P lost events sources ((q.ret lv (.ready (some (some (x, fut))))).push i fut) := by
  have hcarrying : q.owner.carrying = [some (x, fut)] := by
    rw [ho]
    rfl
  have hlive : fut.Live P sources := h.carried x fut (by rw [hcarrying]; exact List.mem_cons_self)
  refine push (hsound.move (.ret ho) nofun) rfl i hlive h.tasks h.taken h.produced fun k hk => ?_
  rcases h.kept k hk with hended | hlost | ⟨t, fut', hholds, hsource⟩ | ⟨y, fut', hmem, hsource⟩
  · exact Or.inl hended
  · exact Or.inr (Or.inl hlost)
  · exact Or.inr (Or.inr (Or.inl
      ⟨t, fut', ⟨hholds.pushed, hholds.unfinished, hholds.future⟩, hsource⟩))
  · rw [hcarrying, List.mem_singleton] at hmem
    cases hmem
    exact Or.inr (Or.inr (Or.inr hsource))

section Polled

variable {lv : FuturesUnordered.Locals WrappedWaker} {t : ℕ} {fut : PollStreamFut I}

/-- The stream that is polled is pending. -/
theorem polled_pending (h : Taken P lost events sources q) (ho : q.owner = .poll lv (.poll t))
    (hf : (q.tasks t).future = some fut) {st : I} (hst : P st) :
    Taken P lost events sources (q.polled lv t (.pending { fut with stream := some st })) := by
  have hcarrying : q.owner.carrying = [] := by
    rw [ho]
    rfl
  refine ⟨fun u fut' hf' => ?_, nofun, h.taken, h.produced, fun k hk => ?_⟩
  · change (Function.update q.tasks t _ u).future = some fut' at hf'
    by_cases hu : u = t
    · rw [hu, Function.update_self] at hf'
      cases hf'
      exact ⟨⟨st, rfl, hst⟩, (h.tasks t fut hf).source⟩
    · rw [Function.update_of_ne hu] at hf'
      exact h.tasks u fut' hf'
  · refine (h.kept k hk).imp_right (Or.imp_right fun hkeeps => ?_)
    rcases hkeeps with ⟨u, fut', hholds, hsource⟩ | ⟨x, fut', hmem, -⟩
    · by_cases hu : u = t
      · subst hu
        rw [hholds.future] at hf
        cases hf
        exact Or.inl ⟨u, _, hholds.polled_pending lv _, hsource⟩
      · exact Or.inl ⟨u, fut', hholds.polled_of_ne hu _, hsource⟩
    · rw [hcarrying] at hmem
      cases hmem

/-- The stream that is polled gives an item, or ends. -/
theorem polled_ready (h : Taken P lost events sources q) (ho : q.owner = .poll lv (.poll t))
    (hf : (q.tasks t).future = some fut) {o : Option (T × PollStreamFut I)}
    (hlive : ∀ x fut', o = some (x, fut') → fut'.Live P sources)
    (hrest : (∃ x fut', o = some (x, fut') ∧ fut'.source = fut.source) ∨
      .ended fut.source ∈ events) : Taken P lost events sources (q.polled lv t (.ready o)) := by
  have hcarrying : q.owner.carrying = [] := by
    rw [ho]
    rfl
  refine ⟨h.tasks, fun x fut' hmem => ?_, h.taken, h.produced, fun k hk => ?_⟩
  · change some (x, fut') ∈ [o] at hmem
    exact hlive x fut' (List.mem_singleton.mp hmem).symm
  · rcases h.kept k hk with hended | hlost | ⟨u, fut', hholds, hsource⟩ | ⟨x, fut', hmem, -⟩
    · exact Or.inl hended
    · exact Or.inr (Or.inl hlost)
    · by_cases hu : u = t
      · subst hu
        rw [hholds.future] at hf
        cases hf
        rw [hsource] at hrest
        rcases hrest with ⟨x, fut', ho', hsource'⟩ | hended
        · exact Or.inr (Or.inr (Or.inr ⟨x, fut', List.mem_singleton.mpr ho'.symm, hsource'⟩))
        · exact Or.inl hended
      · exact Or.inr (Or.inr (Or.inl ⟨u, fut', hholds.polled_of_ne hu _, hsource⟩))
    · rw [hcarrying] at hmem
      cases hmem

/-- The stream that is polled unwinds: it is lost, and no other. -/
theorem polled_unwind (h : Taken P lost events sources q) (ho : q.owner = .poll lv (.poll t))
    (hf : (q.tasks t).future = some fut) (hlost : lost fut.source) :
    Taken P lost events sources (q.polled lv t .unwind) := by
  have hcarrying : q.owner.carrying = [] := by
    rw [ho]
    rfl
  refine ⟨h.tasks, nofun, h.taken, h.produced, fun k hk => ?_⟩
  rcases h.kept k hk with hended | hk | ⟨u, fut', hholds, hsource⟩ | ⟨x, fut', hmem, -⟩
  · exact Or.inl hended
  · exact Or.inr (Or.inl hk)
  · by_cases hu : u = t
    · subst hu
      rw [hholds.future] at hf
      cases hf
      exact Or.inr (Or.inl (hsource ▸ hlost))
    · exact Or.inr (Or.inr (Or.inl ⟨u, fut', hholds.polled_of_ne hu _, hsource⟩))
  · rw [hcarrying] at hmem
    cases hmem

end Polled

end Taken

end Streams

/-! ## What a move does to them -/

/-- The streams of a state. -/
def State.Taken (P : I → Prop) (lost : ℕ → Prop) (s : State I T W A) : Prop :=
  FlattenUnordered.Taken P lost s.hist.events s.hist.sources s.inner_streams

/-- The bucket polls stream `k`. -/
def State.Polls (s : State I T W A) (k : ℕ) : Prop :=
  ∃ lv t fut, s.inner_streams.owner = .poll lv (.poll t) ∧
    (s.inner_streams.tasks t).future = some fut ∧ fut.source = k

/-- In the step `a` stream `k` unwinds. -/
def State.Unwinds (s : State I T W A) (a : Act B I T W) (k : ℕ) : Prop :=
  a = .inner .unwind ∧ s.Polls k

variable {next_step : B → Option (FlowStep I T)} {s s' : State I T W A} {P : I → Prop}
  {lost : ℕ → Prop}

/-- Calls of wrapped wakers are no matter of streams. -/
theorem taken_wakes (ks : List WrappedWaker) : ∀ {s : State I T W A}, s.Taken P lost →
    (ks.foldl (fun s' k => s'.wake_by_ref .poll k) s).Taken P lost := by
  induction ks with
  | nil => exact fun h => h
  | cons k ks ih => exact fun h => ih (s := _) h

/-- **Every move keeps the streams**, but for the one that unwinds. -/
theorem taken_move {a : Act B I T W} (hinv : s.Inv) (h : s.Taken P lost)
    (hlost : ∀ k, s.Unwinds a k → lost k) (hP : a.Brings next_step P) (hm : Move next_step s a s') :
    s'.Taken P lost := by
  have hsound := hinv.bucket.sound
  have htaken := h
  unfold State.Taken at h
  cases hm with
  | baseReturn hb hpush hstep => exact h.record nofun nofun
  | baseContinue hb hpush hstep hi ho => exact h.take hsound ho _ (hP _ hstep)
  | baseEnds hb hpush => exact h.record nofun nofun
  | basePending hb hpush => exact h.record nofun nofun
  | baseUnwinds hb hr => exact h.record nofun nofun
  -- the call begins, so nothing is on its way out of the bucket
  | innerPoll i hpc hneed ho hpush =>
      refine ⟨h.tasks, nofun, h.taken, h.produced, fun k hk => ?_⟩
      refine (h.kept k hk).imp_right (Or.imp_right fun hkeeps => ?_)
      rcases hkeeps with ⟨t, fut, hholds, hsource⟩ | ⟨x, fut, hmem, -⟩
      · exact Or.inl ⟨t, fut, ⟨hholds.pushed, hholds.unfinished, hholds.future⟩, hsource⟩
      · rw [ho] at hmem
        cases hmem
  | innerItem hb hi => exact h.repush hsound _ hb.owner
  | innerEnd i hb =>
      refine h.ret fun x fut hmem => ?_
      rw [hb.owner] at hmem
      cases List.mem_singleton.mp hmem
  | innerNone i hb hr =>
      refine h.ret fun x fut hmem => ?_
      rw [hb.owner] at hmem
      rcases hr with rfl | rfl <;> cases hmem
  | @innerUnwinds l lv i hb =>
      have hret : FlattenUnordered.Taken P lost s.hist.events s.hist.sources
          (s.inner_streams.ret lv .unwound) := by
        refine h.ret fun x fut hmem => ?_
        rw [hb.owner] at hmem
        cases hmem
      exact hret.record nofun nofun
  | @stream lv t fut r ho hf =>
      have hlive := h.tasks t fut hf
      obtain ⟨st₀, hst, -⟩ := hlive.stream
      unfold PollStreamFut.poll State.answered
      rw [hst]
      cases r with
      | pending st => exact h.polled_pending ho hf hP
      | item x st =>
          have hrecord : FlattenUnordered.Taken P lost (s.hist.events ++ [.produced fut.source x])
              s.hist.sources s.inner_streams := by
            refine h.record nofun fun k y he => ?_
            cases he
            exact hlive.source
          refine hrecord.polled_ready ho hf ?_ (Or.inl ⟨x, _, rfl, rfl⟩)
          intro x' fut' he
          cases he
          exact ⟨⟨st, rfl, hP⟩, hlive.source⟩
      | ended =>
          have hrecord : FlattenUnordered.Taken P lost (s.hist.events ++ [.ended fut.source])
              s.hist.sources s.inner_streams := h.record nofun nofun
          refine hrecord.polled_ready ho hf nofun (Or.inr ?_)
          exact List.mem_append_right _ (List.mem_singleton_self _)
      -- the stream that unwinds is dropped with its future
      | unwind => exact h.polled_unwind ho hf (hlost _ ⟨rfl, lv, t, fut, ho, hf, rfl⟩)
  | owner hq => exact taken_wakes _ (h.inner hsound rfl hq)
  | stop i hpc hpush =>
      unfold State.stop_polling
      dsimp only
      split
      · exact h.record nofun nofun
      · split
        · exact h.record nofun nofun
        · exact h.record nofun nofun
  | wakeTask hcalls hq => exact h.inner hsound rfl hq
  | thread hcalls hq => exact h.inner hsound rfl hq
  | _ => exact htaken

end TokioStreamUtil.FlattenUnordered
