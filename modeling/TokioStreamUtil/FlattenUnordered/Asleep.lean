/-
When `FlattenUnordered` may sleep.

A poll of the base, or of the bucket, is `Due` when its need bit is set, when the call
in progress has the bit in its hands, or when a wake that will set it is on its way.
Whenever none is due, the base has been polled to its end or until it had nothing, and
so has every stream of the bucket, and nobody has woken them since.
-/
import TokioStreamUtil.FlattenUnordered.Wakeups
import TokioStreamUtil.FlattenUnordered.Items
import TokioStreamUtil.FuturesUnordered.Resting

set_option autoImplicit false

namespace TokioStreamUtil.FlattenUnordered

open FuturesUnordered (Polled PollNext)
open Word (need)

variable {B I T W : Type} {A : AtomicWaker WrappedWaker}

/-! ## What is due -/

/-- The call has the need bit `k` in its hands: it is to act on it, or to give it back. -/
def Pc.due (k : WrappedWaker) : Pc T W → Bool
  | .replace l => need k l.poll_state_value
  | .base l => need k l.poll_state_value
  | .inner l =>
      need k l.need_to_poll_next || (k == .inner_streams && need k l.poll_state_value)
  | .innerPoll l => need k l.need_to_poll_next
  | .finish l => need k l.need_to_poll_next
  | _ => false

/-- A poll of the base, or of the bucket, is still to come. -/
def State.Due (k : WrappedWaker) (s : State I T W A) : Prop :=
  need k s.poll_state.state = true ∨ s.pc.due k = true ∨ ∃ i, k ∈ s.calls i

/-- The base is done, or has nothing and has not been woken. -/
def State.BaseRests (s : State I T W A) : Prop :=
  s.is_stream_done = true ∨ s.hist.basePended = true ∧ s.hist.baseWoken = false

variable {next_step : B → Option (FlowStep I T)} {s s' : State I T W A} {k : WrappedWaker}

theorem State.Due.mono (h : s.Due k)
    (hneed : need k s.poll_state.state = true → need k s'.poll_state.state = true)
    (hpc : s.pc.due k = true → s'.pc.due k = true) (hcalls : s'.calls = s.calls) : s'.Due k := by
  rcases h with hbit | hcall | hthread
  · exact Or.inl (hneed hbit)
  · exact Or.inr (Or.inl (hpc hcall))
  · refine Or.inr (Or.inr ?_)
    rw [hcalls]
    exact hthread

/-- `poll_next` moves on, and keeps what it has in its hands. -/
theorem State.Due.advance (h : s.Due k) {pc : Pc T W} (hpc : s.pc = pc)
    (hstate : s'.poll_state.state = s.poll_state.state) (hcalls : s'.calls = s.calls)
    (hdue : pc.due k = true → s'.pc.due k = true) : s'.Due k := by
  refine h.mono (fun hbit => ?_) (fun hcall => hdue ?_) hcalls
  · rw [hstate]
    exact hbit
  · rw [← hpc]
    exact hcall

/-- A need that is noted stays noted when another is added. -/
theorem need_or_left {v : Word} (h : need k v = true) (v' : Word) : need k (v ||| v') = true := by
  rw [need_or, h, Bool.true_or]

/-- The base is put off, so a poll of it is still to come; that of the bucket is, if it is
put off with it. -/
theorem need_put_off {v v' : Word} (h : k = .inner_streams → need k v' = true) :
    need k (v ||| (NEED_TO_POLL_STREAM ||| v')) = true := by
  rw [need_or, need_or]
  cases k with
  | stream =>
      have hstream : need .stream NEED_TO_POLL_STREAM = true := by decide
      rw [hstream, Bool.true_or, Bool.or_true]
  | inner_streams => rw [h rfl, Bool.or_true, Bool.or_true]

/-- Another thread is done with a step in which it calls no wrapped waker. -/
theorem State.Due.thread (h : s.Due k) {i : ℕ} {ks : List WrappedWaker} (hcalls : s.calls i = [])
    (hstate : s'.poll_state.state = s.poll_state.state) (hpc : s'.pc = s.pc)
    (hcalls' : s'.calls = Function.update s.calls i ks) : s'.Due k := by
  rcases h with hbit | hcall | ⟨j, hj⟩
  · refine Or.inl ?_
    rw [hstate]
    exact hbit
  · refine Or.inr (Or.inl ?_)
    rw [hpc]
    exact hcall
  · refine Or.inr (Or.inr ⟨j, ?_⟩)
    have hji : j ≠ i := by
      rintro rfl
      rw [hcalls] at hj
      cases hj
    rw [hcalls', Function.update_of_ne hji]
    exact hj

/-- Another thread calls a wrapped waker: if it was this one, the word has its bit now. -/
theorem State.Due.call (h : s.Due k) {i : ℕ} {k' : WrappedWaker} {ks : List WrappedWaker}
    (hcalls : s.calls i = k' :: ks) (c : Caller)
    (hstate : s'.poll_state.state = (s.poll_state.wake_by_ref c k').state) (hpc : s'.pc = s.pc)
    (hcalls' : s'.calls = Function.update s.calls i ks) : s'.Due k := by
  rcases h with hbit | hcall | ⟨j, hj⟩
  · refine Or.inl ?_
    rw [hstate]
    exact need_wake_of_need k hbit _ _
  · refine Or.inr (Or.inl ?_)
    rw [hpc]
    exact hcall
  · by_cases hji : j = i
    · rw [hji, hcalls] at hj
      rcases List.mem_cons.mp hj with rfl | hj
      · refine Or.inl ?_
        rw [hstate]
        exact need_wake_self k s.poll_state c
      · refine Or.inr (Or.inr ⟨i, ?_⟩)
        rw [hcalls', Function.update_self]
        exact hj
    · refine Or.inr (Or.inr ⟨j, ?_⟩)
      rw [hcalls', Function.update_of_ne hji]
      exact hj

theorem stop_polling_calls (s : State I T W A) (l : Locals T W) :
    (s.stop_polling l).calls = s.calls := by
  unfold State.stop_polling
  dsimp only
  split
  · rfl
  · rfl

/-- `stop_polling` puts into the word what `poll_next` has in its hands. -/
theorem State.Due.stop (h : s.Due k) {l : Locals T W} (hpc : s.pc = .finish l) :
    (s.stop_polling l).Due k := by
  rcases h with hbit | hcall | hthread
  · refine Or.inl ?_
    rw [need_stop_polling, hbit, Bool.or_true]
  · rw [hpc] at hcall
    have hnext : need k l.need_to_poll_next = true := hcall
    refine Or.inl ?_
    rw [need_stop_polling, hnext, Bool.true_or]
  · refine Or.inr (Or.inr ?_)
    rw [stop_polling_calls]
    exact hthread

/-- Calls of wrapped wakers by `poll_next` change neither its place nor those of others. -/
theorem wakes_calls (ks : List WrappedWaker) : ∀ (s : State I T W A),
    (ks.foldl (fun s' k => s'.wake_by_ref .poll k) s).calls = s.calls ∧
      (ks.foldl (fun s' k => s'.wake_by_ref .poll k) s).pc = s.pc := by
  induction ks with
  | nil => exact fun _ => ⟨rfl, rfl⟩
  | cons k ks ih => exact fun s => ih _

theorem wakes_pended (ks : List WrappedWaker) : ∀ (s : State I T W A),
    (ks.foldl (fun s' k => s'.wake_by_ref .poll k) s).hist.pended = s.hist.pended := by
  induction ks with
  | nil => exact fun _ => rfl
  | cons k ks ih => exact fun s => ih _

/-- The bits of the wakers that are called are set. -/
theorem need_of_wakes (ks : List WrappedWaker) : ∀ (s : State I T W A), k ∈ ks →
    need k (ks.foldl (fun s' k => s'.wake_by_ref .poll k) s).poll_state.state = true := by
  induction ks with
  | nil => exact fun _ hk => nomatch hk
  | cons k' ks ih =>
      intro s hk
      rcases List.mem_cons.mp hk with rfl | hk
      · exact need_wakes k ks (s := s.wake_by_ref .poll k) (need_wake_self k s.poll_state .poll)
      · exact ih _ hk

theorem need_of_reset (k : WrappedWaker) (ps : Sys Caller W) : need k ps.reset.state = true :=
  need_all k

/-- **What is due stays due**, until the base has nothing more to give or the bucket is
about to register its waker. -/
theorem due_move {a : Act B I T W} (h : s.Due k) (hm : Move next_step s a s') :
    s'.Due k ∨ k = .stream ∧ s'.BaseRests ∨
      k = .inner_streams ∧ s'.inner_streams.owner.registering = true := by
  cases hm with
  | poll_next w hpc => exact Or.inl (h.advance hpc rfl rfl fun hd => nomatch hd)
  | spin i hpc hw => exact Or.inl h
  | claim i hpc hw =>
      -- the bits of the word go over into the hands of `poll_next`
      left
      rcases h with hbit | hcall | hthread
      · exact Or.inr (Or.inl hbit)
      · rw [hpc] at hcall
        cases hcall
      · exact Or.inr (Or.inr hthread)
  | replace i hpc hp => exact Or.inl (h.mono (fun hbit => hbit) (fun hd => hd) rfl)
  | replaced i hpc hp => exact Or.inl (h.advance hpc rfl rfl fun hd => hd)
  | baseSkip i hpc hneed hpush =>
      left
      refine h.advance hpc rfl rfl fun hd => ?_
      cases k with
      | stream =>
          exact absurd hd (Bool.eq_false_iff.mp hneed)
      | inner_streams => exact Bool.or_eq_true_iff.mpr (Or.inr hd)
  | baseDone i hpc hdone hpush =>
      cases k with
      | stream => exact Or.inr (Or.inl ⟨rfl, Or.inl hdone⟩)
      | inner_streams =>
          exact Or.inl (h.advance hpc rfl rfl fun hd => Bool.or_eq_true_iff.mpr (Or.inr hd))
  | baseLimit i hpc hlimit hdone hpush =>
      left
      refine h.advance hpc rfl rfl fun hd => ?_
      show (need k (_ ||| _) || _) = true
      rw [need_or]
      cases k with
      | stream =>
          have hstream : need .stream NEED_TO_POLL_STREAM = true := by decide
          rw [hstream, Bool.or_true, Bool.true_or]
      | inner_streams =>
          have hvalue : need .inner_streams _ = true := hd
          rw [hvalue, beq_self_eq_true, Bool.and_true, Bool.or_true]
  | baseReturn hb hpush hstep =>
      left
      refine h.advance hb.pc rfl rfl fun hd => ?_
      refine Bool.or_eq_true_iff.mpr (Or.inl (need_put_off ?_))
      rintro rfl
      have hvalue : need .inner_streams _ = true := hd
      have hinner : need .inner_streams NEED_TO_POLL_INNER_STREAMS = true := by decide
      rw [need_and, hvalue, hinner, Bool.and_true]
  | baseContinue hb hpush hstep hi ho =>
      left
      exact h.advance hb.pc rfl rfl fun hd => need_or_left hd _
  | baseEnds hb hpush => exact Or.inl (h.mono (fun hbit => hbit) (fun hd => hd) rfl)
  | basePending hb hpush =>
      cases k with
      | stream => exact Or.inr (Or.inl ⟨rfl, Or.inr ⟨rfl, rfl⟩⟩)
      | inner_streams =>
          exact Or.inl (h.advance hb.pc rfl rfl fun hd => Bool.or_eq_true_iff.mpr (Or.inr hd))
  | baseUnwinds hb hr => exact Or.inl (Or.inl (need_of_reset k _))
  | innerSkip i hpc hneed =>
      left
      refine h.advance hpc rfl rfl fun hd => ?_
      rcases Bool.or_eq_true_iff.mp hd with hnext | hvalue
      · exact hnext
      · obtain ⟨hk, hvalue⟩ := Bool.and_eq_true_iff.mp hvalue
        rw [eq_of_beq hk, hneed] at hvalue
        cases hvalue
  | innerPoll i hpc hneed ho hpush =>
      cases k with
      | stream =>
          refine Or.inl (h.advance hpc rfl rfl fun hd => ?_)
          exact (Bool.or_eq_true_iff.mp hd).resolve_right fun hvalue => nomatch hvalue
      -- the call of the bucket begins with the registration of its waker
      | inner_streams => exact Or.inr (Or.inr ⟨rfl, rfl⟩)
  | innerItem hb hi =>
      left
      exact h.advance hb.pc rfl rfl fun hd => need_or_left hd _
  | innerEnd i hb =>
      left
      exact h.advance hb.pc rfl rfl fun hd => need_or_left hd _
  | innerNone i hb hr => exact Or.inl (h.advance hb.pc rfl rfl fun hd => hd)
  | innerUnwinds i hb => exact Or.inl (Or.inl (need_of_reset k _))
  | stream r ho hf =>
      left
      unfold State.answered
      split <;> exact h.mono (fun hbit => hbit) (fun hd => hd) rfl
  | @owner q hq =>
      left
      refine h.mono (fun hbit => ?_) (fun hd => ?_) (wakes_calls _ _).1
      · exact need_wakes k _ (s := { s with inner_streams := q }) hbit
      · rw [(wakes_calls _ _).2]
        exact hd
  | @stop l i hpc hpush =>
      left
      exact h.stop hpc
  | wake i hpc => exact Or.inl (h.advance hpc rfl rfl fun hd => nomatch hd)
  | ret hpc => exact Or.inl (h.advance hpc rfl rfl fun hd => nomatch hd)
  | wakeTask hcalls hq => exact Or.inl (h.mono (fun hbit => hbit) (fun hd => hd) rfl)
  | @thread i q hcalls hq =>
      left
      exact h.thread (idle_of_callsDone hcalls).1 rfl rfl rfl
  | @call i k' ks hcalls hi =>
      left
      exact h.call hcalls _ rfl rfl rfl
  | wake_by_ref k' hi =>
      exact Or.inl (h.mono (fun hbit => need_wake_of_need k hbit _ _) (fun hd => hd) rfl)
  | waker hs =>
      refine Or.inl (h.mono (fun hbit => ?_) (fun hd => hd) rfl)
      show need k _ = true
      rw [need_wakerStep k hs, hbit]

/-! ## The base -/

theorem due_of_asks {l : Locals T W} (hb : AsksBase s l) : s.Due .stream := by
  refine Or.inr (Or.inl ?_)
  rw [hb.pc]
  exact hb.need

/-- The base's own waker sets the need bit of the base. -/
theorem wake_by_ref_rests (h : s.BaseRests ∨ s.Due .stream) (c : Caller) (k : WrappedWaker) :
    (s.wake_by_ref c k).BaseRests ∨ (s.wake_by_ref c k).Due .stream := by
  cases k with
  | stream =>
      exact Or.inr (Or.inl (need_wake_self .stream s.poll_state c))
  | inner_streams =>
      rcases h with (hdone | ⟨hpended, hwoken⟩) | hdue
      · exact Or.inl (Or.inl hdone)
      · refine Or.inl (Or.inr ⟨hpended, ?_⟩)
        show (s.hist.baseWoken || _) = false
        rw [hwoken]
        rfl
      · exact Or.inr (hdue.mono (fun hbit => need_wake_of_need .stream hbit _ _) (fun hd => hd) rfl)

theorem wakes_rests (ks : List WrappedWaker) : ∀ {s : State I T W A},
    s.BaseRests ∨ s.Due .stream →
      (ks.foldl (fun s' k => s'.wake_by_ref .poll k) s).BaseRests ∨
        (ks.foldl (fun s' k => s'.wake_by_ref .poll k) s).Due .stream := by
  induction ks with
  | nil => exact fun h => h
  | cons k ks ih => exact fun h => ih (wake_by_ref_rests h .poll k)

/-- **The base rests, or a poll of it is due.** -/
theorem base_move {a : Act B I T W} (h : s.BaseRests ∨ s.Due .stream) (hm : Move next_step s a s') :
    s'.BaseRests ∨ s'.Due .stream := by
  have hdue : s.Due .stream → s'.BaseRests ∨ s'.Due .stream := by
    intro hdue
    rcases due_move hdue hm with hdue' | ⟨-, hrest⟩ | ⟨hk, -⟩
    · exact Or.inr hdue'
    · exact Or.inl hrest
    · cases hk
  rcases h with (hdone | hpended) | h
  · exact Or.inl (Or.inl (done_move hdone hm))
  · have hrest : s.BaseRests := Or.inr hpended
    cases hm with
    | baseReturn hb hpush hstep => exact hdue (due_of_asks hb)
    | baseContinue hb hpush hstep hi ho => exact hdue (due_of_asks hb)
    | baseEnds hb hpush => exact hdue (due_of_asks hb)
    | basePending hb hpush => exact hdue (due_of_asks hb)
    | baseUnwinds hb hr => exact hdue (due_of_asks hb)
    | stream r ho hf =>
        unfold State.answered
        split <;> exact Or.inl hrest
    | @owner q hq => exact wakes_rests _ (s := { s with inner_streams := q }) (Or.inl hrest)
    | stop i hpc hpush =>
        left
        unfold State.stop_polling
        dsimp only
        split
        · exact hrest
        · exact hrest
    | @call i k ks hcalls hi =>
        exact wake_by_ref_rests (s := { s with calls := Function.update s.calls i ks })
          (Or.inl hrest) (.thread i) k
    | wake_by_ref k hi => exact wake_by_ref_rests (Or.inl hrest) _ k
    | _ => exact Or.inl hrest
  · exact hdue h

/-! ## The bucket -/

/-- The bucket as far as sleep depends on it. -/
structure State.BucketRests (s : State I T W A) : Prop where
  promises : s.inner_streams.Promises
  waker : ∀ w r, s.inner_streams.hist.last = some (w, r) → w = .inner_streams
  rests : s.inner_streams.Rests (s.Due .inner_streams)
  answered : s.inner_streams.Answered s.hist.pended

/-- The bucket is registered with the waker of the inner streams. -/
theorem registered_waker (hinv : s.Inv) (h : s.BucketRests) {w : WrappedWaker}
    (hw : s.inner_streams.owner.registered s.inner_streams.hist.last = some w) :
    w = .inner_streams := by
  cases ho : s.inner_streams.owner with
  | idle =>
      rw [ho] at hw
      obtain ⟨⟨v, r⟩, hlast, hv⟩ := Option.map_eq_some_iff.mp hw
      cases hv
      exact h.waker v r hlast
  | poll lv pc =>
      have hlv : lv.waker = .inner_streams := hinv.bucket.waker lv.waker (by rw [ho]; rfl)
      rw [ho] at hw
      cases pc with
      | register => cases hw
      | _ => exact (Option.some.inj hw).symm.trans hlv
  | _ =>
      rw [ho] at hw
      cases hw

/-- A poll of the bucket that was due is due still, or is about to begin. -/
theorem rests_of_due {a : Act B I T W} (hm : Move next_step s a s')
    (hrests : (s.Due .inner_streams → s'.Due .inner_streams) →
      s'.inner_streams.Rests (s'.Due .inner_streams)) :
    s'.inner_streams.Rests (s'.Due .inner_streams) := by
  by_cases hreg : s'.inner_streams.owner.registering = true
  · exact FuturesUnordered.State.Rests.of_registering hreg _
  · refine hrests fun hd => ?_
    rcases due_move hd hm with hd' | ⟨hk, -⟩ | ⟨-, hreg'⟩
    · exact hd'
    · cases hk
    · exact absurd hreg' hreg

/-- A move that leaves the bucket alone. -/
theorem bucketRests_same {a : Act B I T W} (h : s.BucketRests) (hm : Move next_step s a s')
    (hq : s'.inner_streams = s.inner_streams) (hpended : s'.hist.pended = s.hist.pended) :
    s'.BucketRests := by
  refine ⟨?_, ?_, rests_of_due hm fun hdue => ?_, ?_⟩
  · rw [hq]
    exact h.promises
  · rw [hq]
    exact h.waker
  · rw [hq]
    exact h.rests.imp hdue
  · rw [hq, hpended]
    exact h.answered

/-- The machinery of the bucket moves. If it calls the waker of the inner streams, a poll
of the bucket is due. -/
theorem bucketRests_inner (hA : A.Contract) (hinv : s.Inv) (h : s.BucketRests) {a : Act B I T W}
    (hm : Move next_step s a s') {b : InnerAct I T} (hb : b.inner = true)
    (hq : FuturesUnordered.Move s.inner_streams b s'.inner_streams)
    (hpended : s'.hist.pended = s.hist.pended)
    (hwakes : .inner_streams ∈ s.inner_streams.wakes b → s'.Due .inner_streams) :
    s'.BucketRests := by
  obtain ⟨l, hl⟩ := h.promises.inv
  refine ⟨FuturesUnordered.promises_move hA h.promises hq, ?_, rests_of_due hm fun hdue => ?_, ?_⟩
  · rw [FuturesUnordered.last_move hq hb]
    exact h.waker
  · refine FuturesUnordered.rests_inner hA h.promises (h.rests.imp hdue) hb hq fun w hw hin => ?_
    rw [registered_waker hinv h hw] at hin
    exact hwakes hin
  · rw [hpended]
    exact h.answered.inner hl hb hq

/-- The bucket's `poll_next` returns. -/
theorem waker_of_ret (hinv : s.Inv) {l : Locals T W} {lv : FuturesUnordered.Locals WrappedWaker}
    {r : PollNext (Option (T × PollStreamFut I))} (hb : BucketReturns s l lv r) :
    ∀ w r', (s.inner_streams.ret lv r).hist.last = some (w, r') → w = .inner_streams := by
  intro w r' hlast
  cases hlast
  exact hinv.bucket.waker lv.waker (by rw [hb.owner]; rfl)

/-- An inner stream answers. -/
theorem bucketRests_stream (hA : A.Contract) (h : s.BucketRests)
    {lv : FuturesUnordered.Locals WrappedWaker} {t : ℕ} {fut : PollStreamFut I}
    (ho : s.inner_streams.owner = .poll lv (.poll t)) (r : StreamPolled I T) :
    ({ s with inner_streams := s.inner_streams.polled lv t (fut.poll r) }.answered t fut
      r).BucketRests := by
  have hpromises := FuturesUnordered.promises_move hA h.promises (.polled (fut.poll r) ho)
  have hwaker : ∀ w r', (s.inner_streams.polled lv t (fut.poll r)).hist.last = some (w, r') →
      w = .inner_streams := by
    cases fut.poll r <;> exact h.waker
  have hrests := h.rests.polled ho (fut.poll r)
  -- a task whose future is gone is in the hands of the call, whatever its stream answered
  have hgone : ∀ b, (∀ fut', fut.poll r ≠ .pending fut') →
      (s.inner_streams.polled lv t (fut.poll r)).Answered (Function.update s.hist.pended t b) :=
    fun b hr => h.answered.polled_release ho hr fun u hut => Function.update_of_ne hut _ _
  unfold PollStreamFut.poll State.answered at *
  cases hst : fut.stream with
  | none =>
      rw [hst] at hpromises hwaker hrests
      have hanswered := h.answered.polled_release ho (r := .ready none) (fun _ hr => nomatch hr)
        fun _ _ => rfl
      cases r <;> exact ⟨hpromises, hwaker, hrests, hanswered⟩
  | some st =>
      rw [hst] at hpromises hwaker hrests hgone
      cases r with
      | pending st' => exact ⟨hpromises, hwaker, hrests, h.answered.polled_pending ho _⟩
      | item x st' => exact ⟨hpromises, hwaker, hrests, hgone false fun _ hr => nomatch hr⟩
      | ended => exact ⟨hpromises, hwaker, hrests, hgone false fun _ hr => nomatch hr⟩
      | unwind => exact ⟨hpromises, hwaker, hrests, hgone false fun _ hr => nomatch hr⟩

/-- Once the bit of the bucket is set, a poll of it is due. -/
theorem need_inner_or (v : Word) :
    need .inner_streams (v ||| NEED_TO_POLL_INNER_STREAMS) = true := by
  have hinner : need .inner_streams NEED_TO_POLL_INNER_STREAMS = true := by decide
  rw [need_or, hinner, Bool.or_true]

/-- **Every move keeps the bucket at rest, or a poll of it due.** -/
theorem bucketRests_move (hA : A.Contract) (hinv : s.Inv) (h : s.BucketRests) {a : Act B I T W}
    (hm : Move next_step s a s') : s'.BucketRests := by
  have hmove := hm
  cases hm with
  | baseContinue hb hpush hstep hi ho =>
      exact ⟨FuturesUnordered.promises_move hA h.promises (.push _ hi ho), h.waker,
        FuturesUnordered.State.Rests.of_due (Or.inr (Or.inl (need_inner_or _))) _, h.answered.push _ _⟩
  | innerPoll i hpc hneed ho hpush =>
      exact ⟨FuturesUnordered.promises_move hA h.promises (.poll_next _ ho hpush), h.waker,
        FuturesUnordered.State.Rests.poll_next _ _ _, h.answered.poll_next ho _⟩
  | innerItem hb hi =>
      have hret := FuturesUnordered.promises_move hA h.promises (.ret hb.owner)
      exact ⟨FuturesUnordered.promises_move hA hret (.push _ hi rfl), waker_of_ret hinv hb,
        FuturesUnordered.State.Rests.of_due (Or.inr (Or.inl (need_inner_or _))) _,
        (h.answered.ret hb.owner).push _ _⟩
  | innerEnd i hb =>
      exact ⟨FuturesUnordered.promises_move hA h.promises (.ret hb.owner), waker_of_ret hinv hb,
        FuturesUnordered.State.Rests.of_due (Or.inr (Or.inl (need_inner_or _))) _, h.answered.ret hb.owner⟩
  | innerNone i hb hr =>
      exact ⟨FuturesUnordered.promises_move hA h.promises (.ret hb.owner), waker_of_ret hinv hb,
        rests_of_due hmove fun hdue => (h.rests.imp hdue).ret hb.owner hr, h.answered.ret hb.owner⟩
  | innerUnwinds i hb =>
      exact ⟨FuturesUnordered.promises_move hA h.promises (.ret hb.owner), waker_of_ret hinv hb,
        FuturesUnordered.State.Rests.of_due (Or.inl (need_of_reset _ _)) _, h.answered.ret hb.owner⟩
  | stream r ho hf => exact bucketRests_stream hA h ho _
  | @owner q hq =>
      have hbucket : (((s.inner_streams.wakes .owner).foldl (fun s' k => s'.wake_by_ref .poll k)
          { s with inner_streams := q } : State I T W A)).inner_streams = q := wakes_bucket _ _
      refine bucketRests_inner hA hinv h hmove (b := .owner) rfl ?_ (wakes_pended _ _) fun hk => ?_
      · rw [hbucket]
        exact hq
      · exact Or.inl (need_of_wakes _ _ hk)
  | wakeTask hcalls hq =>
      exact bucketRests_inner hA hinv h hmove rfl hq rfl fun hk => nomatch hk
  | @thread i q hcalls hq =>
      refine bucketRests_inner hA hinv h hmove rfl hq rfl fun hk => Or.inr (Or.inr ⟨i, ?_⟩)
      show _ ∈ Function.update s.calls i _ i
      rw [Function.update_self]
      exact hk
  | stop i hpc hpush =>
      refine bucketRests_same h hmove (stop_polling_bucket s _).1 ?_
      unfold State.stop_polling
      dsimp only
      split
      · rfl
      · rfl
  | _ => exact bucketRests_same h hmove rfl rfl

/-! ## Since when -/

/-- `poll_next` has stopped polling and comes, or came, to return `Pending`. -/
def Pc.stopped (last : Option (W × PollNext T)) : Pc T W → Bool
  | .wake _ => true
  | pc => (pc.resting last).isSome

/-- A call stops polling after it was called. -/
structure State.Marks (s : State I T W A) : Prop where
  called : s.hist.calledAt ≤ s.poll_state.log.length
  stopped : s.pc.stopped s.hist.last = true → s.hist.calledAt ≤ s.hist.stoppedAt

/-- The log of the outer wakers only grows. -/
theorem State.Marks.mono (h : s.Marks) (hlog : s.poll_state.log.length ≤ s'.poll_state.log.length)
    (hcalled : s'.hist.calledAt = s.hist.calledAt) (hstopped : s'.hist.stoppedAt = s.hist.stoppedAt)
    (hrest : s'.pc.stopped s'.hist.last = true → s.pc.stopped s.hist.last = true) :
    s'.Marks := by
  refine ⟨?_, fun hw => ?_⟩
  · rw [hcalled]
    exact h.called.trans hlog
  · rw [hcalled, hstopped]
    exact h.stopped (hrest hw)

theorem wake_by_ref_log (ps : Sys Caller W) (c : Caller) (k : WrappedWaker) :
    (ps.wake_by_ref c k).log = ps.log := by
  unfold Sys.wake_by_ref
  split
  · rfl
  · rfl

theorem wakerStep_log {ps ps' : Sys Caller W} {c : Caller}
    (hs : SharedPollState.wakerStep ps c = some ps') : ps.log.length ≤ ps'.log.length := by
  unfold SharedPollState.wakerStep at hs
  split at hs
  · cases hs
  · cases hs
    exact le_refl _
  · cases hs
    exact le_refl _
  · cases hs
    show _ ≤ (ps.log ++ [_]).length
    rw [List.length_append]
    exact Nat.le_add_right _ _

theorem State.Marks.wake_by_ref (h : s.Marks) (c : Caller) (k : WrappedWaker) :
    (s.wake_by_ref c k).Marks := by
  refine h.mono (le_of_eq ?_) rfl rfl fun hw => hw
  show _ = (s.poll_state.wake_by_ref c k).log.length
  rw [wake_by_ref_log]

theorem State.Marks.wakes (ks : List WrappedWaker) : ∀ {s : State I T W A}, s.Marks →
    (ks.foldl (fun s' k => s'.wake_by_ref .poll k) s).Marks := by
  induction ks with
  | nil => exact fun h => h
  | cons k ks ih => exact fun h => ih (h.wake_by_ref .poll k)

theorem marks_move {a : Act B I T W} (h : s.Marks) (hm : Move next_step s a s') : s'.Marks := by
  cases hm with
  | poll_next w hpc => exact ⟨le_refl _, fun hw => (nomatch hw)⟩
  | spin i hpc hw => exact h
  | replace i hpc hp => exact h.mono (le_refl _) rfl rfl fun hw => hw
  | baseEnds hb hpush => exact h.mono (le_refl _) rfl rfl fun hw => hw
  | stream r ho hf =>
      unfold State.answered
      split <;> exact h.mono (le_refl _) rfl rfl fun hw => hw
  | @owner q hq =>
      have hq' : State.Marks { s with inner_streams := q } := h.mono (le_refl _) rfl rfl fun hw => hw
      exact hq'.wakes _
  | stop i hpc hpush =>
      unfold State.stop_polling
      dsimp only
      split
      · exact ⟨h.called, fun _ => h.called⟩
      · exact ⟨h.called, fun _ => h.called⟩
  | wake i hpc =>
      refine h.mono ?_ rfl rfl fun _ => by rw [hpc]; rfl
      show _ ≤ (s.poll_state.log ++ [_]).length
      rw [List.length_append]
      exact Nat.le_add_right _ _
  | @ret w r hpc =>
      refine h.mono (le_refl _) rfl rfl fun hw => ?_
      rw [hpc]
      cases r with
      | pending => rfl
      | _ => cases hw
  | wakeTask hcalls hq => exact h.mono (le_refl _) rfl rfl fun hw => hw
  | thread hcalls hq => exact h.mono (le_refl _) rfl rfl fun hw => hw
  | @call i k ks hcalls hi =>
      have hcall : State.Marks { s with calls := Function.update s.calls i ks } :=
        h.mono (le_refl _) rfl rfl fun hw => hw
      exact hcall.wake_by_ref _ _
  | wake_by_ref k hi => exact h.wake_by_ref _ k
  | waker hs => exact h.mono (wakerStep_log hs) rfl rfl fun hw => hw
  | _ => exact h.mono (le_refl _) rfl rfl fun hw => (nomatch hw)

/-! ## The theorem -/

/-- Nobody is inside a wake, of a task or of a wrapped waker. -/
structure State.WakesDone (s : State I T W A) : Prop where
  threads : ∀ i, s.inner_streams.threads i = .idle
  calls : ∀ i, s.calls i = []
  wakers : ∀ c, s.poll_state.wakers c = .idle

/-- Nothing is left that could make progress on its own. -/
structure State.Still (s : State I T W A) : Prop where
  /-- Every stream of the bucket has pended, and has not been woken since. -/
  streams : ∀ t, s.inner_streams.InAll t →
    s.hist.pended t = true ∧ s.inner_streams.hist.notified t = false
  /-- The base is done, or has pended and has not been woken since, or is withheld by a
  bucket that is full, and not empty. -/
  base : s.is_stream_done = true ∨ s.hist.basePended = true ∧ s.hist.baseWoken = false ∨
    need .stream s.poll_state.state = true ∧ s.is_exceeded_limit = true ∧
      s.inner_streams.is_empty = false

/-- What the theorem needs to know of a state. -/
structure State.Tended (s : State I T W A) : Prop where
  inv : s.Inv
  promise : s.Promise
  marks : s.Marks
  base : s.BaseRests ∨ s.Due .stream
  bucket : s.BucketRests

theorem tended_move (hA : A.Contract) {a : Act B I T W} (h : s.Tended)
    (hm : Move next_step s a s') : s'.Tended where
  inv := inv_move h.inv hm
  promise := promise_move h.inv h.promise hm
  marks := marks_move h.marks hm
  base := base_move h.base hm
  bucket := bucketRests_move hA h.inv h.bucket hm

/-- A bucket that is full is not empty. -/
theorem not_empty_of_exceeded (hinv : s.Inv) (h : s.is_exceeded_limit = true) :
    s.inner_streams.is_empty = false := by
  unfold State.is_exceeded_limit at h
  split at h
  · rename_i limit hlimit
    have hle : limit.1 ≤ s.inner_streams.len := of_decide_eq_true h
    rw [Bool.eq_false_iff, ne_eq, hinv.bucket.sound.is_empty_iff]
    intro hzero
    rw [hzero] at hle
    exact absurd limit.2 (Nat.not_lt.mpr hle)
  · cases h

/-- What sleeps is still. -/
theorem State.Tended.still (h : s.Tended) (hpc : s.pc = .idle) (hquiet : s.WakesDone)
    (hasleep : Asleep s.poll_state.state s.is_exceeded_limit) : s.Still := by
  have hdue : ∀ k, s.Due k → need k s.poll_state.state = true := by
    rintro k (hbit | hcall | ⟨i, hi⟩)
    · exact hbit
    · rw [hpc] at hcall
      cases hcall
    · rw [hquiet.calls i] at hi
      cases hi
  refine ⟨fun t ht => ?_, ?_⟩
  · have hidle : s.inner_streams.owner = .idle := h.inv.bucket.idle fun l hl => by
      rw [hpc] at hl
      cases hl
    refine h.bucket.rests.asleep h.bucket.promises h.bucket.answered hidle (fun hd => ?_)
      (fun i => ?_) ht
    · have hbit := hdue .inner_streams hd
      rw [hasleep.inner] at hbit
      cases hbit
    · rw [hquiet.threads i]
      rfl
  · rcases h.base with (hdone | hrest) | hd
    · exact Or.inl hdone
    · exact Or.inr (Or.inl hrest)
    · have hbit := hdue .stream hd
      have hfull := hasleep.stream hbit
      exact Or.inr (Or.inr ⟨hbit, hfull, not_empty_of_exceeded h.inv hfull⟩)

end TokioStreamUtil.FlattenUnordered
