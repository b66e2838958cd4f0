/-
The invariant of `FlattenUnordered`.

`Shared` is about the word and the cells: the poll has the word exactly in the
middle part of `poll_next`, and from there on both cells hold the outer waker it
was called with. `Bucket` is about the inner set: it is sound, and is polled only
inside `poll_next`, with the wrapped waker of the inner streams.
-/
import TokioStreamUtil.FlattenUnordered.Moves
import TokioStreamUtil.FlattenUnordered.Exclusion
import TokioStreamUtil.FuturesUnordered.Sound

set_option autoImplicit false

namespace TokioStreamUtil.FlattenUnordered

open FuturesUnordered (Polled PollNext)
open Word (need NeedsOnly)

variable {B I T W : Type} {A : AtomicWaker WrappedWaker}

/-! ## Where `poll_next` stands -/

/-- The poll has the word. -/
def Pc.holds : Pc T W → Bool
  | .replace _ => true
  | .base _ => true
  | .inner _ => true
  | .innerPoll _ => true
  | .finish _ => true
  | _ => false

/-- The local variables, where there are any. -/
def Pc.locals : Pc T W → Option (Locals T W)
  | .replace l => some l
  | .base l => some l
  | .inner l => some l
  | .innerPoll l => some l
  | .finish l => some l
  | _ => none

/-- The outer waker that both cells hold. -/
def Pc.outer (last : Option (W × PollNext T)) : Pc T W → Option W
  | .idle => last.map Prod.fst
  | .start _ => last.map Prod.fst
  | .replace _ => none
  | .base l => some l.waker
  | .inner l => some l.waker
  | .innerPoll l => some l.waker
  | .finish l => some l.waker
  | .wake w => some w
  | .done w _ => some w

/-- The cells are being replaced. -/
def Pc.replacing : Pc T W → Bool
  | .replace _ => true
  | _ => false

/-! ## The word and the cells -/

/-- How far the replacement of the two wakers by `w` has come. -/
inductive Replacing (ps : Sys Caller W) (w : W) : Prop where
  | stream (hp : ps.poller = .replace .stream w)
  | inner_streams (hp : ps.poller = .replace .inner_streams w)
      (hcell : ps.inner_waker .stream = some w)
  | done (hp : ps.poller = .polling w) (hcell : ∀ k, ps.inner_waker k = some w)

/-- The word and the cells, as far as `poll_next` relies on them. -/
structure Shared (pc : Pc T W) (last : Option (W × PollNext T)) (ps : Sys Caller W) : Prop where
  exclusive : Exclusive ps
  critical : ps.poller.critical = pc.holds
  replacing : ∀ l, pc = .replace l → Replacing ps l.waker
  armed : ∀ w, pc.outer last = some w → ∀ k, ps.inner_waker k = some w
  slot : ps.wakers .poll = .idle
  needs : ∀ l, pc.locals = some l → NeedsOnly l.need_to_poll_next

theorem needsOnly_none : NeedsOnly NONE := by
  unfold NeedsOnly
  decide

theorem needsOnly_need (k : WrappedWaker) : NeedsOnly k.need_to_poll := by
  unfold NeedsOnly
  cases k <;> decide

namespace Shared

variable {pc pc' : Pc T W} {last last' : Option (W × PollNext T)} {ps : Sys Caller W}

theorem new : Shared (.idle : Pc T W) none (Sys.new : Sys Caller W) :=
  ⟨Exclusive.new, rfl, nofun, nofun, rfl, nofun⟩

/-- `poll_next` moves on between two places with the same hold on the word. -/
theorem advance (h : Shared pc last ps) (hholds : pc'.holds = pc.holds)
    (hreplace : pc'.replacing = false) (houter : pc'.outer last' = pc.outer last)
    (hneeds : ∀ l, pc'.locals = some l → NeedsOnly l.need_to_poll_next) : Shared pc' last' ps := by
  refine ⟨h.exclusive, ?_, ?_, ?_, h.slot, hneeds⟩
  · rw [hholds]
    exact h.critical
  · rintro l rfl
    cases hreplace
  · rw [houter]
    exact h.armed

/-- The poll has the word, so a call of a wrapped waker does not get it. -/
theorem busy (h : Shared pc last ps) (hpc : pc.holds = true) :
    (Word.polling ps.state || Word.woken ps.state || Word.waking ps.state) = true := by
  rw [h.exclusive.polling, h.critical, hpc]
  rfl

/-- `wake_by_ref` touches no cell, and a poll that has the word never gets it. -/
theorem wake_by_ref (h : Shared pc last ps) (c : Caller) (k : WrappedWaker)
    (hc : c = .poll → pc.holds = true) : Shared pc last (ps.wake_by_ref c k) := by
  have hx := h.exclusive.wake_by_ref c k
  cases hfree : Word.polling ps.state || Word.woken ps.state || Word.waking ps.state with
  | true =>
      rw [Sys.wake_by_ref_of_busy hfree] at hx ⊢
      refine ⟨hx, h.critical, fun l hl => ?_, h.armed, h.slot, h.needs⟩
      cases h.replacing l hl with
      | stream hp => exact .stream hp
      | inner_streams hp hcell => exact .inner_streams hp hcell
      | done hp hcell => exact .done hp hcell
  | false =>
      have hthread : Caller.poll ≠ c := by
        intro hpoll
        rw [h.busy (hc hpoll.symm)] at hfree
        cases hfree
      rw [Sys.wake_by_ref_of_free hfree] at hx ⊢
      refine ⟨hx, h.critical, fun l hl => ?_, h.armed, ?_, h.needs⟩
      · cases h.replacing l hl with
        | stream hp => exact .stream hp
        | inner_streams hp hcell => exact .inner_streams hp hcell
        | done hp hcell => exact .done hp hcell
      · exact (Function.update_of_ne hthread _ _).trans h.slot

/-- A call of a wrapped waker moves on. -/
theorem wakerStep (h : Shared pc last ps) {c : Caller} {ps' : Sys Caller W}
    (hs : SharedPollState.wakerStep ps c = some ps') : Shared pc last ps' := by
  have hx := h.exclusive.wakerStep hs
  have hthread : Caller.poll ≠ c := by
    rintro rfl
    simp only [SharedPollState.wakerStep, h.slot] at hs
    cases hs
  have hframe : ps'.poller = ps.poller ∧ ps'.inner_waker = ps.inner_waker ∧
      ps'.wakers .poll = ps.wakers .poll := by
    unfold SharedPollState.wakerStep at hs
    split at hs
    · cases hs
    · cases hs
      exact ⟨rfl, rfl, Function.update_of_ne hthread _ _⟩
    · cases hs
      exact ⟨rfl, rfl, Function.update_of_ne hthread _ _⟩
    · cases hs
      exact ⟨rfl, rfl, Function.update_of_ne hthread _ _⟩
  obtain ⟨hpoller, hcells, hslot⟩ := hframe
  refine ⟨hx, ?_, fun l hl => ?_, ?_, hslot.trans h.slot, h.needs⟩
  · rw [hpoller]
    exact h.critical
  · cases h.replacing l hl with
    | stream hp => exact .stream (hpoller.trans hp)
    | inner_streams hp hcell => exact .inner_streams (hpoller.trans hp) (by rw [hcells, hcell])
    | done hp hcell => exact .done (hpoller.trans hp) (fun k => by rw [hcells, hcell k])
  · rw [hcells]
    exact h.armed

/-- `start_polling` succeeds. -/
theorem claim {w : W} (h : Shared (.start w) last ps) (hw : Word.waking ps.state = false)
    {l : Locals T W} (hl : l.waker = w) (hneeds : NeedsOnly l.need_to_poll_next) :
    Shared (.replace l) last { ps with state := POLLING, poller := .replace .stream w } := by
  have hx := h.exclusive.start_polling w
  rw [Sys.start_polling_of_not_waking hw] at hx
  refine ⟨hx, rfl, ?_, nofun, h.slot, ?_⟩
  · intro l' hl'
    cases hl'
    exact .stream (by rw [hl])
  · intro l' hl'
    cases hl'
    exact hneeds

/-- One of the two wakers is replaced. -/
theorem replace {l : Locals T W} {k : WrappedWaker} {w : W} (h : Shared (.replace l) last ps)
    (hp : ps.poller = .replace k w) : Shared (.replace l) last (ps.replace_waker k w) := by
  refine ⟨h.exclusive.replace_waker hp, ?_, ?_, nofun, h.slot, h.needs⟩
  · cases k <;> rfl
  · intro l' hl'
    cases hl'
    cases h.replacing l rfl with
    | stream hp' =>
        rw [hp] at hp'
        cases hp'
        refine .inner_streams rfl ?_
        simp [Sys.replace_waker]
    | inner_streams hp' hcell =>
        rw [hp] at hp'
        cases hp'
        refine .done rfl ?_
        intro k'
        cases k' with
        | stream => simpa [Sys.replace_waker] using hcell
        | inner_streams => simp [Sys.replace_waker]
    | done hp' hcell =>
        rw [hp] at hp'
        cases hp'

/-- Both are. -/
theorem replaced {l : Locals T W} (h : Shared (.replace l) last ps)
    (hp : ∀ k w, ps.poller ≠ .replace k w) : Shared (.base l) last ps := by
  refine ⟨h.exclusive, h.critical, nofun, ?_, h.slot, h.needs⟩
  intro w hw
  cases hw
  cases h.replacing l rfl with
  | stream hp' => exact absurd hp' (hp _ _)
  | inner_streams hp' hcell => exact absurd hp' (hp _ _)
  | done hp' hcell => exact hcell

/-- The word is given back, with another value. -/
theorem release (h : Shared pc last ps) {ps' : Sys Caller W} (hx : Exclusive ps')
    (hpoller : ps'.poller = .idle) (hcells : ps'.inner_waker = ps.inner_waker)
    (hwakers : ps'.wakers = ps.wakers) (hholds : pc'.holds = false) (hlocals : pc'.locals = none)
    (houter : pc'.outer last = pc.outer last) : Shared pc' last ps' := by
  refine ⟨hx, ?_, ?_, ?_, ?_, ?_⟩
  · rw [hpoller, hholds]
    rfl
  · rintro l rfl
    cases hholds
  · rw [houter, hcells]
    exact h.armed
  · rw [hwakers]
    exact h.slot
  · intro l hl
    rw [hlocals] at hl
    cases hl

/-- The outer waker is called. -/
theorem wake (h : Shared pc last ps) (log : List W) (hholds : pc'.holds = pc.holds)
    (hreplace : pc'.replacing = false) (houter : pc'.outer last = pc.outer last)
    (hlocals : pc'.locals = none) : Shared pc' last { ps with log := log } := by
  have hmove : Shared pc' last ps :=
    h.advance hholds hreplace houter fun l hl => by rw [hlocals] at hl; cases hl
  refine ⟨⟨h.exclusive.polling, h.exclusive.waking, h.exclusive.unique, h.exclusive.apart,
    h.exclusive.fresh⟩, hmove.critical, ?_, hmove.armed, hmove.slot, hmove.needs⟩
  rintro l rfl
  cases hreplace

end Shared

/-! ## The bucket -/

/-- The bucket, as far as `poll_next` relies on it. -/
structure Bucket (pc : Pc T W)
    (q : FuturesUnordered.State (PollStreamFut I) (Option (T × PollStreamFut I)) WrappedWaker A) :
    Prop where
  sound : q.Sound
  idle : (∀ l, pc ≠ .innerPoll l) → q.owner = .idle
  waker : ∀ w, q.owner.waker = some w → w = .inner_streams

namespace Bucket

variable {pc pc' : Pc T W}
  {q q' : FuturesUnordered.State (PollStreamFut I) (Option (T × PollStreamFut I)) WrappedWaker A}

theorem new : Bucket (.idle : Pc T W) (FuturesUnordered.State.new (A := A) :
    FuturesUnordered.State (PollStreamFut I) (Option (T × PollStreamFut I)) WrappedWaker A) :=
  ⟨FuturesUnordered.State.Sound.new, fun _ => rfl, nofun⟩

/-- `poll_next` moves on outside the bucket. -/
theorem advance (h : Bucket pc q) (hpc : ∀ l, pc ≠ .innerPoll l) : Bucket pc' q :=
  ⟨h.sound, fun _ => h.idle hpc, h.waker⟩

/-- The machinery of the bucket moves. -/
theorem inner (h : Bucket pc q) {a : InnerAct I T} (ha : a.inner = true)
    (hm : FuturesUnordered.Move q a q') : Bucket pc q' := by
  have hframe := FuturesUnordered.frame_move hm ha
  refine ⟨h.sound.move hm ?_, fun hpc => ?_, ?_⟩
  · rintro rfl
    cases ha
  · apply FuturesUnordered.Owner.eq_idle
    rw [hframe.idle, h.idle hpc]
    rfl
  · rw [FuturesUnordered.waker_move hm ha]
    exact h.waker

/-- The stream that is polled answers. -/
theorem polled (h : Bucket pc q) {lv : FuturesUnordered.Locals WrappedWaker} {t : ℕ}
    (ho : q.owner = .poll lv (.poll t))
    (r : Polled (PollStreamFut I) (Option (T × PollStreamFut I))) : Bucket pc (q.polled lv t r) := by
  refine ⟨h.sound.move (.polled r ho) nofun, fun hpc => ?_, ?_⟩
  · rw [h.idle hpc] at ho
    cases ho
  · intro w hw
    apply h.waker w
    rw [ho, ← hw]
    cases r <;> rfl

/-- A future is pushed. -/
theorem push (h : Bucket pc q) {i : ℕ} (fut : PollStreamFut I) (hi : q.threads i = .idle)
    (ho : q.owner = .idle) : Bucket pc' (q.push i fut) :=
  ⟨h.sound.move (.push fut hi ho) nofun, fun _ => ho, h.waker⟩

/-- `poll_next` of the bucket is called. -/
theorem poll_next (h : Bucket pc q) (ho : q.owner = .idle) (hpush : q.pushing = ∅) (l : Locals T W) :
    Bucket (.innerPoll l) (q.poll_next .inner_streams) := by
  refine ⟨h.sound.move (.poll_next _ ho hpush) nofun, fun hpc => absurd rfl (hpc l), ?_⟩
  intro w hw
  cases hw
  rfl

/-- `poll_next` of the bucket returns. -/
theorem ret (h : Bucket pc q) {lv : FuturesUnordered.Locals WrappedWaker}
    {r : PollNext (Option (T × PollStreamFut I))} (ho : q.owner = .poll lv (.done r)) :
    Bucket pc' (q.ret lv r) :=
  ⟨h.sound.move (.ret ho) nofun, fun _ => rfl, nofun⟩

end Bucket

/-! ## The invariant -/

/-- The invariant. -/
structure State.Inv (s : State I T W A) : Prop where
  shared : Shared s.pc s.hist.last s.poll_state
  bucket : Bucket s.pc s.inner_streams

namespace State.Inv

variable {s s' : State I T W A}

theorem new (limit : Option ℕ) : (State.new I T W A limit).Inv := ⟨Shared.new, Bucket.new⟩

theorem wake_by_ref (h : s.Inv) (c : Caller) (k : WrappedWaker)
    (hc : c = .poll → s.pc.holds = true) : (s.wake_by_ref c k).Inv :=
  ⟨h.shared.wake_by_ref c k hc, h.bucket⟩

/-- The bucket calls the wrapped wakers `ks` in the name of `poll_next`. -/
theorem wakes (ks : List WrappedWaker) : ∀ {s : State I T W A}, s.Inv → s.pc.holds = true →
    (ks.foldl (fun s' k => s'.wake_by_ref .poll k) s).Inv := by
  induction ks with
  | nil => exact fun h _ => h
  | cons k ks ih => exact fun h hpc => ih (h.wake_by_ref .poll k fun _ => hpc) hpc

end State.Inv

variable {next_step : B → Option (FlowStep I T)} {s s' : State I T W A}

/-- Inside the bucket's `poll_next`. -/
theorem Bucket.innerPoll_of_not_idle {pc : Pc T W}
    {q : FuturesUnordered.State (PollStreamFut I) (Option (T × PollStreamFut I)) WrappedWaker A}
    (h : Bucket pc q) (ho : q.owner.isIdle = false) : ∃ l, pc = .innerPoll l := by
  by_contra hno
  rw [h.idle fun l hl => hno ⟨l, hl⟩] at ho
  cases ho

/-- The word is given back after `stop_polling`. -/
theorem inv_stop_polling (h : s.Inv) {l : Locals T W} (hpc : s.pc = .finish l) :
    (s.stop_polling l).Inv := by
  obtain ⟨hshared, hbucket⟩ := h
  rw [hpc] at hshared hbucket
  have hcrit : s.poll_state.poller.critical = true := hshared.critical
  have hx := hshared.exclusive.stop_polling hcrit l.need_to_poll_next (s.force_wake l)
  unfold State.stop_polling
  dsimp only
  split
  · exact ⟨hshared.release hx rfl rfl rfl rfl rfl rfl, hbucket.advance nofun⟩
  · split
    · exact ⟨hshared.release hx rfl rfl rfl rfl rfl rfl, hbucket.advance nofun⟩
    · exact ⟨hshared.release hx rfl rfl rfl rfl rfl rfl, hbucket.advance nofun⟩

/-- The word is given back by the bomb. -/
theorem shared_unwind {pc : Pc T W} {last : Option (W × PollNext T)} {ps : Sys Caller W}
    (h : Shared pc last ps) (hpc : pc.holds = true) {w : W} (houter : pc.outer last = some w)
    (r : PollNext T) : Shared (.done w r) last ps.reset :=
  h.release (h.exclusive.reset (h.critical.trans hpc)) rfl rfl rfl rfl rfl houter.symm

/-- **Every move keeps the invariant.** -/
theorem inv_move {a : Act B I T W} (h : s.Inv) (hm : Move next_step s a s') : s'.Inv := by
  have hinv := h
  obtain ⟨hshared, hbucket⟩ := h
  cases hm with
  | poll_next w hpc =>
      rw [hpc] at hshared hbucket
      exact ⟨hshared.advance rfl rfl rfl nofun, hbucket.advance nofun⟩
  | spin i hpc hw => exact hinv
  | claim i hpc hw =>
      rw [hpc] at hshared hbucket
      exact ⟨hshared.claim hw rfl needsOnly_none, hbucket.advance nofun⟩
  | replace i hpc hp =>
      rw [hpc] at hshared
      refine ⟨?_, hbucket⟩
      show Shared s.pc s.hist.last _
      rw [hpc]
      exact hshared.replace hp
  | replaced i hpc hp =>
      rw [hpc] at hshared hbucket
      exact ⟨hshared.replaced hp, hbucket.advance nofun⟩
  | baseSkip i hpc hneed hpush =>
      rw [hpc] at hshared hbucket
      exact ⟨hshared.advance rfl rfl rfl hshared.needs, hbucket.advance nofun⟩
  | baseDone i hpc hdone hpush =>
      rw [hpc] at hshared hbucket
      exact ⟨hshared.advance rfl rfl rfl hshared.needs, hbucket.advance nofun⟩
  | @baseLimit l i hpc hlimit hdone hpush =>
      rw [hpc] at hshared hbucket
      refine ⟨hshared.advance rfl rfl rfl ?_, hbucket.advance nofun⟩
      intro l' hl'
      cases hl'
      exact NeedsOnly.or (hshared.needs l rfl) (needsOnly_need .stream)
  | @baseReturn l i item x hb hpush hstep =>
      rw [hb.pc] at hshared hbucket
      refine ⟨hshared.advance rfl rfl rfl ?_, hbucket.advance nofun⟩
      intro l' hl'
      cases hl'
      exact NeedsOnly.or (hshared.needs l rfl)
        (NeedsOnly.or (needsOnly_need .stream) (NeedsOnly.and _ (needsOnly_need .inner_streams)))
  | @baseContinue l i item inner_stream hb hpush hstep hi ho =>
      rw [hb.pc] at hshared hbucket
      refine ⟨hshared.advance rfl rfl rfl ?_, hbucket.push _ hi ho⟩
      intro l' hl'
      cases hl'
      exact hshared.needs l rfl
  | baseEnds hb hpush => exact ⟨hshared, hbucket⟩
  | basePending hb hpush =>
      rw [hb.pc] at hshared hbucket
      exact ⟨hshared.advance rfl rfl rfl hshared.needs, hbucket.advance nofun⟩
  | baseUnwinds hb hr =>
      rw [hb.pc] at hshared hbucket
      exact ⟨shared_unwind hshared rfl rfl _, hbucket.advance nofun⟩
  | innerSkip i hpc hneed =>
      rw [hpc] at hshared hbucket
      exact ⟨hshared.advance rfl rfl rfl hshared.needs, hbucket.advance nofun⟩
  | innerPoll i hpc hneed ho hpush =>
      rw [hpc] at hshared hbucket
      exact ⟨hshared.advance rfl rfl rfl hshared.needs, hbucket.poll_next ho hpush _⟩
  | @innerItem l lv i x fut hb hi =>
      rw [hb.pc] at hshared hbucket
      refine ⟨hshared.advance rfl rfl rfl ?_, ?_⟩
      · intro l' hl'
        cases hl'
        exact NeedsOnly.or (hshared.needs l rfl) (needsOnly_need .inner_streams)
      · have hret : Bucket (Pc.innerPoll l) (s.inner_streams.ret lv _) := hbucket.ret hb.owner
        exact hret.push fut hi rfl
  | @innerEnd l lv i hb =>
      rw [hb.pc] at hshared hbucket
      refine ⟨hshared.advance rfl rfl rfl ?_, hbucket.ret hb.owner⟩
      intro l' hl'
      cases hl'
      exact NeedsOnly.or (hshared.needs l rfl) (needsOnly_need .inner_streams)
  | innerNone i hb hr =>
      rw [hb.pc] at hshared hbucket
      exact ⟨hshared.advance rfl rfl rfl hshared.needs, hbucket.ret hb.owner⟩
  | innerUnwinds i hb =>
      rw [hb.pc] at hshared hbucket
      exact ⟨shared_unwind hshared rfl rfl _, hbucket.ret hb.owner⟩
  | @stream lv t fut r ho hf =>
      have hpolled := hbucket.polled ho (fut.poll r)
      unfold State.answered
      split
      all_goals exact ⟨hshared, hpolled⟩
  -- `poll_next` holds the word while the bucket calls its wakers
  | @owner q hq =>
      obtain ⟨l, hl⟩ := hbucket.innerPoll_of_not_idle (FuturesUnordered.owner_not_idle hq)
      have hstep : State.Inv { s with inner_streams := q } := ⟨hshared, hbucket.inner rfl hq⟩
      exact State.Inv.wakes _ hstep (by show s.pc.holds = true; rw [hl]; rfl)
  | stop i hpc hpush => exact inv_stop_polling hinv hpc
  | @wake w i hpc =>
      rw [hpc] at hshared hbucket
      exact ⟨hshared.wake _ rfl rfl rfl rfl, hbucket.advance nofun⟩
  | ret hpc =>
      rw [hpc] at hshared hbucket
      exact ⟨hshared.advance rfl rfl rfl nofun, hbucket.advance nofun⟩
  | wakeTask hcalls hq => exact ⟨hshared, hbucket.inner rfl hq⟩
  | thread hcalls hq => exact ⟨hshared, hbucket.inner rfl hq⟩
  | call hcalls hi => exact ⟨hshared.wake_by_ref _ _ nofun, hbucket⟩
  | wake_by_ref k hi => exact ⟨hshared.wake_by_ref _ _ nofun, hbucket⟩
  | waker hs => exact ⟨hshared.wakerStep hs, hbucket⟩

/-- The invariant holds in every reachable state. -/
theorem inv_of_reachable {limit : Option ℕ}
    (h : Transition.Reachable (step next_step) (State.new I T W A limit) s) : s.Inv :=
  h.invariant (State.Inv.new limit) fun _ _ _ hi hs => inv_move hi (move_of_step hs)

end TokioStreamUtil.FlattenUnordered
