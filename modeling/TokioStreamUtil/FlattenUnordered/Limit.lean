/-
The limit of the bucket, and the items that the flow controller returns.

The base is polled while the bucket has room, and it gives one stream at a time; the
bucket gets a stream back in the call that took it out. So the streams it holds, with
the one whose item is on its way, never outnumber the limit (`Capped`).

An item that the flow controller returns ends the call: the bit for the inner streams
goes from what the call still polls to what the next call polls, and nothing is left
to do but to return (`Returning`). The bit stays in the word until the next
`start_polling` hands it over (`Owed`).
-/
import TokioStreamUtil.FlattenUnordered.Fused
import TokioStreamUtil.FlattenUnordered.Wakeups

set_option autoImplicit false

namespace TokioStreamUtil.FlattenUnordered

open FuturesUnordered (Polled PollNext)
open Word (need)

variable {B I T W : Type} {A : AtomicWaker WrappedWaker}

/-! ## How many streams the bucket holds -/

/-- The bucket holds at most `n` streams: as many are linked, and as many have not
finished, with the one whose item is on its way out. -/
structure AtMost (n : ℕ)
    (q : FuturesUnordered.State (PollStreamFut I) (Option (T × PollStreamFut I)) WrappedWaker A) :
    Prop where
  len : q.len ≤ n
  held : ∀ ts : List ℕ, ts.Nodup → (∀ t ∈ ts, ∃ fut, q.Holds t fut) →
    ts.length + (carriedItems q.owner.carrying).length ≤ n

section Bucket

variable {q : FuturesUnordered.State (PollStreamFut I) (Option (T × PollStreamFut I)) WrappedWaker A}

/-- Tasks that hold futures are among those that were pushed and have not finished. -/
theorem holds_le_unfinished (h : q.Sound) {ts : List ℕ} (hnodup : ts.Nodup)
    (hholds : ∀ t ∈ ts, ∃ fut, q.Holds t fut) : ts.length ≤ q.unfinished := by
  have hall : (ts ++ (q.hist.completed.map Prod.fst ++ q.hist.discarded)).Nodup := by
    refine List.nodup_append.mpr ⟨hnodup, h.ledger.nodup, fun t ht u hu => ?_⟩
    rintro rfl
    obtain ⟨fut, hfut⟩ := hholds t ht
    exact hfut.unfinished hu
  have hlt : ts ++ (q.hist.completed.map Prod.fst ++ q.hist.discarded) ⊆ List.range q.fresh := by
    intro t ht
    rw [List.mem_range]
    rcases List.mem_append.mp ht with ht | ht
    · obtain ⟨fut, hfut⟩ := hholds t ht
      exact hfut.pushed
    · exact h.lt_of_finished ht
  have hlen := (hall.subperm hlt).length_le
  rw [List.length_append, List.length_append, List.length_map, List.length_range] at hlen
  unfold FuturesUnordered.State.unfinished
  omega

theorem atMost_of_unfinished (h : q.Sound) {n : ℕ}
    (hle : q.unfinished + q.owner.carrying.length ≤ n) : AtMost n q := by
  refine ⟨?_, fun ts hnodup hholds => ?_⟩
  · have hlen := h.len_le
    omega
  · have hts := holds_le_unfinished h hnodup hholds
    have hcarried : (carriedItems q.owner.carrying).length ≤ q.owner.carrying.length :=
      List.length_filterMap_le _ _
    omega

end Bucket

/-! ## The limit is kept -/

/-- The limit is `cap`, and the bucket keeps it. -/
structure State.Capped (s : State I T W A) (cap : Option NonZeroUsize) : Prop where
  limit : s.limit = cap
  within : ∀ l : NonZeroUsize, cap = some l →
    s.inner_streams.unfinished + s.inner_streams.owner.carrying.length ≤ l.1

variable {next_step : B → Option (FlowStep I T)} {s s' : State I T W A} {cap : Option NonZeroUsize}

theorem capped_new (limit : Option ℕ) :
    (State.new I T W A limit).Capped (limit.bind NonZeroUsize.new) :=
  ⟨rfl, fun l _ => Nat.zero_le l.1⟩

namespace State.Capped

/-- The bucket holds no more than before. -/
theorem shrink (h : s.Capped cap) (hlimit : s'.limit = s.limit)
    (hle : s'.inner_streams.unfinished + s'.inner_streams.owner.carrying.length ≤
      s.inner_streams.unfinished + s.inner_streams.owner.carrying.length) : s'.Capped cap :=
  ⟨hlimit.trans h.limit, fun l hl => hle.trans (h.within l hl)⟩

/-- The bucket is what it was. -/
theorem same (h : s.Capped cap) (hlimit : s'.limit = s.limit)
    (hq : s'.inner_streams = s.inner_streams) : s'.Capped cap :=
  h.shrink hlimit (by rw [hq])

/-- The machinery of the bucket moves. -/
theorem inner (h : s.Capped cap) (hlimit : s'.limit = s.limit) {a : InnerAct I T}
    (ha : a.inner = true) (hm : FuturesUnordered.Move s.inner_streams a s'.inner_streams) :
    s'.Capped cap := by
  have hframe := FuturesUnordered.frame_move hm ha
  refine h.shrink hlimit ?_
  rw [hframe.unfinished, hframe.carrying]

/-- The limit is there, so the bucket has at most that many streams. -/
theorem atMost (h : s.Capped cap) (hsound : s.inner_streams.Sound) {l : NonZeroUsize}
    (hl : cap = some l) : AtMost l.1 s.inner_streams :=
  atMost_of_unfinished hsound (h.within l hl)

/-- Where the limit is not exceeded, the bucket has fewer. -/
theorem room (h : s.Capped cap) (hroom : s.is_exceeded_limit = false) {l : NonZeroUsize}
    (hl : cap = some l) : s.inner_streams.len < l.1 := by
  unfold State.is_exceeded_limit at hroom
  rw [h.limit, hl] at hroom
  exact Nat.not_le.mp (of_decide_eq_false hroom)

/-- Without a limit nothing exceeds it. -/
theorem unlimited (h : s.Capped none) : s.is_exceeded_limit = false := by
  unfold State.is_exceeded_limit
  rw [h.limit]

end State.Capped

/-- Outside the bucket all the streams it holds are linked. -/
theorem unfinished_of_outside (h : s.Inv) (hout : ∀ l, s.pc ≠ .innerPoll l) :
    s.inner_streams.unfinished + s.inner_streams.owner.carrying.length = s.inner_streams.len := by
  rw [carrying_of_outside h hout, h.bucket.sound.len_eq (h.bucket.idle hout)]
  rfl

/-- **Every move keeps the limit.** -/
theorem capped_move {a : Act B I T W} (hinv : s.Inv) (h : s.Capped cap)
    (hm : Move next_step s a s') : s'.Capped cap := by
  have hsound := hinv.bucket.sound
  cases hm with
  | @baseContinue l i item inner_stream hb hpush hstep hi ho =>
      -- there is room for one more
      refine ⟨h.limit, fun n hn => ?_⟩
      have hroom := h.room hb.room hn
      have hlen := hsound.len_eq ho
      have hnew := hsound.unfinished_push i ⟨some inner_stream, s.hist.sources⟩
      have hnone : (s.inner_streams.push i ⟨some inner_stream, s.hist.sources⟩).owner.carrying = [] := by
        show s.inner_streams.owner.carrying = []
        rw [ho]
        rfl
      dsimp only
      rw [hnew, hnone, List.length_nil]
      omega
  | @innerPoll l i hpc hneed ho hpush =>
      refine h.shrink rfl ?_
      exact Nat.add_le_add_left (Nat.zero_le _) _
  | @innerItem l lv i x fut hb hi =>
      -- the stream that was taken out comes back
      refine h.shrink rfl ?_
      have hret := hsound.move (.ret hb.owner) (by rintro ⟨⟩)
      have hnew := hret.unfinished_push i fut
      rw [hb.owner]
      dsimp only
      rw [hnew]
      exact le_refl _
  | innerEnd i hb => exact h.shrink rfl (Nat.add_le_add_left (Nat.zero_le _) _)
  | innerNone i hb hr => exact h.shrink rfl (Nat.add_le_add_left (Nat.zero_le _) _)
  | innerUnwinds i hb => exact h.shrink rfl (Nat.add_le_add_left (Nat.zero_le _) _)
  | @stream lv t fut r ho hf =>
      have hafter := FuturesUnordered.unfinished_polled hsound ho (fut.poll r)
      refine h.shrink (answered_bucket _ _ _ _).2 ?_
      rw [(answered_bucket _ _ _ _).1]
      exact hafter.trans (Nat.le_add_right _ _)
  | owner hq =>
      refine h.inner (wakes_limit _ _) (a := .owner) rfl ?_
      rw [wakes_bucket]
      exact hq
  | stop i hpc hpush =>
      exact h.same (stop_polling_bucket s _).2 (stop_polling_bucket s _).1
  | wakeTask hcalls hq => exact h.inner rfl (a := .wake _ _) rfl hq
  | thread hcalls hq => exact h.inner rfl (a := .thread _) rfl hq
  | _ => exact h.same rfl rfl

/-! ## The base is asked -/

/-- The base says that it is done. -/
theorem done_of_end {i : ℕ} (hm : Move next_step s (.base i (.ready none)) s') :
    s'.is_stream_done = true := by
  cases hm with
  | baseEnds hb hpush => rfl
  | baseUnwinds hb hr => rcases hr with hr | ⟨item, hr, -⟩ <;> cases hr

/-- The items of the base that the flow controller returns. -/
def takes (next_step : B → Option (FlowStep I T)) (item : B) : Option T :=
  match next_step item with
  | some (.Return x) => some x
  | _ => none

theorem takes_eq {item : B} {x : T} (h : takes next_step item = some x) :
    next_step item = some (.Return x) := by
  unfold takes at h
  split at h
  · rename_i y hstep
    rw [hstep, Option.some.inj h]
  · cases h

/-! ## An item that is returned -/

/-- `poll_next` is returning the item `x` of the base, to the waker `w`: it polls
nobody on the way. If it has deferred the inner streams, the bit for them is in what
it leaves to the next call, and then in the word. -/
def Pc.Returning (w : W) (x : T) (deferred : Bool) (value : Word) : Pc T W → Prop
  | .inner l =>
      l.waker = w ∧ l.next_item = some ⟨x, .base⟩ ∧ need .inner_streams l.poll_state_value = false ∧
        (deferred = true → need .inner_streams l.need_to_poll_next = true)
  | .finish l =>
      l.waker = w ∧ l.next_item = some ⟨x, .base⟩ ∧
        (deferred = true → need .inner_streams l.need_to_poll_next = true)
  | .done v r => v = w ∧ r = .ready (some x) ∧ (deferred = true → need .inner_streams value = true)
  | _ => False

/-- The steps of its own that `poll_next` still takes then. -/
def Pc.left : Pc T W → ℕ
  | .inner _ => 2
  | .finish _ => 1
  | _ => 0

/-- The call is returning `x`, and nobody is inside the bucket's pushes. -/
structure State.Returning (s : State I T W A) (w : W) (x : T) (deferred : Bool) : Prop where
  inv : s.Inv
  quiet : s.inner_streams.pushing = ∅
  place : s.pc.Returning w x deferred s.poll_state.state

/-- The flow controller returns an item: it is what the call returns. -/
theorem returning_of_return {i : ℕ} {item : B} {x : T} (hinv : s.Inv)
    (hstep : next_step item = some (.Return x))
    (hm : Move next_step s (.base i (.ready (some item))) s') :
    ∃ l, s.pc = .base l ∧
      s'.Returning l.waker x (need .inner_streams l.poll_state_value) := by
  have hinv' := inv_move hinv hm
  cases hm with
  | @baseReturn l i item y hb hpush hreturn =>
      rw [hstep] at hreturn
      cases hreturn
      refine ⟨l, hb.pc, hinv', hpush, rfl, rfl, ?_, fun hdeferred => ?_⟩
      · have hclear : need .inner_streams (~~~NEED_TO_POLL_INNER_STREAMS) = false := by decide
        dsimp only
        rw [need_and, hclear, Bool.and_false]
      · have hin : need .inner_streams NEED_TO_POLL_INNER_STREAMS = true := by decide
        dsimp only
        rw [need_or, need_or, need_and, hdeferred, hin]
        simp
  | baseContinue hb hpush hcontinue hi ho =>
      rw [hstep] at hcontinue
      cases hcontinue
  | baseUnwinds hb hr =>
      rcases hr with hr | ⟨item', hr, hnone⟩
      · cases hr
      · cases hr
        rw [hstep] at hnone
        cases hnone

namespace State.Returning

variable {w : W} {x : T} {deferred : Bool}

/-- The bucket is not polled. -/
theorem idle (h : s.Returning w x deferred) : s.inner_streams.owner = .idle := by
  refine h.inv.bucket.idle fun l hl => ?_
  have hplace := h.place
  rw [hl] at hplace
  exact hplace

/-- Somebody else moves: the bits in the word stay. -/
theorem aside {a : Act B I T W} (h : s.Returning w x deferred) (hm : Move next_step s a s')
    (hpc : s'.pc = s.pc) (hquiet : s'.inner_streams.pushing = ∅) : s'.Returning w x deferred := by
  have hplace := h.place
  refine ⟨inv_move h.inv hm, hquiet, ?_⟩
  rw [hpc]
  cases hp : s.pc with
  | done v r =>
      rw [hp] at hplace
      refine ⟨hplace.1, hplace.2.1, fun hdeferred => ?_⟩
      rcases need_move .inner_streams hm (hplace.2.2 hdeferred) with hneed | ⟨v', hstart, -, -⟩
      · exact hneed
      · rw [hp] at hstart
        cases hstart
  | _ =>
      rw [hp] at hplace
      exact hplace

/-- **A step of the call brings it closer to its return**, and so does nobody else's
take it off. -/
theorem move {a : Act B I T W} (h : s.Returning w x deferred) (ha : a.isRet = false)
    (hm : Move next_step s a s') :
    s'.Returning w x deferred ∧ s'.pc.left + (if a.ofPoll then 1 else 0) ≤ s.pc.left := by
  have hplace := h.place
  have hidle := h.idle
  have hinv' := inv_move h.inv hm
  have haway : ∀ {pc : Pc T W}, s.pc = pc → ¬ pc.Returning w x deferred s.poll_state.state → False := by
    rintro pc rfl hnot
    exact hnot hplace
  have haside := fun hpc hquiet => h.aside hm hpc hquiet
  cases hm with
  | poll_next w hpc => exact (haway hpc id).elim
  | spin i hpc hw => exact (haway hpc id).elim
  | claim i hpc hw => exact (haway hpc id).elim
  | replace i hpc hp => exact (haway hpc id).elim
  | replaced i hpc hp => exact (haway hpc id).elim
  | baseSkip i hpc hneed hpush => exact (haway hpc id).elim
  | baseDone i hpc hdone hpush => exact (haway hpc id).elim
  | baseLimit i hpc hlimit hdone hpush => exact (haway hpc id).elim
  | baseReturn hb hpush hstep => exact (haway hb.pc id).elim
  | baseContinue hb hpush hstep hi ho => exact (haway hb.pc id).elim
  | baseEnds hb hpush => exact (haway hb.pc id).elim
  | basePending hb hpush => exact (haway hb.pc id).elim
  | baseUnwinds hb hr => exact (haway hb.pc id).elim
  | @innerSkip l i hpc hneed =>
      rw [hpc] at hplace
      obtain ⟨hw, hitem, -, hdeferred⟩ := hplace
      refine ⟨⟨hinv', h.quiet, hw, hitem, hdeferred⟩, ?_⟩
      rw [hpc]
      exact le_refl _
  | @innerPoll l i hpc hneed ho hpush =>
      rw [hpc] at hplace
      rw [hplace.2.2.1] at hneed
      cases hneed
  | innerItem hb hi => exact (haway hb.pc id).elim
  | innerEnd i hb => exact (haway hb.pc id).elim
  | innerNone i hb hr => exact (haway hb.pc id).elim
  | innerUnwinds i hb => exact (haway hb.pc id).elim
  | stream r ho hf =>
      rw [hidle] at ho
      cases ho
  | owner hq =>
      have hbusy := FuturesUnordered.owner_not_idle hq
      rw [hidle] at hbusy
      cases hbusy
  | @stop l i hpc hpush =>
      rw [hpc] at hplace
      obtain ⟨hw, hitem, hdeferred⟩ := hplace
      have hready : s.stop_polling l =
          (({ s with
              poll_state := s.poll_state.stop_polling l.need_to_poll_next (s.force_wake l)
              hist := { s.hist with stoppedAt := s.poll_state.log.length } }.record
                (.result (.ready l.next_item))).setPc
            (.done l.waker (.ready (l.next_item.map Item.value)))) := by
        unfold State.stop_polling
        dsimp only
        rw [hitem]
        rfl
      refine ⟨⟨hinv', ?_, ?_⟩, ?_⟩
      · rw [(stop_polling_bucket s l).1]
        exact h.quiet
      · have hneed := need_stop_polling .inner_streams (s := s) (l := l)
        rw [hready] at hneed ⊢
        refine ⟨hw, ?_, fun hdef => ?_⟩
        · rw [hitem]
          rfl
        · rw [hneed, hdeferred hdef]
          rfl
      · rw [hready, hpc]
        exact le_refl _
  | wake i hpc => exact (haway hpc id).elim
  | ret hpc => cases ha
  | wakeTask hcalls hq =>
      have hframe := FuturesUnordered.frame_move hq rfl
      exact ⟨haside rfl (hframe.pushing h.quiet), le_refl _⟩
  | thread hcalls hq =>
      have hframe := FuturesUnordered.frame_move hq rfl
      exact ⟨haside rfl (hframe.pushing h.quiet), le_refl _⟩
  | call hcalls hi => exact ⟨haside rfl h.quiet, le_refl _⟩
  | wake_by_ref k hi => exact ⟨haside rfl h.quiet, le_refl _⟩
  | waker hs => exact ⟨haside rfl h.quiet, le_refl _⟩

theorem not_polled {r : StreamPolled I T} (h : s.Returning w x deferred)
    (hm : Move next_step s (.inner r) s') : False := by
  cases hm with
  | stream r ho hf =>
      rw [h.idle] at ho
      cases ho

theorem last_of_ret (h : s.Returning w x deferred) (hm : Move next_step s .ret s') :
    s'.hist.last = some (w, .ready (some x)) := by
  have hplace := h.place
  cases hm with
  | @ret v r hpc =>
      rw [hpc] at hplace
      show some (v, r) = _
      rw [hplace.1, hplace.2.1]

/-- The call has come to its return, or can take its next step. -/
theorem live (next_step : B → Option (FlowStep I T)) (h : s.Returning w x deferred) :
    s.pc = .done w (.ready (some x)) ∨ ∃ s', step next_step s (.own 0) = some s' := by
  have hplace := h.place
  have hfree : pollFree s = true := by
    unfold pollFree
    rw [h.inv.shared.slot, h.quiet]
    rfl
  cases hpc : s.pc with
  | inner l =>
      rw [hpc] at hplace
      refine Or.inr ⟨s.setPc (.finish l), ?_⟩
      have hskip : ¬ (l.poll_state_value &&& NEED_TO_POLL_INNER_STREAMS ≠ NONE) := by
        rw [← WrappedWaker.need_to_poll, ← need_iff, hplace.2.2.1]
        exact Bool.false_ne_true
      unfold step stepOwn
      dsimp only
      rw [if_pos hfree, hpc]
      exact if_neg hskip
  | finish l =>
      refine Or.inr ⟨s.stop_polling l, ?_⟩
      unfold step stepOwn
      dsimp only
      rw [if_pos hfree, hpc]
  | done v r =>
      rw [hpc] at hplace
      left
      rw [hplace.1, hplace.2.1]
  | _ =>
      rw [hpc] at hplace
      exact hplace.elim

end State.Returning

/-! ## The bit it leaves behind -/

/-- The call in progress has succeeded with `start_polling`. -/
def Pc.started : Pc T W → Bool
  | .idle => false
  | .start _ => false
  | _ => true

/-- The need to poll the inner streams is there for the next call: it is in the word,
and from `start_polling` on in what that call was handed. -/
def State.Owed (s : State I T W A) : Prop :=
  need .inner_streams (if s.pc.started then s.hist.claimed else s.poll_state.state) = true

theorem wakes_claimed (ks : List WrappedWaker) : ∀ (s : State I T W A),
    (ks.foldl (fun s' k => s'.wake_by_ref .poll k) s).hist.claimed = s.hist.claimed := by
  induction ks with
  | nil => exact fun _ => rfl
  | cons k ks ih => exact fun s => ih _

/-- Between two `start_polling` that succeed, a call keeps what it was handed. -/
theorem started_move {a : Act B I T W} (ha : a.isRet = false) (hm : Move next_step s a s') :
    (∃ w, s.pc = .start w ∧ s' = s.claim w) ∨
      (s'.pc.started = s.pc.started ∧ s'.hist.claimed = s.hist.claimed) := by
  cases hm with
  | poll_next w hpc => right; rw [hpc]; exact ⟨rfl, rfl⟩
  | @claim w i hpc hw => exact Or.inl ⟨w, hpc, rfl⟩
  | replaced i hpc hp => right; rw [hpc]; exact ⟨rfl, rfl⟩
  | baseSkip i hpc hneed hpush => right; rw [hpc]; exact ⟨rfl, rfl⟩
  | baseDone i hpc hdone hpush => right; rw [hpc]; exact ⟨rfl, rfl⟩
  | baseLimit i hpc hlimit hdone hpush => right; rw [hpc]; exact ⟨rfl, rfl⟩
  | baseReturn hb hpush hstep => right; rw [hb.pc]; exact ⟨rfl, rfl⟩
  | baseContinue hb hpush hstep hi ho => right; rw [hb.pc]; exact ⟨rfl, rfl⟩
  | basePending hb hpush => right; rw [hb.pc]; exact ⟨rfl, rfl⟩
  | baseUnwinds hb hr => right; rw [hb.pc]; exact ⟨rfl, rfl⟩
  | innerSkip i hpc hneed => right; rw [hpc]; exact ⟨rfl, rfl⟩
  | innerPoll i hpc hneed ho hpush => right; rw [hpc]; exact ⟨rfl, rfl⟩
  | innerItem hb hi => right; rw [hb.pc]; exact ⟨rfl, rfl⟩
  | innerEnd i hb => right; rw [hb.pc]; exact ⟨rfl, rfl⟩
  | innerNone i hb hr => right; rw [hb.pc]; exact ⟨rfl, rfl⟩
  | innerUnwinds i hb => right; rw [hb.pc]; exact ⟨rfl, rfl⟩
  | stream r ho hf =>
      right
      unfold State.answered
      split <;> exact ⟨rfl, rfl⟩
  | owner hq =>
      right
      rw [(wakes_frame _ _).2.1, wakes_claimed]
      exact ⟨rfl, rfl⟩
  | @stop l i hpc hpush =>
      right
      rw [hpc]
      unfold State.stop_polling
      dsimp only
      split
      · exact ⟨rfl, rfl⟩
      · split
        · exact ⟨rfl, rfl⟩
        · exact ⟨rfl, rfl⟩
  | wake i hpc => right; rw [hpc]; exact ⟨rfl, rfl⟩
  | ret hpc => cases ha
  | _ => exact Or.inr ⟨rfl, rfl⟩

/-- **The bit is not lost** on the way to the next call, and that call keeps it. -/
theorem owed_move {a : Act B I T W} (h : s.Owed) (ha : a.isRet = false)
    (hm : Move next_step s a s') : s'.Owed := by
  unfold State.Owed at h
  rcases started_move ha hm with ⟨w, hpc, rfl⟩ | ⟨hstarted, hclaimed⟩
  · rw [hpc] at h
    exact h
  · unfold State.Owed
    rw [hstarted, hclaimed]
    cases hcall : s.pc.started with
    | true =>
        rw [hcall] at h
        exact h
    | false =>
        rw [hcall] at h
        rcases need_move .inner_streams hm h with hneed | ⟨w, -, rfl, -⟩
        · exact hneed
        · rw [hcall] at hstarted
          cases hstarted

/-- The call that returns `x` leaves the bit to the next. -/
theorem State.Returning.owed_of_ret {w : W} {x : T} (h : s.Returning w x true)
    (hm : Move next_step s .ret s') : s'.Owed := by
  have hplace := h.place
  cases hm with
  | ret hpc =>
      rw [hpc] at hplace
      exact hplace.2.2 rfl

/-! ## Machines around a `FlattenUnordered` -/

/-- A machine that makes the steps of a `FlattenUnordered`, with the answers of other
streams translated: a label stays what it is, and so does the end of the base. -/
structure Wraps {σ B' I' : Type} (next_step : B → Option (FlowStep I T))
    (step' : σ → Act B' I' T W → Option σ) (view : σ → State I T W A)
    (label : σ → Act B' I' T W → Act B I T W) : Prop where
  image : ∀ s a, (step' s a).map view = step next_step (view s) (label s a)
  ret : ∀ s, label s .ret = .ret
  own : ∀ s i, label s (.own i) = .own i
  inner : ∀ s r, ∃ r', label s (.inner r) = .inner r'
  base : ∀ s i r, ∃ r', label s (.base i r) = .base i r'
  ended : ∀ s i, label s (.base i (.ready none)) = .base i (.ready none)
  isRet : ∀ s a, (label s a).isRet = a.isRet
  ofPoll : ∀ s a, (label s a).ofPoll = a.ofPoll

/-- What is true of a machine around a `FlattenUnordered`, in one state. `taken` are
the items of the base that the flow controller returns, with what it makes of them. -/
structure Limited {σ B' I' : Type} (step' : σ → Act B' I' T W → Option σ)
    (view : σ → State I T W A) (taken : B' → Option T) (limit : Option ℕ) (s : σ) : Prop where
  /-- Neither `None` nor `Some(0)` is a limit. -/
  unlimited : limit = none ∨ limit = some 0 → (view s).is_exceeded_limit = false
  /-- The bucket holds at most `l` streams. -/
  within : ∀ l, limit = some l → 1 ≤ l → AtMost l (view s).inner_streams
  /-- The base is polled only while it holds fewer. -/
  room : ∀ i r s', step' s (.base i r) = some s' → ∀ l, limit = some l → 1 ≤ l →
    ∃ n, n < l ∧ AtMost n (view s).inner_streams
  /-- The base is not polled after it has returned `None`. -/
  ended : ∀ i s₁ ls s₂, step' s (.base i (.ready none)) = some s₁ →
    Transition.run step' s₁ ls = some s₂ → ∀ j r, step' s₂ (.base j r) = none
  /-- A call that takes an item that is returned comes to its end with that item,
  and polls no inner stream before. -/
  returns : ∀ i item x s₁, taken item = some x →
    step' s (.base i (.ready (some item))) = some s₁ → ∃ l, (view s).pc = .base l ∧
      Transition.Completes step' Act.isRet Act.ofPoll (fun _ a => a.ofPoll)
        (fun s' => (∀ r, step' s' (.inner r) = none) ∧
          ∀ s'', step' s' .ret = some s'' → (view s'').hist.last = some (l.waker, .ready (some x)))
        (fun s' => ∃ s'', step' s' .ret = some s'') s₁
  /-- If that call was to poll the inner streams, the next one is. -/
  deferred : ∀ i item x s₁, taken item = some x →
    step' s (.base i (.ready (some item))) = some s₁ → ∀ l, (view s).pc = .base l →
      need .inner_streams l.poll_state_value = true → ∀ ls ls' s₂,
        (∀ a ∈ ls, a.isRet = false) → (∀ a ∈ ls', a.isRet = false) →
        Transition.run step' s₁ (ls ++ .ret :: ls') = some s₂ → (view s₂).Owed

section Wraps

variable {σ B' I' : Type} {step' : σ → Act B' I' T W → Option σ} {view : σ → State I T W A}
  {label : σ → Act B' I' T W → Act B I T W}

namespace Wraps

/-- A step is a move of what is inside. -/
theorem move (hw : Wraps next_step step' view label) {s s' : σ} {a : Act B' I' T W}
    (hs : step' s a = some s') : Move next_step (view s) (label s a) (view s') := by
  have hview := hw.image s a
  rw [hs] at hview
  exact move_of_step hview.symm

/-- What is inside can take the step, and so can the machine. -/
theorem enabled (hw : Wraps next_step step' view label) {s : σ} {a : Act B' I' T W}
    {t : State I T W A} (hs : step next_step (view s) (label s a) = some t) :
    ∃ s', step' s a = some s' := by
  have hview := hw.image s a
  rw [hs] at hview
  obtain ⟨s', hs', -⟩ := Option.map_eq_some_iff.mp hview
  exact ⟨s', hs'⟩

/-- The base stays done. -/
theorem done_run (hw : Wraps next_step step' view label) {s s' : σ} {ls : List (Act B' I' T W)}
    (hdone : (view s).is_stream_done = true) (hrun : Transition.run step' s ls = some s') :
    (view s').is_stream_done = true :=
  Transition.run_invariant (I := fun s => (view s).is_stream_done = true)
    (fun _ _ _ h hs => done_move h (hw.move hs)) hdone hrun

/-- A call that is returning goes on returning. -/
theorem returning_step (hw : Wraps next_step step' view label) {w : W} {x : T} {deferred : Bool}
    {s s' : σ} {a : Act B' I' T W} (ha : a.isRet = false) (h : (view s).Returning w x deferred)
    (hs : step' s a = some s') :
    (view s').Returning w x deferred ∧
      (view s').pc.left + (if a.ofPoll then 1 else 0) ≤ (view s).pc.left := by
  have hmove := h.move ((hw.isRet s a).trans ha) (hw.move hs)
  rw [hw.ofPoll s a] at hmove
  exact hmove

/-- It polls no inner stream, and the item is what it returns. -/
theorem returning_result (hw : Wraps next_step step' view label) {w : W} {x : T} {deferred : Bool}
    {s : σ} (h : (view s).Returning w x deferred) :
    (∀ r, step' s (.inner r) = none) ∧
      ∀ s', step' s .ret = some s' → (view s').hist.last = some (w, .ready (some x)) := by
  refine ⟨fun r => ?_, fun s' hs => ?_⟩
  · by_contra hpolled
    obtain ⟨s', hs⟩ := Option.ne_none_iff_exists'.mp hpolled
    obtain ⟨r', hr⟩ := hw.inner s r
    have hm := hw.move hs
    rw [hr] at hm
    exact h.not_polled hm
  · have hm := hw.move hs
    rw [hw.ret s] at hm
    exact h.last_of_ret hm

/-- The machine can return, or take its next step. -/
theorem returning_live (hw : Wraps next_step step' view label) {w : W} {x : T} {deferred : Bool}
    {s : σ} (h : (view s).Returning w x deferred) :
    (∃ s', step' s .ret = some s') ∨
      ∃ (a : Act B' I' T W) (s' : σ), a.ofPoll = true ∧ step' s a = some s' := by
  rcases h.live next_step with hdone | ⟨t, ht⟩
  · left
    refine hw.enabled (t := (view s).ret w (.ready (some x))) ?_
    rw [hw.ret s]
    unfold step
    dsimp only
    rw [hdone]
  · right
    rw [← hw.own s 0] at ht
    obtain ⟨s', hs'⟩ := hw.enabled ht
    exact ⟨.own 0, s', rfl, hs'⟩

/-- After the return of a call that has deferred the inner streams, they are owed. -/
theorem owed_run (hw : Wraps next_step step' view label) {w : W} {x : T} {s s' : σ}
    {ls ls' : List (Act B' I' T W)} (h : (view s).Returning w x true)
    (hls : ∀ a ∈ ls, a.isRet = false) (hls' : ∀ a ∈ ls', a.isRet = false)
    (hrun : Transition.run step' s (ls ++ .ret :: ls') = some s') : (view s').Owed := by
  obtain ⟨s₁, hrun₁, hrun⟩ := Transition.run_append_eq_some.mp hrun
  rw [Transition.run_cons, Option.bind_eq_some_iff] at hrun
  obtain ⟨s₂, hret, hrun⟩ := hrun
  have hreturning : (view s₁).Returning w x true :=
    Transition.run_invariant_of_labels (I := fun s => (view s).Returning w x true)
      (fun s a s' ha h hs => (hw.returning_step ha h hs).1) ls s s₁ hls h hrun₁
  have howed : (view s₂).Owed := by
    have hm := hw.move hret
    rw [hw.ret s₁] at hm
    exact hreturning.owed_of_ret hm
  exact Transition.run_invariant_of_labels (I := fun s => (view s).Owed)
    (fun s a s' ha h hs => owed_move h ((hw.isRet s a).trans ha) (hw.move hs)) ls' s₂ s' hls' howed
    hrun

/-- **The limit and the returned items**, in a state that keeps the invariant. -/
theorem limited (hw : Wraps next_step step' view label) {taken : B' → Option T} {limit : Option ℕ}
    {s : σ} (hinv : (view s).Inv) (hcapped : (view s).Capped (limit.bind NonZeroUsize.new))
    (htaken : ∀ i item x s', taken item = some x →
      step' s (.base i (.ready (some item))) = some s' →
      ∃ item', label s (.base i (.ready (some item))) = .base i (.ready (some item')) ∧
        next_step item' = some (.Return x)) :
    Limited step' view taken limit s := by
  have hreturning : ∀ i item x s₁, taken item = some x →
      step' s (.base i (.ready (some item))) = some s₁ → ∃ l, (view s).pc = .base l ∧
        (view s₁).Returning l.waker x (need .inner_streams l.poll_state_value) := by
    intro i item x s₁ htake hs
    obtain ⟨item', hlabel, hreturn⟩ := htaken i item x s₁ htake hs
    have hm := hw.move hs
    rw [hlabel] at hm
    exact returning_of_return hinv hreturn hm
  refine ⟨?_, ?_, ?_, ?_, ?_, ?_⟩
  · rintro (rfl | rfl)
    · exact hcapped.unlimited
    · exact hcapped.unlimited
  · rintro l rfl hl
    exact hcapped.atMost hinv.bucket.sound (NonZeroUsize.new_pos hl)
  · rintro i r s' hs l rfl hl
    obtain ⟨r', hr⟩ := hw.base s i r
    have hm := hw.move hs
    rw [hr] at hm
    obtain ⟨l', hb⟩ := asks_base hm
    refine ⟨(view s).inner_streams.len, hcapped.room hb.room (NonZeroUsize.new_pos hl), ?_⟩
    refine atMost_of_unfinished hinv.bucket.sound (le_of_eq ?_)
    exact unfinished_of_outside hinv (by rw [hb.pc]; intro l' hl'; cases hl')
  · intro i s₁ ls s₂ hs hrun j r
    have hm := hw.move hs
    rw [hw.ended s i] at hm
    have hdone := hw.done_run (done_of_end hm) hrun
    by_contra hpolled
    obtain ⟨s₃, hs₃⟩ := Option.ne_none_iff_exists'.mp hpolled
    obtain ⟨r', hr⟩ := hw.base s₂ j r
    have hm₃ := hw.move hs₃
    rw [hr] at hm₃
    obtain ⟨l, hb⟩ := asks_base hm₃
    rw [hb.running] at hdone
    cases hdone
  · intro i item x s₁ htake hs
    obtain ⟨l, hpc, hcall⟩ := hreturning i item x s₁ htake hs
    refine ⟨l, hpc, ?_⟩
    have hstep : ∀ (s : σ) (a : Act B' I' T W) (s' : σ), a.isRet = false →
        (view s).Returning l.waker x (need .inner_streams l.poll_state_value) →
        step' s a = some s' → (view s').Returning l.waker x (need .inner_streams l.poll_state_value) ∧
          (view s').pc.left + (if a.ofPoll then 1 else 0) ≤ (view s).pc.left :=
      fun s a s' ha h hs => hw.returning_step ha h hs
    exact Transition.completes_of_rank hstep (fun s h => hw.returning_result h)
      (fun s h => hw.returning_live h) hcall
  · intro i item x s₁ htake hs l hpc hneed ls ls' s₂ hls hls' hrun
    obtain ⟨l', hpc', hcall⟩ := hreturning i item x s₁ htake hs
    rw [hpc] at hpc'
    cases hpc'
    rw [hneed] at hcall
    exact hw.owed_run hcall hls hls' hrun

end Wraps

end Wraps

end TokioStreamUtil.FlattenUnordered
