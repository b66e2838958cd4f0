/-
`FusedStream` of `FlattenUnordered`.

The flag is up when the base has ended and the bucket is empty. A call made then
polls neither the base nor an inner stream, so all it can do is to go through its
places once; `passRank` bounds the steps it has left for that.
-/
import TokioStreamUtil.FlattenUnordered.Items
import TokioStreamUtil.FuturesUnordered.Termination

set_option autoImplicit false

namespace TokioStreamUtil.FlattenUnordered

open FuturesUnordered (Polled PollNext callRank rank_move vacant_move others_move)
open Word (need)

variable {B I T W : Type} {A : AtomicWaker WrappedWaker}

/-! ## The flag -/

/-- The base has returned `Ready(None)`. -/
def Event.endsBase : Event T → Bool
  | .base_done => true
  | _ => false

/-- `stream.is_terminated()`, of a base that is terminated once it has returned
`Ready(None)`. -/
def State.base_is_terminated (s : State I T W A) : Bool := s.hist.events.any Event.endsBase

/-- `FusedStream::is_terminated`. -/
def State.is_terminated (s : State I T W A) : Bool :=
  s.base_is_terminated && s.inner_streams.is_empty

variable {next_step : B → Option (FlowStep I T)} {s s' : State I T W A}

/-- The base has ended exactly if `poll_next` remembers it. -/
def State.Flagged (s : State I T W A) : Prop := s.base_is_terminated = s.is_stream_done

namespace State.Flagged

theorem new (limit : Option ℕ) : (State.new I T W A limit).Flagged := rfl

/-- Nothing happens that is about the base. -/
theorem record (h : s.Flagged) {e : Event T} (he : e.endsBase = false)
    (hevents : s'.hist.events = s.hist.events ++ [e]) (hdone : s'.is_stream_done = s.is_stream_done) :
    s'.Flagged := by
  unfold State.Flagged State.base_is_terminated at *
  rw [hevents, hdone, List.any_append, List.any_cons, List.any_nil, he, Bool.or_false, Bool.or_false]
  exact h

end State.Flagged

theorem flagged_move {a : Act B I T W} (h : s.Flagged) (hm : Move next_step s a s') : s'.Flagged := by
  have hflagged := h
  cases hm with
  | baseReturn hb hpush hstep => exact h.record rfl rfl rfl
  | baseContinue hb hpush hstep hi ho => exact h.record rfl rfl rfl
  | baseEnds hb hpush =>
      show (s.hist.events ++ [Event.base_done]).any Event.endsBase = true
      rw [List.any_append]
      exact Bool.or_true _
  | basePending hb hpush => exact h.record rfl rfl rfl
  | baseUnwinds hb hr => exact h.record rfl rfl rfl
  | innerUnwinds i hb => exact h.record rfl rfl rfl
  | stream r ho hf =>
      unfold State.answered
      split
      · exact hflagged
      · exact h.record rfl rfl rfl
      · exact h.record rfl rfl rfl
      · exact hflagged
      · exact hflagged
  | owner hq =>
      obtain ⟨hevents, -, hdone⟩ := wakes_frame (s.inner_streams.wakes .owner)
        { s with inner_streams := _ }
      unfold State.Flagged State.base_is_terminated
      rw [hevents, hdone]
      exact hflagged
  | stop i hpc hpush =>
      unfold State.stop_polling
      dsimp only
      split
      · exact h.record rfl rfl rfl
      · split
        · exact h.record rfl rfl rfl
        · exact h.record rfl rfl rfl
  | _ => exact hflagged

/-! ## Outside of the pushes -/

/-- `poll_next` may be inside a push of the bucket. -/
def Pc.pushes : Pc T W → Bool
  | .base _ => true
  | .finish _ => true
  | _ => false

/-- Everywhere else nobody is. -/
def State.Quiet (s : State I T W A) : Prop := s.pc.pushes = false → s.inner_streams.pushing = ∅

theorem quiet_wakes (ks : List WrappedWaker) : ∀ {s : State I T W A}, s.Quiet →
    (ks.foldl (fun s' k => s'.wake_by_ref .poll k) s).Quiet := by
  induction ks with
  | nil => exact fun h => h
  | cons k ks ih => exact fun h => ih (s := _) h

theorem quiet_move {a : Act B I T W} (h : s.Quiet) (ha : a.unwinds next_step = false)
    (hm : Move next_step s a s') : s'.Quiet := by
  have hquiet := h
  unfold State.Quiet at h
  cases hm with
  | poll_next w hpc =>
      rw [hpc] at h
      exact fun _ => h rfl
  | claim i hpc hw =>
      rw [hpc] at h
      exact fun _ => h rfl
  | replaced i hpc hp => nofun
  | baseSkip i hpc hneed hpush => exact fun _ => hpush
  | baseDone i hpc hdone hpush => exact fun _ => hpush
  | baseLimit i hpc hlimit hdone hpush => exact fun _ => hpush
  | baseReturn hb hpush hstep => exact fun _ => hpush
  | baseContinue hb hpush hstep hi ho => nofun
  | baseEnds hb hpush => exact fun _ => hpush
  | basePending hb hpush => exact fun _ => hpush
  | baseUnwinds hb hr =>
      rcases hr with rfl | ⟨item, rfl, hstep⟩
      · cases ha
      · change (next_step item).isNone = false at ha
        rw [hstep] at ha
        cases ha
  | innerSkip i hpc hneed => nofun
  | innerPoll i hpc hneed ho hpush => exact fun _ => hpush
  | innerItem hb hi => nofun
  | innerEnd i hb => nofun
  | innerNone i hb hr => nofun
  | innerUnwinds i hb =>
      rw [hb.pc] at h
      exact fun _ => h rfl
  | @stream lv t fut r ho hf =>
      obtain ⟨hpc, -⟩ := answered_frame
        ({ s with inner_streams := s.inner_streams.polled lv t (fut.poll r) } : State I T W A) t fut r
      intro hno
      rw [(answered_bucket _ _ _ _).1]
      rw [hpc] at hno
      cases hpolled : fut.poll r <;> exact h hno
  | @owner q hq =>
      have hstep : State.Quiet { s with inner_streams := q } :=
        fun hpc => (FuturesUnordered.frame_move hq rfl).pushing (h hpc)
      exact quiet_wakes _ hstep
  | stop i hpc hpush =>
      unfold State.stop_polling
      dsimp only
      split
      · exact fun _ => hpush
      · split
        · exact fun _ => hpush
        · exact fun _ => hpush
  | wake i hpc =>
      rw [hpc] at h
      exact fun _ => h rfl
  | ret hpc =>
      rw [hpc] at h
      exact fun _ => h rfl
  | wakeTask hcalls hq => exact fun hpc => (FuturesUnordered.frame_move hq rfl).pushing (h hpc)
  | thread hcalls hq => exact fun hpc => (FuturesUnordered.frame_move hq rfl).pushing (h hpc)
  | _ => exact hquiet

/-! ## A call made under the flag -/

/-- Where such a call can be, once it has begun. -/
def Pc.Passing : Pc T W → Prop
  | .start _ => True
  | .replace l => l.next_item = none
  | .base l => l.next_item = none
  | .inner l => l.next_item = none
  | .innerPoll l => l.next_item = none
  | .finish l => l.next_item = none
  | .done _ r => r = .ready none
  | _ => False

/-- A call that was made under the flag is in progress. -/
structure State.Passes (s : State I T W A) : Prop where
  inv : s.Inv
  flagged : s.Flagged
  done : s.is_stream_done = true
  empty : s.inner_streams.is_empty = true
  quiet : s.inner_streams.pushing = ∅
  place : s.pc.Passing
  bucket : ∀ l, s.pc = .innerPoll l →
    s.inner_streams.owner.ofVacant = true ∧ s.inner_streams.InBudget

/-- The steps that `replace_waker` has left. -/
def Poller.rank : Poller W → ℕ
  | .replace .stream _ => 2
  | .replace .inner_streams _ => 1
  | _ => 0

/-- A bound on the steps that such a call has left. -/
def passRank (s : State I T W A) : ℕ :=
  match s.pc with
  | .start _ => 8 * s.inner_streams.leftover + 20
  | .replace _ => 8 * s.inner_streams.leftover + 15 + s.poll_state.poller.rank
  | .base _ => 8 * s.inner_streams.leftover + 14
  | .inner _ => 8 * s.inner_streams.leftover + 13
  | .innerPoll _ => callRank s.inner_streams + 2
  | .finish _ => 1
  | _ => 0

/-- The label is the return of `poll_next`. -/
def Act.isRet : Act B I T W → Bool
  | .ret => true
  | _ => false

/-- The label is a step of `poll_next`, or an answer it waits for. -/
def Act.ofPoll : Act B I T W → Bool
  | .own _ => true
  | .base _ _ => true
  | .inner _ => true
  | .owner => true
  | _ => false

/-- `poll_next` goes round the loop over `start_polling`, since somebody wakes. -/
def State.spins (s : State I T W A) : Bool :=
  match s.pc with
  | .start _ => Word.waking s.poll_state.state
  | _ => false

namespace State.Passes

theorem terminated (h : s.Passes) : s.is_terminated = true := by
  unfold State.is_terminated
  rw [show s.base_is_terminated = s.is_stream_done from h.flagged, h.done, h.empty]
  rfl

/-- The call begins. -/
theorem begin (hinv : s.Inv) (hflagged : s.Flagged) (hquiet : s.Quiet) (hpc : s.pc = .idle)
    (hterm : s.is_terminated = true) (w : W) : (s.poll_next w).Passes := by
  obtain ⟨hbase, hempty⟩ := Bool.and_eq_true_iff.mp hterm
  have hm : Move (fun (_ : Unit) => none) s (.poll_next w) (s.poll_next w) := .poll_next w hpc
  refine ⟨inv_move hinv hm, hflagged, ?_,
    hempty, hquiet (by rw [hpc]; rfl), trivial, nofun⟩
  rw [show s.base_is_terminated = s.is_stream_done from hflagged] at hbase
  exact hbase

/-- A round that is counted is made up for by one step of the rank. -/
theorem counted {m n : ℕ} {c : Bool} (h : m + 1 ≤ n) : m + (if c then 1 else 0) ≤ n := by
  split
  · exact h
  · exact Nat.le_of_succ_le h

/-- The call goes on to a place outside of the bucket, which is nearer to its end. -/
theorem onward (h : s.Passes) (hinv : s'.Inv) (hflagged : s'.Flagged)
    (hdone : s'.is_stream_done = s.is_stream_done)
    (hempty : s'.inner_streams.is_empty = s.inner_streams.is_empty)
    (hquiet : s'.inner_streams.pushing = s.inner_streams.pushing)
    (hplace : s'.pc.Passing) (hpc : ∀ l, s'.pc ≠ .innerPoll l) {c : Bool}
    (hrank : passRank s' + 1 ≤ passRank s) :
    s'.Passes ∧ passRank s' + (if c then 1 else 0) ≤ passRank s :=
  ⟨⟨hinv, hflagged, hdone.trans h.done, hempty.trans h.empty, hquiet.trans h.quiet, hplace,
    fun l hl => absurd hl (hpc l)⟩, counted hrank⟩

/-- `poll_next` moves in the bucket, which is empty, so that no step of it finds a task. -/
theorem owner (h : s.Passes)
    {q : FuturesUnordered.State (PollStreamFut I) (Option (T × PollStreamFut I)) WrappedWaker A}
    (hq : FuturesUnordered.Move s.inner_streams .owner q) (hinv : s'.Inv) (hflagged : s'.Flagged)
    (hdone : s'.is_stream_done = s.is_stream_done) (hpc : s'.pc = s.pc)
    (hbucket : s'.inner_streams = q) {c : Bool} :
    s'.Passes ∧ passRank s' + (if c then 1 else 0) ≤ passRank s := by
  obtain ⟨l₀, hl₀⟩ := h.inv.bucket.sound.inv
  obtain ⟨l, hl⟩ := h.inv.bucket.innerPoll_of_not_idle (FuturesUnordered.owner_not_idle hq)
  obtain ⟨hvacant, hbudget⟩ := h.bucket l hl
  obtain ⟨hempty, hvacant'⟩ := vacant_move hl₀ h.empty hvacant hq nofun
  obtain ⟨hbudget', -, hle⟩ := rank_move hl₀ hbudget hq
    (FuturesUnordered.polling_of_vacant hvacant) nofun
  refine ⟨⟨hinv, hflagged, hdone.trans h.done, ?_, ?_, ?_, ?_⟩, counted ?_⟩
  · rw [hbucket]
    exact hempty
  · rw [hbucket]
    exact (FuturesUnordered.frame_move hq rfl).pushing h.quiet
  · rw [hpc]
    exact h.place
  · rw [hbucket]
    exact fun _ _ => ⟨hvacant', hbudget'⟩
  · unfold passRank
    rw [hpc, hbucket, hl]
    exact Nat.add_le_add_right hle 2

/-- The bucket is empty, so its call returns no item, and polls no stream. -/
theorem result (h : s.Passes) {l : Locals T W} {lv : FuturesUnordered.Locals WrappedWaker}
    {r : PollNext (Option (T × PollStreamFut I))} (hb : BucketReturns s l lv r) :
    r = .pending ∨ r = .ready none := by
  have hvacant := (h.bucket l hb.pc).1
  rw [hb.owner] at hvacant
  rcases r with _ | (_ | _) | _
  · exact Or.inl rfl
  · exact Or.inr rfl
  · cases hvacant
  · cases hvacant

/-- The base is done, and is not asked again. -/
theorem not_asks (h : s.Passes) {l : Locals T W} : ¬ AsksBase s l := by
  intro hb
  have hdone := h.done
  rw [hb.running] at hdone
  cases hdone

/-- Another thread moves, outside of the bucket. -/
theorem outside (h : s.Passes) (hinv : s'.Inv) (hflagged : s'.Flagged)
    (hdone : s'.is_stream_done = s.is_stream_done) (hpc : s'.pc = s.pc)
    (hq : s'.inner_streams = s.inner_streams)
    (hpoller : s'.poll_state.poller = s.poll_state.poller) :
    s'.Passes ∧ passRank s' = passRank s := by
  refine ⟨⟨hinv, hflagged, hdone.trans h.done, ?_, ?_, ?_, ?_⟩, ?_⟩
  · rw [hq]
    exact h.empty
  · rw [hq]
    exact h.quiet
  · rw [hpc]
    exact h.place
  · rw [hpc, hq]
    exact h.bucket
  · unfold passRank
    rw [hpc, hq, hpoller]

/-- Another thread moves in the bucket. -/
theorem inside (h : s.Passes) {a : InnerAct I T} (ha : a.inner = true) (hother : a ≠ .owner)
    (hm : FuturesUnordered.Move s.inner_streams a s'.inner_streams)
    (hinv : s'.Inv) (hflagged : s'.Flagged) (hdone : s'.is_stream_done = s.is_stream_done)
    (hpc : s'.pc = s.pc) (hpoller : s'.poll_state.poller = s.poll_state.poller) :
    s'.Passes ∧ passRank s' ≤ passRank s := by
  obtain ⟨l, hl⟩ := h.inv.bucket.sound.inv
  obtain ⟨hall, hleft⟩ := others_move hl hm ha hother
  have hret : a ≠ .ret := by
    rintro rfl
    cases ha
  have hcall : ∀ l, s.pc = .innerPoll l → s'.inner_streams.owner.ofVacant = true ∧
      s'.inner_streams.InBudget ∧ callRank s'.inner_streams ≤ callRank s.inner_streams := by
    intro lv hpc
    obtain ⟨hvacant, hbudget⟩ := h.bucket lv hpc
    obtain ⟨-, hvacant'⟩ := vacant_move hl h.empty hvacant hm hret
    obtain ⟨hbudget', -, hle⟩ := rank_move hl hbudget hm (FuturesUnordered.polling_of_vacant hvacant)
      hret
    exact ⟨hvacant', hbudget', Nat.le_of_add_right_le hle⟩
  refine ⟨⟨hinv, hflagged, hdone.trans h.done, ?_, ?_, ?_, ?_⟩, ?_⟩
  · unfold FuturesUnordered.State.is_empty
    rw [hall]
    exact h.empty
  · exact (FuturesUnordered.frame_move hm ha).pushing h.quiet
  · rw [hpc]
    exact h.place
  · intro l hl
    obtain ⟨hvacant, hbudget, -⟩ := hcall l (hpc ▸ hl)
    exact ⟨hvacant, hbudget⟩
  · unfold passRank
    rw [hpc, hleft, hpoller]
    cases hp : s.pc with
    | innerPoll l => exact Nat.add_le_add_right (hcall l hp).2.2 2
    | _ => exact le_refl _

end State.Passes

theorem poller_wake_by_ref (ps : Sys Caller W) (c : Caller) (k : WrappedWaker) :
    (ps.wake_by_ref c k).poller = ps.poller := by
  unfold Sys.wake_by_ref
  split <;> rfl

theorem poller_wakerStep {ps ps' : Sys Caller W} {c : Caller}
    (h : SharedPollState.wakerStep ps c = some ps') : ps'.poller = ps.poller := by
  unfold SharedPollState.wakerStep at h
  split at h
  · cases h
  all_goals
    cases h
    rfl

/-- **Every step of a call made under the flag uses it up**, but for the rounds in
which it waits for a waker. -/
theorem passes_move {a : Act B I T W} (h : s.Passes) (ha : a.isRet = false)
    (hm : Move next_step s a s') :
    s'.Passes ∧ passRank s' + (if a.ofPoll && !s.spins then 1 else 0) ≤ passRank s := by
  have hinv := inv_move h.inv hm
  have hflagged := flagged_move h.flagged hm
  have hplace := h.place
  have hdone := h.done
  cases hm with
  | poll_next w hpc =>
      rw [hpc] at hplace
      cases hplace
  | spin i hpc hw =>
      -- the one step that is not counted: a waker is at work on the word
      refine ⟨h, ?_⟩
      unfold State.spins
      rw [hpc]
      dsimp only
      rw [hw, Bool.not_true, Bool.and_false]
      exact le_refl _
  | claim i hpc hw =>
      refine h.onward hinv hflagged rfl rfl rfl rfl nofun ?_
      unfold passRank
      rw [hpc]
      exact Nat.add_le_add_left (by decide : 15 + 2 + 1 ≤ 20) (8 * s.inner_streams.leftover)
  | @replace l k w i hpc hp =>
      have hout : ∀ l, s.pc ≠ .innerPoll l := by
        intro l' hl'
        rw [hpc] at hl'
        cases hl'
      refine h.onward hinv hflagged rfl rfl rfl hplace hout ?_
      unfold passRank
      dsimp only
      rw [hpc, hp]
      cases k
      · exact le_refl (8 * s.inner_streams.leftover + 17)
      · exact le_refl (8 * s.inner_streams.leftover + 16)
  | replaced i hpc hp =>
      rw [hpc] at hplace
      refine h.onward hinv hflagged rfl rfl rfl hplace nofun ?_
      unfold passRank
      rw [hpc]
      exact Nat.le_add_right (8 * s.inner_streams.leftover + 15) _
  | baseSkip i hpc hneed hpush =>
      rw [hpc] at hplace
      refine h.onward hinv hflagged rfl rfl rfl hplace nofun ?_
      unfold passRank
      rw [hpc]
      exact le_refl (8 * s.inner_streams.leftover + 14)
  | baseDone i hpc hend hpush =>
      rw [hpc] at hplace
      refine h.onward hinv hflagged rfl rfl rfl hplace nofun ?_
      unfold passRank
      rw [hpc]
      exact le_refl (8 * s.inner_streams.leftover + 14)
  | baseLimit i hpc hlimit hend hpush =>
      rw [hend] at hdone
      cases hdone
  | baseReturn hb hpush hstep => exact absurd hb h.not_asks
  | baseContinue hb hpush hstep hi ho => exact absurd hb h.not_asks
  | baseEnds hb hpush => exact absurd hb h.not_asks
  | basePending hb hpush => exact absurd hb h.not_asks
  | baseUnwinds hb hr => exact absurd hb h.not_asks
  | innerSkip i hpc hneed =>
      rw [hpc] at hplace
      refine h.onward hinv hflagged rfl rfl rfl hplace nofun ?_
      unfold passRank
      rw [hpc]
      exact Nat.le_add_left 2 (8 * s.inner_streams.leftover + 11)
  | innerPoll i hpc hneed ho hpush =>
      rw [hpc] at hplace
      refine ⟨⟨hinv, hflagged, hdone, h.empty, h.quiet, hplace, fun _ _ => ⟨rfl, ?_⟩⟩, State.Passes.counted ?_⟩
      · exact FuturesUnordered.inBudget_poll_next _ _
      · have hlen : s.inner_streams.len = 0 := h.inv.bucket.sound.is_empty_iff.mp h.empty
        unfold passRank
        rw [hpc]
        show 16 * (s.inner_streams.len - 0) + 8 * s.inner_streams.leftover + 10 + 2 + 1 ≤
          8 * s.inner_streams.leftover + 13
        rw [hlen]
        omega
  | innerItem hb hi => exact absurd (h.result hb) (by simp)
  | innerEnd i hb => exact absurd (h.result hb) (by simp)
  | innerNone i hb hr =>
      rw [hb.pc] at hplace
      refine h.onward hinv hflagged rfl rfl rfl hplace nofun ?_
      unfold passRank
      rw [hb.pc]
      exact Nat.le_add_left 2 (callRank s.inner_streams)
  | innerUnwinds i hb => exact absurd (h.result hb) (by simp)
  | stream r ho hf =>
      obtain ⟨l, hl⟩ := h.inv.bucket.innerPoll_of_not_idle (by rw [ho]; rfl)
      have hvacant := (h.bucket l hl).1
      rw [ho] at hvacant
      cases hvacant
  | @owner q hq =>
      obtain ⟨-, hpc', hdone'⟩ := wakes_frame (s.inner_streams.wakes .owner)
        { s with inner_streams := q }
      have hq' := wakes_bucket (s.inner_streams.wakes .owner) { s with inner_streams := q }
      exact h.owner hq hinv hflagged hdone' hpc' hq'
  | @stop l i hpc hpush =>
      rw [hpc] at hplace
      have hitem : l.next_item = none := hplace
      -- an empty bucket under a base that is done: the call is ready, with `None`
      have hready : (l.next_item.isSome || (s.is_stream_done && s.inner_streams.is_empty)) = true := by
        rw [hdone, h.empty]
        exact Bool.or_true _
      have hstop : s.stop_polling l = _ := if_pos hready
      rw [hstop] at hinv hflagged ⊢
      refine h.onward hinv hflagged rfl rfl rfl ?_ nofun ?_
      · show PollNext.ready (l.next_item.map Item.value) = .ready none
        rw [hitem]
        rfl
      · unfold passRank
        rw [hpc]
        exact le_refl 1
  | wake i hpc =>
      rw [hpc] at hplace
      cases hplace
  | ret hpc => cases ha
  | @wakeTask i t q hcalls hq =>
      have h' := State.Passes.inside (a := .wake i t) h rfl (by simp) hq hinv hflagged rfl rfl rfl
      exact h'
  | @thread i q hcalls hq =>
      have h' := State.Passes.inside (a := .thread i) h rfl (by simp) hq hinv hflagged rfl rfl rfl
      exact h'
  | call hcalls hi =>
      obtain ⟨h', hrank⟩ := h.outside hinv hflagged rfl rfl rfl (poller_wake_by_ref _ _ _)
      exact ⟨h', le_of_eq hrank⟩
  | wake_by_ref k hi =>
      obtain ⟨h', hrank⟩ := h.outside hinv hflagged rfl rfl rfl (poller_wake_by_ref _ _ _)
      exact ⟨h', le_of_eq hrank⟩
  | waker hs =>
      obtain ⟨h', hrank⟩ := h.outside hinv hflagged rfl rfl rfl (poller_wakerStep hs)
      exact ⟨h', le_of_eq hrank⟩

/-- Such a call is at its end, or can take its next step. -/
theorem State.Passes.live (h : s.Passes) :
    (∃ w, s.pc = .done w (.ready none)) ∨
      ∃ a s', Act.ofPoll a = true ∧ step next_step s a = some s' := by
  have hplace := h.place
  have hfree : pollFree s = true := by
    unfold pollFree
    rw [h.inv.shared.slot, h.quiet]
    rfl
  have hown : ∀ s', stepOwn s 0 = some s' →
      ∃ a s', Act.ofPoll a = true ∧ step next_step s a = some s' := by
    intro s' hs
    refine ⟨.own 0, s', rfl, ?_⟩
    simp only [step]
    rw [if_pos hfree, hs]
  cases hpc : s.pc with
  | idle =>
      rw [hpc] at hplace
      cases hplace
  | start w => exact Or.inr (hown (s.start_polling w) (by simp only [stepOwn, hpc]))
  | replace l => exact Or.inr (hown (s.replace_waker l) (by simp only [stepOwn, hpc]))
  | base l =>
      have hbase : ∃ s', s.baseHead l = some s' := by
        unfold State.baseHead
        split
        · rw [if_pos (by rw [h.done, Bool.or_true])]
          exact ⟨_, rfl⟩
        · exact ⟨_, rfl⟩
      obtain ⟨s', hs⟩ := hbase
      exact Or.inr (hown s' (by simp only [stepOwn, hpc, hs]))
  | inner l =>
      have hinner : ∃ s', s.innerHead l = some s' := by
        have hidle : s.inner_streams.owner = .idle := h.inv.bucket.idle (by rw [hpc]; rintro l ⟨⟩)
        have hq : FuturesUnordered.step s.inner_streams (.poll_next .inner_streams) =
            some (s.inner_streams.poll_next .inner_streams) :=
          if_pos ⟨by rw [hidle]; rfl, h.quiet⟩
        unfold State.innerHead State.stepInner
        rw [hq]
        split
        · exact ⟨_, rfl⟩
        · exact ⟨_, rfl⟩
      obtain ⟨s', hs⟩ := hinner
      exact Or.inr (hown s' (by simp only [stepOwn, hpc, hs]))
  | innerPoll l =>
      obtain ⟨hvacant, -⟩ := h.bucket l hpc
      obtain ⟨l₀, hl₀⟩ := h.inv.bucket.sound.inv
      rcases FuturesUnordered.not_stuck hl₀ (FuturesUnordered.polling_of_vacant hvacant) with
        ⟨lv, r, ho⟩ | ⟨lv, t, ho⟩ | ⟨q, hq⟩
      · rw [ho] at hvacant
        have hbody : ∃ s', ({ s with inner_streams := s.inner_streams.ret lv r } :
            State I T W A).innerBody l 0 r = some s' := by
          rcases r with _ | (_ | _) | _
          · exact ⟨_, rfl⟩
          · exact ⟨_, rfl⟩
          · cases hvacant
          · cases hvacant
        obtain ⟨s', hs⟩ := hbody
        refine Or.inr (hown s' ?_)
        simp only [stepOwn, hpc, ho]
        rw [← hpc]
        exact hs
      · rw [ho] at hvacant
        cases hvacant
      · refine Or.inr ⟨.owner, (s.inner_streams.wakes .owner).foldl
          (fun s' k => s'.wake_by_ref .poll k) { s with inner_streams := q }, rfl, ?_⟩
        simp only [step]
        rw [if_pos hfree]
        unfold stepOwner State.stepInner
        rw [hq]
        rfl
  | finish l => exact Or.inr (hown (s.stop_polling l) (by simp only [stepOwn, hpc]))
  | wake w =>
      rw [hpc] at hplace
      cases hplace
  | done w r =>
      rw [hpc] at hplace
      exact Or.inl ⟨w, by rw [show r = .ready none from hplace]⟩

/-! ## After the end -/

/-- A call that returned `Ready(None)` is part of what has happened. -/
def State.EndTold (s : State I T W A) : Prop :=
  ∀ w, s.hist.last = some (w, .ready none) → .result (.ready none) ∈ s.hist.events

theorem endTold_wakes (ks : List WrappedWaker) : ∀ {s : State I T W A}, s.EndTold →
    (ks.foldl (fun s' k => s'.wake_by_ref .poll k) s).EndTold := by
  induction ks with
  | nil => exact fun h => h
  | cons k ks ih => exact fun h => ih (s := _) h

/-- What has been told stays, while more happens. -/
theorem State.EndTold.record (h : s.EndTold) {e : Event T} (hlast : s'.hist.last = s.hist.last)
    (hevents : s'.hist.events = s.hist.events ++ [e]) : s'.EndTold := by
  intro w hw
  rw [hevents]
  exact List.mem_append_left _ (h w (hlast ▸ hw))

theorem endTold_move {a : Act B I T W} (h : s.EndTold) (htold : s.Told)
    (hm : Move next_step s a s') : s'.EndTold := by
  have hend := h
  cases hm with
  | baseReturn hb hpush hstep => exact h.record rfl rfl
  | baseContinue hb hpush hstep hi ho => exact h.record rfl rfl
  | baseEnds hb hpush => exact h.record rfl rfl
  | basePending hb hpush => exact h.record rfl rfl
  | baseUnwinds hb hr => exact h.record rfl rfl
  | innerUnwinds i hb => exact h.record rfl rfl
  | stream r ho hf =>
      unfold State.answered
      split
      · exact hend
      · exact h.record rfl rfl
      · exact h.record rfl rfl
      · exact hend
      · exact hend
  | @owner q hq => exact endTold_wakes (s := { s with inner_streams := q }) _ hend
  | stop i hpc hpush =>
      unfold State.stop_polling
      dsimp only
      split
      · exact h.record rfl rfl
      · split
        · exact h.record rfl rfl
        · exact h.record rfl rfl
  | @ret w r hpc =>
      intro w' hw
      cases hw
      -- the last thing that happened is the result
      obtain ⟨e, he, hout⟩ := Option.bind_eq_some_iff.mp (htold (.ready none) (by rw [hpc]; rfl))
      have hmem := List.mem_of_getLast? he
      rcases e with _ | _ | _ | _ | _ | _ | (_ | item | _)
      all_goals try cases hout
      cases item with
      | none => exact hmem
      | some item => cases hout
  | _ => exact hend

/-! ## The contract -/

/-- The contract of `FusedStream`, in one state: a call made while the flag is up comes
to its end, returns `Ready(None)` and leaves the flag up; and after a call that returned
`Ready(None)` the flag is up. The rounds in which `poll_next` waits for a waker that
holds the word are not counted among its steps. -/
structure State.Fused (next_step : B → Option (FlowStep I T)) (s : State I T W A) : Prop where
  stays : s.pc = .idle → s.is_terminated = true → ∀ w s₁, step next_step s (.poll_next w) = some s₁ →
    Transition.Completes (step next_step) Act.isRet Act.ofPoll (fun s a => a.ofPoll && !s.spins)
      (fun s' => s'.is_terminated = true ∧ ∀ w r, s'.pc = .done w r → r = .ready none)
      (fun s' => ∃ w, s'.pc = .done w (.ready none)) s₁
  ended : ∀ w, s.pc = .idle → s.hist.last = some (w, .ready none) → s.is_terminated = true

/-- What the contract rests on. -/
structure State.FusedInv (s : State I T W A) : Prop where
  books : s.Books fun _ => True
  flagged : s.Flagged
  quiet : s.Quiet
  told : s.EndTold

namespace State.FusedInv

theorem new (limit : Option ℕ) : (State.new I T W A limit).FusedInv :=
  ⟨books_new _ limit, .new limit, fun _ => rfl, nofun⟩

theorem move {a : Act B I T W} (h : s.FusedInv) (ha : a.unwinds next_step = false)
    (hm : Move next_step s a s') : s'.FusedInv where
  books := books_move h.books ha (Act.brings_any next_step a) hm
  flagged := flagged_move h.flagged hm
  quiet := quiet_move h.quiet ha hm
  told := endTold_move h.told h.books.told hm

theorem fused (h : s.FusedInv) : s.Fused next_step where
  stays := by
    intro hpc hterm w s₁ hs
    simp only [step, hpc, Option.some.injEq] at hs
    subst hs
    have hstep : ∀ (s : State I T W A) (a : Act B I T W) (s' : State I T W A), a.isRet = false →
        s.Passes → step next_step s a = some s' →
        s'.Passes ∧ passRank s' + (if a.ofPoll && !s.spins then 1 else 0) ≤ passRank s :=
      fun s a s' ha h hs => passes_move h ha (move_of_step hs)
    have hP : ∀ s : State I T W A, s.Passes →
        s.is_terminated = true ∧ ∀ w r, s.pc = .done w r → r = .ready none := by
      intro s h
      refine ⟨h.terminated, fun w r hdone => ?_⟩
      have hplace := h.place
      rw [hdone] at hplace
      exact hplace
    exact Transition.completes_of_rank hstep hP (fun s h => h.live)
      (.begin h.books.inv h.flagged h.quiet hpc hterm w)
  ended := by
    intro w hpc hlast
    obtain ⟨hdone, hunfinished, -, -⟩ := h.books.ends.finished (h.told w hlast)
    have hsound := h.books.inv.bucket.sound
    have hempty : s.inner_streams.is_empty = true := by
      rw [hsound.is_empty_iff]
      have hle := hsound.len_le
      omega
    unfold State.is_terminated
    rw [show s.base_is_terminated = s.is_stream_done from h.flagged, hdone, hempty]
    rfl

end State.FusedInv

/-- **The contract holds** in every state of every run in which nothing unwinds. -/
theorem fused_of_run (limit : Option ℕ) {ls : List (Act B I T W)}
    (hunwind : ∀ a ∈ ls, a.unwinds next_step = false)
    (hrun : Transition.run (step next_step) (State.new I T W A limit) ls = some s) :
    s.Fused next_step := by
  have hinv : s.FusedInv := by
    refine Transition.run_invariant_of_labels (I := State.FusedInv)
      (P := fun a => a.unwinds next_step = false) ?_ ls _ s hunwind (.new limit) hrun
    exact fun s a s' ha h hs => h.move ha (move_of_step hs)
  exact hinv.fused

end TokioStreamUtil.FlattenUnordered
