/-
What one call of `FlattenUnordered::poll_next` may spend.

The loop over the base goes on as long as the base gives streams and there is room for
them, and the bucket is polled once. So a call polls the base once more than it takes a
stream, polls each stream of the bucket at most once, and comes to its end as soon as
the base stops giving; with a limit it does so by itself. Only the loop around
`start_polling` waits for another thread, which is then between its `start_waking` and
its `stop_waking`.
-/
import TokioStreamUtil.FuturesUnordered.SetCall
import TokioStreamUtil.FuturesUnordered.Drained
import TokioStreamUtil.FlattenUnordered.Limit
import Mathlib.Data.Fintype.EquivFin

set_option autoImplicit false

namespace TokioStreamUtil.FlattenUnordered

open FuturesUnordered (Polled PollNext SetCall)
open Word (need)

variable {B I T W : Type} {A : AtomicWaker WrappedWaker}
variable {next_step : B → Option (FlowStep I T)} {s s' : State I T W A}

/-! ## What is counted -/

/-- The base is polled. -/
def Act.isBase : Act B I T W → Bool
  | .base _ _ => true
  | _ => false

/-- An inner stream is polled. -/
def Act.isInner : Act B I T W → Bool
  | .inner _ => true
  | _ => false

/-- The base gives a stream that is taken into the bucket. -/
def Act.takesStream (next_step : B → Option (FlowStep I T)) : Act B I T W → Bool
  | .base _ (.ready (some item)) =>
      match next_step item with
      | some (.Continue _) => true
      | _ => false
  | _ => false

/-- A step inside the bucket's `poll_next`. -/
def Act.inBucket : Act B I T W → Bool
  | .owner => true
  | .inner _ => true
  | _ => false

/-- A step of `poll_next` outside the bucket that gets it on. -/
def State.works (s : State I T W A) : Act B I T W → Bool
  | .own _ => !s.spins
  | .base _ _ => true
  | _ => false

/-! ## The loop over the base -/

/-- The base may be asked again. -/
def Pc.mayAsk (done : Bool) : Pc T W → ℕ
  | .start _ => 1
  | .replace _ => 1
  | .base _ => if done then 0 else 1
  | _ => 0

/-- A bound on the steps outside the bucket that are left, when the base gives no stream. -/
def Pc.outsideRank (done : Bool) (poller : Poller W) : Pc T W → ℕ
  | .start _ => 10
  | .replace _ => 7 + poller.rank
  | .base _ => if done then 5 else 6
  | .inner _ => 4
  | .innerPoll _ => 3
  | .finish _ => 2
  | .wake _ => 1
  | _ => 0

/-- The books of a call that has polled the base `asked` times and taken `streams` streams
from it, in `steps` steps of its own. -/
structure State.LoopBooks (streams asked steps : ℕ) (s : State I T W A) : Prop where
  asked : asked + s.pc.mayAsk s.is_stream_done ≤ streams + 1
  steps : steps + s.pc.outsideRank s.is_stream_done s.poll_state.poller ≤ streams + 10

variable {streams asked steps : ℕ}

namespace State.LoopBooks

/-- `poll_next` does not move. -/
theorem same (h : s.LoopBooks streams asked steps) (hpc : s'.pc = s.pc)
    (hdone : s'.is_stream_done = s.is_stream_done)
    (hpoller : s'.poll_state.poller = s.poll_state.poller) : s'.LoopBooks streams asked steps := by
  refine ⟨?_, ?_⟩
  · rw [hpc, hdone]
    exact h.asked
  · rw [hpc, hdone, hpoller]
    exact h.steps

/-- A step of `poll_next` itself uses the rank up. -/
theorem own (h : s.LoopBooks streams asked steps) {i : ℕ} (hspins : ∀ w, s.pc ≠ .start w)
    (hask : s'.pc.mayAsk s'.is_stream_done ≤ s.pc.mayAsk s.is_stream_done)
    (hrank : s'.pc.outsideRank s'.is_stream_done s'.poll_state.poller + 1 ≤
      s.pc.outsideRank s.is_stream_done s.poll_state.poller) :
    s'.LoopBooks streams asked (steps + if s.works (.own i : Act B I T W) then 1 else 0) := by
  have hno : s.spins = false := by
    unfold State.spins
    split
    · rename_i w hw
      exact absurd hw (hspins w)
    · rfl
  obtain ⟨hasked, hsteps⟩ := h
  have hworks : s.works (.own i : Act B I T W) = true := by simp [State.works, hno]
  rw [hworks]
  refine ⟨?_, ?_⟩
  · omega
  · rw [if_pos rfl]
    omega

/-- Past the loop over the base. -/
theorem past (h : s.LoopBooks streams asked steps) {i : ℕ} (hspins : ∀ w, s.pc ≠ .start w)
    (hask : s'.pc.mayAsk s'.is_stream_done = 0)
    (hrank : s'.pc.outsideRank s'.is_stream_done s'.poll_state.poller + 1 ≤
      s.pc.outsideRank s.is_stream_done s.poll_state.poller) :
    s'.LoopBooks streams asked (steps + if s.works (.own i : Act B I T W) then 1 else 0) :=
  h.own hspins (hask ▸ Nat.zero_le _) hrank

/-- The base is asked for the last time. -/
theorem lastAsk (h : s.LoopBooks streams asked steps) {i : ℕ} {r : PollNext B} {l : Locals T W}
    (hb : AsksBase s l) (htakes : Act.takesStream next_step (.base i r : Act B I T W) = false)
    (hask : s'.pc.mayAsk s'.is_stream_done = 0)
    (hrank : s'.pc.outsideRank s'.is_stream_done s'.poll_state.poller ≤ 5) :
    s'.LoopBooks (streams + if Act.takesStream next_step (.base i r : Act B I T W) then 1 else 0)
      (asked + 1) (steps + 1) := by
  obtain ⟨hasked, hsteps⟩ := h
  rw [hb.pc, hb.running] at hasked hsteps
  rw [htakes]
  refine ⟨?_, ?_⟩
  · have hone : asked + 1 ≤ streams + 1 := hasked
    rw [hask]
    exact hone
  · have hsix : steps + 6 ≤ streams + 10 := hsteps
    show steps + 1 + _ ≤ streams + 10
    omega

/-- A stream is taken, and the base is asked again. -/
theorem takes (h : s.LoopBooks streams asked steps) {l l' : Locals T W} (hb : AsksBase s l)
    (hpc : s'.pc = .base l') (hdone : s'.is_stream_done = false) :
    s'.LoopBooks (streams + 1) (asked + 1) (steps + 1) := by
  obtain ⟨hasked, hsteps⟩ := h
  rw [hb.pc, hb.running] at hasked hsteps
  have hone : asked + 1 ≤ streams + 1 := hasked
  have hsix : steps + 6 ≤ streams + 10 := hsteps
  refine ⟨?_, ?_⟩
  · rw [hpc, hdone]
    show asked + 1 + 1 ≤ streams + 1 + 1
    omega
  · rw [hpc, hdone]
    show steps + 1 + 6 ≤ streams + 1 + 10
    omega

end State.LoopBooks

theorem poller_rank_replace (ps : Sys Caller W) (k : WrappedWaker) (w : W) :
    (ps.replace_waker k w).poller.rank + 1 = (Poller.replace k w).rank := by
  cases k <;> rfl

theorem poller_wakes (ks : List WrappedWaker) : ∀ (s : State I T W A),
    (ks.foldl (fun s' k => s'.wake_by_ref .poll k) s).poll_state.poller = s.poll_state.poller := by
  induction ks with
  | nil => exact fun _ => rfl
  | cons k ks ih => exact fun s => (ih _).trans (poller_wake_by_ref _ _ _)

/-- **Every move is on the books of the loop.** -/
theorem loopBooks_move {a : Act B I T W} (h : s.LoopBooks streams asked steps) (ha : a.isRet = false)
    (hbusy : s.pc ≠ .idle) (hm : Move next_step s a s') :
    s'.LoopBooks (streams + if a.takesStream next_step then 1 else 0)
      (asked + if a.isBase then 1 else 0) (steps + if s.works a then 1 else 0) := by
  cases hm with
  | poll_next w hpc => exact absurd hpc hbusy
  | @spin w i hpc hw =>
      have hno : s.works (.own i : Act B I T W) = false := by simp [State.works, State.spins, hpc, hw]
      rw [hno]
      exact h
  | @claim w i hpc hw =>
      have hworks : s.works (.own i : Act B I T W) = true := by simp [State.works, State.spins, hpc, hw]
      obtain ⟨hasked, hsteps⟩ := h
      rw [hpc] at hasked hsteps
      rw [hworks]
      exact ⟨hasked, hsteps⟩
  | @replace l k w i hpc hp =>
      apply h.own (by rw [hpc]; nofun)
      · exact Nat.le_refl _
      · have hrank := poller_rank_replace s.poll_state k w
        dsimp only
        rw [hpc, hp]
        dsimp only [Pc.outsideRank]
        omega
  | @replaced l i hpc hp =>
      apply h.own (by rw [hpc]; nofun)
      · rw [hpc]
        dsimp only [State.setPc, Pc.mayAsk]
        split <;> omega
      · rw [hpc]
        dsimp only [State.setPc, Pc.outsideRank]
        split <;> omega
  | @baseSkip l i hpc hneed hpush =>
      apply h.past (by rw [hpc]; nofun) rfl
      rw [hpc]
      dsimp only [State.setPc, Pc.outsideRank]
      split <;> omega
  | @baseDone l i hpc hdone hpush =>
      apply h.past (by rw [hpc]; nofun) rfl
      rw [hpc, hdone]
      exact Nat.le_refl 5
  | @baseLimit l i hpc hlimit hdone hpush =>
      apply h.past (by rw [hpc]; nofun) rfl
      rw [hpc, hdone]
      exact Nat.le_succ 5
  | baseReturn hb hpush hstep =>
      exact h.lastAsk hb (by simp [Act.takesStream, hstep]) rfl (Nat.le_succ 4)
  | @baseContinue l i item inner_stream hb hpush hstep hi ho =>
      have htakes : Act.takesStream next_step (.base i (.ready (some item)) : Act B I T W) = true := by
        simp [Act.takesStream, hstep]
      rw [htakes]
      exact h.takes hb rfl hb.running
  | @baseEnds l i hb hpush =>
      have hpc : (({ s.pollBase with is_stream_done := true } : State I T W A).record .base_done).pc =
        .base l := hb.pc
      apply h.lastAsk hb rfl
      · rw [hpc]
        rfl
      · rw [hpc]
        exact Nat.le_refl 5
  | basePending hb hpush => exact h.lastAsk hb rfl rfl (Nat.le_succ 4)
  | @baseUnwinds l i r hb hr =>
      refine h.lastAsk hb ?_ rfl (Nat.zero_le 5)
      rcases hr with rfl | ⟨item, rfl, hstep⟩
      · rfl
      · simp [Act.takesStream, hstep]
  | innerSkip i hpc hneed =>
      apply h.past (by rw [hpc]; nofun) rfl
      rw [hpc]
      exact Nat.le_succ 3
  | innerPoll i hpc hneed ho hpush =>
      apply h.past (by rw [hpc]; nofun) rfl
      rw [hpc]
      exact Nat.le_refl 4
  | innerItem hb hi =>
      apply h.past (by rw [hb.pc]; nofun) rfl
      rw [hb.pc]
      exact Nat.le_refl 3
  | innerEnd i hb =>
      apply h.past (by rw [hb.pc]; nofun) rfl
      rw [hb.pc]
      exact Nat.le_refl 3
  | innerNone i hb hr =>
      apply h.past (by rw [hb.pc]; nofun) rfl
      rw [hb.pc]
      exact Nat.le_refl 3
  | innerUnwinds i hb =>
      apply h.past (by rw [hb.pc]; nofun) rfl
      rw [hb.pc]
      exact Nat.succ_le_succ (Nat.zero_le 2)
  | @stream lv t fut r ho hf =>
      obtain ⟨hpc, hdone, hps⟩ := answered_frame
        ({ s with inner_streams := s.inner_streams.polled lv t (fut.poll r) } : State I T W A) t fut r
      exact h.same hpc hdone (by rw [hps])
  | @owner q hq =>
      obtain ⟨-, hpc, hdone⟩ := wakes_frame (s.inner_streams.wakes .owner)
        ({ s with inner_streams := q } : State I T W A)
      exact h.same hpc hdone (poller_wakes _ _)
  | @stop l i hpc hpush =>
      have hpc' : (s.stop_polling l).pc.mayAsk (s.stop_polling l).is_stream_done = 0 ∧
          (s.stop_polling l).pc.outsideRank (s.stop_polling l).is_stream_done
            (s.stop_polling l).poll_state.poller ≤ 1 := by
        unfold State.stop_polling
        dsimp only
        split
        · exact ⟨rfl, Nat.zero_le 1⟩
        · split
          · exact ⟨rfl, Nat.le_refl 1⟩
          · exact ⟨rfl, Nat.zero_le 1⟩
      apply h.past (by rw [hpc]; nofun) hpc'.1
      rw [hpc]
      exact Nat.succ_le_succ hpc'.2
  | wake i hpc =>
      apply h.past (by rw [hpc]; nofun) rfl
      rw [hpc]
      exact Nat.le_refl 1
  | ret hpc => cases ha
  | wakeTask hcalls hq => exact h.same rfl rfl rfl
  | thread hcalls hq => exact h.same rfl rfl rfl
  | call hcalls hi => exact h.same rfl rfl (poller_wake_by_ref _ _ _)
  | wake_by_ref k hi => exact h.same rfl rfl (poller_wake_by_ref _ _ _)
  | waker hs => exact h.same rfl rfl (poller_wakerStep hs)

/-! ## The bucket -/

/-- A step of the machinery of the bucket, or an answer it waits for. -/
def Act.ofBucket : Act B I T W → Bool
  | .owner => true
  | .inner _ => true
  | .wakeTask _ _ => true
  | .thread _ => true
  | _ => false

/-- It is a step of the bucket alone, and `poll_next` stays where it is. -/
theorem bucket_of_step {a : Act B I T W} (ha : a.ofBucket = true)
    (hs : step next_step s a = some s') :
    ∃ b : InnerAct I T, FuturesUnordered.step s.inner_streams b = some s'.inner_streams ∧
      (b.inner = true ∨ b.isPolled = true) ∧ b.isPolled = a.isInner ∧ b.ofCall = a.inBucket ∧
      s'.pc = s.pc ∧ s'.limit = s.limit := by
  cases a with
  | owner =>
      simp only [step, Option.ite_none_right_eq_some] at hs
      obtain ⟨u, hu, rfl⟩ := Option.map_eq_some_iff.mp hs.2
      obtain ⟨q, hq, rfl⟩ := Option.map_eq_some_iff.mp hu
      have hframe := wakes_frame (s.inner_streams.wakes .owner) { s with inner_streams := q }
      refine ⟨.owner, ?_, Or.inl rfl, rfl, rfl, hframe.2.1, wakes_limit _ _⟩
      rw [wakes_bucket]
      exact hq
  | inner r =>
      simp only [step, Option.ite_none_right_eq_some] at hs
      obtain ⟨-, hs⟩ := hs
      unfold stepStream at hs
      split at hs
      · rename_i lv t ho
        split at hs
        · rename_i fut hf
          cases hs
          obtain ⟨hbucket, hlimit⟩ := answered_bucket ({ s with
            inner_streams := s.inner_streams.polled lv t (fut.poll r) } : State I T W A) t fut r
          obtain ⟨hpc, -, -⟩ := answered_frame ({ s with
            inner_streams := s.inner_streams.polled lv t (fut.poll r) } : State I T W A) t fut r
          refine ⟨.polled (fut.poll r), ?_, Or.inr rfl, rfl, rfl, hpc, hlimit⟩
          rw [hbucket]
          simp [FuturesUnordered.step, ho]
        · cases hs
      · cases hs
  | wakeTask i t =>
      simp only [step, Option.ite_none_right_eq_some] at hs
      obtain ⟨q, hq, rfl⟩ := Option.map_eq_some_iff.mp hs.2
      exact ⟨.wake i t, hq, Or.inl rfl, rfl, rfl, rfl, rfl⟩
  | thread i =>
      simp only [step, Option.ite_none_right_eq_some] at hs
      obtain ⟨u, hu, rfl⟩ := Option.map_eq_some_iff.mp hs.2
      obtain ⟨q, hq, rfl⟩ := Option.map_eq_some_iff.mp hu
      exact ⟨.thread i, hq, Or.inl rfl, rfl, rfl, rfl, rfl⟩
  | _ => cases ha

/-- Before the bucket is polled. -/
def Pc.before : Pc T W → Bool
  | .start _ => true
  | .replace _ => true
  | .base _ => true
  | .inner _ => true
  | _ => false

/-- The bucket is not polled any more. -/
def Pc.after : Pc T W → Bool
  | .finish _ => true
  | .wake _ => true
  | .done _ _ => true
  | _ => false

/-- The books of a call that has taken `streams` streams from the base, when it began with
`n` streams and `left` released tasks in the bucket: it has polled `polled` streams, in
`steps` steps inside the bucket. -/
structure State.BucketBooks (n left streams polled steps : ℕ) (s : State I T W A) : Prop where
  busy : s.pc ≠ .idle
  room : ∀ limit, s.limit = some limit → n + streams ≤ max n limit.1
  before : s.pc.before = true → s.inner_streams.len = n + streams ∧
    s.inner_streams.leftover = left ∧ polled = 0 ∧ steps = 0
  inside : ∀ l, s.pc = .innerPoll l → ∃ q₀ ls, SetCall q₀ .inner_streams ls s.inner_streams ∧
    q₀.len = n + streams ∧ q₀.leftover = left ∧
    polled = ls.countP FuturesUnordered.Act.isPolled ∧ steps = ls.countP FuturesUnordered.Act.ofCall
  after : s.pc.after = true → polled ≤ n + streams ∧ steps ≤ 16 * (n + streams) + 8 * left + 10

namespace State.BucketBooks

variable {n left polled : ℕ}

/-- Neither the bucket nor `poll_next` moves. -/
theorem same (h : s.BucketBooks n left streams polled steps) (hpc : s'.pc = s.pc)
    (hlimit : s'.limit = s.limit) (hbucket : s'.inner_streams = s.inner_streams) :
    s'.BucketBooks n left streams polled steps := by
  refine ⟨?_, ?_, ?_, ?_, ?_⟩
  · rw [hpc]
    exact h.busy
  · rw [hlimit]
    exact h.room
  · rw [hpc, hbucket]
    exact h.before
  · rw [hpc, hbucket]
    exact h.inside
  · rw [hpc]
    exact h.after

/-- `poll_next` moves on, before it polls the bucket. -/
theorem still (h : s.BucketBooks n left streams polled steps) (hpc : s.pc.before = true)
    (hpc' : s'.pc.before = true) (hlimit : s'.limit = s.limit)
    (hbucket : s'.inner_streams = s.inner_streams) :
    s'.BucketBooks n left streams polled steps := by
  refine ⟨?_, ?_, ?_, ?_, ?_⟩
  · intro hidle
    rw [hidle] at hpc'
    cases hpc'
  · rw [hlimit]
    exact h.room
  · rw [hbucket]
    exact fun _ => h.before hpc
  · intro l hl
    rw [hl] at hpc'
    cases hpc'
  · intro hafter
    cases hat : s'.pc with
    | finish l => rw [hat] at hpc'; cases hpc'
    | wake w => rw [hat] at hpc'; cases hpc'
    | done w r => rw [hat] at hpc'; cases hpc'
    | _ => rw [hat] at hafter; cases hafter

/-- `poll_next` is past the bucket. -/
theorem leave (h : s.BucketBooks n left streams polled steps) (hpc' : s'.pc.after = true)
    (hlimit : s'.limit = s.limit) (hspent : polled ≤ n + streams ∧
      steps ≤ 16 * (n + streams) + 8 * left + 10) :
    s'.BucketBooks n left streams polled steps := by
  refine ⟨?_, ?_, ?_, ?_, fun _ => hspent⟩
  · intro hidle
    rw [hidle] at hpc'
    cases hpc'
  · rw [hlimit]
    exact h.room
  · intro hbefore
    cases hat : s'.pc with
    | finish l => rw [hat] at hbefore; cases hbefore
    | wake w => rw [hat] at hbefore; cases hbefore
    | done w r => rw [hat] at hbefore; cases hbefore
    | _ => rw [hat] at hpc'; cases hpc'
  · intro l hl
    rw [hl] at hpc'
    cases hpc'

/-- What the call may have spent on the bucket. -/
theorem within (h : s.BucketBooks n left streams polled steps) :
    polled ≤ n + streams ∧ steps ≤ 16 * (n + streams) + 8 * left + 10 := by
  have hbefore : s.pc.before = true → polled ≤ n + streams ∧
      steps ≤ 16 * (n + streams) + 8 * left + 10 := by
    intro hpc
    obtain ⟨-, -, rfl, rfl⟩ := h.before hpc
    exact ⟨Nat.zero_le _, Nat.zero_le _⟩
  cases hpc : s.pc with
  | idle => exact absurd hpc h.busy
  | start w => exact hbefore (by rw [hpc]; rfl)
  | replace l => exact hbefore (by rw [hpc]; rfl)
  | base l => exact hbefore (by rw [hpc]; rfl)
  | inner l => exact hbefore (by rw [hpc]; rfl)
  | innerPoll l =>
      obtain ⟨q₀, ls, hcall, hlen, hleft, rfl, rfl⟩ := h.inside l hpc
      have hspent := hcall.spent
      rw [hlen, hleft] at hspent
      exact hspent
  | finish l => exact h.after (by rw [hpc]; rfl)
  | wake w => exact h.after (by rw [hpc]; rfl)
  | done w r => exact h.after (by rw [hpc]; rfl)

/-- The bucket moves. -/
theorem bucket (h : s.BucketBooks n left streams polled steps) (hinv : s.Inv) {a : Act B I T W}
    (ha : a.ofBucket = true) (hs : step next_step s a = some s') :
    s'.BucketBooks n left streams (polled + if a.isInner then 1 else 0)
      (steps + if a.inBucket then 1 else 0) := by
  obtain ⟨b, hb, hkind, hpolled, hcall, hpc, hlimit⟩ := bucket_of_step ha hs
  have hm := FuturesUnordered.move_of_step hb
  rw [← hpolled, ← hcall]
  -- outside of its `poll_next` the bucket is moved by other threads only
  have hother : (∀ l, s.pc ≠ .innerPoll l) → b.isPolled = false ∧ b.ofCall = false ∧
      s'.inner_streams.all = s.inner_streams.all ∧
      s'.inner_streams.leftover = s.inner_streams.leftover := by
    intro hout
    have ho := hinv.bucket.idle hout
    have hinner : b.inner = true := by
      rcases hkind with hinner | hp
      · exact hinner
      · cases b with
        | polled r =>
            simp [FuturesUnordered.step, ho] at hb
        | _ => cases hp
    obtain ⟨l, hl⟩ := hinv.bucket.sound.inv
    have hsame := FuturesUnordered.others_move hl hm hinner (FuturesUnordered.others_of_idle hm ho)
    refine ⟨?_, FuturesUnordered.not_ofCall_of_idle hm hinner ho, hsame⟩
    cases b with
    | polled r => cases hinner
    | _ => rfl
  refine ⟨?_, ?_, ?_, ?_, ?_⟩
  · rw [hpc]
    exact h.busy
  · rw [hlimit]
    exact h.room
  · intro hbefore
    rw [hpc] at hbefore
    obtain ⟨hp, hc, hall, hleft⟩ := hother fun l hl => by rw [hl] at hbefore; cases hbefore
    obtain ⟨hlen, hleft₀, hpolled₀, hsteps₀⟩ := h.before hbefore
    rw [hp, hc]
    refine ⟨?_, hleft.trans hleft₀, hpolled₀, hsteps₀⟩
    show s'.inner_streams.all.len = _
    rw [hall]
    exact hlen
  · intro l hl
    rw [hpc] at hl
    obtain ⟨q₀, ls, hset, hlen, hleft, rfl, rfl⟩ := h.inside l hl
    refine ⟨q₀, ls ++ [b], hset.concat hb hkind, hlen, hleft, ?_, ?_⟩
    · rw [List.countP_append, List.countP_singleton]
    · rw [List.countP_append, List.countP_singleton]
  · intro hafter
    rw [hpc] at hafter
    obtain ⟨hp, hc, -, -⟩ := hother fun l hl => by rw [hl] at hafter; cases hafter
    rw [hp, hc]
    exact h.after hafter

/-- A stream is taken into the bucket, for which there was room. -/
theorem takes (h : s.BucketBooks n left streams polled steps) (hinv : s.Inv) {l l' : Locals T W}
    (hb : AsksBase s l) {i : ℕ} {fut : PollStreamFut I} (hi : s.inner_streams.threads i = .idle)
    (ho : s.inner_streams.owner = .idle) (hpc' : s'.pc = .base l') (hlimit : s'.limit = s.limit)
    (hbucket : s'.inner_streams = s.inner_streams.push i fut) :
    s'.BucketBooks n left (streams + 1) polled steps := by
  obtain ⟨hlen, hleft, rfl, rfl⟩ := h.before (by rw [hb.pc]; rfl)
  obtain ⟨ts, hts⟩ := hinv.bucket.sound.inv
  refine ⟨?_, ?_, fun _ => ⟨?_, ?_, rfl, rfl⟩, ?_, ?_⟩
  · rw [hpc']
    exact nofun
  · intro limit hl
    rw [hlimit] at hl
    have hroom := hb.room
    simp only [State.is_exceeded_limit, hl, decide_eq_false_iff_not, Nat.not_le] at hroom
    omega
  · rw [hbucket, FuturesUnordered.len_push hinv.bucket.sound hi ho, hlen, Nat.add_assoc]
  · rw [hbucket, FuturesUnordered.leftover_push hts, hleft]
  · intro l hl
    rw [hpc'] at hl
    cases hl
  · intro hafter
    rw [hpc'] at hafter
    cases hafter

/-- The bucket is polled. -/
theorem enters (h : s.BucketBooks n left streams polled steps) (hinv : s.Inv) {l : Locals T W}
    (hpc : s.pc = .inner l) (ho : s.inner_streams.owner = .idle)
    (hpush : s.inner_streams.pushing = ∅) (hpc' : s'.pc = .innerPoll l)
    (hlimit : s'.limit = s.limit)
    (hbucket : s'.inner_streams = s.inner_streams.poll_next .inner_streams) :
    s'.BucketBooks n left streams polled steps := by
  obtain ⟨hlen, hleft, rfl, rfl⟩ := h.before (by rw [hpc]; rfl)
  refine ⟨?_, ?_, ?_, ?_, ?_⟩
  · rw [hpc']
    exact nofun
  · rw [hlimit]
    exact h.room
  · intro hbefore
    rw [hpc'] at hbefore
    cases hbefore
  · intro _ _
    refine ⟨s.inner_streams, [], ?_, hlen, hleft, rfl, rfl⟩
    rw [hbucket]
    exact SetCall.poll_next hinv.bucket.sound ho hpush _
  · intro hafter
    rw [hpc'] at hafter
    cases hafter

/-- A step of `poll_next` itself. -/
theorem own (h : s.BucketBooks n left streams polled steps) (hinv : s.Inv) {i : ℕ}
    (hm : Move next_step s (.own i) s') : s'.BucketBooks n left streams polled steps := by
  cases hm with
  | spin i hpc hw => exact h
  | claim i hpc hw => exact h.still (by rw [hpc]; rfl) rfl rfl rfl
  | replace i hpc hp => exact h.same rfl rfl rfl
  | replaced i hpc hp => exact h.still (by rw [hpc]; rfl) rfl rfl rfl
  | baseSkip i hpc hneed hpush => exact h.still (by rw [hpc]; rfl) rfl rfl rfl
  | baseDone i hpc hdone hpush => exact h.still (by rw [hpc]; rfl) rfl rfl rfl
  | baseLimit i hpc hlimit hdone hpush => exact h.still (by rw [hpc]; rfl) rfl rfl rfl
  | innerSkip i hpc hneed => exact h.leave rfl rfl h.within
  | innerPoll i hpc hneed ho hpush => exact h.enters hinv hpc ho hpush rfl rfl rfl
  | innerItem hb hi => exact h.leave rfl rfl h.within
  | innerEnd i hb => exact h.leave rfl rfl h.within
  | innerNone i hb hr => exact h.leave rfl rfl h.within
  | innerUnwinds i hb => exact h.leave rfl rfl h.within
  | @stop l i hpc hpush =>
      have hafter : (s.stop_polling l).pc.after = true ∧ (s.stop_polling l).limit = s.limit := by
        unfold State.stop_polling
        dsimp only
        split
        · exact ⟨rfl, rfl⟩
        · split
          · exact ⟨rfl, rfl⟩
          · exact ⟨rfl, rfl⟩
      exact h.leave hafter.1 hafter.2 h.within
  | wake i hpc => exact h.leave rfl rfl h.within

/-- The base answers. -/
theorem base (h : s.BucketBooks n left streams polled steps) (hinv : s.Inv) {i : ℕ}
    {r : PollNext B} (hm : Move next_step s (.base i r) s') :
    s'.BucketBooks n left
      (streams + if Act.takesStream next_step (.base i r : Act B I T W) then 1 else 0)
      polled steps := by
  cases hm with
  | baseReturn hb hpush hstep =>
      simp only [Act.takesStream, hstep]
      exact h.still (by rw [hb.pc]; rfl) rfl rfl rfl
  | baseContinue hb hpush hstep hi ho =>
      simp only [Act.takesStream, hstep]
      exact h.takes hinv hb hi ho rfl rfl rfl
  | baseEnds hb hpush => exact h.same rfl rfl rfl
  | basePending hb hpush => exact h.still (by rw [hb.pc]; rfl) rfl rfl rfl
  | baseUnwinds hb hr =>
      rcases hr with rfl | ⟨item, rfl, hstep⟩
      · exact h.leave rfl rfl h.within
      · simp only [Act.takesStream, hstep]
        exact h.leave rfl rfl h.within

/-- **Every step is on the books of the bucket.** -/
theorem step (h : s.BucketBooks n left streams polled steps) (hinv : s.Inv) {a : Act B I T W}
    (ha : a.isRet = false) (hs : FlattenUnordered.step next_step s a = some s') :
    s'.BucketBooks n left (streams + if a.takesStream next_step then 1 else 0)
      (polled + if a.isInner then 1 else 0) (steps + if a.inBucket then 1 else 0) := by
  have hm := move_of_step hs
  cases a with
  | poll_next w =>
      cases hm with
      | poll_next w hpc => exact absurd hpc h.busy
  | own i => exact h.own hinv hm
  | base i r => exact h.base hinv hm
  | inner r => exact h.bucket hinv rfl hs
  | owner => exact h.bucket hinv rfl hs
  | wakeTask i t => exact h.bucket hinv rfl hs
  | thread i => exact h.bucket hinv rfl hs
  | call i =>
      cases hm with
      | call hcalls hi => exact h.same rfl rfl rfl
  | wake_by_ref i k =>
      cases hm with
      | wake_by_ref k hi => exact h.same rfl rfl rfl
  | waker c =>
      cases hm with
      | waker hs => exact h.same rfl rfl rfl
  | ret => cases ha

end State.BucketBooks

/-! ## The call gets on -/

/-- A step of thread `i`. -/
def Act.onThread (i : ℕ) : Act B I T W → Bool
  | .thread j => j == i
  | .call j => j == i
  | .waker c => c == .thread i
  | _ => false

/-- A step of `poll_next` that asks nobody. -/
def Act.isOwn : Act B I T W → Bool
  | .own _ => true
  | .owner => true
  | _ => false

/-- The call is at its end, waits for the base or for a stream with no push and no wake of its
own in progress, can take its next step, has handed a stream to a push that can go on, or waits
for a waker that can give the word back. -/
def State.GetsOn (next_step : B → Option (FlowStep I T)) (s : State I T W A) : Prop :=
  (∃ w r, s.pc = .done w r) ∨ (pollFree s = true ∧ ∃ l, AsksBase s l) ∨
    (pollFree s = true ∧ ∃ lv t, s.inner_streams.owner = .poll lv (.poll t)) ∨
    (∃ a s', a.isOwn = true ∧ s.spins = false ∧ step next_step s a = some s') ∨
    (∃ i ∈ s.inner_streams.pushing, ∃ a s', a.onThread i = true ∧ step next_step s a = some s') ∨
    (s.spins = true ∧ ∃ c s', (s.poll_state.wakers c).critical = true ∧
      step next_step s (.waker c) = some s')

theorem waker_live {ps : Sys Caller W} {c : Caller} (hc : ps.wakers c ≠ .idle) :
    ∃ ps', SharedPollState.wakerStep ps c = some ps' := by
  unfold SharedPollState.wakerStep
  split
  · rename_i hidle
    exact absurd hidle hc
  · exact ⟨_, rfl⟩
  · exact ⟨_, rfl⟩
  · exact ⟨_, rfl⟩

theorem waker_step_live (next_step : B → Option (FlowStep I T)) {c : Caller}
    (hc : s.poll_state.wakers c ≠ .idle) : ∃ s', step next_step s (.waker c) = some s' := by
  obtain ⟨ps, hps⟩ := waker_live hc
  exact ⟨{ s with poll_state := ps }, by simp [step, hps]⟩

/-- A push goes on, once its thread is done with the wakers that it still has to call. -/
theorem push_live (next_step : B → Option (FlowStep I T)) (hinv : s.Inv) {i : ℕ}
    (hi : i ∈ s.inner_streams.pushing) :
    ∃ a s', Act.onThread i a = true ∧ step next_step s a = some s' := by
  by_cases hwaker : s.poll_state.wakers (.thread i) = .idle
  · cases hcalls : s.calls i with
    | cons k ks =>
        refine ⟨.call i, ({ s with calls := Function.update s.calls i ks } :
          State I T W A).wake_by_ref (.thread i) k, by simp [Act.onThread], ?_⟩
        simp [step, hcalls, hwaker, Waker.isIdle]
    | nil =>
        obtain ⟨l, hl⟩ := hinv.bucket.sound.inv
        obtain ⟨t, ht⟩ := (hl.calls.mem_pushing i).mp hi
        have hnext : ∃ q, FuturesUnordered.step s.inner_streams (.thread i) = some q := by
          simp only [FuturesUnordered.step, FuturesUnordered.threadStep, ht]
          split
          · exact ⟨_, rfl⟩
          · exact ⟨_, rfl⟩
        obtain ⟨q, hq⟩ := hnext
        have hdone : callsDone s i = true := by simp [callsDone, hcalls, hwaker, Waker.isIdle]
        refine ⟨.thread i, { s with inner_streams := q
                                    calls := Function.update s.calls i
                                      (s.inner_streams.wakes (.thread i)) },
          by simp [Act.onThread], ?_⟩
        simp [step, hdone, stepThread, State.stepInner, hq]
  · obtain ⟨s', hs'⟩ := waker_step_live next_step hwaker
    exact ⟨.waker (.thread i), s', by simp [Act.onThread], hs'⟩

/-- There is a thread that a push can be made on. -/
theorem exists_idle_thread (hinv : s.Inv) (hpush : s.inner_streams.pushing = ∅) :
    ∃ i, s.inner_streams.threads i = .idle := by
  obtain ⟨l, hl⟩ := hinv.bucket.sound.inv
  obtain ⟨i, hi⟩ := Infinite.exists_notMem_finset s.inner_streams.holders
  refine ⟨i, ?_⟩
  cases hth : s.inner_streams.threads i with
  | idle => rfl
  | push t =>
      have hmem := (hl.calls.mem_pushing i).mpr ⟨t, hth⟩
      rw [hpush] at hmem
      cases hmem
  | wake t pc => exact absurd ((hl.calls.mem_holders i).mpr ⟨t, pc, hth⟩) hi

/-- The bucket's `poll_next` has returned to the call. -/
theorem innerBody_live (hinv : s.Inv) (hpush : s.inner_streams.pushing = ∅) (l : Locals T W)
    (lv : FuturesUnordered.Locals WrappedWaker) (r : PollNext (Option (T × PollStreamFut I))) :
    ∃ i s', ({ s with inner_streams := s.inner_streams.ret lv r } : State I T W A).innerBody l i r =
      some s' := by
  obtain ⟨i, hi⟩ := exists_idle_thread hinv hpush
  refine ⟨i, ?_⟩
  have hidle : (s.inner_streams.ret lv r).threads i = .idle ∧
      (s.inner_streams.ret lv r).owner.isIdle = true := ⟨hi, rfl⟩
  cases r with
  | pending => exact ⟨_, rfl⟩
  | unwound => exact ⟨_, rfl⟩
  | ready o =>
      cases o with
      | none => exact ⟨_, rfl⟩
      | some o =>
          cases o with
          | none => exact ⟨_, rfl⟩
          | some o =>
              obtain ⟨x, fut⟩ := o
              simp [State.innerBody, State.stepInner, FuturesUnordered.step, hidle.1, hidle.2]

/-- **The call never gets stuck.** -/
theorem State.BucketBooks.getsOn {n left polled : ℕ} (h : s.BucketBooks n left streams polled steps)
    (hinv : s.Inv) (next_step : B → Option (FlowStep I T)) : s.GetsOn next_step := by
  by_cases hpush : s.inner_streams.pushing = ∅
  · have hfree : pollFree s = true := by
      unfold pollFree
      rw [hinv.shared.slot, hpush]
      rfl
    -- outside of the loop around `start_polling` a step of its own is enough
    have hown : s.spins = false → (∃ i s', stepOwn s i = some s') → s.GetsOn next_step := by
      rintro hspins ⟨i, s', hs'⟩
      refine Or.inr (Or.inr (Or.inr (Or.inl ⟨.own i, s', rfl, hspins, ?_⟩)))
      simp [FlattenUnordered.step, hfree, hs']
    cases hpc : s.pc with
    | idle => exact absurd hpc h.busy
    | start w =>
        cases hw : Word.waking s.poll_state.state with
        | false => exact hown (by simp [State.spins, hpc, hw]) ⟨0, s.start_polling w, by
            simp [stepOwn, hpc]⟩
        | true =>
            obtain ⟨c, hc⟩ := hinv.shared.exclusive.waking.mp hw
            have hbusy : s.poll_state.wakers c ≠ .idle := by
              intro hidle
              rw [hidle] at hc
              cases hc
            obtain ⟨s', hs'⟩ := waker_step_live next_step hbusy
            exact Or.inr (Or.inr (Or.inr (Or.inr (Or.inr
              ⟨by simp [State.spins, hpc, hw], c, s', hc, hs'⟩))))
    | replace l => exact hown (by simp [State.spins, hpc]) ⟨0, s.replace_waker l, by simp [stepOwn, hpc]⟩
    | base l =>
        by_cases hneed : l.poll_state_value &&& NEED_TO_POLL_STREAM ≠ NONE
        · cases hleave : s.is_exceeded_limit || s.is_stream_done with
          | true =>
              refine hown (by simp [State.spins, hpc]) ⟨0, ?_⟩
              simp only [stepOwn, hpc, State.baseHead, if_pos hneed, hleave]
              exact ⟨_, rfl⟩
          | false =>
              rw [Bool.or_eq_false_iff] at hleave
              exact Or.inr (Or.inl ⟨hfree, l, hpc, (need_iff .stream).mpr hneed, hleave.1, hleave.2⟩)
        · refine hown (by simp [State.spins, hpc]) ⟨0, s.setPc (.inner l), ?_⟩
          simp only [stepOwn, hpc, State.baseHead, if_neg hneed]
    | inner l =>
        have ho := hinv.bucket.idle fun l' hl' => by rw [hpc] at hl'; cases hl'
        refine hown (by simp [State.spins, hpc]) ⟨0, ?_⟩
        simp only [stepOwn, hpc, State.innerHead]
        split
        · simp [State.stepInner, FuturesUnordered.step, ho, hpush, FuturesUnordered.Owner.isIdle]
        · exact ⟨_, rfl⟩
    | innerPoll l =>
        have hspins : s.spins = false := by simp [State.spins, hpc]
        obtain ⟨q₀, ls, hcall, -⟩ := h.inside l hpc
        obtain ⟨ts, hts⟩ := hcall.sound.inv
        rcases FuturesUnordered.not_stuck hts hcall.books.polling with ⟨lv, r, ho⟩ | hwaits | ⟨q, hq⟩
        · obtain ⟨i, s', hs'⟩ := innerBody_live hinv hpush l lv r
          rw [hpc] at hs'
          exact hown hspins ⟨i, s', by simp only [stepOwn, hpc, ho, hs']⟩
        · exact Or.inr (Or.inr (Or.inl ⟨hfree, hwaits⟩))
        · refine Or.inr (Or.inr (Or.inr (Or.inl ⟨.owner, (s.inner_streams.wakes .owner).foldl
            (fun s' k => s'.wake_by_ref .poll k) { s with inner_streams := q }, rfl, hspins, ?_⟩)))
          simp [FlattenUnordered.step, hfree, stepOwner, State.stepInner, hq]
    | finish l => exact hown (by simp [State.spins, hpc]) ⟨0, s.stop_polling l, by simp [stepOwn, hpc]⟩
    | wake w => exact hown (by simp [State.spins, hpc]) ⟨0, s.wake w, by simp [stepOwn, hpc]⟩
    | done w r => exact Or.inl ⟨w, r, hpc⟩
  · obtain ⟨i, hi⟩ := Finset.nonempty_iff_ne_empty.mpr hpush
    exact Or.inr (Or.inr (Or.inr (Or.inr (Or.inl ⟨i, hi, push_live next_step hinv hi⟩))))

/-! ## The whole call -/

/-- The books of the call that was made in `s₀`, after the steps `ls` from `s₁`. -/
structure CallBooks (next_step : B → Option (FlowStep I T)) (s₀ s₁ : State I T W A)
    (ls : List (Act B I T W)) (s : State I T W A) : Prop where
  inv : s.Inv
  loop : s.LoopBooks (ls.countP (Act.takesStream next_step)) (ls.countP Act.isBase)
    (Transition.count (step next_step) State.works s₁ ls)
  bucket : s.BucketBooks s₀.inner_streams.len s₀.inner_streams.leftover
    (ls.countP (Act.takesStream next_step)) (ls.countP Act.isInner) (ls.countP Act.inBucket)

namespace CallBooks

variable {s₀ s₁ : State I T W A} {ls : List (Act B I T W)}

theorem begin_call (hinv : s₀.Inv) {w : W} (hcall : step next_step s₀ (.poll_next w) = some s₁) :
    CallBooks next_step s₀ s₁ [] s₁ := by
  have hm := move_of_step hcall
  refine ⟨inv_move hinv hm, ?_, ?_⟩
  · cases hm with
    | poll_next w hpc => exact ⟨Nat.le_refl 1, Nat.le_refl 10⟩
  · cases hm with
    | poll_next w hpc =>
        refine ⟨?_, ?_, ?_, ?_, ?_⟩
        · exact nofun
        · intro limit _
          exact Nat.le_max_left _ _
        · exact fun _ => ⟨rfl, rfl, rfl, rfl⟩
        · intro l hl
          cases hl
        · intro hafter
          cases hafter

theorem concat (h : CallBooks next_step s₀ s₁ ls s) (hrun : Transition.run (step next_step) s₁ ls = some s)
    {a : Act B I T W} (ha : a ≠ .ret) (hs : step next_step s a = some s') :
    CallBooks next_step s₀ s₁ (ls ++ [a]) s' := by
  have hret : a.isRet = false := by
    cases a with
    | ret => exact absurd rfl ha
    | _ => rfl
  have hm := move_of_step hs
  refine ⟨inv_move h.inv hm, ?_, ?_⟩
  · rw [Transition.count_concat _ hrun]
    simp only [List.countP_append, List.countP_singleton]
    exact loopBooks_move h.loop hret h.bucket.busy hm
  · simp only [List.countP_append, List.countP_singleton]
    exact h.bucket.step h.inv hret hs

theorem of_run (hinv : s₀.Inv) {w : W} (hcall : step next_step s₀ (.poll_next w) = some s₁)
    (hret : .ret ∉ ls) (hrun : Transition.run (step next_step) s₁ ls = some s) :
    CallBooks next_step s₀ s₁ ls s := by
  induction ls using List.reverseRecOn generalizing s with
  | nil =>
      rw [Transition.run_nil, Option.some.injEq] at hrun
      exact hrun ▸ begin_call hinv hcall
  | append_singleton ls a ih =>
      obtain ⟨s₂, hrun₂, hs⟩ := Transition.run_concat_eq_some.mp hrun
      rw [List.mem_append, not_or, List.mem_singleton] at hret
      exact (ih hret.1 hrun₂).concat hrun₂ (Ne.symm hret.2) hs

end CallBooks

theorem capped_of_reachable {limit : Option ℕ}
    (h : Transition.Reachable (step next_step) (State.new I T W A limit) s) :
    s.Inv ∧ s.Capped (limit.bind NonZeroUsize.new) :=
  h.invariant (I := fun s => s.Inv ∧ s.Capped (limit.bind NonZeroUsize.new))
    ⟨State.Inv.new limit, capped_new limit⟩ fun _ _ _ hi hs =>
      ⟨inv_move hi.1 (move_of_step hs), capped_move hi.1 hi.2 (move_of_step hs)⟩

/-- **What a call may spend.** When it began with `n` streams and `left` released tasks in
the bucket and has taken `streams` from the base, it has polled the base at most
`streams + 1` times, never taken a stream beyond the limit, polled at most `n + streams`
streams of the bucket, and its steps are bounded by these numbers. It never gets stuck:
only the loop around `start_polling` waits for another thread, which can then go on. -/
theorem call_within_budget (next_step : B → Option (FlowStep I T)) (limit : Option ℕ)
    (ls₀ ls : List (Act B I T W)) (s₀ s₁ s : State I T W A) (w : W)
    (hrun₀ : Transition.run (step next_step) (State.new I T W A limit) ls₀ = some s₀)
    (hcall : step next_step s₀ (.poll_next w) = some s₁) (hret : .ret ∉ ls)
    (hrun : Transition.run (step next_step) s₁ ls = some s) (streams : ℕ)
    (hstreams : ls.countP (Act.takesStream next_step) = streams) :
    -- the base
    ls.countP Act.isBase ≤ streams + 1 ∧
    (∀ l, limit = some l → 0 < l → s₀.inner_streams.len + streams ≤ l) ∧
    -- the bucket
    ls.countP Act.isInner ≤ s₀.inner_streams.len + streams ∧
    -- the steps
    Transition.count (step next_step) State.works s₁ ls ≤ streams + 10 ∧
    ls.countP Act.inBucket ≤
      16 * (s₀.inner_streams.len + streams) + 8 * s₀.inner_streams.leftover + 10 ∧
    -- and it gets on
    s.GetsOn next_step := by
  subst hstreams
  have hreach := Transition.Reachable.of_run hrun₀
  obtain ⟨hinv₀, hcapped₀⟩ := capped_of_reachable hreach
  have hbooks := CallBooks.of_run hinv₀ hcall hret hrun
  obtain ⟨hpolled, hsteps⟩ := hbooks.bucket.within
  refine ⟨?_, ?_, hpolled, ?_, hsteps, hbooks.bucket.getsOn hbooks.inv next_step⟩
  · have hasked := hbooks.loop.asked
    omega
  · rintro l rfl hl
    obtain ⟨-, hcapped⟩ := capped_of_reachable
      ((hreach.tail hcall).trans_run hrun)
    have hnew := NonZeroUsize.new_pos hl
    have hroom := hbooks.bucket.room ⟨l, hl⟩ (hcapped.limit.trans hnew)
    -- between the calls the bucket is within the limit
    have hlen : s₀.inner_streams.len ≤ l := by
      have hpc : s₀.pc = .idle := by
        cases move_of_step hcall with
        | poll_next w hpc => exact hpc
      rw [← unfinished_of_outside hinv₀ fun l' hl' => by rw [hpc] at hl'; cases hl']
      exact hcapped₀.within ⟨l, hl⟩ hnew
    rw [Nat.max_eq_right hlen] at hroom
    exact hroom
  · have hown := hbooks.loop.steps
    omega

/-- The base gives two streams at once, and there is no room for a third. -/
def takesTwo : List (Act Unit Unit ℕ ℕ) :=
  List.flatten [
    List.replicate 4 (.own 0),
    .base 0 (.ready (some ())) :: List.replicate 4 (.thread 0),
    .base 0 (.ready (some ())) :: List.replicate 4 (.thread 0),
    [.own 0, .own 0]]

theorem call_within_budget_two_streams :
    ∃ s₁ s : State Unit ℕ ℕ (AtomicWaker.cell WrappedWaker),
      step (fun _ : Unit => some (.Continue ())) (State.new Unit ℕ ℕ _ (some 2)) (.poll_next 7) =
          some s₁ ∧
        Transition.run (step fun _ : Unit => some (.Continue ())) s₁ takesTwo = some s ∧
        s.inner_streams.len = 2 ∧ takesTwo.countP Act.isBase = 2 ∧ takesTwo.countP Act.isBase ≤ 2 + 1 :=
  ⟨_, _, rfl, rfl, rfl, rfl,
    (call_within_budget (A := AtomicWaker.cell WrappedWaker) (fun _ : Unit => some (.Continue ()))
      (some 2) [] takesTwo _ _ _ 7 rfl rfl
      (by simp [takesTwo]) rfl 2 rfl).1⟩

end TokioStreamUtil.FlattenUnordered
