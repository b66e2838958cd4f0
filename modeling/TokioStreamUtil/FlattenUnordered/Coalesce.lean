/-
Wake-ups of `FlattenUnordered` coalesce: no outer waker is called more often than
`poll_next` was called with it.

A call of `poll_next` brings one token for its waker. The call holds it until it stops
polling; from then on it lies with the word, for the first `wake_by_ref` that takes the
word, and is with the caller of that until it has called the outer waker. A word that is
woken has no token left, so whoever adds a need bit to it calls nobody.
-/
import TokioStreamUtil.FlattenUnordered.Asleep
import Mathlib.Data.Finset.Card

set_option autoImplicit false

namespace TokioStreamUtil.FlattenUnordered

open FuturesUnordered (Polled PollNext)
open Word (woken waking)

variable {B I T W : Type} {A : AtomicWaker WrappedWaker}

/-! ## With the word and the callers -/

/-- `n` calls of `wake_by_ref` are going to call `w`. -/
def Sys.Hands (ps : Sys Caller W) (w : W) (n : ℕ) : Prop :=
  ∃ hands : Finset Caller, hands.card = n ∧ ∀ c, c ∈ hands ↔ ps.Committed w c

namespace Sys

variable {ps ps' : Sys Caller W} {w : W} {n : ℕ} {c : Caller} {k : WrappedWaker}

/-- The callers stay committed to what they are committed to. -/
theorem Hands.congr (h : ps.Hands w n) (hsame : ∀ c, ps'.Committed w c ↔ ps.Committed w c) :
    ps'.Hands w n := by
  obtain ⟨hands, hcard, hmem⟩ := h
  exact ⟨hands, hcard, fun c => (hmem c).trans (hsame c).symm⟩

/-- A committed caller is done. -/
theorem Hands.drop (h : ps.Hands w n) (hc : ps.Committed w c) (hself : ¬ps'.Committed w c)
    (hother : ∀ c', c' ≠ c → (ps'.Committed w c' ↔ ps.Committed w c')) :
    ∃ m, n = m + 1 ∧ ps'.Hands w m := by
  obtain ⟨hands, hcard, hmem⟩ := h
  have hin : c ∈ hands := (hmem c).mpr hc
  refine ⟨(hands.erase c).card, ?_, hands.erase c, rfl, fun c' => ?_⟩
  · rw [Finset.card_erase_add_one hin, hcard]
  · by_cases hcc : c' = c
    · subst hcc
      simp [hself]
    · simp [hcc, hmem c', hother c' hcc]

/-- The steps of another caller, or of the poll, leave what `c` is committed to. -/
theorem committed_congr (hwakers : ps'.wakers c = ps.wakers c)
    (hcells : ∀ k, ps.wakers c = .reading k → ps'.inner_waker k = ps.inner_waker k) :
    ps'.Committed w c ↔ ps.Committed w c := by
  unfold Committed
  rw [hwakers]
  cases hc : ps.wakers c with
  | reading k =>
      dsimp only
      rw [hcells k hc]
  | _ => exact Iff.rfl

variable [DecidableEq W]

/-- The `wake_by_ref` that takes the word now comes to call `w`. -/
def armed (ps : Sys Caller W) (w : W) : Bool :=
  !woken ps.state && !waking ps.state &&
    (decide (ps.inner_waker .stream = some w) || decide (ps.inner_waker .inner_streams = some w))

theorem armed_of_cell (hwoken : woken ps.state = false) (hwaking : waking ps.state = false)
    (hcell : ps.inner_waker k = some w) : ps.armed w = true := by
  unfold armed
  rw [hwoken, hwaking]
  cases k with
  | stream => simp [hcell]
  | inner_streams => simp [hcell]

theorem armed_of_woken (hwoken : woken ps.state = true) : ps.armed w = false := by
  simp [armed, hwoken]

/-- Who is armed has its waker in a cell. -/
theorem cell_of_armed (h : ps.armed w = true) : ∃ k, ps.inner_waker k = some w := by
  unfold armed at h
  simp only [Bool.and_eq_true, Bool.or_eq_true, decide_eq_true_iff] at h
  rcases h.2 with hcell | hcell
  · exact ⟨.stream, hcell⟩
  · exact ⟨.inner_streams, hcell⟩

/-- A caller that was committed to nothing takes the word. -/
theorem Hands.take (h : ps.Hands w n) (hc : ps.wakers c = .idle)
    (hself : ps'.Committed w c ↔ ps.inner_waker k = some w)
    (hother : ∀ c', c' ≠ c → (ps'.Committed w c' ↔ ps.Committed w c')) :
    ps'.Hands w (n + if ps.inner_waker k = some w then 1 else 0) := by
  obtain ⟨hands, hcard, hmem⟩ := h
  have hnew : c ∉ hands := by
    rw [hmem c]
    unfold Committed
    rw [hc]
    exact id
  by_cases hcell : ps.inner_waker k = some w
  · rw [if_pos hcell]
    refine ⟨insert c hands, ?_, fun c' => ?_⟩
    · rw [Finset.card_insert_of_notMem hnew, hcard]
    · by_cases hcc : c' = c
      · subst hcc
        simp [hself, hcell]
      · simp [hcc, hmem c', hother c' hcc]
  · rw [if_neg hcell]
    refine ⟨hands, hcard, fun c' => ?_⟩
    by_cases hcc : c' = c
    · subst hcc
      simp [hnew, hself, hcell]
    · rw [hmem c', hother c' hcc]

/-- Before a caller reads a cell it is committed to what the cell holds, afterwards to what
it has read; with the outer waker called, the token is spent. -/
theorem Hands.wakerStep (h : ps.Hands w n) (hs : SharedPollState.wakerStep ps c = some ps') :
    ∃ m, ps'.Hands w m ∧ ps'.log.count w + m = ps.log.count w + n ∧
      (ps'.armed w = true → ps.armed w = true) := by
  have hother : ∀ (s' : Sys Caller W) (pc : Waker W), s'.wakers = Function.update ps.wakers c pc →
      s'.inner_waker = ps.inner_waker →
        ∀ c', c' ≠ c → (s'.Committed w c' ↔ ps.Committed w c') := by
    intro s' pc hwakers hcells c' hcc
    apply committed_congr
    · rw [hwakers, Function.update_of_ne hcc]
    · exact fun k _ => by rw [hcells]
  unfold SharedPollState.wakerStep at hs
  split at hs
  · cases hs
  · rename_i k hc
    cases hs
    refine ⟨n, h.congr fun c' => ?_, rfl, id⟩
    by_cases hcc : c' = c
    · subst hcc
      simp [Committed, setWaker, hc]
    · exact hother (ps.setWaker c (.stopping (ps.inner_waker k))) _ rfl rfl c' hcc
  · rename_i inner_waker hc
    cases hs
    refine ⟨n, h.congr fun c' => ?_, rfl, ?_⟩
    · by_cases hcc : c' = c
      · subst hcc
        cases inner_waker <;> simp [Committed, stop_waking, setWaker, hc]
      · exact hother (ps.stop_waking c inner_waker) _ rfl rfl c' hcc
    · intro harmed
      rw [armed_of_woken (stop_waking_bits ps.state).2.2] at harmed
      cases harmed
  · rename_i v hc
    cases hs
    by_cases hv : v = w
    · subst hv
      have hcom : ps.Committed v c := by simp [Committed, hc]
      have hdone : ¬(ps.wake c v).Committed v c := by simp [Committed, wake, setWaker]
      obtain ⟨m, rfl, hm⟩ := h.drop hcom hdone (hother (ps.wake c v) .idle rfl rfl)
      refine ⟨m, hm, ?_, id⟩
      show (ps.log ++ [v]).count v + m = _
      simp
      omega
    · refine ⟨n, h.congr fun c' => ?_, ?_, id⟩
      · by_cases hcc : c' = c
        · subst hcc
          simp [Committed, wake, setWaker, hc, hv]
        · exact hother (ps.wake c v) .idle rfl rfl c' hcc
      · show (ps.log ++ [v]).count w + n = _
        simp [hv]

/-- While somebody is at work, or the stream is woken, a call of a wrapped waker only adds
its bit. -/
theorem Hands.wake_by_ref_busy (h : ps.Hands w n)
    (hbusy : (Word.polling ps.state || woken ps.state || waking ps.state) = true) :
    (ps.wake_by_ref c k).Hands w n ∧ (ps.wake_by_ref c k).armed w = ps.armed w := by
  obtain ⟨-, hwoken, hwaking⟩ := start_waking_bits k ps.state
  rw [wake_by_ref_of_busy hbusy]
  refine ⟨h.congr fun c' => Iff.rfl, ?_⟩
  have hsame : waking (SharedPollState.start_waking k.need_to_poll ps.state).1 =
      waking ps.state := by
    rw [hwaking]
    cases hw : waking ps.state with
    | true => rfl
    | false =>
        rw [hw, Bool.or_false] at hbusy
        rw [hbusy]
        rfl
  unfold armed
  dsimp only
  rw [hwoken, hsame]

/-- Otherwise the token goes from the word to the caller. -/
theorem Hands.wake_by_ref_free (h : ps.Hands w n) (hc : ps.wakers c = .idle)
    (hfree : (Word.polling ps.state || woken ps.state || waking ps.state) = false) :
    ∃ m, (ps.wake_by_ref c k).Hands w m ∧
      m + ((ps.wake_by_ref c k).armed w).toNat ≤ n + (ps.armed w).toNat := by
  obtain ⟨-, -, hwaking⟩ := start_waking_bits k ps.state
  obtain ⟨hpw, hw⟩ := Bool.or_eq_false_iff.mp hfree
  obtain ⟨hp, hwo⟩ := Bool.or_eq_false_iff.mp hpw
  rw [wake_by_ref_of_free hfree]
  refine ⟨_, h.take (k := k) hc ?_ ?_, ?_⟩
  · simp [Committed]
  · intro c' hcc
    exact committed_congr (Function.update_of_ne hcc _ _) fun _ _ => rfl
  · have hoff : armed { ps with
        state := (SharedPollState.start_waking k.need_to_poll ps.state).1
        wakers := Function.update ps.wakers c (.reading k) } w = false := by
      simp [armed, hwaking, hp, hwo]
    rw [hoff]
    by_cases hcell : ps.inner_waker k = some w
    · rw [if_pos hcell, armed_of_cell hwo hw hcell]
      exact Nat.le_refl _
    · rw [if_neg hcell]
      exact Nat.le_add_right _ _

end Sys

/-! ## With `poll_next` -/

/-- Who does not have the word has no local variables. -/
theorem Pc.no_locals {pc : Pc T W} (h : pc.holds = false) : pc.locals = none := by
  cases pc with
  | idle => rfl
  | start w => rfl
  | wake w => rfl
  | done w r => rfl
  | _ => cases h

variable [DecidableEq W]

/-- The token of a call that has not started polling, or is about to call its own waker. -/
def Pc.tokens (w : W) : Pc T W → ℕ
  | .start v => if v = w then 1 else 0
  | .wake v => if v = w then 1 else 0
  | _ => 0

/-- The token of a call that polls, or that lies with the word. -/
def State.armed (s : State I T W A) (w : W) : Bool :=
  match s.pc.locals with
  | some l => decide (l.waker = w)
  | none => s.poll_state.armed w

/-- The label of a call with `w`. -/
def Act.isCall (w : W) : Act B I T W → Bool
  | .poll_next v => decide (v = w)
  | _ => false

/-- What has been spent on `w`, and what can still be spent, is paid for by `calls` calls. -/
def State.Paid (s : State I T W A) (w : W) (calls : ℕ) : Prop :=
  ∃ n, s.poll_state.Hands w n ∧
    s.poll_state.log.count w + n + s.pc.tokens w + (s.armed w).toNat ≤ calls

namespace State

variable {s s' : State I T W A} {w : W} {calls : ℕ}

theorem armed_of_locals {l : Locals T W} (h : s.pc.locals = some l) :
    s.armed w = decide (l.waker = w) := by
  unfold armed
  rw [h]

theorem armed_of_no_locals (h : s.pc.locals = none) : s.armed w = s.poll_state.armed w := by
  unfold armed
  rw [h]

theorem paid_new (limit : Option ℕ) : (State.new I T W A limit).Paid w 0 := by
  refine ⟨0, ⟨∅, rfl, fun c => ?_⟩, ?_⟩
  · simp [Sys.Committed, State.new, Sys.new]
  · have hoff : (State.new I T W A limit).armed w = false := by
      simp [State.armed, Sys.armed, State.new, Sys.new, Pc.locals]
    rw [hoff]
    exact Nat.le_refl _

/-- `poll_next` moves on, and no token is made. -/
theorem Paid.advance (h : s.Paid w calls) (hps : s'.poll_state = s.poll_state)
    (htokens : s'.pc.tokens w + (s'.armed w).toNat ≤ s.pc.tokens w + (s.armed w).toNat) :
    s'.Paid w calls := by
  obtain ⟨n, hn, hle⟩ := h
  refine ⟨n, hps ▸ hn, ?_⟩
  rw [hps]
  omega

/-- `poll_next` moves on between two places of a call that polls. -/
theorem Paid.along (h : s.Paid w calls) {v : W} (hps : s'.poll_state = s.poll_state)
    (hl : s.pc.locals.map Locals.waker = some v) (hl' : s'.pc.locals.map Locals.waker = some v)
    (htokens : s'.pc.tokens w = 0) : s'.Paid w calls := by
  obtain ⟨l, hs, hv⟩ := Option.map_eq_some_iff.mp hl
  obtain ⟨l', hs', hv'⟩ := Option.map_eq_some_iff.mp hl'
  apply h.advance hps
  rw [armed_of_locals hs, armed_of_locals hs', hv, hv', htokens]
  omega

/-- Neither the word nor `poll_next` moves. -/
theorem Paid.same (h : s.Paid w calls) (hps : s'.poll_state = s.poll_state) (hpc : s'.pc = s.pc) :
    s'.Paid w calls := by
  apply h.advance hps
  unfold State.armed
  rw [hpc, hps]

/-- A wrapped waker is called. -/
theorem Paid.wake_by_ref (h : s.Paid w calls) (hshared : Shared s.pc s.hist.last s.poll_state)
    {c : Caller} (hc : s.poll_state.wakers c = .idle) (k : WrappedWaker) :
    (s.wake_by_ref c k).Paid w calls := by
  obtain ⟨n, hn, hle⟩ := h
  have hlog : (s.poll_state.wake_by_ref c k).log = s.poll_state.log := wake_by_ref_log _ c k
  cases hfree : Word.polling s.poll_state.state || woken s.poll_state.state ||
      waking s.poll_state.state with
  | true =>
      obtain ⟨hn', harmed⟩ := hn.wake_by_ref_busy (c := c) (k := k) hfree
      refine ⟨n, hn', ?_⟩
      have hsame : (s.wake_by_ref c k).armed w = s.armed w := by
        unfold State.armed
        dsimp only [State.wake_by_ref]
        rw [harmed]
      rw [hsame]
      show (s.poll_state.wake_by_ref c k).log.count w + n + s.pc.tokens w + _ ≤ _
      rw [hlog]
      exact hle
  -- the word is free, so `poll_next` does not have it
  | false =>
      obtain ⟨m, hm, hpay⟩ := hn.wake_by_ref_free (k := k) hc hfree
      have hout : s.pc.holds = false := by
        by_contra hholds
        rw [hshared.busy (Bool.not_eq_false _ ▸ hholds)] at hfree
        cases hfree
      have hlocals := Pc.no_locals hout
      rw [armed_of_no_locals hlocals] at hle
      refine ⟨m, hm, ?_⟩
      rw [armed_of_no_locals (s := s.wake_by_ref c k) hlocals]
      show (s.poll_state.wake_by_ref c k).log.count w + m + s.pc.tokens w +
        ((s.poll_state.wake_by_ref c k).armed w).toNat ≤ _
      rw [hlog]
      omega

/-- The bucket calls the wrapped wakers `ks` in the name of `poll_next`. -/
theorem Paid.wakes (ks : List WrappedWaker) : ∀ {s : State I T W A}, s.Inv →
    s.pc.holds = true → s.Paid w calls →
      (ks.foldl (fun s' k => s'.wake_by_ref .poll k) s).Paid w calls := by
  induction ks with
  | nil => exact fun _ _ h => h
  | cons k ks ih =>
      intro s hinv hpc h
      exact ih (hinv.wake_by_ref .poll k fun _ => hpc) hpc (h.wake_by_ref hinv.shared hinv.shared.slot k)

/-- A call of a wrapped waker moves on. -/
theorem Paid.waker (h : s.Paid w calls) {c : Caller} {ps : Sys Caller W}
    (hs : SharedPollState.wakerStep s.poll_state c = some ps) :
    State.Paid { s with poll_state := ps } w calls := by
  obtain ⟨n, hn, hle⟩ := h
  obtain ⟨m, hm, hspent, harmed⟩ := hn.wakerStep hs
  refine ⟨m, hm, ?_⟩
  have hle' : (State.armed { s with poll_state := ps } w).toNat ≤ (s.armed w).toNat := by
    unfold State.armed
    dsimp only
    split
    · exact Nat.le_refl _
    · exact Bool.toNat_le_toNat harmed
  show ps.log.count w + m + s.pc.tokens w + _ ≤ _
  omega

/-- The word is taken: nobody reads the cells, and the token of the call stays with it. -/
theorem Paid.claim {v : W} (h : s.Paid w calls) (hpc : s.pc = .start v) :
    (s.claim v).Paid w calls := by
  obtain ⟨n, hn, hle⟩ := h
  refine ⟨n, hn.congr fun c => Iff.rfl, ?_⟩
  have harmed : (s.claim v).armed w = decide (v = w) := rfl
  have htokens : s.pc.tokens w = (decide (v = w)).toNat := by
    rw [hpc]
    by_cases hv : v = w
    · simp [Pc.tokens, hv]
    · simp [Pc.tokens, hv]
  rw [harmed]
  show s.poll_state.log.count w + n + 0 + _ ≤ _
  omega

/-- A cell is replaced while nobody is about to read one. -/
theorem Paid.replace_waker (h : s.Paid w calls) (hinv : s.Inv) {k : WrappedWaker} {v : W}
    {l : Locals T W} (hpc : s.pc = .replace l) :
    State.Paid { s with poll_state := s.poll_state.replace_waker k v } w calls := by
  obtain ⟨n, hn, hle⟩ := h
  have hnone := hinv.shared.exclusive.not_critical
    (hinv.shared.exclusive.apart (by rw [hinv.shared.critical, hpc]; rfl))
  refine ⟨n, hn.congr fun c => Sys.committed_congr rfl fun k' hc => ?_, ?_⟩
  · have hreads := hnone c
    rw [hc] at hreads
    cases hreads
  · have hsame : State.armed { s with poll_state := s.poll_state.replace_waker k v } w =
        s.armed w := by
      unfold State.armed
      rw [hpc]
      rfl
    rw [hsame]
    exact hle

/-- The word is given back: the token goes to it, if the stream does not count as woken. -/
theorem Paid.release (h : s.Paid w calls) (hinv : s.Inv) {l : Locals T W} {ps : Sys Caller W}
    (hl : s.pc.locals = some l) (houter : s.pc.outer s.hist.last = some l.waker)
    (hps : s'.poll_state = ps) (hcells : ps.inner_waker = s.poll_state.inner_waker)
    (hwakers : ps.wakers = s.poll_state.wakers) (hlog : ps.log = s.poll_state.log)
    (hl' : s'.pc.locals = none)
    (htokens : s'.pc.tokens w = 0 ∨ woken ps.state = true ∧ s'.pc = .wake l.waker) :
    s'.Paid w calls := by
  obtain ⟨n, hn, hle⟩ := h
  have harmed := hinv.shared.armed _ houter
  rw [armed_of_locals hl] at hle
  refine ⟨n, hps ▸ hn.congr fun c => Sys.committed_congr (congrFun hwakers c) fun k _ =>
    congrFun hcells k, ?_⟩
  rw [armed_of_no_locals hl', hps, hlog]
  rcases htokens with htokens | ⟨hwoken, hpc⟩
  · have hle' : (ps.armed w).toNat ≤ (decide (l.waker = w)).toNat := by
      apply Bool.toNat_le_toNat
      intro hon
      obtain ⟨k, hk⟩ := Sys.cell_of_armed hon
      rw [hcells, harmed k] at hk
      exact decide_eq_true (Option.some.inj hk)
    omega
  · have hself : s'.pc.tokens w = (decide (l.waker = w)).toNat := by
      rw [hpc]
      by_cases hv : l.waker = w
      · simp [Pc.tokens, hv]
      · simp [Pc.tokens, hv]
    rw [Sys.armed_of_woken hwoken, Bool.toNat_false]
    omega

end State

variable {next_step : B → Option (FlowStep I T)} {s s' : State I T W A} {w : W} {calls : ℕ}

/-- `stop_polling` counts the stream as woken if the call is going to wake itself. -/
theorem paid_stop_polling (hinv : s.Inv) (h : s.Paid w calls) {l : Locals T W}
    (hpc : s.pc = .finish l) : (s.stop_polling l).Paid w calls := by
  have hl : s.pc.locals = some l := by rw [hpc]; rfl
  have houter : s.pc.outer s.hist.last = some l.waker := by rw [hpc]; rfl
  have hneeds := hinv.shared.needs l hl
  unfold State.stop_polling
  dsimp only
  split
  · exact h.release hinv hl houter rfl rfl rfl rfl rfl (Or.inl rfl)
  · split
    · rename_i hforce
      refine h.release hinv hl houter rfl rfl rfl rfl rfl (Or.inr ⟨?_, rfl⟩)
      rw [Bool.or_eq_true, decide_eq_true_iff, needs_iff] at hforce
      show woken (SharedPollState.stop_polling _ _ _).1 = true
      rw [stop_polling_woken _ _ _ hneeds, Bool.or_assoc, Bool.or_eq_true]
      exact hforce
    · exact h.release hinv hl houter rfl rfl rfl rfl rfl (Or.inl rfl)

/-- **Every move pays.** Only a call of `poll_next` with `w` makes a token for `w`. -/
theorem paid_move {a : Act B I T W} (hinv : s.Inv) (h : s.Paid w calls)
    (hm : Move next_step s a s') : s'.Paid w (calls + if a.isCall w then 1 else 0) := by
  by_cases hcall : a.isCall w = true
  · rw [if_pos hcall]
    cases hm with
    | poll_next v hpc =>
        obtain ⟨n, hn, hle⟩ := h
        refine ⟨n, hn, ?_⟩
        have hv : v = w := of_decide_eq_true hcall
        have hsame : (s.poll_next v).armed w = s.armed w := by
          unfold State.armed
          rw [hpc]
          rfl
        have htokens : (s.poll_next v).pc.tokens w = 1 := if_pos hv
        rw [hsame, htokens]
        show s.poll_state.log.count w + n + 1 + _ ≤ _
        omega
    | _ => cases hcall
  · rw [if_neg hcall, Nat.add_zero]
    cases hm with
    | poll_next v hpc =>
        refine h.advance rfl ?_
        have hv : v ≠ w := fun hv => hcall (decide_eq_true hv)
        have hsame : (s.poll_next v).armed w = s.armed w := by
          unfold State.armed
          rw [hpc]
          rfl
        have htokens : (s.poll_next v).pc.tokens w = 0 := if_neg hv
        rw [hsame, htokens]
        omega
    | spin i hpc hw => exact h
    | claim i hpc hw => exact h.claim hpc
    | replace i hpc hp => exact h.replace_waker hinv hpc
    | replaced i hpc hp => exact h.along rfl (by rw [hpc]; rfl) rfl rfl
    | baseSkip i hpc hneed hpush => exact h.along rfl (by rw [hpc]; rfl) rfl rfl
    | baseDone i hpc hdone hpush => exact h.along rfl (by rw [hpc]; rfl) rfl rfl
    | baseLimit i hpc hlimit hdone hpush => exact h.along rfl (by rw [hpc]; rfl) rfl rfl
    | baseReturn hb hpush hstep => exact h.along rfl (by rw [hb.pc]; rfl) rfl rfl
    | baseContinue hb hpush hstep hi ho => exact h.along rfl (by rw [hb.pc]; rfl) rfl rfl
    | baseEnds hb hpush => exact h.same rfl rfl
    | basePending hb hpush => exact h.along rfl (by rw [hb.pc]; rfl) rfl rfl
    | @baseUnwinds l i r hb hr =>
        have hl : s.pc.locals = some l := by rw [hb.pc]; rfl
        have houter : s.pc.outer s.hist.last = some l.waker := by rw [hb.pc]; rfl
        exact h.release hinv hl houter rfl rfl rfl rfl rfl (Or.inl rfl)
    | innerSkip i hpc hneed => exact h.along rfl (by rw [hpc]; rfl) rfl rfl
    | innerPoll i hpc hneed ho hpush => exact h.along rfl (by rw [hpc]; rfl) rfl rfl
    | innerItem hb hi => exact h.along rfl (by rw [hb.pc]; rfl) rfl rfl
    | innerEnd i hb => exact h.along rfl (by rw [hb.pc]; rfl) rfl rfl
    | innerNone i hb hr => exact h.along rfl (by rw [hb.pc]; rfl) rfl rfl
    | @innerUnwinds l lv i hb =>
        have hl : s.pc.locals = some l := by rw [hb.pc]; rfl
        have houter : s.pc.outer s.hist.last = some l.waker := by rw [hb.pc]; rfl
        exact h.release hinv hl houter rfl rfl rfl rfl rfl (Or.inl rfl)
    | stream r ho hf =>
        unfold State.answered
        split <;> exact h.same rfl rfl
    -- the bucket yields inside `poll_next`, which has the word
    | @owner q hq =>
        obtain ⟨l, hl⟩ := hinv.bucket.innerPoll_of_not_idle (FuturesUnordered.owner_not_idle hq)
        have hinv' : State.Inv { s with inner_streams := q } :=
          ⟨hinv.shared, hinv.bucket.inner rfl hq⟩
        have hsame : State.Paid { s with inner_streams := q } w calls := h.same rfl rfl
        exact hsame.wakes _ hinv' (by show s.pc.holds = true; rw [hl]; rfl)
    | @stop l i hpc hpush => exact paid_stop_polling hinv h hpc
    | @wake v i hpc =>
        obtain ⟨n, hn, hle⟩ := h
        refine ⟨n, hn.congr fun c => Iff.rfl, ?_⟩
        have hsame : (s.wake v).armed w = s.armed w := by
          unfold State.armed
          rw [hpc]
          rfl
        have hspent : (s.wake v).poll_state.log.count w =
            s.poll_state.log.count w + s.pc.tokens w := by
          show (s.poll_state.log ++ [v]).count w = _
          rw [hpc, List.count_append, List.count_singleton]
          simp [Pc.tokens]
        rw [hsame, hspent]
        show s.poll_state.log.count w + s.pc.tokens w + n + 0 + _ ≤ _
        omega
    | ret hpc =>
        refine h.advance rfl ?_
        unfold State.armed
        rw [hpc]
        exact Nat.le_refl _
    | wakeTask hcalls hq => exact h.same rfl rfl
    | thread hcalls hq => exact h.same rfl rfl
    | @call i k ks hcalls hi =>
        have hsame : State.Paid { s with calls := Function.update s.calls i ks } w calls :=
          h.same rfl rfl
        exact hsame.wake_by_ref hinv.shared hi k
    | wake_by_ref k hi => exact h.wake_by_ref hinv.shared hi k
    | waker hs => exact h.waker hs

/-! ## The theorem -/

/-- **Wake-ups coalesce.** In every interleaving, whoever calls the wrapped wakers and how
often, and whichever polls unwind, the wakers called for `w` and the calls of `wake_by_ref`
that are about to call it are no more than the calls of `poll_next` with `w`. -/
theorem wakes_coalesce (next_step : B → Option (FlowStep I T)) (limit : Option ℕ)
    (ls : List (Act B I T W)) (s : State I T W A)
    (h : Transition.run (step next_step) (State.new I T W A limit) ls = some s) (w : W) :
    ∃ hands : Finset Caller, (∀ c, c ∈ hands ↔ s.poll_state.Committed w c) ∧
      s.poll_state.log.count w + hands.card ≤ ls.countP fun a => a.isCall w := by
  have hpaid : s.Inv ∧ s.Paid w (0 + ls.countP fun a => a.isCall w) :=
    Transition.run_invariant_counting (I := fun (s : State I T W A) n => s.Inv ∧ s.Paid w n) _
      (fun s n a s' hs hstep =>
        ⟨inv_move hs.1 (move_of_step hstep), paid_move hs.1 hs.2 (move_of_step hstep)⟩)
      ⟨State.Inv.new limit, State.paid_new limit⟩ h
  rw [Nat.zero_add] at hpaid
  obtain ⟨n, ⟨hands, rfl, hmem⟩, hle⟩ := hpaid.2
  exact ⟨hands, hmem, by omega⟩

/-- The base answers pending; then its waker is called three times, twice before the first
call has called the outer waker. -/
def wokenThrice : List (Act Unit Unit ℕ ℕ) :=
  [.poll_next 7] ++ List.replicate 4 (.own 0) ++
    [.base 0 .pending, .own 0, .own 0, .ret, .wake_by_ref 0 .stream, .wake_by_ref 1 .stream] ++
    List.replicate 3 (.waker (.thread 0)) ++ [.wake_by_ref 1 .stream]

theorem wakes_coalesce_woken_thrice :
    ∃ s : State Unit ℕ ℕ (AtomicWaker.cell WrappedWaker),
      Transition.run (step fun _ => none) (State.new Unit ℕ ℕ _ none) wokenThrice = some s ∧
        s.poll_state.log = [7] ∧ (wokenThrice.countP fun a => a.isCall 7) = 1 ∧
        ∃ hands : Finset Caller, (∀ c, c ∈ hands ↔ s.poll_state.Committed 7 c) ∧
          s.poll_state.log.count 7 + hands.card ≤ wokenThrice.countP fun a => a.isCall 7 :=
  ⟨_, rfl, rfl, rfl, wakes_coalesce (fun _ => none) none wokenThrice _ rfl 7⟩

end TokioStreamUtil.FlattenUnordered
