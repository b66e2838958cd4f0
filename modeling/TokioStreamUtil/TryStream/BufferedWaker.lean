/-
The waker that a buffering adaptor leaves with its queue.

A call that returns `Pending` has polled the queue, and a queue that has come back
empty-handed has polled its set, which registers the waker of the call before anything
else. What an adaptor relies on for this is `Asks`. From the registration on the first
wake of the set calls that waker (`Armed`).
-/
import TokioStreamUtil.TryStream.BufferedAsleep

set_option autoImplicit false

namespace TokioStreamUtil

open FuturesUnordered (Polled PollNext move_of_step Move)
open FuturesUnordered.State (outputOf)

/-! ## The set -/

namespace FuturesUnordered

variable {F O W : Type} {A : AtomicWaker W} {s s' : State F O W A} {w : W}

/-- Between calls: the last one was made with `w`, and registered it. The next wake of the
set calls `w`, or it has been called since. -/
def State.Armed (w : W) (s : State F O W A) : Prop :=
  (∃ r, s.hist.last = some (w, r)) ∧
    (w ∈ s.hist.log.drop s.hist.registeredAt ∨ ∃ a, s.waker = A.register a w)

/-- The call in progress, or else the last one, is made with `w`. -/
def State.AskedBy (w : W) (s : State F O W A) : Prop :=
  (∃ lv, s.owner = .poll lv .register ∧ lv.waker = w) ∨
    s.owner.registered s.hist.last = some w

theorem State.AskedBy.poll_next (w : W) (s : State F O W A) : (s.poll_next w).AskedBy w :=
  Or.inl ⟨_, rfl, rfl⟩

/-- A step of the machinery leaves it with the same waker. -/
theorem State.AskedBy.inner (h : s.AskedBy w) {a : Act F O W} (ha : a.inner = true)
    (hm : Move s a s') : s'.AskedBy w := by
  rcases h with ⟨lv, ho, hw⟩ | hregistered
  · -- the waker is not registered yet: other threads do not interfere with that
    have hsame : s'.owner = s.owner → s'.AskedBy w := fun hsame =>
      Or.inl ⟨lv, hsame.trans ho, hw⟩
    cases hm with
    | register ho' =>
        rw [ho] at ho'
        cases ho'
        exact Or.inr (congrArg some hw)
    | push fut hi ho' => cases ha
    | swapQueued hi =>
        unfold State.swapQueued
        split <;> exact Or.inl ⟨lv, ho, hw⟩
    | dropInner hi =>
        unfold State.dropInner
        dsimp only
        rw [ho]
        exact Or.inl ⟨lv, rfl, hw⟩
    | poll_next w' ho' hp => cases ha
    | polled r ho' => cases ha
    | ret ho' => cases ha
    | drop ho' hp => cases ha
    -- the call stands before its first step, so no other step of it is taken
    | _ => first | exact hsame rfl | cases ho.symm.trans ‹s.owner = _›
  · exact Or.inr (registered_move hm ha hregistered)

/-- The future that is polled answers. -/
theorem State.AskedBy.polled (h : s.AskedBy w) {lv : Locals W} {t : ℕ}
    (ho : s.owner = .poll lv (.poll t)) (r : Polled F O) : (s.polled lv t r).AskedBy w := by
  rcases h with ⟨lv', ho', -⟩ | hregistered
  · rw [ho] at ho'
    cases ho'
  · rw [ho] at hregistered
    right
    cases r <;> exact hregistered

/-- The call returns. -/
theorem State.AskedBy.ret (h : s.AskedBy w) {lv : Locals W} {r : PollNext O}
    (ho : s.owner = .poll lv (.done r)) : (s.ret lv r).AskedBy w := by
  rcases h with ⟨lv', ho', -⟩ | hregistered
  · rw [ho] at ho'
    cases ho'
  · rw [ho] at hregistered
    exact Or.inr hregistered

/-- Between calls the waker of the last one is armed. -/
theorem State.AskedBy.armed (h : s.AskedBy w) (hpromises : s.Promises) (ho : s.owner = .idle) :
    s.Armed w := by
  rcases h with ⟨lv, ho', -⟩ | hregistered
  · rw [ho] at ho'
    cases ho'
  · have harmed := hpromises.wakeups.awake.armed w hregistered
    rw [ho] at hregistered
    obtain ⟨⟨w', r⟩, hlast, hw⟩ := Option.map_eq_some_iff.mp hregistered
    have hww : w' = w := hw
    subst hww
    exact ⟨⟨r, hlast⟩, harmed⟩

end FuturesUnordered

/-! ## The queues -/

namespace FuturesOrdered

variable {F O W : Type} {A : AtomicWaker W} {s s' : State F O W A} {w : W}

/-- The call in progress, or else the last one, is made with `w`, and a result that brings
no output comes from the set. -/
def State.AskedBy (w : W) (s : State F O W A) : Prop :=
  match s.pc with
  | .idle => s.in_progress_queue.AskedBy w
  -- the set has not been called yet, and is not if an output waits at the head
  | .peek w' => w' = w
  | .loop w' => w' = w ∧ s.in_progress_queue.AskedBy w
  | .done r => r = .pending ∨ r = .ready none → s.in_progress_queue.AskedBy w

theorem State.AskedBy.pollSet (w : W) (s : State F O W A) : (s.pollSet w).AskedBy w :=
  ⟨rfl, FuturesUnordered.State.AskedBy.poll_next w _⟩

/-- The set moves, and the call stands where it stood. -/
theorem State.AskedBy.ofSet (h : s.AskedBy w)
    {q : FuturesUnordered.State (Ordered F) (Ordered O) W A} {events : List (Event O)}
    (hset : s.in_progress_queue.AskedBy w → q.AskedBy w) :
    State.AskedBy w { s with in_progress_queue := q, events := events } := by
  unfold State.AskedBy at h ⊢
  dsimp only
  cases hpc : s.pc with
  | idle =>
      rw [hpc] at h
      exact hset h
  | peek w' =>
      rw [hpc] at h
      exact h
  | loop w' =>
      rw [hpc] at h
      exact ⟨h.1, hset h.2⟩
  | done r =>
      rw [hpc] at h
      exact fun hr => hset (h hr)

theorem State.AskedBy.poll_next (hs : step s (.poll_next w) = some s') : s'.AskedBy w := by
  simp only [step, Option.ite_none_right_eq_some, Option.some.injEq] at hs
  obtain ⟨-, rfl⟩ := hs
  exact rfl

theorem State.AskedBy.polled (h : s.AskedBy w) {r : Polled F O} (hs : stepPolled s r = some s') :
    s'.AskedBy w := by
  unfold stepPolled at hs
  split at hs
  · rename_i lv t ho
    split at hs
    · cases hs
      exact h.ofSet fun hasked => hasked.polled ho _
    · cases hs
  · cases hs

theorem State.AskedBy.ret (h : s.AskedBy w) {r : PollNext O} (hpc : s.pc = .done r)
    (hempty : r = .pending ∨ r = .ready none) (hs : step s .ret = some s') : s'.AskedBy w := by
  unfold State.AskedBy at h
  simp only [step, hpc, Option.some.injEq] at hs
  subst hs
  rw [hpc] at h
  exact h hempty

theorem State.AskedBy.own (h : s.AskedBy w) (hs : stepOwn s = some s') : s'.AskedBy w := by
  unfold stepOwn at hs
  unfold State.AskedBy at h
  split at hs
  · cases hs
  · rename_i w' hpc
    cases hs
    rw [hpc] at h
    have hww : w' = w := h
    subst hww
    unfold State.peekQueued
    split
    · split
      · rintro (hr | hr) <;> cases hr
      · exact .pollSet _ _
    · exact .pollSet _ _
  · rename_i w' hpc
    rw [hpc] at h
    obtain ⟨hww, hset⟩ := h
    subst hww
    split at hs
    · rename_i lv r ho
      cases hs
      have hret := hset.ret ho
      unfold State.loopBody
      split
      · split
        · rintro (hr | hr) <;> cases hr
        · exact .pollSet _ _
      · exact fun _ => hret
      · exact fun _ => hret
      · exact fun _ => hret
    · cases hs
  · cases hs

end FuturesOrdered

namespace InProgressQueue

variable {F O W : Type} {A : AtomicWaker W}

/-- Who asks the queue: `asked w` says that its call in progress, or else the last one, is
made with `w`, and that `w` is what the queue waits with when no output comes of it. -/
structure Asks (Q : InProgressQueue F O W) (asked : W → Q.State → Prop) : Prop where
  poll_next : ∀ {q q' w}, Q.step q (Q.poll_next w) = some q' → asked w q'
  runs : ∀ {q q' a w}, asked w q → Q.runs a = true → Q.step q a = some q' → asked w q'
  ret : ∀ {q q' r w}, asked w q → Q.result q = some r → r = .pending ∨ r = .ready none →
    Q.step q Q.ret = some q' → asked w q'

theorem unordered_asks : (unordered F O W A).Asks FuturesUnordered.State.AskedBy where
  poll_next {q q' w} (hs : FuturesUnordered.step q (.poll_next w) = some q') := by
    cases move_of_step hs with
    | poll_next w ho hp => exact .poll_next w q
  runs {q q' a w} h ha (hs : FuturesUnordered.step q a = some q') := by
    cases a with
    | wake i t => exact h.inner rfl (move_of_step hs)
    | thread i => exact h.inner rfl (move_of_step hs)
    | owner => exact h.inner rfl (move_of_step hs)
    | polled r =>
        cases move_of_step hs with
        | polled r ho => exact h.polled ho r
    | _ => cases ha
  ret {q q' r w} h hr _ (hs : FuturesUnordered.step q .ret = some q') := by
    cases move_of_step hs with
    | ret ho => exact h.ret ho

theorem ordered_asks : (ordered F O W A).Asks FuturesOrdered.State.AskedBy where
  poll_next hs := .poll_next hs
  runs {q q' a w} h ha (hs : FuturesOrdered.step q a = some q') := by
    have hinner : ∀ {b : FuturesUnordered.Act (Ordered F) (Ordered O) W}, b.inner = true →
        FuturesOrdered.stepSet q b = some q' → q'.AskedBy w := by
      intro b hb hset
      obtain ⟨p, hp, rfl⟩ := Option.map_eq_some_iff.mp hset
      exact h.ofSet fun hasked => hasked.inner hb (move_of_step hp)
    cases a with
    | own => exact h.own hs
    | wake i t => exact hinner rfl hs
    | thread i => exact hinner rfl hs
    | owner => exact hinner rfl hs
    | polled r => exact h.polled hs
    | _ => cases ha
  ret {q q' r w} h hr hempty (hs : FuturesOrdered.step q .ret = some q') := by
    dsimp only [ordered] at hr
    split at hr
    · rename_i r' hpc
      cases hr
      exact h.ret hpc hempty hs
    · cases hr

end InProgressQueue

/-! ## The adaptors -/

namespace Buffered

variable {E T F W : Type} {Q : InProgressQueue F (Except E T) W} {s s' : Watched Q} {w : W}
  {asked : W → Q.State → Prop}

/-- The call in progress, or else the last one, is made with `w`, and where it comes to
`Pending` the queue has been asked with `w`. -/
def Watched.AskedBy (asked : W → Q.State → Prop) (w : W) (s : Watched Q) : Prop :=
  match s.state.pc with
  | .idle => ∀ c, s.calls.getLast? = some c → c.result = .pending → asked w s.state.in_progress_queue
  | .fill w' _ => w' = w
  | .queue w' => w' = w ∧ asked w s.state.in_progress_queue
  | .done r => r = .pending → asked w s.state.in_progress_queue

/-- What the adaptor makes `Pending` of. -/
theorem empty_of_conclude {v : State Q} {r : PollNext (Except E T)} (h : v.conclude r = .pending) :
    r = .pending ∨ r = .ready none := by
  cases r with
  | pending => exact Or.inl rfl
  | unwound => cases h
  | ready o =>
      cases o with
      | none => exact Or.inr rfl
      | some o => cases h

/-- **Within a call the waker stays the same.** -/
theorem Watched.AskedBy.move (hQ : Q.Asks asked) (h : s.AskedBy asked w) {a : Act Q} {v : State Q}
    (ha : a.calls = false) (hm : Move s.state a v) : (s.after a v).AskedBy asked w := by
  unfold Watched.AskedBy at h
  cases hm with
  | poll_next w' hpc => cases ha
  -- the call turns to the queue, with the waker it was made with
  | @full w' len q hpc hquiet hlimit hq =>
      rw [hpc] at h
      rw [after_told .own [] nofun (told_own_fill hpc)]
      exact ⟨h, h ▸ hQ.poll_next hq⟩
  | @ended w' len q hpc hquiet hend hq =>
      rw [hpc] at h
      rw [after_told .own [] nofun (told_own_fill hpc)]
      exact ⟨h, h ▸ hQ.poll_next hq⟩
  | @future w' len i fut q hb hq =>
      rw [hb.pc] at h
      rw [after_told (.base i (.ready (some (.ok fut)))) [.base (.ready (some (.ok fut)))] nofun rfl]
      unfold Watched.AskedBy
      dsimp only [State.withQueue]
      rw [hb.pc]
      exact h
  | @error w' len i e hb =>
      -- the call ends without the queue, but not with `Pending`
      rw [after_told (.base i (.ready (some (.error e)))) [.base (.ready (some (.error e)))] nofun rfl]
      rintro ⟨⟩
  | @ends w' len i q hb hq =>
      rw [hb.pc] at h
      rw [after_told (.base i (.ready none)) [.base (.ready none)] nofun rfl]
      exact ⟨h, h ▸ hQ.poll_next hq⟩
  | @pending w' len i q hb hq =>
      rw [hb.pc] at h
      rw [after_told (.base i .pending) [.base .pending] nofun rfl]
      exact ⟨h, h ▸ hQ.poll_next hq⟩
  | @unwinds w' len i hb =>
      rw [after_told (.base i .unwound) [.base .unwound] nofun rfl]
      rintro ⟨⟩
  | @concludes w' r q hpc hr hq =>
      rw [hpc] at h
      rw [after_told .own [.queue r] nofun (told_own_queue hpc hr)]
      intro hpending
      exact hQ.ret h.2 hr (empty_of_conclude hpending) hq
  -- the queue moves, wherever the call stands
  | @queue a q hruns hq =>
      rw [after_told (.queue a) [] nofun rfl]
      unfold Watched.AskedBy
      dsimp only [State.withQueue]
      cases hpc : s.state.pc with
      | idle =>
          rw [hpc] at h
          exact fun c hc hpending => hQ.runs (h c hc hpending) hruns hq
      | fill w' len =>
          rw [hpc] at h
          exact h
      | queue w' =>
          rw [hpc] at h
          exact ⟨h.1, hQ.runs h.2 hruns hq⟩
      | done r =>
          rw [hpc] at h
          exact fun hr => hQ.runs (h hr) hruns hq
  | @ret r hpc =>
      rw [hpc] at h
      rw [after_ret hpc]
      intro c hc hpending
      rw [List.getLast?_concat] at hc
      cases hc
      exact h hpending

theorem Watched.AskedBy.run (hQ : Q.Asks asked) {call : List (Act Q)} : ∀ {s : Watched Q},
    s.AskedBy asked w → (∀ a ∈ call, a.calls = false) →
    Transition.run Watched.step s call = some s' → s'.AskedBy asked w := by
  intro s h hcall hrun
  refine Transition.run_invariant_of_labels (I := Watched.AskedBy asked w) ?_ call s s' hcall h hrun
  intro u a u' ha hu hs
  obtain ⟨v, hv, rfl⟩ := Option.map_eq_some_iff.mp hs
  exact hu.move hQ ha (move_of_step hv)

/-- When the last call returned `Pending`, the queue has been asked with its waker. -/
theorem Watched.asked_of_pending (hQ : Q.Asks asked) {s₀ : Watched Q} {pre call : List (Act Q)}
    (hcall : ∀ a ∈ call, a.calls = false)
    (hrun : Transition.run Watched.step s₀ (pre ++ .poll_next w :: call) = some s)
    (hpc : s.state.pc = .idle) {c : Call E F T} (hlast : s.calls.getLast? = some c)
    (hpending : c.result = .pending) : asked w s.state.in_progress_queue := by
  obtain ⟨u, -, hrun⟩ := Transition.run_append_eq_some.mp hrun
  rw [Transition.run_cons, Option.bind_eq_some_iff] at hrun
  obtain ⟨v, hv, hrun⟩ := hrun
  obtain ⟨v', hv', rfl⟩ := Option.map_eq_some_iff.mp hv
  have hbegin : (u.after (.poll_next w) v').AskedBy asked w := by
    cases move_of_step hv' with
    | poll_next w hpc' =>
        rw [after_told (.poll_next w) [] nofun rfl]
        exact rfl
  have hend := hbegin.run hQ hcall hrun
  unfold Watched.AskedBy at hend
  rw [hpc] at hend
  exact hend c hlast hpending

end Buffered

end TokioStreamUtil
