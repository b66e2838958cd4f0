/-
What the calls of the buffering adaptors are told and what they return.

`Watched` runs the machine of an adaptor and keeps, for each call, the answers of the
base and of the queue, and the result. What an adaptor relies on is `Delivers`: the
queue hands out outputs that agree with the futures given to it, and ends when it has
handed out one for each.
-/
import TokioStreamUtil.TryStream.Buffered
import TokioStreamUtil.FuturesOrdered.Delivery

set_option autoImplicit false

namespace TokioStreamUtil

open FuturesUnordered (Polled PollNext move_of_step)
open FuturesUnordered.State (outputOf)

/-! ## What an adaptor relies on -/

namespace InProgressQueue

variable {F O W : Type} {A : AtomicWaker W}

/-- Which future a step of a queue polls, with its answer. -/
abbrev Polling (Q : InProgressQueue F O W) : Type := Q.State → Q.Act → Option (F × Polled F O)

/-- The queue delivers: `Holds futs outs` says that it was given the futures `futs` and
has handed out `outs`, and `busy` that its `poll_next` is in progress. -/
structure Delivers (Q : InProgressQueue F O W) (polls : Q.Polling) (busy : Q.State → Bool)
    (overflows : Q.State → Prop) (Agrees : F → O → Prop)
    (Holds : List F → List O → Q.State → Prop) : Prop where
  new : Holds [] [] Q.new ∧ busy Q.new = false ∧ Q.quiet Q.new = true
  push : ∀ {futs outs q q' i fut}, Holds futs outs q → busy q = false → ¬ overflows q →
    Q.step q (Q.push i fut) = some q' → Holds (futs ++ [fut]) outs q' ∧ busy q' = false
  poll_next : ∀ {futs outs q q' w}, Holds futs outs q → Q.step q (Q.poll_next w) = some q' →
    Holds futs outs q' ∧ busy q' = true ∧ Q.quiet q' = true
  runs : ∀ {futs outs q q' a}, Holds futs outs q → Q.runs a = true →
    (∀ fut r, polls q a = some (fut, r) → r.Honest Agrees fut) → Q.step q a = some q' →
    Holds futs outs q' ∧ busy q' = busy q ∧ (Q.quiet q = true → Q.quiet q' = true)
  result : ∀ {futs outs q r}, Holds futs outs q → Q.result q = some r →
    r ≠ .unwound ∧ (r = .ready none → outs.length = futs.length)
  ret : ∀ {futs outs q q' r}, Holds futs outs q → Q.result q = some r → Q.step q Q.ret = some q' →
    Holds futs (outs ++ outputOf r) q' ∧ busy q' = false ∧ (Q.quiet q = true → Q.quiet q' = true)
  len_eq : ∀ {futs outs q}, Holds futs outs q → busy q = false →
    Q.len q + outs.length = futs.length

/-! ## The two queues -/

/-- `FuturesUnordered` polls the future of a task. -/
def unorderedPolls : (unordered F O W A).Polling := fun q a =>
  match q.owner, a with
  | .poll _ (.poll t), .polled r => (q.tasks t).future.map fun fut => (fut, r)
  | _, _ => none

/-- A `poll_next` of `FuturesUnordered` is in progress. -/
def unorderedBusy : (unordered F O W A).State → Bool := fun q => !q.owner.isIdle

/-- `FuturesOrdered` polls the future of a task of its set. -/
def orderedPolls : (ordered F O W A).Polling := fun q a =>
  match q.in_progress_queue.owner, a with
  | .poll _ (.poll t), .polled r =>
      (q.in_progress_queue.tasks t).future.map fun fut => (fut.data, r)
  | _, _ => none

/-- A `poll_next` of `FuturesOrdered` is in progress. -/
def orderedBusy : (ordered F O W A).State → Bool := fun q => !q.pc.isIdle

/-- The next push overflows the numbers of `FuturesOrdered`. -/
def orderedOverflows : (ordered F O W A).State → Prop := FuturesOrdered.State.Overflows

instance : DecidablePred (orderedOverflows (F := F) (O := O) (W := W) (A := A)) :=
  fun q : FuturesOrdered.State F O W A =>
    inferInstanceAs (Decidable (i64 (q.next_incoming_index + 1) ≠ q.next_incoming_index + 1))

theorem unordered_idle {q : (unordered F O W A).State} (h : unorderedBusy q = false) :
    FuturesUnordered.State.owner q = .idle := by
  refine FuturesUnordered.Owner.eq_idle ?_
  unfold unorderedBusy at h
  rw [Bool.not_eq_false'] at h
  exact h

theorem ordered_idle {q : (ordered F O W A).State} (h : orderedBusy q = false) :
    FuturesOrdered.State.pc q = .idle := by
  refine FuturesOrdered.Pc.eq_idle ?_
  unfold orderedBusy at h
  rw [Bool.not_eq_false'] at h
  exact h

variable (Agrees : F → O → Prop)

/-- `FuturesUnordered` delivers. -/
theorem unordered_delivers : (unordered F O W A).Delivers unorderedPolls unorderedBusy
    (fun _ => False) Agrees (FuturesUnordered.State.Delivery Agrees) where
  new := ⟨.new, rfl, rfl⟩
  push {futs outs q q' i fut} h _ _ (hs : FuturesUnordered.step q (.push i fut) = some q') := by
    cases move_of_step hs with
    | push fut hi ho =>
        refine ⟨h.push fut hi ho, ?_⟩
        show (!q.owner.isIdle) = false
        rw [ho]
        rfl
  poll_next {futs outs q q' w} h (hs : FuturesUnordered.step q (.poll_next w) = some q') := by
    cases move_of_step hs with
    | poll_next w ho hp => exact ⟨h.poll_next w ho hp, rfl, decide_eq_true hp⟩
  runs {futs outs q q' a} h ha hhonest (hs : FuturesUnordered.step q a = some q') := by
    have hm := move_of_step hs
    have hinner : FuturesUnordered.Act.inner a = true → q'.Delivery Agrees futs outs ∧
        unorderedBusy q' = unorderedBusy q ∧ (decide (q.pushing = ∅) = true →
          decide (q'.pushing = ∅) = true) := by
      intro ha
      have hframe := FuturesUnordered.frame_move hm ha
      refine ⟨h.inner ha hm, by unfold unorderedBusy; rw [hframe.idle], fun hquiet => ?_⟩
      exact decide_eq_true (hframe.pushing (of_decide_eq_true hquiet))
    cases a with
    | wake i t => exact hinner rfl
    | thread i => exact hinner rfl
    | owner => exact hinner rfl
    | polled r =>
        cases hm with
        | @polled lv t r ho =>
            obtain ⟨l, hl⟩ := h.sound.inv
            have hfut : ∃ fut, (q.tasks t).future = some fut := by
              obtain ⟨hlt, hlive⟩ := hl.places.held_live t (by rw [ho]; rfl)
              cases hf : (q.tasks t).future with
              | some fut => exact ⟨fut, rfl⟩
              | none =>
                  have hret := ((hl.places.vacant t hlt).mp (by rw [hf]; rfl)).1
                  rw [hlive] at hret
                  cases hret
            obtain ⟨fut, hf⟩ := hfut
            refine ⟨h.polled ho hf (hhonest fut r ?_), ?_, fun hquiet => ?_⟩
            · unfold unorderedPolls
              rw [ho]
              dsimp only
              rw [hf]
              rfl
            · unfold unorderedBusy
              rw [ho]
              cases r <;> rfl
            · cases r <;> exact hquiet
    | _ => cases ha
  result {futs outs q r} h hr := by
    have hdone : ∃ lv, q.owner = .poll lv (.done r) := by
      dsimp only [unordered] at hr
      split at hr
      · rename_i lv r' ho
        cases hr
        exact ⟨lv, ho⟩
      · cases hr
    obtain ⟨lv, ho⟩ := hdone
    refine ⟨h.not_unwound ho, ?_⟩
    rintro rfl
    exact h.of_none ho
  ret {futs outs q q' r} h hr (hs : FuturesUnordered.step q .ret = some q') := by
    cases move_of_step hs with
    | @ret lv r' ho =>
        have hrr : r' = r := by
          dsimp only [unordered] at hr
          rw [ho] at hr
          exact Option.some.inj hr
        subst hrr
        exact ⟨h.ret ho, rfl, fun hquiet => hquiet⟩
  len_eq {futs outs q} h hbusy := h.len_eq (unordered_idle hbusy)

/-- `FuturesOrdered` delivers. -/
theorem ordered_delivers : (ordered F O W A).Delivers orderedPolls orderedBusy
    orderedOverflows Agrees (FuturesOrdered.State.Delivery Agrees) where
  new := ⟨.new, rfl, rfl⟩
  push {futs outs q q' i fut} h _ hover hs := by
    obtain ⟨h', hpc⟩ := h.push_back hover hs
    refine ⟨h', ?_⟩
    unfold orderedBusy
    rw [hpc]
    rfl
  poll_next {futs outs q q' w} h (hs : FuturesOrdered.step q (.poll_next w) = some q') := by
    obtain ⟨h', hpc⟩ := h.poll_next hs
    refine ⟨h', ?_, decide_eq_true (FuturesOrdered.quiet_of_poll_next hs)⟩
    unfold orderedBusy
    rw [hpc]
    rfl
  runs {futs outs q q' a} h ha hhonest (hs : FuturesOrdered.step q a = some q') := by
    have hquiet : decide (q.in_progress_queue.pushing = ∅) = true →
        decide (q'.in_progress_queue.pushing = ∅) = true := by
      intro hquiet
      refine decide_eq_true (FuturesOrdered.quiet_step hs ?_ (of_decide_eq_true hquiet))
      cases a with
      | push_back i fut => cases ha
      | push_front i fut => cases ha
      | _ => rfl
    have hset : ∀ b : FuturesUnordered.Act (Ordered F) (Ordered O) W, b.inner = true →
        FuturesOrdered.stepSet q b = some q' → q'.Delivery Agrees futs outs ∧
          orderedBusy q' = orderedBusy q := by
      intro b hb hstep
      obtain ⟨h', hpc⟩ := h.inner hb hstep
      exact ⟨h', by unfold orderedBusy; rw [hpc]⟩
    cases a with
    | own =>
        have hs : FuturesOrdered.stepOwn q = some q' := hs
        obtain ⟨h', hpc⟩ := h.own hs
        refine ⟨h', ?_, hquiet⟩
        have hbusy : q.pc.isIdle = false := by
          cases hq : q.pc with
          | idle =>
              simp only [FuturesOrdered.stepOwn, hq] at hs
              cases hs
          | _ => rfl
        have hbusy' : q'.pc.isIdle = false := by
          cases hq : q'.pc with
          | idle => exact absurd hq hpc
          | _ => rfl
        unfold orderedBusy
        rw [hbusy, hbusy']
    | wake i t => exact ⟨(hset _ rfl hs).1, (hset _ rfl hs).2, hquiet⟩
    | thread i => exact ⟨(hset _ rfl hs).1, (hset _ rfl hs).2, hquiet⟩
    | owner => exact ⟨(hset _ rfl hs).1, (hset _ rfl hs).2, hquiet⟩
    | polled r =>
        have hpolls : ∃ lv t fut, q.in_progress_queue.owner = .poll lv (.poll t) ∧
            (q.in_progress_queue.tasks t).future = some fut := by
          simp only [FuturesOrdered.step, FuturesOrdered.stepPolled] at hs
          split at hs
          · rename_i lv t ho
            split at hs
            · rename_i fut hf
              exact ⟨lv, t, fut, ho, hf⟩
            · cases hs
          · cases hs
        obtain ⟨lv, t, fut, ho, hf⟩ := hpolls
        obtain ⟨h', hpc⟩ := h.polled ho hf (hhonest fut.data r (by
          unfold orderedPolls
          rw [ho]
          dsimp only
          rw [hf]
          rfl)) hs
        exact ⟨h', by unfold orderedBusy; rw [hpc], hquiet⟩
    | _ => cases ha
  result {futs outs q r} h hr := by
    have hpc : q.pc = .done r := by
      dsimp only [ordered] at hr
      split at hr
      · rename_i r' hpc
        cases hr
        exact hpc
      · cases hr
    refine ⟨h.not_unwound hpc, ?_⟩
    rintro rfl
    exact h.of_none hpc
  ret {futs outs q q' r} h hr (hs : FuturesOrdered.step q .ret = some q') := by
    have hpc : q.pc = .done r := by
      dsimp only [ordered] at hr
      split at hr
      · rename_i r' hpc
        cases hr
        exact hpc
      · cases hr
    obtain ⟨h', hpc'⟩ := h.ret hpc hs
    refine ⟨h', by unfold orderedBusy; rw [hpc']; rfl, fun hquiet => ?_⟩
    exact decide_eq_true (FuturesOrdered.quiet_step hs rfl (of_decide_eq_true hquiet))
  len_eq {futs outs q} h hbusy := h.len_eq (ordered_idle hbusy)

end InProgressQueue

namespace Buffered

variable {E T F W : Type} {Q : InProgressQueue F (Except E T) W}

/-! ## Everything one step can do -/

section

variable {s s' : State Q}

/-- The queue has taken a step. -/
def State.withQueue (s : State Q) (q : Q.State) : State Q := { s with in_progress_queue := q }

/-- The queue's `poll_next` has been called. -/
def State.polling (s : State Q) (w : W) (q : Q.State) : State Q :=
  { s with in_progress_queue := q, pc := .queue w }

/-- The loop goes on to poll the base. -/
structure AsksBase (s : State Q) (w : W) (in_progress_queue_len : ℕ) : Prop where
  pc : s.pc = .fill w in_progress_queue_len
  quiet : Q.quiet s.in_progress_queue = true
  below : s.belowMax in_progress_queue_len = true
  running : s.stream.is_terminated = false

/-- One step, transition by transition, with its label. -/
inductive Move (s : State Q) : Act Q → State Q → Prop where
  | poll_next (w : W) (hpc : s.pc = .idle) : Move s (.poll_next w) (s.poll_next w)
  -- the loop is left, or the base has ended before
  | full {w : W} {len : ℕ} {q : Q.State} (hpc : s.pc = .fill w len)
      (hquiet : Q.quiet s.in_progress_queue = true) (hlimit : s.belowMax len = false)
      (hq : Q.step s.in_progress_queue (Q.poll_next w) = some q) : Move s .own (s.polling w q)
  | ended {w : W} {len : ℕ} {q : Q.State} (hpc : s.pc = .fill w len)
      (hquiet : Q.quiet s.in_progress_queue = true) (hended : s.stream.is_terminated = true)
      (hq : Q.step s.in_progress_queue (Q.poll_next w) = some q) : Move s .own (s.polling w q)
  -- the base answers
  | future {w : W} {len i : ℕ} {fut : F} {q : Q.State} (hb : AsksBase s w len)
      (hq : Q.step s.in_progress_queue (Q.push i fut) = some q) :
      Move s (.base i (.ready (some (.ok fut)))) { s.withQueue q with taken := s.taken + 1 }
  | error {w : W} {len i : ℕ} {e : E} (hb : AsksBase s w len) :
      Move s (.base i (.ready (some (.error e)))) (s.settle (.ready (some (.error e))))
  | ends {w : W} {len i : ℕ} {q : Q.State} (hb : AsksBase s w len)
      (hq : Q.step s.in_progress_queue (Q.poll_next w) = some q) :
      Move s (.base i (.ready none)) { s.polling w q with stream := { terminated := true } }
  | pending {w : W} {len i : ℕ} {q : Q.State} (hb : AsksBase s w len)
      (hq : Q.step s.in_progress_queue (Q.poll_next w) = some q) :
      Move s (.base i .pending) (s.polling w q)
  | unwinds {w : W} {len i : ℕ} (hb : AsksBase s w len) :
      Move s (.base i .unwound) (s.settle .unwound)
  -- the queue
  | concludes {w : W} {r : PollNext (Except E T)} {q : Q.State} (hpc : s.pc = .queue w)
      (hr : Q.result s.in_progress_queue = some r)
      (hq : Q.step s.in_progress_queue Q.ret = some q) :
      Move s .own ((s.withQueue q).settle (s.conclude r))
  | queue {a : Q.Act} {q : Q.State} (ha : Q.runs a = true)
      (hq : Q.step s.in_progress_queue a = some q) : Move s (.queue a) (s.withQueue q)
  | ret {r : PollNext (Except E T)} (hpc : s.pc = .done r) : Move s .ret { s with pc := .idle }

theorem move_of_fillRound {w : W} {len i : ℕ} {r : PollNext (Except E F)} (hb : AsksBase s w len)
    (hs : s.fillRound w i r = some s') : Move s (.base i r) s' := by
  have hrun : s.stream.terminated = false := hb.running
  unfold State.fillRound at hs
  rcases r with _ | (_ | (e | fut)) | _
  all_goals
    simp only [IntoFuseStream.poll_next, hrun, Bool.false_eq_true, if_false] at hs
  · obtain ⟨q, hq, rfl⟩ := Option.map_eq_some_iff.mp hs
    exact .pending hb hq
  · obtain ⟨q, hq, rfl⟩ := Option.map_eq_some_iff.mp hs
    exact .ends hb hq
  · cases hs
    exact .error hb
  · obtain ⟨q, hq, rfl⟩ := Option.map_eq_some_iff.mp hs
    exact .future hb hq
  · cases hs
    exact .unwinds hb

theorem move_of_stepOwn (hs : stepOwn s = some s') : Move s .own s' := by
  unfold stepOwn at hs
  split at hs
  · rename_i w len hpc
    split at hs
    · rename_i hquiet
      split at hs
      · split at hs
        · rename_i hended
          have hterm : s.stream.terminated = true := hended
          unfold State.fillRound at hs
          simp only [IntoFuseStream.poll_next, hterm, if_true] at hs
          obtain ⟨q, hq, rfl⟩ := Option.map_eq_some_iff.mp hs
          exact .ended hpc hquiet hended hq
        · cases hs
      · rename_i hlimit
        obtain ⟨q, hq, rfl⟩ := Option.map_eq_some_iff.mp hs
        exact .full hpc hquiet (Bool.not_eq_true _ ▸ hlimit) hq
    · cases hs
  · rename_i w hpc
    split at hs
    · rename_i r hr
      obtain ⟨q, hq, rfl⟩ := Option.map_eq_some_iff.mp hs
      exact .concludes hpc hr hq
    · cases hs
  · cases hs

/-- **Inversion.** Every step is a move. -/
theorem move_of_step {a : Act Q} (hs : step s a = some s') : Move s a s' := by
  cases a with
  | poll_next w =>
      simp only [step] at hs
      split at hs
      · rename_i hpc
        cases hs
        exact .poll_next w hpc
      · cases hs
  | own => exact move_of_stepOwn hs
  | base i r =>
      simp only [step, stepBase] at hs
      split at hs
      · rename_i w len hpc
        split at hs
        · rename_i hb
          exact move_of_fillRound ⟨hpc, hb.1, hb.2.1, hb.2.2⟩ hs
        · cases hs
      · cases hs
  | queue a =>
      simp only [step, Option.ite_none_right_eq_some] at hs
      obtain ⟨ha, hs⟩ := hs
      obtain ⟨q, hq, rfl⟩ := Option.map_eq_some_iff.mp hs
      exact .queue ha hq
  | ret =>
      simp only [step] at hs
      split at hs
      · rename_i r hpc
        cases hs
        exact .ret hpc
      · cases hs

end

/-! ## Calls -/

/-- What a call is told: an answer of the base, or the result of the queue. -/
inductive Answer (E F T : Type) where
  | base (r : PollNext (Except E F))
  | queue (r : PollNext (Except E T))

/-- A call that has returned. -/
structure Call (E F T : Type) where
  answers : List (Answer E F T)
  result : PollNext (Except E T)

/-- The futures taken from the base, in order. -/
def taken (answers : List (Answer E F T)) : List F :=
  answers.filterMap fun
    | .base (.ready (some (.ok fut))) => some fut
    | _ => none

/-- The errors taken from the base, in order. -/
def errors (answers : List (Answer E F T)) : List E :=
  answers.filterMap fun
    | .base (.ready (some (.error e))) => some e
    | _ => none

/-- The results of futures taken from the queue, in order. -/
def fromQueue (answers : List (Answer E F T)) : List (Except E T) :=
  answers.flatMap fun
    | .queue r => outputOf r
    | _ => []

/-- The items that the calls have returned, in order. -/
def yielded (calls : List (Call E F T)) : List (Except E T) :=
  calls.flatMap fun c => outputOf c.result

/-- An adaptor, with what its calls have been told and have returned. -/
structure Watched (Q : InProgressQueue F (Except E T) W) where
  state : State Q
  calls : List (Call E F T)
  /-- What the call in progress has been told. -/
  answers : List (Answer E F T)

/-- What the adaptor is told in a step. -/
def State.told (s : State Q) : Act Q → List (Answer E F T)
  | .base _ r => [.base r]
  | .own =>
      match s.pc with
      | .queue _ => (Q.result s.in_progress_queue).toList.map .queue
      | _ => []
  | _ => []

namespace Watched

/-- Before the first call. -/
def new (Q : InProgressQueue F (Except E T) W) (n : Option ℕ) : Watched Q :=
  { state := State.new Q n, calls := [], answers := [] }

/-- The step `a` has led to `state`. -/
def after (s : Watched Q) (a : Act Q) (state : State Q) : Watched Q :=
  match a, s.state.pc with
  | .ret, .done r =>
      { state := state, calls := s.calls ++ [{ answers := s.answers, result := r }], answers := [] }
  | a, _ => { state := state, calls := s.calls, answers := s.answers ++ s.state.told a }

/-- The adaptor takes a step. -/
def step (s : Watched Q) (a : Act Q) : Option (Watched Q) :=
  (Buffered.step s.state a).map (s.after a)

/-- Everything the calls have been told, in order. -/
def log (s : Watched Q) : List (Answer E F T) := s.calls.flatMap Call.answers ++ s.answers

theorem state_after (s : Watched Q) (a : Act Q) (v : State Q) : (s.after a v).state = v := by
  unfold after
  split <;> rfl

/-- Watching changes nothing. -/
theorem run_state {s s' : Watched Q} {ls : List (Act Q)}
    (h : Transition.run step s ls = some s') :
    Transition.run Buffered.step s.state ls = some s'.state := by
  induction ls generalizing s with
  | nil =>
      rw [Transition.run_nil, Option.some.injEq] at h
      rw [Transition.run_nil, h]
  | cons a ls ih =>
      rw [Transition.run_cons, Option.bind_eq_some_iff] at h
      obtain ⟨u, hu, hrun⟩ := h
      obtain ⟨v, hv, rfl⟩ := Option.map_eq_some_iff.mp hu
      rw [Transition.run_cons, hv, Option.bind_some]
      have hrest := ih hrun
      rwa [state_after] at hrest

/-- Every run can be watched. -/
theorem exists_run {s : Watched Q} {ls : List (Act Q)} {v : State Q}
    (h : Transition.run Buffered.step s.state ls = some v) :
    ∃ s', Transition.run step s ls = some s' ∧ s'.state = v := by
  induction ls generalizing s with
  | nil =>
      rw [Transition.run_nil, Option.some.injEq] at h
      exact ⟨s, rfl, h⟩
  | cons a ls ih =>
      rw [Transition.run_cons, Option.bind_eq_some_iff] at h
      obtain ⟨u, hu, hrun⟩ := h
      have hstep : step s a = some (s.after a u) := by
        unfold step
        rw [hu]
        rfl
      have hrun' : Transition.run Buffered.step (s.after a u).state ls = some v := by
        rw [state_after]
        exact hrun
      obtain ⟨s', hs', hv⟩ := ih hrun'
      exact ⟨s', by rw [Transition.run_cons, hstep]; exact hs', hv⟩

end Watched

end Buffered

end TokioStreamUtil
