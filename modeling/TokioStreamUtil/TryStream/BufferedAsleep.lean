/-
When the buffering adaptors may sleep.

A call that returns `Pending` has polled its queue last, so all that is owed is what the
queue owes (`Tends`), and the base has been asked in that call, has ended, or is withheld
by a queue that is full.
-/
import TokioStreamUtil.TryStream.BufferedBooks
import TokioStreamUtil.FuturesOrdered.Asleep

set_option autoImplicit false

namespace TokioStreamUtil

open FuturesUnordered (Polled PollNext move_of_step)
open FuturesUnordered.State (outputOf)

/-! ## Queues that owe polls -/

namespace InProgressQueue

variable {F O W : Type} {A : AtomicWaker W}

/-- The queue owes a poll for a `reason`, for the waker it has called, or not at all. A push
is a reason, a poll takes the reasons away, and so does a result that is none of them. -/
structure Tends (Q : InProgressQueue F O W) (busy : Q.State → Bool)
    (Holds : List F → List O → Q.State → Prop)
    (pendedAfter : Q.State → (ℕ → Bool) → Q.Act → ℕ → Bool)
    (Owes : Prop → (ℕ → Bool) → Q.State → Prop) : Prop where
  new : ∀ reason pended, Owes reason pended Q.new
  push : ∀ {futs outs q q' i fut reason pended}, Owes reason pended q → Holds futs outs q →
    busy q = false → Q.step q (Q.push i fut) = some q' → Owes True pended q'
  poll_next : ∀ {futs outs q q' w reason pended}, Owes reason pended q → Holds futs outs q →
    Q.step q (Q.poll_next w) = some q' → Owes False pended q'
  runs : ∀ {futs outs q q' a reason pended}, Owes reason pended q → Holds futs outs q →
    Q.runs a = true → Q.step q a = some q' → Owes reason (pendedAfter q pended a) q'
  ret : ∀ {futs outs q q' r pended}, Owes False pended q → Holds futs outs q →
    Q.result q = some r → Q.step q Q.ret = some q' → Owes (r.releases = true) pended q'
  imp : ∀ {q reason reason' pended}, Owes reason pended q → (reason → reason') →
    Owes reason' pended q

variable (Agrees : F → O → Prop)

/-- `FuturesUnordered` tends its futures. -/
theorem unordered_tends (hA : A.Contract) : (unordered F O W A).Tends unorderedBusy
    (FuturesUnordered.State.Delivery Agrees) FuturesUnordered.State.pendedAfter
    FuturesUnordered.State.Owes where
  new := FuturesUnordered.State.Owes.new
  push {futs outs q q' i fut reason pended} h _ _
      (hs : FuturesUnordered.step q (.push i fut) = some q') := by
    cases move_of_step hs with
    | push fut hi ho => exact h.push hA fut hi ho trivial
  poll_next {futs outs q q' w reason pended} h _
      (hs : FuturesUnordered.step q (.poll_next w) = some q') := by
    cases move_of_step hs with
    | poll_next w ho hp => exact h.poll_next hA w ho hp False
  runs {futs outs q q' a reason pended} h _ ha (hs : FuturesUnordered.step q a = some q') := by
    cases a with
    | wake i t => exact h.inner hA rfl (move_of_step hs)
    | thread i => exact h.inner hA rfl (move_of_step hs)
    | owner => exact h.inner hA rfl (move_of_step hs)
    | polled r =>
        cases move_of_step hs with
        | polled r ho => exact h.polled hA ho r
    | _ => cases ha
  ret {futs outs q q' r pended} h _ hr (hs : FuturesUnordered.step q .ret = some q') := by
    cases move_of_step hs with
    | @ret lv r' ho =>
        have hrr : r' = r := by
          dsimp only [unordered] at hr
          rw [ho] at hr
          exact Option.some.inj hr
        subst hrr
        exact h.ret hA ho fun hcases => hcases.resolve_right id
  imp h hreason := h.imp hreason

/-- What `FuturesOrdered` owes, and that it keeps back nothing whose turn it is. -/
structure OrderedOwes (reason : Prop) (pended : ℕ → Bool) (q : FuturesOrdered.State F O W A) :
    Prop where
  owes : q.Owes reason pended
  told : q.Told
  front : q.pc = .idle → ¬reason → q.KeepsNothing

/-- `FuturesOrdered` tends its futures. -/
theorem ordered_tends (hA : A.Contract) : (ordered F O W A).Tends orderedBusy
    (FuturesOrdered.State.Delivery Agrees) FuturesOrdered.State.pendedAfter OrderedOwes where
  new reason pended := ⟨.new reason pended, .new, nofun⟩
  push {futs outs q q' i fut reason pended} h hholds hbusy
      (hs : FuturesOrdered.step q (.push_back i fut) = some q') := by
    obtain ⟨d, -, hrel⟩ := hholds.deque
    exact ⟨h.owes.push_back hA hrel.tracks hs trivial, h.told.step hrel.tracks hs,
      fun _ hnot => absurd trivial hnot⟩
  poll_next {futs outs q q' w reason pended} h hholds
      (hs : FuturesOrdered.step q (.poll_next w) = some q') := by
    obtain ⟨d, -, hrel⟩ := hholds.deque
    have hpc := (hholds.poll_next hs).2
    exact ⟨h.owes.poll_next hs False, h.told.step hrel.tracks hs,
      fun hidle => nomatch hpc.symm.trans hidle⟩
  runs {futs outs q q' a reason pended} h hholds ha (hs : FuturesOrdered.step q a = some q') := by
    obtain ⟨d, -, hrel⟩ := hholds.deque
    have htold := h.told.step hrel.tracks hs
    have hinner : ∀ {b : FuturesUnordered.Act (Ordered F) (Ordered O) W}, b.inner = true →
        FuturesOrdered.stepSet q b = some q' → OrderedOwes reason pended q' := by
      intro b hb hset
      have howes := h.owes.inner hA hb hset
      obtain ⟨p, -, rfl⟩ := Option.map_eq_some_iff.mp hset
      exact ⟨howes, htold, h.front⟩
    cases a with
    | own =>
        refine ⟨h.owes.own hA hrel.tracks hs, htold, fun hidle => ?_⟩
        rcases (FuturesOrdered.own_cases hs).2.2 with ⟨-, w, hpc⟩ | ⟨r, -, hpc⟩
        · exact nomatch hpc.symm.trans hidle
        · exact nomatch hpc.symm.trans hidle
    | wake i t => exact hinner rfl hs
    | thread i => exact hinner rfl hs
    | owner => exact hinner rfl hs
    | polled r =>
        refine ⟨h.owes.polled hA hs, htold, fun hidle => ?_⟩
        obtain ⟨w, hpc⟩ := hrel.tracks.loop_of_polled hs
        exact nomatch hpc.symm.trans hidle
    | _ => cases ha
  ret {futs outs q q' r pended} h hholds hr (hs : FuturesOrdered.step q .ret = some q') := by
    obtain ⟨d, -, hrel⟩ := hholds.deque
    have htold := h.told.step hrel.tracks hs
    have hpc : q.pc = .done r := by
      dsimp only [ordered] at hr
      split at hr
      · rename_i r' hpc
        cases hr
        exact hpc
      · cases hr
    refine ⟨h.owes.ret hpc hs id, htold, fun _ hnot => ?_⟩
    cases r with
    | pending => exact h.told.ret hpc hs rfl
    | unwound => exact absurd rfl hnot
    | ready o =>
        cases o with
        | some o => exact absurd rfl hnot
        | none =>
            -- everything has been handed out
            obtain ⟨hret, hidle⟩ := hholds.ret hpc hs
            have hdone := hholds.of_none hpc
            have hlen := hret.len_eq hidle
            rw [List.length_append, hdone] at hlen
            have hempty : q'.queued_outputs.elems.length = 0 := by
              unfold FuturesOrdered.State.len MaxHeap.len at hlen
              omega
            intro y hy
            rw [List.length_eq_zero_iff.mp hempty] at hy
            cases hy
  imp h hreason := ⟨h.owes.imp hreason, h.told, fun hpc hnot => h.front hpc fun hr => hnot (hreason hr)⟩

end InProgressQueue

/-! ## The adaptors -/

namespace Buffered

variable {E T F W : Type} {Q : InProgressQueue F (Except E T) W}

/-- An adaptor that is watched, with the tasks whose future has answered pending. -/
structure Observed (Q : InProgressQueue F (Except E T) W) where
  watched : Watched Q
  pended : ℕ → Bool

/-- Which tasks have pended, after a step of the adaptor. -/
def State.pendedAfter (pendedAfter : Q.State → (ℕ → Bool) → Q.Act → ℕ → Bool) (s : State Q)
    (pended : ℕ → Bool) : Act Q → ℕ → Bool
  | .queue a => pendedAfter s.in_progress_queue pended a
  | _ => pended

namespace Observed

def new (Q : InProgressQueue F (Except E T) W) (n : Option ℕ) : Observed Q :=
  { watched := Watched.new Q n, pended := fun _ => false }

/-- The adaptor takes a step. -/
def step (pendedAfter : Q.State → (ℕ → Bool) → Q.Act → ℕ → Bool) (x : Observed Q) (a : Act Q) :
    Option (Observed Q) :=
  (Watched.step x.watched a).map fun watched =>
    { watched := watched, pended := x.watched.state.pendedAfter pendedAfter x.pended a }

end Observed

/-- The reasons for a poll of the queue: between calls, that the last one did not come back
empty-handed; inside a call, that the queue has not been polled in it. -/
def Watched.reason (s : Watched Q) : Prop :=
  match s.state.pc with
  | .idle => ∀ c, s.calls.getLast? = some c → c.result.releases = true
  | .fill _ _ => True
  | .queue _ => False
  | .done r => r.releases = true

/-- The queue holds as many futures as it may. -/
def Watched.Full (s : Watched Q) : Prop :=
  ∃ max, s.state.max = some max ∧ max.1 + (fromQueue s.log).length ≤ (taken s.log).length

/-- Where the base stands after a call that was told `answers` and took nothing from the
queue: it had nothing, it has ended, or it is withheld. -/
def Watched.BaseRests (s : Watched Q) (answers : List (Answer E F T)) : Prop :=
  .base .pending ∈ answers ∨ s.state.stream.is_terminated = true ∨ s.Full

/-- What the call in progress, or else the last one, says of the base. -/
def Watched.Rests (s : Watched Q) : Prop :=
  match s.state.pc with
  | .idle => ∀ c, s.calls.getLast? = some c → c.result = .pending → s.BaseRests c.answers
  | .fill _ _ => True
  | .queue _ => s.BaseRests s.answers
  | .done r => r = .pending → s.BaseRests s.answers

/-- What is known of an adaptor that is observed from the start. -/
structure Observed.Tended (Owes : Prop → (ℕ → Bool) → Q.State → Prop) (x : Observed Q) : Prop where
  owes : Owes x.watched.reason x.pended x.watched.state.in_progress_queue
  rests : x.watched.Rests

variable {polls : Q.Polling} {busy : Q.State → Bool} {overflows : Q.State → Prop}
  {Agrees : F → Except E T → Prop} {Holds : List F → List (Except E T) → Q.State → Prop}
  {pendedAfter : Q.State → (ℕ → Bool) → Q.Act → ℕ → Bool}
  {Owes : Prop → (ℕ → Bool) → Q.State → Prop} {s s' : Watched Q}

/-- Another answer from which no future and no item was taken. -/
theorem Watched.BaseRests.told {answers l : List (Answer E F T)} (h : s.BaseRests answers)
    (hlog : s'.log = s.log ++ l) (htaken : taken l = []) (hfrom : fromQueue l = [])
    (hmax : s'.state.max = s.state.max) (hstream : s'.state.stream = s.state.stream) :
    s'.BaseRests (answers ++ l) := by
  rcases h with hpending | hended | ⟨max, hm, hle⟩
  · exact Or.inl (List.mem_append_left _ hpending)
  · refine Or.inr (Or.inl ?_)
    rw [hstream]
    exact hended
  · refine Or.inr (Or.inr ⟨max, hmax.trans hm, ?_⟩)
    rw [hlog, taken_append, fromQueue_append, htaken, hfrom, List.append_nil, List.append_nil]
    exact hle

/-- A queue that the loop finds full. -/
theorem Watched.Sound.full (h : s.Sound busy Holds) {w : W} {len : ℕ} (hpc : s.state.pc = .fill w len)
    (hlimit : s.state.belowMax len = false) : s.Full := by
  have hcurrent := h.current
  unfold Watched.Current at hcurrent
  rw [hpc] at hcurrent
  unfold State.belowMax at hlimit
  split at hlimit
  · rename_i max hmax
    have hle : max.1 ≤ len := Nat.le_of_not_lt (of_decide_eq_false hlimit)
    exact ⟨max, hmax, le_trans (Nat.add_le_add_right hle _) hcurrent.2⟩
  · cases hlimit

/-- The result of the queue is none, or an item, as the adaptor makes of it. -/
theorem conclude_releases (v : State Q) (r : PollNext (Except E T)) :
    (v.conclude r).releases = r.releases := by
  unfold State.conclude
  split
  · split <;> rfl
  · rfl

theorem of_conclude_pending {v : State Q} {r : PollNext (Except E T)} (h : v.conclude r = .pending) :
    outputOf r = [] := by
  cases r with
  | pending => rfl
  | unwound => rfl
  | ready o =>
      cases o with
      | none => rfl
      | some o => cases h

/-- **Every step keeps track of where the base stands.** -/
theorem Watched.Rests.move (h : s.Rests) (hsound : s.Sound busy Holds) {a : Act Q} {v : State Q}
    (hm : Move s.state a v) : (s.after a v).Rests := by
  cases hm with
  | poll_next w hpc =>
      rw [after_told (.poll_next w) [] nofun rfl]
      trivial
  | @full w len q hpc hquiet hlimit hq =>
      rw [after_told .own [] nofun (told_own_fill hpc)]
      obtain ⟨max, hmax, hle⟩ := hsound.full hpc hlimit
      refine Or.inr (Or.inr ⟨max, hmax, ?_⟩)
      rw [log_told, List.append_nil]
      exact hle
  | @ended w len q hpc hquiet hend hq =>
      rw [after_told .own [] nofun (told_own_fill hpc)]
      exact Or.inr (Or.inl hend)
  | @future w len i fut q hb hq =>
      rw [after_told (.base i (.ready (some (.ok fut)))) [.base (.ready (some (.ok fut)))] nofun rfl]
      unfold Watched.Rests
      dsimp only [State.withQueue]
      rw [hb.pc]
      trivial
  | @error w len i e hb =>
      rw [after_told (.base i (.ready (some (.error e)))) [.base (.ready (some (.error e)))] nofun rfl]
      exact nofun
  | @ends w len i q hb hq =>
      rw [after_told (.base i (.ready none)) [.base (.ready none)] nofun rfl]
      exact Or.inr (Or.inl rfl)
  | @pending w len i q hb hq =>
      rw [after_told (.base i .pending) [.base .pending] nofun rfl]
      exact Or.inl (List.mem_append_right _ List.mem_cons_self)
  | @unwinds w len i hb =>
      rw [after_told (.base i .unwound) [.base .unwound] nofun rfl]
      exact nofun
  | @concludes w r q hpc hr hq =>
      unfold Watched.Rests at h
      rw [hpc] at h
      rw [after_told .own [.queue r] nofun (told_own_queue hpc hr)]
      intro hpending
      refine h.told (log_told _ _ _) rfl ?_ rfl rfl
      show outputOf r ++ [] = []
      rw [List.append_nil]
      exact of_conclude_pending hpending
  | @queue a q hruns hq =>
      rw [after_told (.queue a) [] nofun rfl]
      unfold Watched.Rests Watched.BaseRests Watched.Full
      rw [log_told, List.append_nil, List.append_nil]
      exact h
  | @ret r hpc =>
      unfold Watched.Rests at h
      rw [hpc] at h
      rw [after_ret hpc]
      intro c hc hpending
      rw [List.getLast?_concat] at hc
      cases hc
      have htold := (h hpending).told ((log_ret r _).trans (List.append_nil _).symm) rfl rfl rfl rfl
      rw [List.append_nil] at htold
      exact htold

/-- What a call that returned `Pending` says of the base: it had nothing in that call, it
has ended, or the queue is full. -/
def Watched.BaseWaits (s : Watched Q) (c : Call E F T) : Prop :=
  .base .pending ∈ c.answers ∨ s.state.stream.is_terminated = true ∨
    ∃ max, s.state.max = some max ∧ max.1 ≤ s.state.len

/-- Between calls, after one that returned `Pending`. -/
theorem Watched.Rests.waits (hQ : Q.Delivers polls busy overflows Agrees Holds)
    (hsound : s.Sound busy Holds) (h : s.Rests) (hpc : s.state.pc = .idle) {c : Call E F T}
    (hlast : s.calls.getLast? = some c) (hpending : c.result = .pending) : s.BaseWaits c := by
  have hbusy := hsound.busy
  unfold Watched.Rests at h
  rw [hpc] at h hbusy
  refine (h c hlast hpending).imp_right (Or.imp_right ?_)
  rintro ⟨max, hmax, hle⟩
  have hlen := hQ.len_eq hsound.queue hbusy
  refine ⟨max, hmax, ?_⟩
  unfold State.len
  omega

/-- A run without unwinding polls. -/
theorem Watched.rests_of_run (hQ : Q.Delivers polls busy overflows Agrees Holds) {n : Option ℕ}
    {ls : List (Act Q)}
    (hallowed : Transition.Along Watched.step (Allowed polls overflows Agrees) (Watched.new Q n) ls)
    (hrun : Transition.run Watched.step (Watched.new Q n) ls = some s) :
    s.Sound busy Holds ∧ s.Rests := by
  refine Transition.run_invariant_along (I := fun s => s.Sound busy Holds ∧ s.Rests) ?_ hallowed
    ⟨.new hQ n, nofun⟩ hrun
  rintro u a u' ha ⟨hsound, hrests⟩ hs
  obtain ⟨v, hv, rfl⟩ := Option.map_eq_some_iff.mp hs
  have hm := move_of_step hv
  exact ⟨hsound.move hQ ha hm, hrests.move hsound hm⟩

namespace Observed

variable {x : Observed Q}

/-- **Every step keeps the queue at rest, or a poll of it owed.** -/
theorem tended_move (hT : Q.Tends busy Holds pendedAfter Owes) (h : x.Tended Owes)
    (hsound : x.watched.Sound busy Holds) {a : Act Q} {v : State Q} (hm : Move x.watched.state a v) :
    Tended Owes { watched := x.watched.after a v
                  pended := x.watched.state.pendedAfter pendedAfter x.pended a } := by
  refine ⟨?_, h.rests.move hsound hm⟩
  have howes := h.owes
  cases hm with
  | poll_next w hpc =>
      rw [after_told (.poll_next w) [] nofun rfl]
      exact hT.imp howes fun _ => trivial
  | @full w len q hpc hquiet hlimit hq =>
      rw [after_told .own [] nofun (told_own_fill hpc)]
      exact hT.poll_next howes hsound.queue hq
  | @ended w len q hpc hquiet hend hq =>
      rw [after_told .own [] nofun (told_own_fill hpc)]
      exact hT.poll_next howes hsound.queue hq
  | @future w len i fut q hb hq =>
      have hbusy := hsound.busy
      rw [hb.pc] at hbusy
      rw [after_told (.base i (.ready (some (.ok fut)))) [.base (.ready (some (.ok fut)))] nofun rfl]
      unfold Watched.reason
      dsimp only [State.withQueue]
      rw [hb.pc]
      exact hT.push howes hsound.queue hbusy hq
  | @error w len i e hb =>
      rw [after_told (.base i (.ready (some (.error e)))) [.base (.ready (some (.error e)))] nofun rfl]
      exact hT.imp howes fun _ => rfl
  | @ends w len i q hb hq =>
      rw [after_told (.base i (.ready none)) [.base (.ready none)] nofun rfl]
      exact hT.poll_next howes hsound.queue hq
  | @pending w len i q hb hq =>
      rw [after_told (.base i .pending) [.base .pending] nofun rfl]
      exact hT.poll_next howes hsound.queue hq
  | @unwinds w len i hb =>
      rw [after_told (.base i .unwound) [.base .unwound] nofun rfl]
      exact hT.imp howes fun _ => rfl
  | @concludes w r q hpc hr hq =>
      unfold Watched.reason at howes
      rw [hpc] at howes
      rw [after_told .own [.queue r] nofun (told_own_queue hpc hr)]
      refine hT.imp (hT.ret howes hsound.queue hr hq) fun hreleases => ?_
      show (x.watched.state.conclude r).releases = true
      rw [conclude_releases]
      exact hreleases
  | @queue a q hruns hq =>
      rw [after_told (.queue a) [] nofun rfl]
      exact hT.runs howes hsound.queue hruns hq
  | @ret r hpc =>
      unfold Watched.reason at howes
      rw [hpc] at howes
      rw [after_ret hpc]
      refine hT.imp howes fun hreleases c hc => ?_
      rw [List.getLast?_concat] at hc
      cases hc
      exact hreleases

/-- A run without unwinding polls that is observed from the start. -/
theorem tended_of_run (hQ : Q.Delivers polls busy overflows Agrees Holds)
    (hT : Q.Tends busy Holds pendedAfter Owes) {n : Option ℕ} {ls : List (Act Q)}
    (hallowed : Transition.Along (step pendedAfter)
      (fun x a => Allowed polls overflows Agrees x.watched a) (new Q n) ls)
    (hrun : Transition.run (step pendedAfter) (new Q n) ls = some x) :
    x.watched.Sound busy Holds ∧ x.Tended Owes := by
  refine Transition.run_invariant_along (I := fun x => x.watched.Sound busy Holds ∧ x.Tended Owes) ?_
    hallowed ⟨.new hQ n, hT.new _ _, nofun⟩ hrun
  rintro x a x' ha ⟨hsound, htended⟩ hstep
  obtain ⟨watched, hwatched, rfl⟩ := Option.map_eq_some_iff.mp hstep
  obtain ⟨v, hv, rfl⟩ := Option.map_eq_some_iff.mp hwatched
  have hm := move_of_step hv
  exact ⟨hsound.move hQ ha hm, tended_move hT htended hsound hm⟩

/-- Between calls, after one that returned `Pending`, the queue owes nothing but to the
waker it has called. -/
theorem Tended.asleep (hT : Q.Tends busy Holds pendedAfter Owes) (h : x.Tended Owes)
    (hpc : x.watched.state.pc = .idle) {c : Call E F T}
    (hlast : x.watched.calls.getLast? = some c) (hpending : c.result = .pending) :
    Owes False x.pended x.watched.state.in_progress_queue := by
  have howes := h.owes
  unfold Watched.reason at howes
  rw [hpc] at howes
  refine hT.imp howes fun hall => ?_
  have hreleases := hall c hlast
  rw [hpending] at hreleases
  cases hreleases

/-- Every run can be observed. -/
theorem exists_run (pendedAfter : Q.State → (ℕ → Bool) → Q.Act → ℕ → Bool) {ls : List (Act Q)} :
    ∀ (x : Observed Q) {s : Watched Q},
      Transition.Along Watched.step (Allowed polls overflows Agrees) x.watched ls →
      Transition.run Watched.step x.watched ls = some s →
      ∃ x', Transition.run (step pendedAfter) x ls = some x' ∧ x'.watched = s ∧
        Transition.Along (step pendedAfter) (fun x a => Allowed polls overflows Agrees x.watched a)
          x ls := by
  induction ls with
  | nil =>
      intro x s _ hrun
      rw [Transition.run_nil, Option.some.injEq] at hrun
      exact ⟨x, rfl, hrun, trivial⟩
  | cons a ls ih =>
      intro x s hallowed hrun
      rw [Transition.run_cons, Option.bind_eq_some_iff] at hrun
      obtain ⟨u, hu, hrun⟩ := hrun
      obtain ⟨ha, hrest⟩ := hallowed
      have hstep : step pendedAfter x a = some
          { watched := u, pended := x.watched.state.pendedAfter pendedAfter x.pended a } := by
        unfold step
        rw [hu]
        rfl
      obtain ⟨x', hx', hsame, hallowed'⟩ :=
        ih { watched := u, pended := x.watched.state.pendedAfter pendedAfter x.pended a }
          (hrest u hu) hrun
      refine ⟨x', ?_, hsame, ha, fun y hy => ?_⟩
      · rw [Transition.run_cons, hstep]
        exact hx'
      · rw [hstep] at hy
        cases hy
        exact hallowed'

end Observed

end Buffered

open Buffered (Watched Allowed)

/-- **The buffering adaptors sleep only when nothing can be done**, for every limit, every
base, every behaviour of the futures that does not unwind, and every interleaving with
their wakers. Between calls, when the last one returned `Pending`, and the waker it
registered with the queue has not been called since nor is about to be: the base had
nothing in that very call, has ended, or is withheld by a full queue; every future that is
managed has answered pending and has not been woken since its last poll; and `TryBuffered`
keeps back no output whose turn it is. -/
theorem buffered_pending_only_over_pending {E T F W : Type} {A : AtomicWaker W} (hA : A.Contract)
    (Agrees : F → Except E T → Prop) (n : Option ℕ) :
    (∀ ls (x : Buffered.Observed (InProgressQueue.ordered F (Except E T) W A)),
      Transition.Along (Buffered.Observed.step FuturesOrdered.State.pendedAfter)
        (fun x a => Allowed InProgressQueue.orderedPolls InProgressQueue.orderedOverflows Agrees
          x.watched a) (.new _ n) ls →
      Transition.run (Buffered.Observed.step FuturesOrdered.State.pendedAfter) (.new _ n) ls = some x →
      ∀ c, x.watched.state.pc = .idle → x.watched.calls.getLast? = some c → c.result = .pending →
        (FuturesOrdered.State.in_progress_queue x.watched.state.in_progress_queue).Undisturbed →
        x.watched.BaseWaits c ∧
          (FuturesOrdered.State.in_progress_queue x.watched.state.in_progress_queue).AllPended
            x.pended ∧
          FuturesOrdered.State.KeepsNothing x.watched.state.in_progress_queue) ∧
    (∀ ls (x : Buffered.Observed (InProgressQueue.unordered F (Except E T) W A)),
      Transition.Along (Buffered.Observed.step FuturesUnordered.State.pendedAfter)
        (fun x a => Allowed InProgressQueue.unorderedPolls (fun _ => False) Agrees x.watched a)
        (.new _ n) ls →
      Transition.run (Buffered.Observed.step FuturesUnordered.State.pendedAfter) (.new _ n) ls =
        some x →
      ∀ c, x.watched.state.pc = .idle → x.watched.calls.getLast? = some c → c.result = .pending →
        FuturesUnordered.State.Undisturbed x.watched.state.in_progress_queue →
        x.watched.BaseWaits c ∧
          FuturesUnordered.State.AllPended x.pended x.watched.state.in_progress_queue) := by
  constructor
  · intro ls x hallowed hrun c hpc hlast hpending hquiet
    have hQ := InProgressQueue.ordered_delivers (W := W) (A := A) Agrees
    have hT := InProgressQueue.ordered_tends Agrees hA
    obtain ⟨hsound, htended⟩ := Buffered.Observed.tended_of_run hQ hT hallowed hrun
    have howes := htended.asleep hT hpc hlast hpending
    have hbase := htended.rests.waits hQ hsound hpc hlast hpending
    have hbusy := hsound.busy
    rw [hpc] at hbusy
    have hidle := InProgressQueue.ordered_idle hbusy
    obtain ⟨d, -, hrel⟩ := FuturesOrdered.State.Delivery.deque hsound.queue
    have howner := hrel.tracks.owner_idle fun w hw => nomatch hidle.symm.trans hw
    have hset := howes.owes
    unfold FuturesOrdered.State.Owes at hset
    rw [hidle] at hset
    exact ⟨hbase, hset.asleep howner id hquiet, howes.front hidle id⟩
  · intro ls x hallowed hrun c hpc hlast hpending hquiet
    have hQ := InProgressQueue.unordered_delivers (W := W) (A := A) Agrees
    have hT := InProgressQueue.unordered_tends Agrees hA
    obtain ⟨hsound, htended⟩ := Buffered.Observed.tended_of_run hQ hT hallowed hrun
    have howes := htended.asleep hT hpc hlast hpending
    have hbase := htended.rests.waits hQ hsound hpc hlast hpending
    have hbusy := hsound.busy
    rw [hpc] at hbusy
    exact ⟨hbase, howes.asleep (InProgressQueue.unordered_idle hbusy) id hquiet⟩

/-- One future pends under a limit of one: the second call asks the queue only. -/
def orderedAsleep : List (Buffered.Act (InProgressQueue.ordered ℕ (Except ℕ ℕ) ℕ (.cell ℕ))) :=
  List.flatten [
    [.poll_next 9, .base 0 (.ready (some (.ok 5)))], List.replicate 4 (.queue (.thread 0)),
    [.base 0 .pending, .queue .own], List.replicate 12 (.queue .owner),
    [.queue (.polled (.pending 5))], List.replicate 3 (.queue .owner),
    [.queue .own, .own, .ret, .poll_next 9, .own, .queue .own], List.replicate 3 (.queue .owner),
    [.queue .own, .own, .ret]]

/-- The same with `TryBufferUnordered`. -/
def unorderedAsleep :
    List (Buffered.Act (InProgressQueue.unordered ℕ (Except ℕ ℕ) ℕ (.cell ℕ))) :=
  List.flatten [
    [.poll_next 9, .base 0 (.ready (some (.ok 5)))], List.replicate 4 (.queue (.thread 0)),
    [.base 0 .pending], List.replicate 12 (.queue .owner),
    [.queue (.polled (.pending 5))], List.replicate 3 (.queue .owner),
    [.own, .ret, .poll_next 9, .own], List.replicate 3 (.queue .owner), [.own, .ret]]

theorem buffered_pending_only_over_pending_full :
    (∃ x : Buffered.Observed (InProgressQueue.ordered ℕ (Except ℕ ℕ) ℕ (.cell ℕ)),
      Transition.run (Buffered.Observed.step FuturesOrdered.State.pendedAfter) (.new _ (some 1))
          orderedAsleep = some x ∧
        (FuturesOrdered.State.in_progress_queue x.watched.state.in_progress_queue).len = 1 ∧
        (FuturesOrdered.State.in_progress_queue x.watched.state.in_progress_queue).AllPended
          x.pended ∧
        FuturesOrdered.State.KeepsNothing x.watched.state.in_progress_queue) ∧
    ∃ x : Buffered.Observed (InProgressQueue.unordered ℕ (Except ℕ ℕ) ℕ (.cell ℕ)),
      Transition.run (Buffered.Observed.step FuturesUnordered.State.pendedAfter) (.new _ (some 1))
          unorderedAsleep = some x ∧
        FuturesUnordered.State.len x.watched.state.in_progress_queue = 1 ∧
        FuturesUnordered.State.AllPended x.pended x.watched.state.in_progress_queue := by
  constructor
  · refine ⟨_, rfl, rfl, ?_⟩
    refine ((buffered_pending_only_over_pending (AtomicWaker.cell_contract ℕ)
      (fun fut o => .ok fut = o) (some 1)).1 orderedAsleep _
      (Transition.along_of_isSome (by decide +kernel)) rfl _ rfl rfl rfl ⟨?_, fun i => ?_⟩).2
    · rintro ⟨w, hw, hin⟩
      cases hw
      exact absurd hin (by decide)
    · cases i <;> rfl
  · refine ⟨_, rfl, rfl, ?_⟩
    refine ((buffered_pending_only_over_pending (AtomicWaker.cell_contract ℕ)
      (fun fut o => .ok fut = o) (some 1)).2 unorderedAsleep _
      (Transition.along_of_isSome (by decide +kernel)) rfl _ rfl rfl rfl ⟨?_, fun i => ?_⟩).2
    · rintro ⟨w, hw, hin⟩
      cases hw
      exact absurd hin (by decide)
    · cases i <;> rfl

end TokioStreamUtil
