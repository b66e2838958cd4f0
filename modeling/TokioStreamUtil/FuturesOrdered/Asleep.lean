/-
When `FuturesOrdered` may sleep.

Inside its loop the queue polls its set until the set has nothing more to give, so what
the set owes is all that the queue owes, and its own reasons for a poll count between the
calls of the set only (`Pc.reason`). What it keeps back in `queued_outputs` is behind an
output that is still to come.
-/
import TokioStreamUtil.FuturesOrdered.Unwinding
import TokioStreamUtil.FuturesUnordered.Asleep

set_option autoImplicit false

namespace TokioStreamUtil.FuturesOrdered

open FuturesUnordered (Polled PollNext move_of_step)

variable {F O W : Type} {A : AtomicWaker W}

/-! ## Who owes a poll -/

/-- The reasons for a poll of the set, when `reason` is one for a poll of the queue. -/
def Pc.reason (reason : Prop) : Pc O W → Prop
  | .idle => reason
  | .peek _ => True
  | .loop _ => False
  | .done r => r.releases = true

/-- The queue owes nobody a poll, unless there is a `reason` or its waker has been called;
`pended` are the tasks whose future has answered pending. -/
def State.Owes (reason : Prop) (pended : ℕ → Bool) (s : State F O W A) : Prop :=
  s.in_progress_queue.Owes (s.pc.reason reason) pended

/-- Which tasks have pended, after the step `a`. -/
def State.pendedAfter (s : State F O W A) (pended : ℕ → Bool) : Act F O W → ℕ → Bool
  | .polled (.pending _) =>
      match s.in_progress_queue.owner with
      | .poll _ (.poll t) => Function.update pended t true
      | _ => pended
  | _ => pended

variable {s s' : State F O W A} {d : Deque O} {reason reason' : Prop} {pended : ℕ → Bool}

/-- Outside the loop the set is idle. -/
theorem Tracks.owner_idle (h : Tracks s d) (hpc : ∀ w, s.pc ≠ .loop w) :
    s.in_progress_queue.owner = .idle :=
  FuturesUnordered.Owner.eq_idle (h.notLoop hpc)

/-- A future is polled inside the loop only. -/
theorem Tracks.loop_of_polled (h : Tracks s d) {r : Polled F O} (hs : stepPolled s r = some s') :
    ∃ w, s'.pc = .loop w := by
  unfold stepPolled at hs
  split at hs
  · rename_i lv t ho
    split at hs
    · cases hs
      by_contra hnot
      have hidle := h.notLoop fun w hw => hnot ⟨w, hw⟩
      rw [ho] at hidle
      cases hidle
    · cases hs
  · cases hs

namespace State.Owes

theorem new (reason : Prop) (pended : ℕ → Bool) : (State.new : State F O W A).Owes reason pended :=
  FuturesUnordered.State.Owes.new reason pended

theorem imp (h : s.Owes reason pended) (hreason : reason → reason') : s.Owes reason' pended := by
  refine FuturesUnordered.State.Owes.imp h ?_
  cases s.pc with
  | idle => exact hreason
  | _ => exact fun h => h

/-- Inside a call the reasons for one do not count. -/
theorem of_busy (h : s.Owes reason pended) (hpc : s.pc ≠ .idle) : s.Owes reason' pended := by
  refine FuturesUnordered.State.Owes.imp h ?_
  cases hs : s.pc with
  | idle => exact absurd hs hpc
  | _ => exact fun h => h

/-- A future is pushed into an idle set. -/
theorem push (hA : A.Contract) (h : s.Owes reason pended) (ht : Tracks s d) (hpc : s.pc = .idle)
    {i : ℕ} (hi : s.in_progress_queue.threads i = .idle) (wrapped : Ordered F) (hreason : reason') :
    (s.push i wrapped).Owes reason' pended := by
  show FuturesUnordered.State.Owes (s.pc.reason reason') _ _
  rw [hpc]
  exact FuturesUnordered.State.Owes.push hA h wrapped hi
    (ht.owner_idle fun w hw => by rw [hpc] at hw; cases hw) hreason

theorem push_back (hA : A.Contract) (h : s.Owes reason pended) (ht : Tracks s d) {i : ℕ} {future : F}
    (hs : step s (.push_back i future) = some s') (hreason : reason') : s'.Owes reason' pended := by
  simp only [step, Option.ite_none_right_eq_some, Option.some.injEq] at hs
  obtain ⟨⟨hpc, -, hi⟩, rfl⟩ := hs
  exact h.push hA ht (Pc.eq_idle hpc) hi _ hreason

theorem push_front (hA : A.Contract) (h : s.Owes reason pended) (ht : Tracks s d) {i : ℕ} {future : F}
    (hs : step s (.push_front i future) = some s') (hreason : reason') : s'.Owes reason' pended := by
  simp only [step, Option.ite_none_right_eq_some, Option.some.injEq] at hs
  obtain ⟨⟨hpc, -, hi⟩, rfl⟩ := hs
  exact h.push hA ht (Pc.eq_idle hpc) hi _ hreason

/-- `poll_next` begins. -/
theorem poll_next (h : s.Owes reason pended) {w : W} (hs : step s (.poll_next w) = some s')
    (reason' : Prop) : s'.Owes reason' pended := by
  simp only [step, Option.ite_none_right_eq_some, Option.some.injEq] at hs
  obtain ⟨-, rfl⟩ := hs
  exact FuturesUnordered.State.Owes.imp h fun _ => trivial

/-- **A step of `poll_next` itself.** -/
theorem own (hA : A.Contract) (h : s.Owes reason pended) (ht : Tracks s d)
    (hs : stepOwn s = some s') : s'.Owes reason pended := by
  unfold stepOwn at hs
  split at hs
  · cases hs
  · rename_i w hpc
    cases hs
    have hset : s.in_progress_queue.Owes True pended := by
      refine FuturesUnordered.State.Owes.imp h fun _ => trivial
    have hpoll : (s.pollSet w).Owes reason pended :=
      hset.poll_next hA w (ht.owner_idle fun v hv => by rw [hpc] at hv; cases hv)
        (ht.quiet (by rw [hpc]; rfl)) _
    unfold State.peekQueued
    split
    · split
      · exact hset.imp fun _ => rfl
      · exact hpoll
    · exact hpoll
  · rename_i w hpc
    split at hs
    · rename_i lv r ho
      cases hs
      have hloop : s.in_progress_queue.Owes False pended := by
        refine FuturesUnordered.State.Owes.imp h ?_
        rw [hpc]
        exact id
      have hret : (s.in_progress_queue.ret lv r).Owes (r.releases = true) pended :=
        hloop.ret hA ho fun hr => hr.resolve_right id
      have hquiet := ht.quiet (by rw [hpc]; rfl)
      unfold State.loopBody
      split
      · split
        · exact hret.imp fun _ => rfl
        · exact hret.poll_next hA w rfl hquiet _
      · exact hret
      · exact hret
      · exact hret
    · cases hs
  · cases hs

/-- A step of the machinery of the set. -/
theorem inner (hA : A.Contract) (h : s.Owes reason pended)
    {a : FuturesUnordered.Act (Ordered F) (Ordered O) W} (ha : a.inner = true)
    (hs : stepSet s a = some s') : s'.Owes reason pended := by
  obtain ⟨q, hq, rfl⟩ := Option.map_eq_some_iff.mp hs
  exact FuturesUnordered.State.Owes.inner hA h ha (move_of_step hq)

/-- A future answers. -/
theorem polled (hA : A.Contract) (h : s.Owes reason pended) {r : Polled F O}
    (hs : stepPolled s r = some s') :
    s'.Owes reason (s.pendedAfter pended (.polled r)) := by
  unfold stepPolled at hs
  split at hs
  · rename_i lv t ho
    split at hs
    · rename_i fut hfut
      cases hs
      have hpolled := FuturesUnordered.State.Owes.polled hA h ho (Ordered.poll fut.index r)
      unfold FuturesUnordered.State.pendedAfter at hpolled
      unfold State.pendedAfter
      rw [ho] at hpolled ⊢
      cases r <;> exact hpolled
    · cases hs
  · cases hs

/-- `poll_next` returns. -/
theorem ret (h : s.Owes reason pended) {r : PollNext O} (hpc : s.pc = .done r)
    (hs : step s .ret = some s') (hreason : r.releases = true → reason') :
    s'.Owes reason' pended := by
  simp only [step, hpc, Option.some.injEq] at hs
  subst hs
  refine FuturesUnordered.State.Owes.imp h ?_
  rw [hpc]
  exact hreason

end State.Owes

/-! ## What is kept back -/

/-- The queue keeps back no output whose turn it is. -/
def State.KeepsNothing (s : State F O W A) : Prop :=
  ∀ y ∈ s.queued_outputs.elems, y.index ≠ s.next_outgoing_index

/-- What the last result says of a queue that is not at work: it is the one `poll_next`
is about to return, or has returned, and after `Pending` no output is kept back whose turn
it is. -/
structure State.Told (s : State F O W A) : Prop where
  last : ∀ r, s.pc = .done r → s.events.getLast? = some (.result r)
  front : s.pc = .idle ∨ s.pc = .done .pending → s.events.getLast? = some (.result .pending) →
    s.KeepsNothing

namespace State.Told

theorem new : (State.new : State F O W A).Told := ⟨nofun, nofun⟩

/-- The queue is at work. -/
theorem busy (hidle : s.pc ≠ .idle) (hdone : ∀ r, s.pc ≠ .done r) : s.Told :=
  ⟨fun r hr => absurd hr (hdone r), fun hpc => absurd hpc (not_or.mpr ⟨hidle, hdone _⟩)⟩

/-- The last thing that happened is not a result. -/
theorem pushed (hpc : s.pc = .idle) {e : Event O} (he : s.events.getLast? = some e)
    (hresult : ∀ r, e ≠ .result r) : s.Told := by
  constructor
  · intro r hr
    rw [hpc] at hr
    cases hr
  · intro _ hlast
    rw [he] at hlast
    exact absurd (Option.some.inj hlast) (hresult _)

/-- `poll_next` comes to a result. If it is `Pending`, nothing was kept back before. -/
theorem settle {r : PollNext O}
    (hfront : r = .pending → s.KeepsNothing) : (s.settle r).Told := by
  have hlast : (s.settle r).events.getLast? = some (.result r) := List.getLast?_concat
  constructor
  · rintro r' ⟨⟩
    exact hlast
  · intro _ hpending
    rw [hlast] at hpending
    cases hpending
    exact hfront rfl

theorem own (ht : Tracks s d) (hs : stepOwn s = some s') : s'.Told := by
  unfold stepOwn at hs
  split at hs
  · cases hs
  · rename_i w hpc
    cases hs
    have hpoll : (s.pollSet w).Told := busy (by rintro ⟨⟩) (by rintro _ ⟨⟩)
    unfold State.peekQueued
    split
    · split
      · exact settle (by rintro ⟨⟩)
      · exact hpoll
    · exact hpoll
  · rename_i w hpc
    split at hs
    · rename_i lv r ho
      cases hs
      unfold State.loopBody
      split
      · split
        · exact settle (by rintro ⟨⟩)
        · exact busy (by rintro ⟨⟩) (by rintro _ ⟨⟩)
      · exact settle fun _ => ht.front w hpc
      · exact settle (by rintro ⟨⟩)
      · exact settle (by rintro ⟨⟩)
    · cases hs
  · cases hs

/-- Nothing of this changes. -/
theorem same (h : s.Told) (hpc : s'.pc = s.pc) (hevents : s'.events = s.events)
    (helems : s'.queued_outputs = s.queued_outputs)
    (hnext : s'.next_outgoing_index = s.next_outgoing_index) : s'.Told := by
  refine ⟨?_, ?_⟩
  · rw [hpc, hevents]
    exact h.last
  · unfold State.KeepsNothing
    rw [hpc, hevents, helems, hnext]
    exact h.front

theorem step (h : s.Told) (ht : Tracks s d) {a : Act F O W} (hs : FuturesOrdered.step s a = some s') :
    s'.Told := by
  have hinner : ∀ {b : FuturesUnordered.Act (Ordered F) (Ordered O) W}, stepSet s b = some s' →
      s'.Told := by
    intro b hs
    obtain ⟨q, -, rfl⟩ := Option.map_eq_some_iff.mp hs
    exact h.same rfl rfl rfl rfl
  cases a with
  | push_back i future =>
      simp only [FuturesOrdered.step, Option.ite_none_right_eq_some, Option.some.injEq] at hs
      obtain ⟨⟨hpc, -⟩, rfl⟩ := hs
      exact pushed (Pc.eq_idle hpc) List.getLast?_concat (by rintro _ ⟨⟩)
  | push_front i future =>
      simp only [FuturesOrdered.step, Option.ite_none_right_eq_some, Option.some.injEq] at hs
      obtain ⟨⟨hpc, -⟩, rfl⟩ := hs
      exact pushed (Pc.eq_idle hpc) List.getLast?_concat (by rintro _ ⟨⟩)
  | poll_next w =>
      simp only [FuturesOrdered.step, Option.ite_none_right_eq_some, Option.some.injEq] at hs
      obtain ⟨-, rfl⟩ := hs
      exact busy (by rintro ⟨⟩) (by rintro _ ⟨⟩)
  | own => exact own ht hs
  | wake i t => exact hinner hs
  | thread i => exact hinner hs
  | owner => exact hinner hs
  | polled r =>
      obtain ⟨w, hpc⟩ := ht.loop_of_polled hs
      refine busy (fun hidle => ?_) fun r' hdone => ?_
      · cases hpc.symm.trans hidle
      · cases hpc.symm.trans hdone
  | ret =>
      simp only [FuturesOrdered.step] at hs
      split at hs
      · rename_i r hpc
        cases hs
        refine ⟨(by rintro _ ⟨⟩), fun _ hlast => h.front (Or.inr ?_) hlast⟩
        have hr := (h.last r hpc).symm.trans hlast
        cases hr
        exact hpc
      · cases hs

/-- `poll_next` returns without an output. -/
theorem ret (h : s.Told) {r : PollNext O} (hpc : s.pc = .done r) (hs : FuturesOrdered.step s .ret = some s')
    (hr : r = .pending) : s'.KeepsNothing := by
  subst hr
  simp only [FuturesOrdered.step, hpc, Option.some.injEq] at hs
  subst hs
  exact h.front (Or.inr hpc) (h.last _ hpc)

end State.Told

/-! ## The queue by itself -/

/-- A queue, with the tasks whose future has answered pending. -/
structure Observed (F O W : Type) (A : AtomicWaker W) where
  queue : State F O W A
  pended : ℕ → Bool

/-- The caller has a reason to poll: the last thing that happened is a push, or a call that
did not come back empty-handed. -/
def State.Invites (s : State F O W A) : Prop :=
  ∀ r, s.events.getLast? = some (.result r) → r.releases = true

namespace Observed

def new : Observed F O W A := { queue := .new, pended := fun _ => false }

/-- The queue takes a step. -/
def step (x : Observed F O W A) (a : Act F O W) : Option (Observed F O W A) :=
  (FuturesOrdered.step x.queue a).map fun queue =>
    { queue := queue, pended := x.queue.pendedAfter x.pended a }

/-- What is known of a queue that is observed from the start. -/
structure Tended (x : Observed F O W A) : Prop where
  owes : x.queue.Owes x.queue.Invites x.pended
  told : x.queue.Told

theorem tended_step (hA : A.Contract) {x x' : Observed F O W A} {d : Deque O} (h : x.Tended)
    (ht : Tracks x.queue d) {a : Act F O W} (hs : step x a = some x') : x'.Tended := by
  obtain ⟨queue, hq, rfl⟩ := Option.map_eq_some_iff.mp hs
  have htold := h.told.step ht hq
  refine ⟨?_, htold⟩
  have hinner : ∀ {b : FuturesUnordered.Act (Ordered F) (Ordered O) W}, b.inner = true →
      stepSet x.queue b = some queue → queue.Owes queue.Invites x.pended := by
    intro b hb hset
    have hsame := State.Owes.inner hA h.owes hb hset
    obtain ⟨q, -, rfl⟩ := Option.map_eq_some_iff.mp hset
    exact hsame
  -- what was pushed is a reason to poll
  have hpushed : ∀ {es : List (Event O)} {e : Event O}, (∀ r, e ≠ .result r) →
      ∀ r, (es ++ [e]).getLast? = some (.result r) → r.releases = true := by
    intro es e he r hr
    rw [List.getLast?_concat] at hr
    exact absurd (Option.some.inj hr) (he r)
  cases a with
  | push_back i future =>
      refine h.owes.push_back hA ht hq ?_
      simp only [FuturesOrdered.step, Option.ite_none_right_eq_some, Option.some.injEq] at hq
      obtain ⟨-, rfl⟩ := hq
      exact hpushed (by rintro _ ⟨⟩)
  | push_front i future =>
      refine h.owes.push_front hA ht hq ?_
      simp only [FuturesOrdered.step, Option.ite_none_right_eq_some, Option.some.injEq] at hq
      obtain ⟨-, rfl⟩ := hq
      exact hpushed (by rintro _ ⟨⟩)
  | poll_next w => exact h.owes.poll_next hq _
  | own =>
      refine (h.owes.own hA ht hq).of_busy fun hidle => ?_
      rcases (own_cases hq).2.2 with ⟨-, w, hpc⟩ | ⟨r, -, hpc⟩
      · cases hpc.symm.trans hidle
      · cases hpc.symm.trans hidle
  | wake i t => exact hinner rfl hq
  | thread i => exact hinner rfl hq
  | owner => exact hinner rfl hq
  | polled r =>
      refine (h.owes.polled hA hq).of_busy fun hidle => ?_
      obtain ⟨w, hpc⟩ := ht.loop_of_polled hq
      cases hpc.symm.trans hidle
  | ret =>
      obtain ⟨r, hpc⟩ : ∃ r, x.queue.pc = .done r := by
        simp only [FuturesOrdered.step] at hq
        split at hq
        · exact ⟨_, ‹_›⟩
        · cases hq
      refine h.owes.ret hpc hq fun hr r' hlast => ?_
      simp only [FuturesOrdered.step, hpc, Option.some.injEq] at hq
      subst hq
      have heq := (h.told.last r hpc).symm.trans hlast
      cases heq
      exact hr

/-- A run that is observed from the start. -/
theorem tended_of_run (hA : A.Contract) : ∀ (ls : List (Act F O W)) (x x' : Observed F O W A)
    (d : Deque O), x.Tended → Tracks x.queue d →
    x.queue.in_progress_queue.fresh + ls.countP Act.isPush < 2 ^ 63 →
    Transition.run step x ls = some x' → x'.Tended ∧ ∃ d', Tracks x'.queue d' := by
  intro ls
  induction ls with
  | nil =>
      intro x x' d h ht _ hrun
      rw [Transition.run_nil, Option.some.injEq] at hrun
      subst hrun
      exact ⟨h, d, ht⟩
  | cons a ls ih =>
      intro x x'' d h ht hfew hrun
      rw [Transition.run_cons, Option.bind_eq_some_iff] at hrun
      obtain ⟨x', hs, hrun⟩ := hrun
      have h' := tended_step hA h ht hs
      obtain ⟨queue, hq, rfl⟩ := Option.map_eq_some_iff.mp hs
      have hfresh := fresh_step hq
      rw [List.countP_cons] at hfew
      obtain ⟨d', -, ht'⟩ := tracks_step ht hq (by omega)
      exact ih _ x'' d' h' ht' (show queue.in_progress_queue.fresh + _ < _ by omega) hrun

end Observed

/-- **`FuturesOrdered` sleeps only on futures that sleep.** In every run of `push_back`,
`push_front`, `poll_next` and wakes with fewer than `2 ^ 63` pushes, in whatever order the
futures complete, pend or unwind: between calls, when the last thing that happened is a
call that returned `Pending`, and the waker it registered has not been called since nor is
about to be, then every future of the set has answered pending and has not been woken since
its last poll, and no output is kept back whose turn it is. -/
theorem pending_only_before_pending (hA : A.Contract) (ls : List (Act F O W)) (x : Observed F O W A)
    (hrun : Transition.run Observed.step Observed.new ls = some x)
    (hfew : ls.countP Act.isPush < 2 ^ 63) (hpc : x.queue.pc = .idle)
    (hlast : x.queue.events.getLast? = some (.result .pending))
    (hquiet : x.queue.in_progress_queue.Undisturbed) :
    x.queue.in_progress_queue.AllPended x.pended ∧ x.queue.KeepsNothing := by
  have hfew' : (State.new : State F O W A).in_progress_queue.fresh + ls.countP Act.isPush < 2 ^ 63 := by
    simpa [State.new, FuturesUnordered.State.new] using hfew
  obtain ⟨htended, d, ht⟩ := Observed.tended_of_run hA ls Observed.new x Deque.new
    ⟨State.Owes.new _ _, State.Told.new⟩ Tracks.new hfew' hrun
  have howner := ht.owner_idle fun w hw => by rw [hpc] at hw; cases hw
  have howes := htended.owes
  unfold State.Owes at howes
  rw [hpc] at howes
  refine ⟨howes.asleep howner (fun hinvites => ?_) hquiet, htended.told.front (Or.inl hpc) hlast⟩
  cases hinvites .pending hlast

/-- Future 1 completes before future 0, which pends. -/
def pendedBefore : List (Act Unit ℕ ℕ) :=
  List.flatten [
    [.push_back 0 (), .thread 0, .thread 0, .thread 0, .thread 0, .push_back 0 (), .thread 0,
      .thread 0, .thread 0, .thread 0, .poll_next 9, .own],
    List.replicate 7 .owner,
    [.polled (.pending ())],
    List.replicate 12 .owner,
    [.polled (.ready 7), .owner, .owner, .own, .owner, .owner, .owner, .own, .ret]]

theorem pending_only_before_pending_two :
    ∃ x : Observed Unit ℕ ℕ (AtomicWaker.cell ℕ),
      Transition.run Observed.step Observed.new pendedBefore = some x ∧ x.queue.len = 2 ∧
        x.queue.in_progress_queue.AllPended x.pended ∧ x.queue.KeepsNothing := by
  refine ⟨_, rfl, rfl, ?_⟩
  refine pending_only_before_pending (AtomicWaker.cell_contract ℕ) pendedBefore _ rfl (by decide) rfl
    rfl ⟨?_, fun i => ?_⟩
  · rintro ⟨w, -, hin⟩
    exact List.not_mem_nil (show w ∈ ([] : List ℕ) from hin)
  · cases i <;> rfl

end TokioStreamUtil.FuturesOrdered
