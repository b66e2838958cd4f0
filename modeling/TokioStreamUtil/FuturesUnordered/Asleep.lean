/-
When `FuturesUnordered` may sleep.

`State.Owes` says of a set, for whoever holds it, that it owes a poll or is at rest:
there is some reason for it of the holder's own (`reason`), the parent waker has been
called since it was registered, or what is in the ready to run queue is on its way to
calling it. The rules below follow it through every step, so that a combinator over a set
only has to say what its reasons are.
-/
import TokioStreamUtil.FuturesUnordered.Resting

set_option autoImplicit false

namespace TokioStreamUtil.FuturesUnordered

variable {F O W : Type} {A : AtomicWaker W}

/-! ## The log of the parent wakers -/

/-- The parent waker has been called since it was registered. -/
def State.Woken (s : State F O W A) : Prop :=
  ∃ w, s.owner.registered s.hist.last = some w ∧ w ∈ s.hist.log.drop s.hist.registeredAt

/-- The parent waker has not been called since it was registered, and no `wake_by_ref` is
on its way to calling it. -/
def State.Undisturbed (s : State F O W A) : Prop :=
  ¬s.Woken ∧ ∀ i, (s.threads i).committed = false

/-- Every future of the set has answered pending, and has not been woken since its last
poll. -/
def State.AllPended (pended : ℕ → Bool) (s : State F O W A) : Prop :=
  ∀ t, s.InAll t → pended t = true ∧ s.hist.notified t = false

variable {s s' : State F O W A} {l : List ℕ}

/-- Only two moves call a parent waker. -/
theorem wakes_of_thread {i : ℕ} (h : ∀ t, s.threads i ≠ .wake t .wake) :
    s.wakes (.thread i) = [] := by
  unfold State.wakes
  dsimp only
  split
  · rename_i t hi
    exact absurd hi (h t)
  · rfl

theorem wakes_of_owner (h : ∀ lv, s.owner ≠ .poll lv .wake) : s.wakes .owner = [] := by
  unfold State.wakes
  dsimp only
  split
  · rename_i lv ho
    exact absurd ho (h lv)
  · rfl

/-- A step of the machinery logs the wakers it calls. -/
theorem log_move (hl : s.Inv l) {a : Act F O W} (hm : Move s a s') (ha : a.inner = true) :
    s'.hist.log = s.hist.log ++ s.wakes a := by
  have hthread : ∀ {i : ℕ} {log : List W}, (∀ t, s.threads i ≠ .wake t .wake) →
      log = s.hist.log → log = s.hist.log ++ s.wakes (.thread i) := by
    intro i log hi hlog
    rw [wakes_of_thread hi, List.append_nil, hlog]
  have howner : ∀ {log : List W}, (∀ lv, s.owner ≠ .poll lv .wake) →
      log = s.hist.log → log = s.hist.log ++ s.wakes .owner := by
    intro log ho hlog
    rw [wakes_of_owner ho, List.append_nil, hlog]
  cases hm with
  | push fut hi ho => cases ha
  | @produce i hp =>
      refine hthread (fun t hi => ?_) rfl
      -- who is inside an enqueue is not about to call the parent
      obtain ⟨u, hu⟩ := hl.calls.busy i hp
      rcases hl.calls.producer i u hu with hth | hth
      · rw [hi] at hth
        cases hth
      · rw [hi] at hth
        cases hth
  | endPush hi hp => exact hthread (fun t ht => by rw [hi] at ht; cases ht) rfl
  | upgrade hi ht hal => exact (List.append_nil _).symm
  | upgradeFails hal => exact (List.append_nil _).symm
  | storeWoken hi => exact hthread (fun t ht => by rw [hi] at ht; cases ht) rfl
  | swapQueued hi =>
      refine hthread (fun t ht => by rw [hi] at ht; cases ht) ?_
      unfold State.swapQueued
      split <;> rfl
  | endEnqueue hi hp => exact hthread (fun t ht => by rw [hi] at ht; cases ht) rfl
  | wakeWaker hi =>
      unfold State.wakes
      dsimp only
      rw [hi]
      rfl
  | dropInner hi =>
      refine hthread (fun t ht => by rw [hi] at ht; cases ht) ?_
      unfold State.dropInner
      dsimp only
      split
      · split <;> rfl
      · rfl
  | poll_next w ho hp => cases ha
  | register ho => exact howner (fun lv hlv => by rw [ho] at hlv; cases hlv) rfl
  | consume hrun ho =>
      refine howner (fun lv hlv => ?_) rfl
      rcases ho with ⟨lv', ho⟩ | ho
      · rw [ho] at hlv
        cases hlv
      · rw [ho] at hlv
        cases hlv
  | dequeueEmpty ho hc =>
      refine howner (fun lv hlv => by rw [ho] at hlv; cases hlv) ?_
      unfold State.dequeueEmpty
      split <;> rfl
  | dequeueInconsistent ho hc => exact howner (fun lv hlv => by rw [ho] at hlv; cases hlv) rfl
  | dequeueReleased ho hc hf => exact howner (fun lv hlv => by rw [ho] at hlv; cases hlv) rfl
  | dequeueData ho hc hf => exact howner (fun lv hlv => by rw [ho] at hlv; cases hlv) rfl
  | unlink ho => exact howner (fun lv hlv => by rw [ho] at hlv; cases hlv) rfl
  | resetQueued ho => exact howner (fun lv hlv => by rw [ho] at hlv; cases hlv) rfl
  | clearWoken ho => exact howner (fun lv hlv => by rw [ho] at hlv; cases hlv) rfl
  | polled r ho => cases ha
  | loadWoken ho => exact howner (fun lv hlv => by rw [ho] at hlv; cases hlv) rfl
  | relink ho =>
      refine howner (fun lv hlv => by rw [ho] at hlv; cases hlv) ?_
      unfold State.relink
      split <;> rfl
  | release ho => exact howner (fun lv hlv => by rw [ho] at hlv; cases hlv) rfl
  | dropFuture ho => exact howner (fun lv hlv => by rw [ho] at hlv; cases hlv) rfl
  | wakeParent ho =>
      unfold State.wakes
      dsimp only
      rw [ho]
      rfl
  | ret ho => cases ha
  | drop ho hp => cases ha
  | dropLoop ho =>
      refine howner (fun lv hlv => by rw [ho] at hlv; cases hlv) ?_
      unfold State.dropLoop
      split
      · rfl
      · split <;> rfl
  | dropRelease ho => exact howner (fun lv hlv => by rw [ho] at hlv; cases hlv) rfl
  | dropDropFuture ho => exact howner (fun lv hlv => by rw [ho] at hlv; cases hlv) rfl
  | @dropDequeued d ho hc =>
      refine howner (fun lv hlv => by rw [ho] at hlv; cases hlv) ?_
      cases d <;> rfl

/-- Where the log is marked changes only when a waker is registered. -/
theorem mark_move {a : Act F O W} (hm : Move s a s') (ha : a.inner = true)
    (hreg : s.owner.registering = false) : s'.hist.registeredAt = s.hist.registeredAt := by
  cases hm with
  | swapQueued hi => unfold State.swapQueued; split <;> rfl
  | dropInner hi =>
      unfold State.dropInner
      dsimp only
      split
      · split <;> rfl
      · rfl
  | register ho =>
      rw [ho] at hreg
      cases hreg
  | dequeueEmpty ho hc => unfold State.dequeueEmpty; split <;> rfl
  | polled r ho => cases ha
  | relink ho => unfold State.relink; split <;> rfl
  | ret ho => cases ha
  | dropLoop ho => unfold State.dropLoop; split <;> [rfl; (split <;> rfl)]
  | @dropDequeued d ho hc => cases d <;> rfl
  | _ => rfl

/-- A call keeps the waker it has registered, and the set keeps it between calls. -/
theorem registered_move {a : Act F O W} (hm : Move s a s') (ha : a.inner = true) {w : W}
    (hw : s.owner.registered s.hist.last = some w) :
    s'.owner.registered s'.hist.last = some w := by
  cases hm with
  | push fut hi ho => cases ha
  | swapQueued hi => unfold State.swapQueued; split <;> exact hw
  | dropInner hi =>
      unfold State.dropInner
      dsimp only
      split
      · rename_i ho
        rw [ho] at hw
        cases hw
      · exact hw
  | poll_next w ho hp => cases ha
  | register ho => rw [ho] at hw; cases hw
  | dequeueEmpty ho hc =>
      rw [ho] at hw
      unfold State.dequeueEmpty
      split <;> exact hw
  | dequeueInconsistent ho hc => rw [ho] at hw; exact hw
  | dequeueData ho hc hf => rw [ho] at hw; exact hw
  | unlink ho => rw [ho] at hw; exact hw
  | resetQueued ho =>
      rw [ho] at hw
      unfold State.resetQueued
      dsimp only
      split <;> exact hw
  | clearWoken ho => rw [ho] at hw; exact hw
  | polled r ho => cases ha
  | loadWoken ho => rw [ho] at hw; exact hw
  | relink ho =>
      rw [ho] at hw
      unfold State.relink
      split <;> exact hw
  | release ho => rw [ho] at hw; exact hw
  | dropFuture ho => rw [ho] at hw; exact hw
  | wakeParent ho => rw [ho] at hw; exact hw
  | ret ho => cases ha
  | drop ho hp => cases ha
  | dropLoop ho => rw [ho] at hw; cases hw
  | dropRelease ho => rw [ho] at hw; cases hw
  | dropDropFuture ho => rw [ho] at hw; cases hw
  | dropDequeued ho hc => rw [ho] at hw; cases hw
  | _ => exact hw

/-- What was woken stays so, and whoever is woken now counts, until the next registration. -/
theorem woken_move (hl : s.Inv l) (hawake : s.Wakeups) {a : Act F O W} (hm : Move s a s')
    (ha : a.inner = true) (hreg : s.owner.registering = false) :
    (s.Woken → s'.Woken) ∧
      ∀ w, s.owner.registered s.hist.last = some w → w ∈ s.wakes a → s'.Woken := by
  have hlog : s'.hist.log.drop s'.hist.registeredAt =
      s.hist.log.drop s.hist.registeredAt ++ s.wakes a := by
    rw [log_move hl hm ha, mark_move hm ha hreg]
    exact List.drop_append_of_le_length hawake.awake.mark_le
  constructor
  · rintro ⟨w, hw, hin⟩
    refine ⟨w, registered_move hm ha hw, ?_⟩
    rw [hlog]
    exact List.mem_append_left _ hin
  · intro w hw hin
    refine ⟨w, registered_move hm ha hw, ?_⟩
    rw [hlog]
    exact List.mem_append_right _ hin

/-! ## Who owes a poll -/

/-- The set owes nobody a poll, unless there is a `reason` or its parent waker has been
called; `pended` are the tasks whose future has answered pending. -/
structure State.Owes (reason : Prop) (pended : ℕ → Bool) (s : State F O W A) : Prop where
  promises : s.Promises
  rests : s.Rests (reason ∨ s.Woken)
  answered : s.Answered pended

/-- Which tasks have pended, after the step `a`. -/
def State.pendedAfter (s : State F O W A) (pended : ℕ → Bool) : Act F O W → ℕ → Bool
  | .polled (.pending _) =>
      match s.owner with
      | .poll _ (.poll t) => Function.update pended t true
      | _ => pended
  | _ => pended

namespace State.Owes

variable {reason reason' : Prop} {pended : ℕ → Bool}

theorem new (reason : Prop) (pended : ℕ → Bool) : (State.new : State F O W A).Owes reason pended :=
  ⟨promises_new, State.Rests.new _, State.Answered.new _⟩

theorem imp (h : s.Owes reason pended) (hreason : reason → reason') : s.Owes reason' pended :=
  ⟨h.promises, h.rests.imp (Or.imp_left hreason), h.answered⟩

/-- **A step of the machinery** brings no new reason. -/
theorem inner (hA : A.Contract) (h : s.Owes reason pended) {a : Act F O W} (ha : a.inner = true)
    (hm : Move s a s') : s'.Owes reason pended := by
  obtain ⟨l, hl⟩ := h.promises.inv
  refine ⟨promises_move hA h.promises hm, ?_, h.answered.inner hl ha hm⟩
  cases hreg : s.owner.registering with
  | true =>
      -- the call is about to look at the queue, whatever was owed before
      refine rests_inner hA h.promises (State.Rests.of_registering hreg _) ha hm fun w hw _ => ?_
      cases ho : s.owner with
      | poll lv pc =>
          rw [ho] at hreg hw
          cases pc with
          | register => cases hw
          | _ => cases hreg
      | _ =>
          rw [ho] at hreg
          cases hreg
  | false =>
      obtain ⟨hkept, hwakes⟩ := woken_move hl h.promises.wakeups hm ha hreg
      exact rests_inner hA h.promises (h.rests.imp (Or.imp_right hkept)) ha hm
        fun w hw hin => Or.inr (hwakes w hw hin)

/-- A future is pushed: a poll is owed. -/
theorem push (hA : A.Contract) (h : s.Owes reason pended) {i : ℕ} (fut : F)
    (hi : s.threads i = .idle) (ho : s.owner = .idle) (hreason : reason') :
    (s.push i fut).Owes reason' pended :=
  ⟨promises_move hA h.promises (.push fut hi ho), State.Rests.of_due (Or.inl hreason) _,
    h.answered.push i fut⟩

/-- A call begins: it is the poll that was owed. -/
theorem poll_next (hA : A.Contract) (h : s.Owes reason pended) (w : W) (ho : s.owner = .idle)
    (hp : s.pushing = ∅) (reason' : Prop) : (s.poll_next w).Owes reason' pended :=
  ⟨promises_move hA h.promises (.poll_next w ho hp), State.Rests.poll_next _ s w,
    h.answered.poll_next ho w⟩

/-- A future answers. -/
theorem polled (hA : A.Contract) (h : s.Owes reason pended) {lv : Locals W} {t : ℕ}
    (ho : s.owner = .poll lv (.poll t)) (r : Polled F O) :
    (s.polled lv t r).Owes reason (s.pendedAfter pended (.polled r)) := by
  have hrests := h.rests.polled ho r
  have hpromises := promises_move hA h.promises (.polled r ho)
  have hwoken : s.Woken → (s.polled lv t r).Woken := by
    rintro ⟨w, hw, hin⟩
    rw [ho] at hw
    cases r <;> exact ⟨w, hw, hin⟩
  refine ⟨hpromises, hrests.imp (Or.imp_right hwoken), ?_⟩
  cases r with
  | pending fut =>
      unfold State.pendedAfter
      dsimp only
      rw [ho]
      exact h.answered.polled_pending ho fut
  | ready o => exact h.answered.polled_release ho (r := .ready o) (fun _ hr => nomatch hr) fun _ _ => rfl
  | unwind => exact h.answered.polled_release ho (r := .unwind) (fun _ hr => nomatch hr) fun _ _ => rfl

/-- A call returns. With an output, or unwinding, it leaves a poll owed. -/
theorem ret (hA : A.Contract) (h : s.Owes reason pended) {lv : Locals W} {r : PollNext O}
    (ho : s.owner = .poll lv (.done r)) (hreason : r.releases = true ∨ reason → reason') :
    (s.ret lv r).Owes reason' pended := by
  have hpromises := promises_move hA h.promises (.ret ho)
  refine ⟨hpromises, ?_, h.answered.ret ho⟩
  cases hr : r.releases with
  | true => exact State.Rests.of_due (Or.inl (hreason (Or.inl hr))) _
  | false =>
      have hquiet : r = .ready none ∨ r = .pending := by
        cases r with
        | pending => exact Or.inr rfl
        | unwound => cases hr
        | ready o =>
            cases o with
            | none => exact Or.inl rfl
            | some o => cases hr
      refine (h.rests.ret ho hquiet).imp (Or.imp (fun h => hreason (Or.inr h)) ?_)
      rintro ⟨w, hw, hin⟩
      rw [ho] at hw
      exact ⟨w, hw, hin⟩

/-- The set is dropped, and polled no more. -/
theorem drop (hA : A.Contract) (h : s.Owes reason pended) (ho : s.owner = .idle) (hp : s.pushing = ∅)
    (hreason : reason') : (s.setOwner (.drop .loop)).Owes reason' pended := by
  refine ⟨promises_move hA h.promises (.drop ho hp), State.Rests.of_due (Or.inl hreason) _, ?_⟩
  refine h.answered.keep (fun _ hq => hq) fun t ht => ?_
  rw [ho] at ht
  cases ht

/-- **Who sleeps.** Between calls, when no poll is owed, all have pended. -/
theorem asleep (h : s.Owes reason pended) (ho : s.owner = .idle) (hreason : ¬reason)
    (hquiet : s.Undisturbed) : s.AllPended pended := fun _ ht =>
  h.rests.asleep h.promises h.answered ho (fun hdue => hdue.elim hreason hquiet.1) hquiet.2 ht

end State.Owes

/-! ## The set by itself -/

/-- A set, with what those around it know: the tasks whose future has answered pending,
and whether a future has been pushed since `poll_next` was last called. -/
structure Observed (F O W : Type) (A : AtomicWaker W) where
  set : State F O W A
  pended : ℕ → Bool
  pushed : Bool

/-- No call is in progress, and the caller has a reason to make one: it has pushed a
future, or the last call did not come back empty-handed. -/
def State.Invites (pushed : Bool) (s : State F O W A) : Prop :=
  s.owner.waker = none ∧
    (s.owner.isIdle = true → pushed = true ∨ ∀ w r, s.hist.last = some (w, r) → r.releases = true)

namespace Observed

def new : Observed F O W A := { set := .new, pended := fun _ => false, pushed := false }

/-- What is known after the step `a` has led to `set`. -/
def after (x : Observed F O W A) (a : Act F O W) (set : State F O W A) : Observed F O W A where
  set := set
  pended := x.set.pendedAfter x.pended a
  pushed :=
    match a with
    | .push _ _ => true
    | .poll_next _ => false
    | _ => x.pushed

/-- The set takes a step. -/
def step (x : Observed F O W A) (a : Act F O W) : Option (Observed F O W A) :=
  (FuturesUnordered.step x.set a).map (x.after a)

/-- The set owes a poll to a caller who has a reason for one, or is at rest. -/
def Owes (x : Observed F O W A) : Prop := x.set.Owes (x.set.Invites x.pushed) x.pended

/-- A step of the machinery. -/
theorem owes_inner (hA : A.Contract) {x : Observed F O W A} (h : x.Owes) {a : Act F O W}
    (ha : a.inner = true) {set : State F O W A} (hm : Move x.set a set) :
    set.Owes (set.Invites x.pushed) x.pended := by
  refine (h.inner hA ha hm).imp fun hinvites => ?_
  unfold State.Invites
  rw [waker_move hm ha, (frame_move hm ha).idle, last_move hm ha]
  exact hinvites

/-- **Every step keeps the set at rest, or a poll of it owed.** -/
theorem owes_step (hA : A.Contract) {x x' : Observed F O W A} (h : x.Owes) {a : Act F O W}
    (hs : step x a = some x') : x'.Owes := by
  obtain ⟨set, hset, rfl⟩ := Option.map_eq_some_iff.mp hs
  have hm := move_of_step hset
  cases a with
  | push i fut =>
      cases hm with
      | push fut hi ho =>
          refine h.push hA fut hi ho ⟨?_, fun _ => Or.inl rfl⟩
          show x.set.owner.waker = none
          rw [ho]
          rfl
  | poll_next w =>
      cases hm with
      | poll_next w ho hp => exact h.poll_next hA w ho hp _
  | polled r =>
      cases hm with
      | @polled lv t r ho =>
          refine (h.polled hA ho r).imp fun hinvites => ?_
          have hwaker := hinvites.1
          rw [ho] at hwaker
          cases hwaker
  | ret =>
      cases hm with
      | @ret lv r ho =>
          refine h.ret hA ho ?_
          rintro (hr | hinvites)
          · refine ⟨rfl, fun _ => Or.inr ?_⟩
            rintro w r' ⟨⟩
            exact hr
          · have hwaker := hinvites.1
            rw [ho] at hwaker
            cases hwaker
  | drop =>
      cases hm with
      | drop ho hp => exact h.drop hA ho hp ⟨rfl, nofun⟩
  | wake i t => exact owes_inner hA h rfl hm
  | thread i => exact owes_inner hA h rfl hm
  | owner => exact owes_inner hA h rfl hm

theorem owes_of_reachable (hA : A.Contract) {x : Observed F O W A}
    (h : Transition.Reachable step new x) : x.Owes :=
  h.invariant (State.Owes.new _ _) fun _ _ _ hx hs => owes_step hA hx hs

end Observed

/-- **`FuturesUnordered` sleeps only on futures that sleep.** In every state of every
interleaving between two calls: when the last `poll_next` returned `Pending` to `w`, by
whichever exit, nothing has been pushed since it was called, and `w` has not been woken
since it was registered nor is about to be, then every future of the set has been polled,
has answered pending, and has not been woken since its last poll. -/
theorem pending_only_over_pending (hA : A.Contract) (x : Observed F O W A)
    (h : Transition.Reachable Observed.step Observed.new x) (w : W) (ho : x.set.owner = .idle)
    (hlast : x.set.hist.last = some (w, .pending)) (hpushed : x.pushed = false)
    (hquiet : x.set.Undisturbed) : x.set.AllPended x.pended := by
  refine (Observed.owes_of_reachable hA h).asleep ho ?_ hquiet
  rintro ⟨-, hidle⟩
  rcases hidle (by rw [ho]; rfl) with hp | hr
  · rw [hpushed] at hp
    cases hp
  · cases hr w .pending hlast

/-- One future pends; the set yields once, and goes to sleep in its second call. -/
def pendedAsleep : List (Act Unit ℕ ℕ) :=
  List.flatten [
    [.push 0 (), .thread 0, .thread 0, .thread 0, .thread 0, .poll_next 9],
    List.replicate 12 .owner,
    [.polled (.pending ()), .owner, .owner, .owner, .ret, .poll_next 9],
    List.replicate 3 .owner,
    [.ret]]

theorem pending_only_over_pending_one :
    ∃ x : Observed Unit ℕ ℕ (AtomicWaker.cell ℕ),
      Transition.run Observed.step Observed.new pendedAsleep = some x ∧ x.set.len = 1 ∧
        x.set.AllPended x.pended := by
  refine ⟨_, rfl, rfl, ?_⟩
  refine pending_only_over_pending (AtomicWaker.cell_contract ℕ) _ ⟨pendedAsleep, rfl⟩ 9 rfl rfl rfl
    ⟨?_, fun i => ?_⟩
  · rintro ⟨w, hw, hin⟩
    cases hw
    exact absurd hin (by decide)
  · cases i <;> rfl

end TokioStreamUtil.FuturesUnordered
