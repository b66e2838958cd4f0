/-
What one call of `FuturesUnordered::poll_next` may spend.

`rank_move` says that a call comes to its end. Here the books of a call are kept from
its first step on: the futures it has polled, the polls after which it found the
`woken` flag up, the tasks it has freed on its way, and whether it has woken its
caller. The first three are bounded by the state the call was made in, whatever the
futures and the other threads do to the tasks meanwhile.
-/
import TokioStreamUtil.FuturesUnordered.Termination

set_option autoImplicit false

namespace TokioStreamUtil.FuturesUnordered

open ReadyToRunQueue (Sys)

variable {F O W : Type} {A : AtomicWaker W} {s s' : State F O W A} {l : List ℕ}

/-! ## What is counted -/

/-- A future has been polled and has answered. -/
def Act.isPolled : Act F O W → Bool
  | .polled _ => true
  | _ => false

/-- The step finds that the task of the future just polled has been woken. -/
def State.yields (s : State F O W A) : Act F O W → Bool
  | .owner =>
      match s.owner with
      | .poll _ (.loadWoken t) => (s.tasks t).woken
      | _ => false
  | _ => false

/-- The task that the call has dequeued and that has no future any more. -/
def State.freeing (s : State F O W A) : Option ℕ :=
  match s.owner, s.ready.consumer with
  | .poll _ .dequeue, .done (.Data (.task t)) => if (s.tasks t).future.isNone then some t else none
  | _, _ => none

/-- The step takes over the reference of a released task and drops it. -/
def State.frees (s : State F O W A) : Act F O W → Bool
  | .owner => s.freeing.isSome
  | _ => false

/-- The call in progress has woken the waker `w`, at the `wake_by_ref` of its own. -/
def WokeCaller (s₁ : State F O W A) (ls : List (Act F O W)) (w : W) : Prop :=
  ∃ l₁ l₂ s', ls = l₁ ++ .owner :: l₂ ∧ Transition.run step s₁ l₁ = some s' ∧
    s'.wakes .owner = [w]

theorem WokeCaller.concat {s₁ : State F O W A} {ls : List (Act F O W)} {w : W}
    (h : WokeCaller s₁ ls w) (a : Act F O W) : WokeCaller s₁ (ls ++ [a]) w := by
  obtain ⟨l₁, l₂, s', rfl, hrun, hw⟩ := h
  exact ⟨l₁, l₂ ++ [a], s', by rw [List.append_assoc, List.cons_append], hrun, hw⟩

/-! ## Polls and yields -/

/-- Where a call that has polled `p` futures may stand, when `y` of them were woken
before they returned. Only the return is left after the second one. -/
def PollPc.Spent (l : Locals W) (p y : ℕ) (woke : Prop) : PollPc O → Prop
  | .relink _ => l.polled = p ∧ l.yielded = y
  | .release _ r => r ≠ .pending ∧ y < 2
  | .dropFuture _ _ r => r ≠ .pending ∧ y < 2
  | .wake => True
  | .done r => (r = .pending → y = 2 ∨ p = l.len → woke) ∧ (y = 2 → r = .pending)
  | .assertFailed => y < 2
  | _ => l.polled = p ∧ l.yielded = y ∧ y < 2

/-- The same, with what stays as it was when the call was made. -/
def Owner.Spent (w : W) (len p y : ℕ) (woke : Prop) : Owner O W → Prop
  | .poll l pc => l.waker = w ∧ l.len = len ∧ p ≤ len ∧ y ≤ 2 ∧ pc.Spent l p y woke
  | _ => False

/-- Nothing but the return is left. -/
def Owner.stopping : Owner O W → Bool
  | .poll _ (.relink _) => true
  | .poll _ .wake => true
  | .poll _ (.done .pending) => true
  | _ => false

section Spent

variable {w : W} {len p y : ℕ} {woke woke' : Prop}

theorem PollPc.Spent.imp {lv : Locals W} {pc : PollPc O} (h : pc.Spent lv p y woke)
    (hw : woke → woke') : pc.Spent lv p y woke' := by
  cases pc with
  | done r => exact ⟨fun hr hp => hw (h.1 hr hp), h.2⟩
  | _ => exact h

theorem Owner.Spent.imp {o : Owner O W} (h : o.Spent w len p y woke) (hw : woke → woke') :
    o.Spent w len p y woke' := by
  cases o with
  | poll lv pc => exact ⟨h.1, h.2.1, h.2.2.1, h.2.2.2.1, h.2.2.2.2.imp hw⟩
  | _ => exact h

/-- After the second yield the call is on its way out. -/
theorem Owner.Spent.stopping {o : Owner O W} (h : o.Spent w len p 2 woke) : o.stopping = true := by
  cases o with
  | poll lv pc =>
      have hpc := h.2.2.2.2
      cases pc with
      | relink t => rfl
      | wake => rfl
      | done r => rw [hpc.2 rfl]; rfl
      | release t r => exact absurd hpc.2 (Nat.lt_irrefl 2)
      | dropFuture t prev r => exact absurd hpc.2 (Nat.lt_irrefl 2)
      | assertFailed => exact absurd hpc (Nat.lt_irrefl 2)
      | _ => exact absurd hpc.2.2 (Nat.lt_irrefl 2)
  | _ => exact h.elim

end Spent

section Moves

theorem dequeueEmpty_owner (s : State F O W A) (lv : Locals W) :
    (s.dequeueEmpty lv).owner =
      .poll lv (.done (if s.is_empty = true then .ready none else .pending)) := by
  unfold State.dequeueEmpty
  split <;> rfl

theorem relink_owner (s : State F O W A) (lv : Locals W) (t : ℕ) :
    (s.relink lv t).owner =
      .poll lv (if lv.yielded ≥ 2 ∨ lv.polled = lv.len then .wake else .dequeue) := by
  unfold State.relink
  split <;> rfl

variable {w : W} {len p y n : ℕ} {woke : Prop}

/-- **One step keeps the count.** A poll adds to the one, a task found woken to the
other, and the `wake_by_ref` of the call wakes the caller. -/
theorem spent_move (hb : s.InBudget) (h : s.owner.Spent w len p y woke)
    {a : Act F O W} (hm : Move s a s') (ha : a ≠ .ret) :
    s'.owner.Spent w len (p + if a.isPolled then 1 else 0) (y + if s.yields a then 1 else 0)
      (woke ∨ a = .owner ∧ s.wakes a = [w]) := by
  have hother : ∀ {o : Owner O W}, o = s.owner → o.Spent w len (p + 0) (y + 0)
      (woke ∨ a = .owner ∧ s.wakes a = [w]) := by
    rintro o rfl
    exact h.imp Or.inl
  -- a step of the call that neither polls nor reads a flag
  have hyields : ∀ {lv : Locals W} {pc : PollPc O}, s.owner = .poll lv pc →
      (∀ t, pc ≠ .loadWoken t) → s.yields .owner = false := by
    intro lv pc ho hpc
    unfold State.yields
    rw [ho]
    cases pc with
    | loadWoken t => exact absurd rfl (hpc t)
    | _ => rfl
  have hquiet : ∀ {lv lv' : Locals W} {pc pc' : PollPc O} {woke' : Prop}, s.owner = .poll lv pc →
      (∀ t, pc ≠ .loadWoken t) → lv' = lv →
      (pc.Spent lv p y woke → lv.len = len → pc'.Spent lv p y woke') →
      Owner.Spent w len (p + 0) (y + if s.yields .owner then 1 else 0) woke' (.poll lv' pc') := by
    rintro lv _ pc pc' woke' ho hpc rfl hspent
    rw [hyields ho hpc]
    rw [ho] at h
    exact ⟨h.1, h.2.1, h.2.2.1, h.2.2.2.1, hspent h.2.2.2.2 h.2.1⟩
  unfold State.InBudget at hb
  cases hm with
  | push fut hi ho => rw [ho] at h; exact h.elim
  | swapQueued hi => exact hother (by unfold State.swapQueued; split <;> rfl)
  | dropInner hi =>
      refine hother ?_
      unfold State.dropInner
      dsimp only
      split
      · rename_i ho
        rw [ho] at h
        exact h.elim
      · rfl
  | poll_next w ho hp => rw [ho] at h; exact h.elim
  | register ho => exact hquiet ho nofun rfl fun hpc _ => hpc
  | consume hrun ho =>
      rcases ho with ⟨lv, ho⟩ | ho
      · rw [hyields ho nofun]
        exact hother rfl
      · rw [ho] at h
        exact h.elim
  | @dequeueEmpty lv ho hc =>
      rw [ho] at hb
      rw [dequeueEmpty_owner]
      refine hquiet ho nofun rfl fun hpc _ => ?_
      split
      · exact ⟨nofun, fun hy => absurd hpc.2.2 (by omega)⟩
      · rename_i hne
        refine ⟨fun _ hor => ?_, fun _ => rfl⟩
        -- the budget has not been used up, as the set is not empty
        have hlt : lv.polled < lv.len := hb.resolve_right hne
        obtain ⟨hpolled, -, hy⟩ := hpc
        rcases hor with hy2 | hp
        · omega
        · omega
  | dequeueInconsistent ho hc => exact hquiet ho nofun rfl fun _ _ => trivial
  | dequeueReleased ho hc hf =>
      rw [hyields ho nofun]
      exact hother rfl
  | dequeueData ho hc hf => exact hquiet ho nofun rfl fun hpc _ => hpc
  | unlink ho => exact hquiet ho nofun rfl fun hpc _ => hpc
  | @resetQueued lv t ho =>
      refine hquiet ho nofun rfl fun hpc _ => ?_
      split
      · exact hpc
      · exact hpc.2.2
  | clearWoken ho => exact hquiet ho nofun rfl fun hpc _ => hpc
  -- a poll is within the budget, which is the length at the call
  | @polled lv t r ho =>
      rw [ho] at h hb
      obtain ⟨hw, hlen, hp, hy2, hpolled, hyielded, hy⟩ := h
      have hlt : lv.polled < lv.len := hb
      have hle : p + 1 ≤ len := by omega
      cases r with
      | pending fut => exact ⟨hw, hlen, hle, hy2, by rw [hpolled]; rfl, hyielded, hy⟩
      | ready o => exact ⟨hw, hlen, hle, hy2, nofun, hy⟩
      | unwind => exact ⟨hw, hlen, hle, hy2, nofun, hy⟩
  | @loadWoken lv t ho =>
      have hval : s.yields .owner = (s.tasks t).woken := by
        unfold State.yields
        rw [ho]
      rw [hval]
      rw [ho] at h
      obtain ⟨hw, hlen, hp, hy2, hpolled, hyielded, hy⟩ := h
      refine ⟨hw, hlen, hp, ?_, hpolled, by rw [hyielded]⟩
      split <;> omega
  -- with its budget used up the call wakes itself, and else it goes on
  | @relink lv t ho =>
      rw [relink_owner]
      refine hquiet ho nofun rfl fun hpc _ => ?_
      split
      · trivial
      · rename_i hgo
        have hyielded : lv.yielded = y := hpc.2
        exact ⟨hpc.1, hyielded, by omega⟩
  | release ho => exact hquiet ho nofun rfl fun hpc _ => hpc
  | dropFuture ho =>
      refine hquiet ho nofun rfl fun hpc _ => ⟨fun hr => absurd hr hpc.1, fun hy => ?_⟩
      exact absurd hpc.2 (by omega)
  | @wakeParent lv ho =>
      refine hquiet ho nofun rfl fun hpc hlen => ⟨fun _ _ => Or.inr ⟨rfl, ?_⟩, fun _ => rfl⟩
      rw [ho] at h
      unfold State.wakes
      rw [ho]
      dsimp only
      rw [h.1]
  | ret ho => exact absurd rfl ha
  | drop ho hp => rw [ho] at h; exact h.elim
  | dropLoop ho => rw [ho] at h; exact h.elim
  | dropRelease ho => rw [ho] at h; exact h.elim
  | dropDropFuture ho => rw [ho] at h; exact h.elim
  | dropDequeued ho hc => rw [ho] at h; exact h.elim
  | _ => exact hother rfl

/-! ## Released tasks -/

/-- A step of the `dequeue` in progress leaves the released tasks where they are, or
takes one of them off the queue. -/
theorem leftover_consume (hl : s.Inv l) (hrun : s.ready.consumer.running = true) :
    s.consume.leftover + (match s.ready.consume.consumer with
      | .done (.Data (.task t)) => if s.hist.retired t then 1 else 0
      | _ => 0) = s.leftover := by
  have hcases := Sys.consume_cases hl.flags.ready hrun
  have hstay : s.consume.ready.enqueued = s.ready.enqueued → s.consume.leftover + 0 = s.leftover :=
    fun henq => leftover_congr rfl rfl henq
  have hready : s.consume.ready = s.ready.consume := rfl
  generalize hq : s.ready.consume = q at hcases hready
  cases hcases with
  | @data b rest t hc hw htail hn hchain hlinked =>
      have hin : s.ready.enqueued t = true := by
        rw [hl.flags.ready.flag]
        exact Or.inl (by rw [hchain]; exact List.mem_cons_self)
      have hlt := hl.flags.enqueued_lt t hin
      exact @leftover_dequeue F O W A s s.consume rfl rfl t hlt hin (by rw [hready])
  | @stub e hc =>
      dsimp only
      by_cases he : (ReadyToRunQueue.enqueue s.ready.queue e).2 = .idle
      · rw [if_pos he]
        exact hstay (by rw [hready])
      · rw [if_neg he]
        exact hstay (by rw [hready])
  | _ => exact hstay (by rw [hready])

/-- What the call is about to free has been released. -/
theorem retired_of_freeing (hl : s.Inv l) {t : ℕ} (hf : s.freeing = some t) :
    s.hist.retired t = true := by
  have hflags := hl.flags
  have hplaces := hl.places
  unfold State.freeing at hf
  split at hf
  · rename_i lv u ho hc
    rw [ho, hc] at hflags
    rw [ho] at hplaces
    simp only [Option.ite_none_right_eq_some, Option.some.injEq] at hf
    obtain ⟨hnone, rfl⟩ := hf
    exact ((hplaces.vacant u (hflags.taken_out u rfl).1).mp hnone).1
  · cases hf

theorem consumer_of_freeing {t : ℕ} (hf : s.freeing = some t) :
    s.ready.consumer = .done (.Data (.task t)) := by
  unfold State.freeing at hf
  split at hf
  · rename_i lv u ho hc
    simp only [Option.ite_none_right_eq_some, Option.some.injEq] at hf
    rw [hc, hf.2]
  · cases hf

/-- Only a call inside its `dequeue` loop frees anything. -/
theorem freeing_of_ne {lv : Locals W} {pc : PollPc O} (ho : s.owner = .poll lv pc)
    (hpc : pc ≠ .dequeue) : s.freeing = none := by
  unfold State.freeing
  rw [ho]
  cases pc with
  | dequeue => exact absurd rfl hpc
  | _ => rfl

theorem freeing_congr (ho : s'.owner = s.owner) (hc : s'.ready.consumer = s.ready.consumer)
    (hf : (fun t => (s'.tasks t).future.isNone) = fun t => (s.tasks t).future.isNone) :
    s'.freeing = s.freeing := by
  have hf' := fun t => congrFun hf t
  unfold State.freeing
  rw [ho, hc]
  simp only [hf']

/-- The call has released the task it polled. -/
def Owner.retiring : Owner O W → Bool
  | .poll _ (.dropFuture _ _ _) => true
  | .poll _ (.done _) => true
  | _ => false

theorem freeing_of_retiring (h : s.owner.retiring = true) : s.freeing = none := by
  unfold State.freeing
  cases ho : s.owner with
  | poll lv pc =>
      cases pc with
      | dequeue => rw [ho] at h; cases h
      | _ => rfl
  | _ => rfl

theorem dropInner_of_polling (i : ℕ) (hp : s.owner.polling = true) :
    s.dropInner i =
      { s with threads := Function.update s.threads i .idle, holders := s.holders.erase i } := by
  unfold State.dropInner
  dsimp only
  split
  · rename_i ho
    rw [ho] at hp
    cases hp
  · rfl

/-- The `n` tasks that a call made in `s₀` has freed were released and in the queue
then, and so are those it may still meet. -/
structure State.Stock (s₀ s : State F O W A) (n : ℕ) : Prop where
  freed : n ≤ s₀.leftover
  kept : s.owner.retiring = false → s.hist.retired = s₀.hist.retired ∧
    n + (if s.freeing.isSome then 1 else 0) + s.leftover ≤ s₀.leftover

/-- What is outside of the call leaves the stock alone. -/
theorem stock_other {s₀ : State F O W A} (h : s₀.Stock s n) (ho : s'.owner = s.owner)
    (hleft : s'.leftover = s.leftover) (hfreeing : s'.freeing = s.freeing)
    (hret : s'.hist.retired = s.hist.retired) : s₀.Stock s' (n + 0) := by
  refine ⟨h.freed, fun hr => ?_⟩
  rw [hret, hleft, hfreeing]
  exact h.kept (ho ▸ hr)

/-- A step of the call that takes no task off the queue. -/
theorem stock_own {s₀ : State F O W A} (h : s₀.Stock s n)
    (hnext : s'.owner.retiring = false → s.owner.retiring = false ∧ s'.freeing = none ∧
      s'.leftover = s.leftover ∧ s'.hist.retired = s.hist.retired) :
    s₀.Stock s' (n + if s.frees .owner then 1 else 0) := by
  have hfrees : s.frees .owner = s.freeing.isSome := rfl
  rw [hfrees]
  refine ⟨?_, fun hr => ?_⟩
  · cases hr : s.owner.retiring with
    | true =>
        rw [freeing_of_retiring hr]
        exact h.freed
    | false =>
        have hle := (h.kept hr).2
        omega
  · obtain ⟨hr', hfreeing, hleft, hret⟩ := hnext hr
    obtain ⟨hsame, hle⟩ := h.kept hr'
    rw [hret, hleft, hfreeing]
    exact ⟨hsame, hle⟩

/-- A step of `dequeue` moves a released task from the queue into the hands of the call. -/
theorem stock_consume {s₀ : State F O W A} (hl : s.Inv l) (h : s₀.Stock s n) {lv : Locals W}
    (hrun : s.ready.consumer.running = true) (ho : s.owner = .poll lv .dequeue) :
    s₀.Stock s.consume (n + if s.frees .owner then 1 else 0) := by
  have hnone : s.freeing = none := by
    unfold State.freeing
    rw [ho]
    cases hc : s.ready.consumer with
    | done d => rw [hc] at hrun; cases hrun
    | _ => rfl
  have hfrees : s.frees .owner = false := by
    unfold State.frees
    rw [hnone]
    rfl
  rw [hfrees]
  refine ⟨h.freed, fun hr => ?_⟩
  obtain ⟨hsame, hle⟩ := h.kept hr
  refine ⟨hsame, ?_⟩
  rw [hnone] at hle
  have hle' : n + 0 + s.leftover ≤ s₀.leftover := hle
  obtain ⟨l', hl'⟩ := inv_move hl (.consume hrun (Or.inl ⟨lv, ho⟩))
  have hleft := leftover_consume hl hrun
  -- what it is about to free has just been taken off the queue
  cases hf : s.consume.freeing with
  | none =>
      have hless : s.consume.leftover ≤ s.leftover := by omega
      show n + 0 + 0 + s.consume.leftover ≤ s₀.leftover
      omega
  | some t =>
      have hret : s.hist.retired t = true := retired_of_freeing hl' hf
      have hc : s.ready.consume.consumer = .done (.Data (.task t)) := consumer_of_freeing hf
      rw [hc] at hleft
      simp only [hret, if_true] at hleft
      show n + 0 + 1 + s.consume.leftover ≤ s₀.leftover
      omega

/-- **One step keeps the stock.** What is freed was in it. -/
theorem stock_move {s₀ : State F O W A} (hl : s.Inv l) (h : s₀.Stock s n)
    {a : Act F O W} (hm : Move s a s') (hp : s.owner.polling = true) (ha : a ≠ .ret) :
    s₀.Stock s' (n + if s.frees a then 1 else 0) := by
  have hvacant : ∀ (t : ℕ) {x : Task F}, x.future.isNone = (s.tasks t).future.isNone →
      (fun u => (Function.update s.tasks t x u).future.isNone) =
        fun u => (s.tasks u).future.isNone := fun t _ hx => vacant_update_same s.tasks t hx
  cases hm with
  | push fut hi ho => rw [ho] at hp; cases hp
  | produce hpr => exact stock_other h rfl (leftover_congr rfl rfl rfl) rfl rfl
  | endPush hi hpr => exact stock_other h rfl (leftover_congr rfl rfl rfl) rfl rfl
  | upgrade hi ht hal => exact stock_other h rfl (leftover_congr rfl rfl rfl) rfl rfl
  | upgradeFails hal => exact stock_other h rfl rfl rfl rfl
  | storeWoken hi =>
      exact stock_other h rfl (leftover_congr rfl rfl rfl) (freeing_congr rfl rfl (hvacant _ rfl)) rfl
  | @swapQueued i t hi =>
      have hleft := (others_move hl (.swapQueued hi) rfl nofun).2
      refine stock_other h ?_ hleft ?_ ?_
      · unfold State.swapQueued; split <;> rfl
      · unfold State.swapQueued
        split
        · rfl
        · exact freeing_congr rfl rfl (hvacant _ rfl)
      · unfold State.swapQueued; split <;> rfl
  | endEnqueue hi hpr => exact stock_other h rfl (leftover_congr rfl rfl rfl) rfl rfl
  | wakeWaker hi => exact stock_other h rfl (leftover_congr rfl rfl rfl) rfl rfl
  | dropInner hi =>
      rw [dropInner_of_polling _ hp]
      exact stock_other h rfl (leftover_congr rfl rfl rfl) rfl rfl
  | poll_next w ho hpush => rw [ho] at hp; cases hp
  | @register lv ho =>
      exact stock_own h fun _ => ⟨by rw [ho]; rfl, rfl, leftover_congr rfl rfl rfl, rfl⟩
  | @consume hrun ho =>
      rcases ho with ⟨lv, ho⟩ | ho
      · exact stock_consume hl h hrun ho
      · rw [ho] at hp
        cases hp
  | @dequeueEmpty lv ho hc =>
      refine stock_own h fun hr => ?_
      rw [dequeueEmpty_owner] at hr
      cases hr
  | @dequeueInconsistent lv ho hc =>
      exact stock_own h fun _ => ⟨by rw [ho]; rfl, rfl, leftover_congr rfl rfl rfl, rfl⟩
  | @dequeueReleased lv m ho hc hf =>
      refine stock_own h fun _ => ⟨by rw [ho]; rfl, ?_, leftover_congr rfl rfl rfl, rfl⟩
      unfold State.freeing
      rw [show (s.dequeueReleased m).owner = .poll lv .dequeue from ho]
      rfl
  | dequeueData ho hc hf =>
      exact stock_own h fun _ => ⟨by rw [ho]; rfl, rfl, leftover_congr rfl rfl rfl, rfl⟩
  | unlink ho => exact stock_own h fun _ => ⟨by rw [ho]; rfl, rfl, leftover_congr rfl rfl rfl, rfl⟩
  | @resetQueued lv t ho =>
      refine stock_own h fun _ => ⟨by rw [ho]; rfl, ?_, leftover_congr rfl rfl rfl, rfl⟩
      have howner : (s.resetQueued lv t).owner
          = .poll lv (if (s.tasks t).queued then .clearWoken t else .assertFailed) := rfl
      refine freeing_of_ne howner ?_
      split <;> exact nofun
  | clearWoken ho => exact stock_own h fun _ => ⟨by rw [ho]; rfl, rfl, leftover_congr rfl rfl rfl, rfl⟩
  | @polled lv t r ho =>
      have hnone := freeing_of_ne ho nofun
      have hr : s.owner.retiring = false := by rw [ho]; rfl
      refine ⟨h.freed, fun _ => ?_⟩
      obtain ⟨hsame, hle⟩ := h.kept hr
      rw [hnone] at hle
      cases r with
      | _ => exact ⟨hsame, hle⟩
  | loadWoken ho => exact stock_own h fun _ => ⟨by rw [ho]; rfl, rfl, leftover_congr rfl rfl rfl, rfl⟩
  | @relink lv t ho =>
      refine stock_own h fun _ => ⟨by rw [ho]; rfl, ?_, ?_, ?_⟩
      · unfold State.relink
        split <;> rfl
      · unfold State.relink
        split
        · exact leftover_congr rfl rfl rfl
        · exact leftover_congr rfl rfl rfl
      · unfold State.relink
        split <;> rfl
  | release ho => exact stock_own h nofun
  | dropFuture ho => exact stock_own h nofun
  | wakeParent ho => exact stock_own h nofun
  | ret ho => exact absurd rfl ha
  | drop ho hpush => rw [ho] at hp; cases hp
  | dropLoop ho => rw [ho] at hp; cases hp
  | dropRelease ho => rw [ho] at hp; cases hp
  | dropDropFuture ho => rw [ho] at hp; cases hp
  | dropDequeued ho hc => rw [ho] at hp; cases hp

end Moves

/-! ## The whole call -/

/-- The books of the call that was made in `s₀` with the waker `w`, after the steps `ls`. -/
structure Books (s₀ : State F O W A) (w : W) (ls : List (Act F O W)) (s : State F O W A) :
    Prop where
  inv : ∃ l, s.Inv l
  budget : s.InBudget
  polling : s.owner.polling = true
  rank : callRank s + ls.countP Act.ofCall ≤ callRank (s₀.poll_next w)
  spent : s.owner.Spent w s₀.len (ls.countP Act.isPolled)
    (Transition.count step State.yields (s₀.poll_next w) ls) (WokeCaller (s₀.poll_next w) ls w)
  stock : s₀.Stock s (Transition.count step State.frees (s₀.poll_next w) ls)

section Books

variable {s₀ : State F O W A} {w : W}

theorem books_begin (h : ∃ l, (s₀.poll_next w).Inv l) : Books s₀ w [] (s₀.poll_next w) where
  inv := h
  budget := inBudget_poll_next s₀ w
  polling := rfl
  rank := le_refl _
  spent := ⟨rfl, rfl, Nat.zero_le _, Nat.zero_le _, rfl, rfl, Nat.zero_lt_two⟩
  stock := ⟨Nat.zero_le _, fun _ => ⟨rfl, by rw [show (s₀.poll_next w).freeing = none from rfl,
    show (s₀.poll_next w).leftover = s₀.leftover from leftover_congr rfl rfl rfl]; simp
      [Transition.count]⟩⟩

theorem Books.concat {ls : List (Act F O W)} (h : Books s₀ w ls s)
    (hrun : Transition.run step (s₀.poll_next w) ls = some s) {a : Act F O W} (ha : a ≠ .ret)
    (hs : step s a = some s') : Books s₀ w (ls ++ [a]) s' := by
  obtain ⟨l, hl⟩ := h.inv
  have hm := move_of_step hs
  obtain ⟨hbudget, hpolling, hrank⟩ := rank_move hl h.budget hm h.polling ha
  refine ⟨inv_move hl hm, hbudget, hpolling, ?_, ?_, ?_⟩
  · have hle := h.rank
    rw [List.countP_append, List.countP_singleton]
    omega
  · rw [List.countP_append, List.countP_singleton, Transition.count_concat State.yields hrun]
    refine (spent_move h.budget h.spent hm ha).imp ?_
    rintro (hwoke | ⟨rfl, hw⟩)
    · exact hwoke.concat a
    · exact ⟨ls, [], s, rfl, hrun, hw⟩
  · rw [Transition.count_concat State.frees hrun]
    exact stock_move hl h.stock hm h.polling ha

/-- The books are right after every step of the call. -/
theorem books_of_run (h : ∃ l, (s₀.poll_next w).Inv l) {ls : List (Act F O W)}
    (hret : .ret ∉ ls) (hrun : Transition.run step (s₀.poll_next w) ls = some s) :
    Books s₀ w ls s := by
  induction ls using List.reverseRecOn generalizing s with
  | nil =>
      rw [Transition.run_nil, Option.some.injEq] at hrun
      exact hrun ▸ books_begin h
  | append_singleton ls a ih =>
      rw [Transition.run_concat_eq_some] at hrun
      obtain ⟨s₁, hrun, hs⟩ := hrun
      rw [List.mem_append, List.mem_singleton, not_or] at hret
      exact (ih hret.1 hrun).concat hrun (Ne.symm hret.2) hs

/-- After the second yield the call only returns: no future is polled. -/
theorem no_poll_after_yields (h : ∃ l, (s₀.poll_next w).Inv l) {l₁ l₂ : List (Act F O W)}
    (hret : .ret ∉ l₁ ++ l₂) (hrun : Transition.run step (s₀.poll_next w) (l₁ ++ l₂) = some s)
    (hy : Transition.count step State.yields (s₀.poll_next w) l₁ = 2) :
    s.owner.stopping = true ∧ ∀ r, .polled r ∉ l₂ := by
  -- the count stands at two from there on
  have hstop : ∀ m s', (∃ m', l₂ = m ++ m') →
      Transition.run step (s₀.poll_next w) (l₁ ++ m) = some s' → s'.owner.stopping = true := by
    rintro m s' ⟨m', rfl⟩ hm
    have hret' : .ret ∉ l₁ ++ m := by
      intro hmem
      rw [← List.append_assoc] at hret
      exact hret (List.mem_append_left m' hmem)
    have hspent := (books_of_run h hret' hm).spent
    obtain ⟨s₁, hrun₁, -⟩ := Transition.run_append_eq_some.mp hm
    rw [Transition.count_append State.yields hrun₁, hy] at hspent
    have hle : 2 + Transition.count step State.yields s₁ m ≤ 2 := by
      cases ho : s'.owner with
      | poll lv pc => rw [ho] at hspent; exact hspent.2.2.2.1
      | _ => rw [ho] at hspent; exact hspent.elim
    rw [Nat.le_antisymm hle (Nat.le_add_right 2 _)] at hspent
    exact hspent.stopping
  refine ⟨hstop l₂ s ⟨[], (List.append_nil l₂).symm⟩ hrun, ?_⟩
  intro r hmem
  obtain ⟨m, m', rfl⟩ := List.append_of_mem hmem
  rw [← List.append_assoc, Transition.run_append_eq_some] at hrun
  obtain ⟨s', hm, hrun⟩ := hrun
  have hs := hstop m s' ⟨_, rfl⟩ hm
  rw [Transition.run_cons, Option.bind_eq_some_iff] at hrun
  obtain ⟨s'', hpolled, -⟩ := hrun
  cases move_of_step hpolled with
  | polled r ho => rw [ho] at hs; cases hs

end Books

/-- **A call of `poll_next` spends at most its budget.** It polls at most as many futures
as there were, and frees at most the released tasks that were in the queue; after the
second yield it only returns; and when it stops for one of these reasons it has woken its
caller. -/
theorem poll_next_within_budget (ls₀ ls : List (Act F O W)) (s₀ s₁ s : State F O W A) (w : W)
    (hrun₀ : Transition.run step State.new ls₀ = some s₀) (hcall : step s₀ (.poll_next w) = some s₁)
    (hret : .ret ∉ ls) (hrun : Transition.run step s₁ ls = some s) :
    -- it comes to its end
    ls.countP Act.ofCall ≤ 16 * s₀.len + 8 * s₀.leftover + 10 ∧
    ((∃ l r, s.owner = .poll l (.done r)) ∨ (∃ l t, s.owner = .poll l (.poll t)) ∨
      ∃ s', step s .owner = some s') ∧
    -- the polls, and the tasks it frees
    ls.countP Act.isPolled ≤ s₀.len ∧
    Transition.count step State.frees s₁ ls ≤ s₀.leftover ∧
    (∀ l₁ l₂ s' t, ls = l₁ ++ .owner :: l₂ → Transition.run step s₁ l₁ = some s' →
      s'.freeing = some t → s₀.hist.retired t = true) ∧
    -- the yields
    Transition.count step State.yields s₁ ls ≤ 2 ∧
    (∀ l₁ l₂, ls = l₁ ++ l₂ → Transition.count step State.yields s₁ l₁ = 2 →
      s.owner.stopping = true ∧ ∀ r, .polled r ∉ l₂) ∧
    -- why it stops
    ∀ l, s.owner = .poll l (.done .pending) →
      Transition.count step State.yields s₁ ls = 2 ∨ ls.countP Act.isPolled = s₀.len →
      WokeCaller s₁ ls w := by
  have hs₁ : s₁ = s₀.poll_next w := by
    simp only [step, Option.ite_none_right_eq_some, Option.some.injEq] at hcall
    exact hcall.2.symm
  have hinv : ∃ l, s₁.Inv l :=
    inv_of_reachable ((Transition.Reachable.of_run hrun₀).tail hcall)
  subst hs₁
  have hbooks := books_of_run hinv hret hrun
  obtain ⟨l, hl⟩ := hbooks.inv
  have hspent := hbooks.spent
  have hbounds : ls.countP Act.isPolled ≤ s₀.len ∧
      Transition.count step State.yields (s₀.poll_next w) ls ≤ 2 := by
    cases ho : s.owner with
    | poll lv pc => rw [ho] at hspent; exact ⟨hspent.2.2.1, hspent.2.2.2.1⟩
    | _ => rw [ho] at hspent; exact hspent.elim
  refine ⟨?_, not_stuck hl hbooks.polling, hbounds.1, hbooks.stock.freed, ?_, hbounds.2, ?_, ?_⟩
  · have hrank := hbooks.rank
    have hval : callRank (s₀.poll_next w) = 16 * s₀.len + 8 * s₀.leftover + 10 := rfl
    omega
  · rintro l₁ l₂ s' t rfl hrun₁ hf
    have hret₁ : .ret ∉ l₁ := fun hmem => hret (List.mem_append_left _ hmem)
    have hb := books_of_run hinv hret₁ hrun₁
    obtain ⟨l', hl'⟩ := hb.inv
    cases hr : s'.owner.retiring with
    | true => rw [freeing_of_retiring hr] at hf; cases hf
    | false => rw [← (hb.stock.kept hr).1]; exact retired_of_freeing hl' hf
  · rintro l₁ l₂ rfl hy
    exact no_poll_after_yields hinv hret hrun hy
  · intro lv ho hor
    rw [ho] at hspent
    obtain ⟨-, hlen, -, -, hdone, -⟩ := hspent
    exact hdone rfl (by rw [hlen]; exact hor)

/-- Three futures. -/
def threePushes : List (Act Unit ℕ Unit) :=
  (List.replicate 3 [.push 0 (), .thread 0, .thread 0, .thread 0, .thread 0]).flatten

/-- The first two of them wake themselves while they are polled. -/
def wakeThemselves : List (Act Unit ℕ Unit) :=
  List.flatten [
    List.replicate 7 .owner,
    .wake 1 0 :: List.replicate 8 (.thread 1),
    .polled (.pending ()) :: List.replicate 7 .owner,
    .wake 1 1 :: List.replicate 8 (.thread 1),
    .polled (.pending ()) :: List.replicate 3 .owner]

theorem poll_next_within_budget_two_yields :
    ∃ s₀ s₁ s : State Unit ℕ Unit (AtomicWaker.cell Unit),
      Transition.run step State.new threePushes = some s₀ ∧ step s₀ (.poll_next ()) = some s₁ ∧
        Transition.run step s₁ wakeThemselves = some s ∧ s₀.len = 3 ∧
        wakeThemselves.countP Act.isPolled = 2 ∧ WokeCaller s₁ wakeThemselves () :=
  ⟨_, _, _, rfl, rfl, rfl, rfl, rfl,
    (poll_next_within_budget threePushes wakeThemselves _ _ _ () rfl rfl
      (by simp [wakeThemselves]) rfl).2.2.2.2.2.2.2 _ rfl (Or.inl rfl)⟩

end TokioStreamUtil.FuturesUnordered
