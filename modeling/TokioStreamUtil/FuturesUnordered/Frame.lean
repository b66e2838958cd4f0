/-
What the inner steps of a `FuturesUnordered` leave alone.

A combinator that holds a set sees its calls begin, its futures being polled and
its calls return. Everything else the set does (a waker is called, a thread
moves, the call moves from one place to the next) changes none of what such a
combinator keeps track of.
-/
import TokioStreamUtil.FuturesUnordered.Ledger

set_option autoImplicit false

namespace TokioStreamUtil.FuturesUnordered

variable {F O W : Type} {A : AtomicWaker W} {s s' : State F O W A}

/-- The label is a step of the machinery, not of the caller or of a future. -/
def Act.inner : Act F O W → Bool
  | .wake _ _ => true
  | .thread _ => true
  | .owner => true
  | _ => false

/-- A result is kept, or it is settled without an output. -/
def Settles (r r' : Option (PollNext O)) : Prop :=
  r' = r ∨ (r = none ∧ (r' = some .pending ∨ r' = some (.ready none)))

/-- What an inner step keeps: what was pushed, what has finished, the output on
its way, whether a call is in progress. It creates no future. -/
structure Frame (s s' : State F O W A) : Prop where
  fresh : s'.fresh = s.fresh
  completed : s'.hist.completed = s.hist.completed
  discarded : s'.hist.discarded = s.hist.discarded
  result : Settles s.owner.result s'.owner.result
  idle : s'.owner.isIdle = s.owner.isIdle
  pushing : s.pushing = ∅ → s'.pushing = ∅
  future : ∀ t x, (s'.tasks t).future = some x → (s.tasks t).future = some x

namespace Frame

theorem refl (s : State F O W A) : Frame s s :=
  ⟨rfl, rfl, rfl, Or.inl rfl, rfl, fun h => h, fun _ _ h => h⟩

/-- A move of the exclusive call that is not about a result. -/
theorem owner {pc pc' : Owner O W} (ho : s.owner = pc) (ho' : s'.owner = pc')
    (hres : Settles pc.result pc'.result) (hidle : pc'.isIdle = pc.isIdle)
    (hfresh : s'.fresh = s.fresh) (hcomp : s'.hist.completed = s.hist.completed)
    (hdisc : s'.hist.discarded = s.hist.discarded) (hpush : s'.pushing = s.pushing)
    (hfut : ∀ t x, (s'.tasks t).future = some x → (s.tasks t).future = some x) : Frame s s' :=
  ⟨hfresh, hcomp, hdisc, by rw [ho, ho']; exact hres, by rw [ho, ho', hidle],
    fun h => by rw [hpush, h], hfut⟩

end Frame

/-- No output appears or is lost. -/
theorem Frame.carrying (h : Frame s s') : s'.owner.carrying = s.owner.carrying := by
  unfold Owner.carrying
  rcases h.result with hr | ⟨hr, hr' | hr'⟩
  · rw [hr]
  · rw [hr, hr']; rfl
  · rw [hr, hr']; rfl

theorem Frame.unwound (h : Frame s s') (hu : s.owner.result ≠ some .unwound) :
    s'.owner.result ≠ some .unwound := by
  rcases h.result with hr | ⟨-, hr' | hr'⟩
  · rw [hr]; exact hu
  · rw [hr']; simp
  · rw [hr']; simp

/-- Writing another cell, or dropping the future, creates none. -/
theorem future_update (tasks : ℕ → Task F) (t : ℕ) {y : Task F}
    (hy : ∀ x, y.future = some x → (tasks t).future = some x) :
    ∀ u x, (Function.update tasks t y u).future = some x → (tasks u).future = some x := by
  intro u x hx
  by_cases hut : u = t
  · subst hut
    exact hy x (by simpa using hx)
  · simpa [hut] using hx

theorem frame_move {a : Act F O W} (hm : Move s a s') (ha : a.inner = true) : Frame s s' := by
  cases hm with
  | push fut hi ho => cases ha
  | produce hp => exact ⟨rfl, rfl, rfl, Or.inl rfl, rfl, fun h => h, fun _ _ h => h⟩
  | endPush hi hp =>
      refine ⟨rfl, rfl, rfl, Or.inl rfl, rfl, fun h => ?_, fun _ _ h => h⟩
      simp [State.endPush, h]
  | upgrade hi ht ha => exact ⟨rfl, rfl, rfl, Or.inl rfl, rfl, fun h => h, fun _ _ h => h⟩
  | upgradeFails ha => exact Frame.refl s
  | storeWoken hi =>
      exact ⟨rfl, rfl, rfl, Or.inl rfl, rfl, fun h => h, future_update s.tasks _ fun _ h => h⟩
  | swapQueued hi =>
      unfold State.swapQueued
      split
      · exact ⟨rfl, rfl, rfl, Or.inl rfl, rfl, fun h => h, fun _ _ h => h⟩
      · exact ⟨rfl, rfl, rfl, Or.inl rfl, rfl, fun h => h, future_update s.tasks _ fun _ h => h⟩
  | endEnqueue hi hp => exact ⟨rfl, rfl, rfl, Or.inl rfl, rfl, fun h => h, fun _ _ h => h⟩
  | wakeWaker hi => exact ⟨rfl, rfl, rfl, Or.inl rfl, rfl, fun h => h, fun _ _ h => h⟩
  | dropInner hi =>
      unfold State.dropInner
      dsimp only
      split
      · rename_i ho
        split
        · exact ⟨rfl, rfl, rfl, Or.inl (by rw [ho]; rfl), by rw [ho]; rfl, fun h => h, fun _ _ h => h⟩
        · exact ⟨rfl, rfl, rfl, Or.inl rfl, rfl, fun h => h, fun _ _ h => h⟩
      · exact ⟨rfl, rfl, rfl, Or.inl rfl, rfl, fun h => h, fun _ _ h => h⟩
  | poll_next w ho hp => cases ha
  | register ho => exact .owner ho rfl (Or.inl rfl) rfl rfl rfl rfl rfl fun _ _ h => h
  | consume hrun ho => exact ⟨rfl, rfl, rfl, Or.inl rfl, rfl, fun h => h, fun _ _ h => h⟩
  | dequeueEmpty ho hc =>
      unfold State.dequeueEmpty
      split
      · exact .owner ho rfl (Or.inr ⟨rfl, Or.inr rfl⟩) rfl rfl rfl rfl rfl fun _ _ h => h
      · exact .owner ho rfl (Or.inr ⟨rfl, Or.inl rfl⟩) rfl rfl rfl rfl rfl fun _ _ h => h
  | dequeueInconsistent ho hc => exact .owner ho rfl (Or.inl rfl) rfl rfl rfl rfl rfl fun _ _ h => h
  | dequeueReleased ho hc hf => exact ⟨rfl, rfl, rfl, Or.inl rfl, rfl, fun h => h, fun _ _ h => h⟩
  | dequeueData ho hc hf => exact .owner ho rfl (Or.inl rfl) rfl rfl rfl rfl rfl fun _ _ h => h
  | unlink ho => exact .owner ho rfl (Or.inl rfl) rfl rfl rfl rfl rfl fun _ _ h => h
  | resetQueued ho =>
      refine .owner ho rfl ?_ ?_ rfl rfl rfl rfl (future_update s.tasks _ fun _ h => h)
      · dsimp only [State.resetQueued]; split <;> exact Or.inl rfl
      · dsimp only [State.resetQueued]; split <;> rfl
  | clearWoken ho =>
      exact .owner ho rfl (Or.inl rfl) rfl rfl rfl rfl rfl (future_update s.tasks _ fun _ h => h)
  | polled r ho => cases ha
  | loadWoken ho => exact .owner ho rfl (Or.inl rfl) rfl rfl rfl rfl rfl fun _ _ h => h
  | relink ho =>
      unfold State.relink
      split
      · exact .owner ho rfl (Or.inl rfl) rfl rfl rfl rfl rfl fun _ _ h => h
      · exact .owner ho rfl (Or.inl rfl) rfl rfl rfl rfl rfl fun _ _ h => h
  | release ho =>
      exact .owner ho rfl (Or.inl rfl) rfl rfl rfl rfl rfl (future_update s.tasks _ fun _ h => h)
  | dropFuture ho =>
      refine .owner ho rfl (Or.inl rfl) rfl rfl rfl rfl rfl (future_update s.tasks _ ?_)
      intro x hx
      cases hx
  | wakeParent ho =>
      exact .owner ho rfl (Or.inr ⟨rfl, Or.inl rfl⟩) rfl rfl rfl rfl rfl fun _ _ h => h
  | ret ho => cases ha
  | drop ho hp => cases ha
  | dropLoop ho =>
      unfold State.dropLoop
      split
      · exact .owner ho rfl (Or.inl rfl) rfl rfl rfl rfl rfl fun _ _ h => h
      · split
        · exact .owner ho rfl (Or.inl rfl) rfl rfl rfl rfl rfl fun _ _ h => h
        · exact .owner ho rfl (Or.inl rfl) rfl rfl rfl rfl rfl fun _ _ h => h
  | dropRelease ho =>
      exact .owner ho rfl (Or.inl rfl) rfl rfl rfl rfl rfl (future_update s.tasks _ fun _ h => h)
  | dropDropFuture ho =>
      refine .owner ho rfl (Or.inl rfl) rfl rfl rfl rfl rfl (future_update s.tasks _ ?_)
      intro x hx
      cases hx
  | @dropDequeued d ho hc =>
      cases d with
      | Data n => exact ⟨rfl, rfl, rfl, Or.inl rfl, rfl, fun h => h, fun _ _ h => h⟩
      | _ => exact .owner ho rfl (Or.inl rfl) rfl rfl rfl rfl rfl fun _ _ h => h

/-- The waker that the call in progress was given. -/
def Owner.waker : Owner O W → Option W
  | .poll lv _ => some lv.waker
  | _ => none

/-- A call keeps its waker. -/
theorem waker_move {a : Act F O W} (hm : Move s a s') (ha : a.inner = true) :
    s'.owner.waker = s.owner.waker := by
  cases hm with
  | push fut hi ho => cases ha
  | swapQueued hi => unfold State.swapQueued; split <;> rfl
  | dropInner hi =>
      unfold State.dropInner
      dsimp only
      split
      · rename_i ho
        split
        · rw [ho]; rfl
        · rfl
      · rfl
  | poll_next w ho hp => cases ha
  | register ho => rw [ho]; rfl
  | dequeueEmpty ho hc => rw [ho]; unfold State.dequeueEmpty; split <;> rfl
  | dequeueInconsistent ho hc => rw [ho]; rfl
  | dequeueData ho hc hf => rw [ho]; rfl
  | unlink ho => rw [ho]; rfl
  | resetQueued ho => rw [ho]; rfl
  | clearWoken ho => rw [ho]; rfl
  | polled r ho => cases ha
  | loadWoken ho => rw [ho]; rfl
  | relink ho => rw [ho]; unfold State.relink; split <;> rfl
  | release ho => rw [ho]; rfl
  | dropFuture ho => rw [ho]; rfl
  | wakeParent ho => rw [ho]; rfl
  | ret ho => cases ha
  | drop ho hp => cases ha
  | dropLoop ho =>
      rw [ho]
      unfold State.dropLoop
      split
      · rfl
      · split <;> rfl
  | dropRelease ho => rw [ho]; rfl
  | dropDropFuture ho => rw [ho]; rfl
  | @dropDequeued d ho hc =>
      cases d with
      | Data n => rfl
      | _ => rw [ho]; rfl
  | _ => rfl

/-- Nothing but a return is recorded as the last one. -/
theorem last_move {a : Act F O W} (hm : Move s a s') (ha : a.inner = true) :
    s'.hist.last = s.hist.last := by
  cases hm with
  | swapQueued hi => unfold State.swapQueued; split <;> rfl
  | dropInner hi =>
      unfold State.dropInner
      dsimp only
      split
      · split <;> rfl
      · rfl
  | dequeueEmpty ho hc => unfold State.dequeueEmpty; split <;> rfl
  | relink ho => unfold State.relink; split <;> rfl
  | polled r ho => cases ha
  | ret ho => cases ha
  | dropLoop ho => unfold State.dropLoop; split <;> [rfl; (split <;> rfl)]
  | @dropDequeued d ho hc => cases d <;> rfl
  | _ => rfl

/-- Nothing moves inside a call that is not in progress. -/
theorem owner_not_idle (hm : Move s .owner s') : s.owner.isIdle = false := by
  cases hm with
  | consume hrun ho =>
      rcases ho with ⟨lv, ho⟩ | ho
      · rw [ho]; rfl
      · rw [ho]; rfl
  | register ho => rw [ho]; rfl
  | dequeueEmpty ho hc => rw [ho]; rfl
  | dequeueInconsistent ho hc => rw [ho]; rfl
  | dequeueReleased ho hc hf => rw [ho]; rfl
  | dequeueData ho hc hf => rw [ho]; rfl
  | unlink ho => rw [ho]; rfl
  | resetQueued ho => rw [ho]; rfl
  | clearWoken ho => rw [ho]; rfl
  | loadWoken ho => rw [ho]; rfl
  | relink ho => rw [ho]; rfl
  | release ho => rw [ho]; rfl
  | dropFuture ho => rw [ho]; rfl
  | wakeParent ho => rw [ho]; rfl
  | dropLoop ho => rw [ho]; rfl
  | dropRelease ho => rw [ho]; rfl
  | dropDropFuture ho => rw [ho]; rfl
  | dropDequeued ho hc => rw [ho]; rfl

end TokioStreamUtil.FuturesUnordered
