/-
Everything one step of `FuturesUnordered` can do.

`Move s a s'` has one constructor for each transition, with the place from which
it is taken. The step function is cut open here once (`move_of_step`); every
invariant is then a case analysis on `Move`.
-/
import TokioStreamUtil.FuturesUnordered.Model
import Mathlib.Tactic.Common

set_option autoImplicit false

namespace TokioStreamUtil.FuturesUnordered

open ReadyToRunQueue (Node)

variable {F O W : Type} {A : AtomicWaker W}

/-- One step, transition by transition, with its label. -/
inductive Move (s : State F O W A) : Act F O W → State F O W A → Prop where
  -- the shared calls
  | push {i : ℕ} (fut : F) (hi : s.threads i = .idle) (ho : s.owner = .idle) :
      Move s (.push i fut) (s.push i fut)
  | produce {i : ℕ} (hp : s.ready.producers i ≠ .idle) : Move s (.thread i) (s.produce i)
  | endPush {i t : ℕ} (hi : s.threads i = .push t) (hp : s.ready.producers i = .idle) :
      Move s (.thread i) (s.endPush i)
  | upgrade {i t : ℕ} (hi : s.threads i = .idle) (ht : t < s.fresh)
      (ha : queueAlive s = true) : Move s (.wake i t) (s.upgrade i t)
  | upgradeFails {i t : ℕ} (ha : queueAlive s = false) : Move s (.wake i t) s
  | storeWoken {i t : ℕ} (hi : s.threads i = .wake t .storeWoken) :
      Move s (.thread i) (s.storeWoken i t)
  | swapQueued {i t : ℕ} (hi : s.threads i = .wake t .swapQueued) :
      Move s (.thread i) (s.swapQueued i t)
  | endEnqueue {i t : ℕ} (hi : s.threads i = .wake t .enqueue)
      (hp : s.ready.producers i = .idle) : Move s (.thread i) (s.endEnqueue i t)
  | wakeWaker {i t : ℕ} (hi : s.threads i = .wake t .wake) : Move s (.thread i) (s.wakeWaker i t)
  | dropInner {i t : ℕ} (hi : s.threads i = .wake t .dropInner) : Move s (.thread i) (s.dropInner i)
  -- `poll_next`
  | poll_next (w : W) (ho : s.owner = .idle) (hp : s.pushing = ∅) :
      Move s (.poll_next w) (s.poll_next w)
  | register {lv : Locals W} (ho : s.owner = .poll lv .register) : Move s .owner (s.register lv)
  | consume (hrun : s.ready.consumer.running = true)
      (ho : (∃ lv, s.owner = .poll lv .dequeue) ∨ s.owner = .dropQueue) : Move s .owner s.consume
  | dequeueEmpty {lv : Locals W} (ho : s.owner = .poll lv .dequeue)
      (hc : s.ready.consumer = .done .Empty) : Move s .owner (s.dequeueEmpty lv)
  | dequeueInconsistent {lv : Locals W} (ho : s.owner = .poll lv .dequeue)
      (hc : s.ready.consumer = .done .Inconsistent) : Move s .owner (s.dequeueInconsistent lv)
  | dequeueReleased {lv : Locals W} {n : Node} (ho : s.owner = .poll lv .dequeue)
      (hc : s.ready.consumer = .done (.Data n))
      (hf : ∀ t, n = .task t → (s.tasks t).future = none) : Move s .owner (s.dequeueReleased n)
  | dequeueData {lv : Locals W} {t : ℕ} {fut : F} (ho : s.owner = .poll lv .dequeue)
      (hc : s.ready.consumer = .done (.Data (.task t)))
      (hf : (s.tasks t).future = some fut) : Move s .owner (s.dequeueData lv t)
  | unlink {lv : Locals W} {t : ℕ} (ho : s.owner = .poll lv (.unlink t)) :
      Move s .owner (s.unlink lv t)
  | resetQueued {lv : Locals W} {t : ℕ} (ho : s.owner = .poll lv (.reset t)) :
      Move s .owner (s.resetQueued lv t)
  | clearWoken {lv : Locals W} {t : ℕ} (ho : s.owner = .poll lv (.clearWoken t)) :
      Move s .owner (s.clearWoken lv t)
  | polled {lv : Locals W} {t : ℕ} (r : Polled F O) (ho : s.owner = .poll lv (.poll t)) :
      Move s (.polled r) (s.polled lv t r)
  | loadWoken {lv : Locals W} {t : ℕ} (ho : s.owner = .poll lv (.loadWoken t)) :
      Move s .owner (s.loadWoken lv t)
  | relink {lv : Locals W} {t : ℕ} (ho : s.owner = .poll lv (.relink t)) :
      Move s .owner (s.relink lv t)
  | release {lv : Locals W} {t : ℕ} {r : PollNext O} (ho : s.owner = .poll lv (.release t r)) :
      Move s .owner (s.retire t (.poll lv (.dropFuture t (s.tasks t).queued r)))
  | dropFuture {lv : Locals W} {t : ℕ} {prev : Bool} {r : PollNext O}
      (ho : s.owner = .poll lv (.dropFuture t prev r)) :
      Move s .owner (s.dropFuture t prev (.poll lv (.done r)))
  | wakeParent {lv : Locals W} (ho : s.owner = .poll lv .wake) : Move s .owner (s.wakeParent lv)
  | ret {lv : Locals W} {r : PollNext O} (ho : s.owner = .poll lv (.done r)) :
      Move s .ret (s.ret lv r)
  -- the drop of the set and of the queue
  | drop (ho : s.owner = .idle) (hp : s.pushing = ∅) : Move s .drop (s.setOwner (.drop .loop))
  | dropLoop (ho : s.owner = .drop .loop) : Move s .owner s.dropLoop
  | dropRelease {t : ℕ} (ho : s.owner = .drop (.release t)) :
      Move s .owner (s.retire t (.drop (.dropFuture t (s.tasks t).queued)))
  | dropDropFuture {t : ℕ} {prev : Bool} (ho : s.owner = .drop (.dropFuture t prev)) :
      Move s .owner (s.dropFuture t prev (.drop .loop))
  | dropDequeued {d : ReadyToRunQueue.Dequeue} (ho : s.owner = .dropQueue)
      (hc : s.ready.consumer = .done d) : Move s .owner (s.dropDequeued d)

theorem Owner.eq_idle {o : Owner O W} (h : o.isIdle = true) : o = .idle := by
  cases o with
  | idle => rfl
  | _ => cases h

variable {s s' : State F O W A}

theorem move_of_dequeued {lv : Locals W} {d : ReadyToRunQueue.Dequeue}
    (ho : s.owner = .poll lv .dequeue) (hc : s.ready.consumer = .done d) :
    Move s .owner (s.dequeued lv d) := by
  cases d with
  | Empty => exact .dequeueEmpty ho hc
  | Inconsistent => exact .dequeueInconsistent ho hc
  | Data n =>
      cases n with
      | stub => exact .dequeueReleased ho hc nofun
      | task t =>
          cases hf : (s.tasks t).future with
          | some fut =>
              have heq : s.dequeued lv (.Data (.task t)) = s.dequeueData lv t := by
                simp [State.dequeued, hf]
              rw [heq]
              exact .dequeueData ho hc hf
          | none =>
              have heq : s.dequeued lv (.Data (.task t)) = s.dequeueReleased (.task t) := by
                simp [State.dequeued, hf]
              rw [heq]
              refine .dequeueReleased ho hc ?_
              intro u hu
              cases hu
              exact hf

/-- A `dequeue` call that is neither idle nor finished is running. -/
theorem running_of_ne {pc : ReadyToRunQueue.DequeuePc} (hidle : pc = .idle → False)
    (hdone : ∀ d, pc = .done d → False) : pc.running = true := by
  cases pc with
  | idle => exact absurd rfl hidle
  | done d => exact absurd rfl (hdone d)
  | _ => rfl

theorem move_of_threadStep {i : ℕ} (hs : threadStep s i = some s') :
    Move s (.thread i) s' := by
  unfold threadStep at hs
  cases hi : s.threads i with
  | idle => rw [hi] at hs; cases hs
  | push t =>
      rw [hi] at hs
      dsimp only at hs
      split at hs
      · rename_i hp
        cases hs
        exact .endPush hi hp
      · rename_i hp
        cases hs
        exact .produce hp
  | wake t pc =>
      rw [hi] at hs
      cases pc with
      | storeWoken => cases hs; exact .storeWoken hi
      | swapQueued => cases hs; exact .swapQueued hi
      | enqueue =>
          dsimp only at hs
          split at hs
          · rename_i hp
            cases hs
            exact .endEnqueue hi hp
          · rename_i hp
            cases hs
            exact .produce hp
      | wake => cases hs; exact .wakeWaker hi
      | dropInner => cases hs; exact .dropInner hi

theorem move_of_pollStep {lv : Locals W} {pc : PollPc O} (ho : s.owner = .poll lv pc)
    (hs : pollStep s lv pc = some s') : Move s .owner s' := by
  cases pc with
  | register => cases hs; exact .register ho
  | dequeue =>
      simp only [pollStep] at hs
      split at hs
      · cases hs
      · rename_i d hc
        cases hs
        exact move_of_dequeued ho hc
      · rename_i hidle hdone
        cases hs
        exact .consume (running_of_ne hidle hdone) (Or.inl ⟨lv, ho⟩)
  | unlink t => cases hs; exact .unlink ho
  | reset t => cases hs; exact .resetQueued ho
  | clearWoken t => cases hs; exact .clearWoken ho
  | poll t => cases hs
  | loadWoken t => cases hs; exact .loadWoken ho
  | relink t => cases hs; exact .relink ho
  | release t r => cases hs; exact .release ho
  | dropFuture t prev r => cases hs; exact .dropFuture ho
  | wake => cases hs; exact .wakeParent ho
  | done r => cases hs
  | assertFailed => cases hs

theorem move_of_ownerStep (hs : ownerStep s = some s') : Move s .owner s' := by
  unfold ownerStep at hs
  cases ho : s.owner with
  | poll lv pc =>
      rw [ho] at hs
      exact move_of_pollStep ho hs
  | drop pc =>
      rw [ho] at hs
      cases pc with
      | loop => cases hs; exact .dropLoop ho
      | release t => cases hs; exact .dropRelease ho
      | dropFuture t prev => cases hs; exact .dropDropFuture ho
  | dropQueue =>
      rw [ho] at hs
      dsimp only at hs
      split at hs
      · cases hs
      · rename_i d hc
        cases hs
        exact .dropDequeued ho hc
      · rename_i hidle hdone
        cases hs
        exact .consume (running_of_ne hidle hdone) (Or.inr ho)
  | _ => rw [ho] at hs; cases hs

/-- Every step is one of the moves. -/
theorem move_of_step {a : Act F O W} (hs : step s a = some s') : Move s a s' := by
  cases a with
  | push i fut =>
      simp only [step, Option.ite_none_right_eq_some, Option.some.injEq] at hs
      obtain ⟨⟨hi, ho⟩, rfl⟩ := hs
      exact .push fut hi (Owner.eq_idle ho)
  | wake i t =>
      simp only [step, Option.ite_none_right_eq_some] at hs
      obtain ⟨⟨hi, ht⟩, hs⟩ := hs
      split at hs
      · rename_i ha
        cases hs
        exact .upgrade hi ht ha
      · rename_i ha
        cases hs
        exact .upgradeFails (by simpa using ha)
  | thread i => exact move_of_threadStep hs
  | poll_next w =>
      simp only [step, Option.ite_none_right_eq_some, Option.some.injEq] at hs
      obtain ⟨⟨ho, hp⟩, rfl⟩ := hs
      exact .poll_next w (Owner.eq_idle ho) hp
  | owner => exact move_of_ownerStep hs
  | polled r =>
      simp only [step] at hs
      split at hs
      · rename_i lv t ho
        cases hs
        exact .polled r ho
      · cases hs
  | ret =>
      simp only [step] at hs
      split at hs
      · rename_i lv r ho
        cases hs
        exact .ret ho
      · cases hs
  | drop =>
      simp only [step, Option.ite_none_right_eq_some, Option.some.injEq] at hs
      obtain ⟨⟨ho, hp⟩, rfl⟩ := hs
      exact .drop (Owner.eq_idle ho) hp

end TokioStreamUtil.FuturesUnordered
