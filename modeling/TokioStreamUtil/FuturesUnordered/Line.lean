/-
The tasks in line.

A task that is woken joins the ready to run queue at its back, the one that `poll_next` has
in hand left it at the front. In between nobody changes places, so tasks are polled in the
order in which they joined, and a future that wakes itself on every poll goes to the back of
the line each time.
-/
import TokioStreamUtil.FuturesUnordered.Invariant
import TokioStreamUtil.Lib.Line

set_option autoImplicit false

namespace TokioStreamUtil

open ReadyToRunQueue (Node Sys)

/-- The number of a task. -/
def ReadyToRunQueue.Node.number : Node → Option ℕ
  | .stub => none
  | .task t => some t

namespace FuturesUnordered

variable {F O W : Type} {A : AtomicWaker W}

/-! ## The line -/

/-- The task that has left the queue and is about to be polled, or freed. -/
def State.inHand (s : State F O W A) : Option ℕ :=
  match s.owner with
  | .poll _ .dequeue => s.ready.consumer.data
  | .poll _ (.unlink t) => some t
  | .poll _ (.reset t) => some t
  | .poll _ (.clearWoken t) => some t
  | .poll _ (.poll t) => some t
  | .dropQueue => s.ready.consumer.data
  | _ => none

/-- The task in hand, and those in the queue from front to back. -/
def State.line (s : State F O W A) : List ℕ :=
  s.inHand.toList ++ s.ready.chain.filterMap Node.number

/-- The task that the step puts at the back: its `enqueue` swaps it into `head`. -/
def State.joins (s : State F O W A) : Act F O W → List ℕ
  | .thread i =>
      match s.ready.producers i with
      | .swap n => n.number.toList
      | _ => []
  | _ => []

/-- The task whose turn it is in this step: its future is polled, or, when it has none any
more, the task is freed. -/
def State.serves (s : State F O W A) : Act F O W → List ℕ
  | .polled _ =>
      match s.owner with
      | .poll _ (.poll t) => [t]
      | _ => []
  | .owner =>
      match s.owner with
      | .poll _ .dequeue =>
          (s.ready.consumer.data.filter fun t => (s.tasks t).future.isNone).toList
      | .dropQueue => s.ready.consumer.data.toList
      | _ => []
  | _ => []

variable {s s' : State F O W A} {l : List ℕ}

/-- A step that moves nobody. -/
theorem line_same {a : Act F O W} (hand : s'.inHand = s.inHand)
    (hchain : s'.ready.chain = s.ready.chain) (hjoins : s.joins a = []) (hserves : s.serves a = []) :
    s.line ++ s.joins a = s.serves a ++ s'.line := by
  unfold State.line
  rw [hand, hchain, hjoins, hserves]
  simp

/-- A step that serves the task in hand. -/
theorem line_serves {a : Act F O W} {t : ℕ} (hand : s.inHand = some t) (hand' : s'.inHand = none)
    (hchain : s'.ready.chain = s.ready.chain) (hjoins : s.joins a = [])
    (hserves : s.serves a = [t]) : s.line ++ s.joins a = s.serves a ++ s'.line := by
  unfold State.line
  rw [hand, hand', hchain, hjoins, hserves]
  simp

/-- The destructor of the queue begins with nothing in hand. -/
theorem inHand_dropInner (s : State F O W A) (i : ℕ) : (s.dropInner i).inHand = s.inHand := by
  cases ho : s.owner with
  | dropped =>
      by_cases hnone : s.holders.erase i = ∅
      · simp [State.inHand, State.dropInner, ho, hnone, Sys.beginDequeue,
          ReadyToRunQueue.DequeuePc.data]
      · simp [State.inHand, State.dropInner, ho, hnone]
  | poll lv pc => cases pc <;> simp [State.inHand, State.dropInner, ho]
  | _ => simp [State.inHand, State.dropInner, ho]

/-- A step of `dequeue` takes the first task in hand, or moves nobody. -/
theorem line_consume (hl : s.Inv l) (hrun : s.ready.consumer.running = true)
    (ho : s.owner.dequeuing = true) : s.consume.line = s.line := by
  have hhand : ∀ {s : State F O W A}, s.owner.dequeuing = true → s.inHand = s.ready.consumer.data := by
    intro s ho
    unfold State.inHand
    cases hown : s.owner with
    | poll lv pc =>
        rw [hown] at ho
        cases pc with
        | dequeue => rfl
        | _ => cases ho
    | dropQueue => rfl
    | _ => rw [hown] at ho; cases ho
  unfold State.line
  rw [hhand ho, hhand (show s.consume.owner.dequeuing = true from ho),
    ReadyToRunQueue.data_of_running hrun]
  have hcases := Sys.consume_cases hl.flags.ready hrun
  unfold State.consume
  dsimp only
  generalize s.ready.consume = r at hcases ⊢
  cases hcases with
  | empty hc ht hn => rfl
  | skip hc ht hn hchain hlinked =>
      rw [hchain, ht]
      rfl
  | data hc hw ht hn hchain hlinked =>
      rw [hchain]
      rfl
  | null hc ht hn => rfl
  | behind hc hh => rfl
  | single hc hh hchain => rfl
  | @stub e hc =>
      -- what the consumer enqueues itself is the stub
      have hstub : (Sys.swaps e).filterMap Node.number = [] := by
        cases e with
        | swap n =>
            obtain rfl := hl.flags.ready.stub n (by rw [hc]; rfl)
            rfl
        | _ => rfl
      have hdata : (if (ReadyToRunQueue.enqueue s.ready.queue e).2 = .idle
          then ReadyToRunQueue.DequeuePc.reload
          else .stub (ReadyToRunQueue.enqueue s.ready.queue e).2).data = none := by
        split <;> rfl
      dsimp only
      rw [hdata, List.filterMap_append, hstub, List.append_nil]
  | torn hc hn => rfl

/-- Nobody changes places. -/
theorem line_move {a : Act F O W} (hl : s.Inv l) (hm : Move s a s') :
    s.line ++ s.joins a = s.serves a ++ s'.line := by
  -- a wake that is in no enqueue puts nobody in line
  have hjoins : ∀ {i t : ℕ} {pc : WakePc}, s.threads i = .wake t pc → pc ≠ .enqueue →
      s.joins (.thread i) = [] := by
    intro i t pc hi hpc
    simp [State.joins, hl.wake_producer_idle hi hpc]
  cases hm with
  | push fut hi ho => exact line_same rfl rfl rfl rfl
  | @produce i hp =>
      have hchain : (s.produce i).ready.chain.filterMap Node.number =
          s.ready.chain.filterMap Node.number ++ s.joins (.thread i) := by
        unfold State.produce Sys.produce State.joins
        dsimp only
        rw [List.filterMap_append]
        cases hpi : s.ready.producers i with
        | swap n => cases n <;> rfl
        | _ => rfl
      unfold State.line
      rw [hchain, List.append_assoc]
      rfl
  | endPush hi hp => exact line_same rfl rfl (by simp [State.joins, hp]) rfl
  | upgrade hi ht ha => exact line_same rfl rfl rfl rfl
  | upgradeFails ha => exact line_same rfl rfl rfl rfl
  | storeWoken hi => exact line_same rfl rfl (hjoins hi (by rintro ⟨⟩)) rfl
  | swapQueued hi =>
      refine line_same ?_ ?_ (hjoins hi (by rintro ⟨⟩)) rfl
      · unfold State.swapQueued
        split <;> rfl
      · unfold State.swapQueued
        split <;> rfl
  | endEnqueue hi hp => exact line_same rfl rfl (by simp [State.joins, hp]) rfl
  | wakeWaker hi => exact line_same rfl rfl (hjoins hi (by rintro ⟨⟩)) rfl
  | @dropInner i t hi =>
      refine line_same (inHand_dropInner s i) ?_ (hjoins hi (by rintro ⟨⟩)) rfl
      · unfold State.dropInner
        dsimp only
        split
        · split <;> rfl
        · rfl
  | poll_next w ho hp =>
      have hhand : State.inHand (s.poll_next w) = s.inHand := by
        simp [State.inHand, ho, State.poll_next, State.setOwner]
      exact line_same hhand rfl rfl rfl
  | register ho =>
      exact line_same (by simp [State.inHand, ho, State.register, Sys.beginDequeue,
        ReadyToRunQueue.DequeuePc.data]) rfl rfl (by simp [State.serves, ho])
  | consume hrun ho =>
      have hdata := ReadyToRunQueue.data_of_running hrun
      have hd : s.owner.dequeuing = true := by
        rcases ho with ⟨lv, ho⟩ | ho
        · rw [ho]; rfl
        · rw [ho]; rfl
      have hserves : s.serves .owner = [] := by
        rcases ho with ⟨lv, ho⟩ | ho
        · simp [State.serves, ho, hdata]
        · simp [State.serves, ho, hdata]
      rw [hserves, line_consume hl hrun hd]
      exact List.append_nil _
  | dequeueEmpty ho hc =>
      refine line_same ?_ ?_ rfl (by simp [State.serves, ho, hc, ReadyToRunQueue.DequeuePc.data])
      · unfold State.dequeueEmpty
        split <;> simp [State.inHand, ho, hc, ReadyToRunQueue.DequeuePc.data]
      · unfold State.dequeueEmpty
        split <;> rfl
  | dequeueInconsistent ho hc =>
      refine line_same ?_ rfl rfl (by simp [State.serves, ho, hc, ReadyToRunQueue.DequeuePc.data])
      simp [State.inHand, ho, hc, ReadyToRunQueue.DequeuePc.data, State.dequeueInconsistent]
  | @dequeueReleased lv n ho hc hf =>
      have hafter : (s.dequeueReleased n).inHand = none := by
        simp [State.inHand, State.dequeueReleased, ho, Sys.beginDequeue,
          ReadyToRunQueue.DequeuePc.data]
      cases n with
      | stub =>
          refine line_same (hafter.trans ?_) rfl rfl ?_
          · simp [State.inHand, ho, hc, ReadyToRunQueue.DequeuePc.data]
          · simp [State.serves, ho, hc, ReadyToRunQueue.DequeuePc.data]
      | task t =>
          refine line_serves (t := t) ?_ hafter rfl rfl ?_
          · simp [State.inHand, ho, hc, ReadyToRunQueue.DequeuePc.data]
          · simp [State.serves, ho, hc, ReadyToRunQueue.DequeuePc.data, hf t rfl]
  | dequeueData ho hc hf =>
      refine line_same ?_ rfl rfl ?_
      · simp [State.inHand, ho, hc, ReadyToRunQueue.DequeuePc.data, State.dequeueData]
      · simp [State.serves, ho, hc, ReadyToRunQueue.DequeuePc.data, hf]
  | unlink ho =>
      exact line_same (by simp [State.inHand, ho, State.unlink]) rfl rfl (by simp [State.serves, ho])
  | @resetQueued lv t ho =>
      have hqueued : (s.tasks t).queued = true := by
        have htaken : s.owner.taken s.ready.consumer = some t := by rw [ho]; rfl
        exact (hl.flags.flag t (hl.flags.taken_out t htaken).1).mpr (Or.inr (Or.inl htaken))
      exact line_same (by simp [State.inHand, ho, State.resetQueued, hqueued]) rfl rfl
        (by simp [State.serves, ho])
  | clearWoken ho =>
      exact line_same (by simp [State.inHand, ho, State.clearWoken, State.setOwner]) rfl rfl
        (by simp [State.serves, ho])
  | @polled lv t r ho =>
      refine line_serves (t := t) (by simp [State.inHand, ho]) ?_ ?_ rfl (by simp [State.serves, ho])
      · cases r <;> rfl
      · cases r <;> rfl
  | loadWoken ho =>
      exact line_same (by simp [State.inHand, ho, State.loadWoken, State.setOwner]) rfl rfl
        (by simp [State.serves, ho])
  | relink ho =>
      refine line_same ?_ ?_ rfl (by simp [State.serves, ho])
      · unfold State.relink
        split <;> simp [State.inHand, ho, Sys.beginDequeue, ReadyToRunQueue.DequeuePc.data]
      · unfold State.relink
        split <;> rfl
  | release ho =>
      exact line_same (by simp [State.inHand, ho, State.retire]) rfl rfl (by simp [State.serves, ho])
  | dropFuture ho =>
      exact line_same (by simp [State.inHand, ho, State.dropFuture]) rfl rfl
        (by simp [State.serves, ho])
  | wakeParent ho =>
      exact line_same (by simp [State.inHand, ho, State.wakeParent]) rfl rfl
        (by simp [State.serves, ho])
  | ret ho => exact line_same (by simp [State.inHand, ho, State.ret]) rfl rfl rfl
  | drop ho hp => exact line_same (by simp [State.inHand, ho, State.setOwner]) rfl rfl rfl
  | dropLoop ho =>
      refine line_same ?_ ?_ rfl (by simp [State.serves, ho])
      · unfold State.dropLoop
        split
        · simp [State.inHand, ho]
        · split <;> simp [State.inHand, ho, Sys.beginDequeue, ReadyToRunQueue.DequeuePc.data]
      · unfold State.dropLoop
        split
        · rfl
        · split <;> rfl
  | dropRelease ho =>
      exact line_same (by simp [State.inHand, ho, State.retire]) rfl rfl (by simp [State.serves, ho])
  | dropDropFuture ho =>
      exact line_same (by simp [State.inHand, ho, State.dropFuture]) rfl rfl
        (by simp [State.serves, ho])
  | @dropDequeued d ho hc =>
      have hand : s.inHand = (ReadyToRunQueue.DequeuePc.done d).data := by
        simp [State.inHand, ho, hc]
      have hserves : s.serves .owner = (ReadyToRunQueue.DequeuePc.done d).data.toList := by
        simp [State.serves, ho, hc]
      cases d with
      | Data n =>
          have hafter : (s.dropDequeued (.Data n)).inHand = none := by
            simp [State.dropDequeued, State.inHand, State.dequeueReleased, ho, Sys.beginDequeue,
              ReadyToRunQueue.DequeuePc.data]
          cases n with
          | stub => exact line_same (hafter.trans hand.symm) rfl rfl hserves
          | task t => exact line_serves hand hafter rfl rfl hserves
      | Empty => exact line_same (Eq.trans rfl hand.symm) rfl rfl hserves
      | Inconsistent => exact line_same (Eq.trans rfl hand.symm) rfl rfl hserves

theorem keepsLine : Transition.KeepsLine (step (F := F) (O := O) (W := W) (A := A))
    (fun s => ∃ l, s.Inv l) State.line State.joins State.serves where
  inv := by
    rintro s a s' ⟨l, hl⟩ hs
    exact inv_move hl (move_of_step hs)
  line := by
    rintro s a s' ⟨l, hl⟩ hs
    exact line_move hl (move_of_step hs)

/-! ## Calls

A call of `poll_next` serves somebody, unless it comes upon an empty queue or upon an
`enqueue` that is not finished. -/

/-- `poll_next` is called. -/
def Act.isPollNext : Act F O W → Bool
  | .poll_next _ => true
  | _ => false

/-- `poll_next` has found nothing to poll, and is about to return `Pending` or the end. -/
def State.cutShort (s : State F O W A) : Act F O W → Bool
  | .owner =>
      match s.owner, s.ready.consumer with
      | .poll _ .dequeue, .done .Empty => true
      | .poll _ .dequeue, .done .Inconsistent => true
      | _, _ => false
  | _ => false

/-- A call is on its way to its next poll. -/
def Owner.seeking : Owner O W → ℕ
  | .poll _ .register => 1
  | .poll _ .dequeue => 1
  | .poll _ (.unlink _) => 1
  | .poll _ (.reset _) => 1
  | .poll _ (.clearWoken _) => 1
  | .poll _ (.poll _) => 1
  | _ => 0

theorem Owner.seeking_le_one (o : Owner O W) : o.seeking ≤ 1 := by
  unfold Owner.seeking
  split <;> omega

/-- A call begins with a debt of one, which it pays when it serves a task or is cut short. -/
theorem seeking_move {a : Act F O W} (hl : s.Inv l) (hm : Move s a s') :
    s.owner.seeking + (if a.isPollNext then 1 else 0) ≤
      (s.serves a).length + (if s.cutShort a then 1 else 0) + s'.owner.seeking := by
  have hfree : a.isPollNext = false → s.owner.seeking ≤ s'.owner.seeking →
      s.owner.seeking + (if a.isPollNext then 1 else 0) ≤
        (s.serves a).length + (if s.cutShort a then 1 else 0) + s'.owner.seeking := by
    intro hcall hle
    rw [hcall]
    simp only [Bool.false_eq_true, if_false]
    omega
  cases hm with
  | swapQueued hi => exact hfree rfl (by unfold State.swapQueued; split <;> exact le_rfl)
  | @dropInner i t hi =>
      refine hfree rfl ?_
      cases ho : s.owner with
      | dropped => exact Nat.zero_le _
      | _ => simp [State.dropInner, ho]
  | poll_next w ho hp =>
      rw [ho]
      exact Nat.le_add_left _ _
  | register ho => exact hfree rfl (by rw [ho]; rfl)
  | dequeueEmpty ho hc =>
      have hcut : s.cutShort .owner = true := by simp [State.cutShort, ho, hc]
      rw [ho, hcut]
      exact Nat.le_trans (Nat.le_add_left 1 _) (Nat.le_add_right _ _)
  | dequeueInconsistent ho hc =>
      have hcut : s.cutShort .owner = true := by simp [State.cutShort, ho, hc]
      rw [ho, hcut]
      exact Nat.le_trans (Nat.le_add_left 1 _) (Nat.le_add_right _ _)
  | dequeueReleased ho hc hf => exact hfree rfl le_rfl
  | dequeueData ho hc hf => exact hfree rfl (by rw [ho]; exact le_rfl)
  | unlink ho => exact hfree rfl (by rw [ho]; exact le_rfl)
  | @resetQueued lv t ho =>
      have hqueued : (s.tasks t).queued = true := by
        have htaken : s.owner.taken s.ready.consumer = some t := by rw [ho]; rfl
        exact (hl.flags.flag t (hl.flags.taken_out t htaken).1).mpr (Or.inr (Or.inl htaken))
      exact hfree rfl (by simp [State.resetQueued, ho, hqueued, Owner.seeking])
  | clearWoken ho => exact hfree rfl (by rw [ho]; exact le_rfl)
  | @polled lv t r ho =>
      have hserves : s.serves (.polled r) = [t] := by simp [State.serves, ho]
      rw [ho, hserves]
      exact Nat.le_trans (Nat.le_add_right 1 _) (Nat.le_add_right _ _)
  | loadWoken ho => exact hfree rfl (by rw [ho]; exact Nat.zero_le _)
  | relink ho => exact hfree rfl (by rw [ho]; exact Nat.zero_le _)
  | release ho => exact hfree rfl (by rw [ho]; exact Nat.zero_le _)
  | dropFuture ho => exact hfree rfl (by rw [ho]; exact Nat.zero_le _)
  | wakeParent ho => exact hfree rfl (by rw [ho]; exact Nat.zero_le _)
  | ret ho => exact hfree rfl (by rw [ho]; exact Nat.zero_le _)
  | drop ho hp => exact hfree rfl (by rw [ho]; exact Nat.zero_le _)
  | dropLoop ho => exact hfree rfl (by rw [ho]; exact Nat.zero_le _)
  | dropRelease ho => exact hfree rfl (by rw [ho]; exact Nat.zero_le _)
  | dropDropFuture ho => exact hfree rfl (by rw [ho]; exact Nat.zero_le _)
  | dropDequeued ho hc => exact hfree rfl (by rw [ho]; exact Nat.zero_le _)
  | _ => exact hfree rfl le_rfl

/-! ## The theorem -/

/-- **First come, first served.** In every run from every reachable state, with any wakes
and pushes meanwhile: the tasks in line followed by those that join it are those that are
served (polled, or freed if their future is gone) followed by those in line at the end. So
the task in place `n` waits only for those before it and is then the next; and once more
than `n + 1` calls of `poll_next` have begun that were not cut short by an empty queue or an
unfinished `enqueue`, it has been served, however often other futures wake themselves. -/
theorem first_come_first_served (s s' : State F O W A) (ls : List (Act F O W))
    (h : Transition.Reachable step State.new s) (hrun : Transition.run step s ls = some s') :
    s.line ++ Transition.emitted step State.joins s ls =
      Transition.emitted step State.serves s ls ++ s'.line ∧
    ∀ n t, s.line[n]? = some t →
      ((Transition.emitted step State.serves s ls).length ≤ n →
        Transition.emitted step State.serves s ls <+: s.line.take n) ∧
      (n < (Transition.emitted step State.serves s ls).length →
        (Transition.emitted step State.serves s ls)[n]? = some t) ∧
      (n + 1 + Transition.count step State.cutShort s ls <
        Transition.count step (fun _ a => a.isPollNext) s ls →
        t ∈ Transition.emitted step State.serves s ls) := by
  have hinv := inv_of_reachable h
  refine ⟨keepsLine.run hinv hrun, fun n t ht => ⟨keepsLine.waits hinv hrun ht,
    keepsLine.served hinv hrun ht, fun hcalls => ?_⟩⟩
  have hpaid := Transition.count_le_emitted (I := fun s : State F O W A => ∃ l, s.Inv l)
    State.serves (fun _ a => a.isPollNext) State.cutShort (fun s => s.owner.seeking) (by
      rintro s a s' ⟨l, hl⟩ hs
      exact ⟨inv_move hl (move_of_step hs), seeking_move hl (move_of_step hs)⟩) hinv hrun
  have hle := Owner.seeking_le_one s'.owner
  have hn : n < (Transition.emitted step State.serves s ls).length := by omega
  exact List.mem_of_getElem? (keepsLine.served hinv hrun ht hn)

/-- Two futures are pushed. -/
def twoPushes : List (Act Unit Unit Unit) :=
  List.flatten [
    [.push 0 ()], List.replicate 4 (.thread 0), [.push 0 ()], List.replicate 4 (.thread 0)]

/-- The first one wakes itself on every poll; the second one is polled next nevertheless. -/
def wakesItself : List (Act Unit Unit Unit) :=
  List.flatten [
    [.poll_next ()], List.replicate 7 .owner,
    [.wake 1 0], List.replicate 6 (.thread 1), [.polled (.pending ())],
    List.replicate 7 .owner, [.polled (.pending ())]]

theorem first_come_first_served_wakes_itself :
    ∃ s s' : State Unit Unit Unit (AtomicWaker.cell Unit),
      Transition.run step State.new twoPushes = some s ∧
      Transition.run step s wakesItself = some s' ∧ s.line = [0, 1] ∧
      (Transition.emitted step State.serves s wakesItself)[1]? = some 1 :=
  ⟨_, _, rfl, rfl, rfl,
    ((first_come_first_served _ _ wakesItself ⟨twoPushes, rfl⟩ rfl).2 1 1 rfl).2.1 (by decide)⟩

end FuturesUnordered

end TokioStreamUtil
