/-
Whose cells a step touches.

The set, its queue and the wakers walk over raw pointers to tasks. `State.touches` lists,
step by step, the tasks whose cells are read or written, and every one of them is kept by
its owning reference at that moment (`State.Live`), but for the task that a wake is called
on: that one is the waker's.
-/
import TokioStreamUtil.FuturesUnordered.References
import TokioStreamUtil.FuturesUnordered.Listed

set_option autoImplicit false

namespace TokioStreamUtil

open ReadyToRunQueue (Node Queue Sys)

/-! ## What a step touches -/

/-- The nodes whose cells the next step of an `enqueue` touches. The swap is on `head`. -/
def ReadyToRunQueue.EnqueuePc.touches : ReadyToRunQueue.EnqueuePc → List Node
  | .clear n => [n]
  | .store prev _ => [prev]
  | _ => []

/-- The nodes whose cells the next step of a `dequeue`, or of its caller, touches. -/
def ReadyToRunQueue.DequeuePc.touches (q : Queue) : ReadyToRunQueue.DequeuePc → List Node
  | .start => [q.tail]
  | .skip => [q.tail]
  | .stub e => e.touches
  | .reload => [q.tail]
  | .done (.Data n) => [n]
  | _ => []

/-- The tasks whose cells `unlink(t)` touches: `t`, its neighbours, the head before and
after. -/
def AllList.unlinkTouches (s : AllList) (t : ℕ) : List ℕ :=
  t :: s.head_all.toList ++ (s.next_all t).task.toList ++ (s.prev_all t).toList ++
    (s.unlink t).head_all.toList

namespace FuturesUnordered

variable {F O W : Type} {A : AtomicWaker W}

/-- What the next step of `poll_next` touches. -/
def State.pollTouches (s : State F O W A) : PollPc O → List Node
  | .dequeue => s.ready.consumer.touches s.ready.queue
  | .unlink t => (s.all.unlinkTouches t).map .task
  | .reset t => [.task t]
  | .clearWoken t => [.task t]
  | .poll t => [.task t]
  | .loadWoken t => [.task t]
  | .relink t => .task t :: s.all.head_all.toList.map .task
  | .release t _ => [.task t]
  | .dropFuture t _ _ => [.task t]
  | _ => []

/-- What the next step of the exclusive call touches. -/
def State.ownerTouches (s : State F O W A) : List Node :=
  match s.owner with
  | .poll _ pc => s.pollTouches pc
  | .drop .loop => (s.all.head_all.toList.flatMap s.all.unlinkTouches).map .task
  | .drop (.release t) => [.task t]
  | .drop (.dropFuture t _) => [.task t]
  | .dropQueue => s.ready.consumer.touches s.ready.queue
  | _ => []

/-- What the next step of the shared call on thread `i` touches. -/
def State.threadTouches (s : State F O W A) (i : ℕ) : List Node :=
  match s.threads i with
  | .push _ => (s.ready.producers i).touches
  | .wake t .storeWoken => [.task t]
  | .wake t .swapQueued => [.task t]
  | .wake _ .enqueue => (s.ready.producers i).touches
  | _ => []

/-- The nodes whose cells the step touches. `push` allocates its own task, and `len` is
read at the call of `poll_next`. -/
def State.touches (s : State F O W A) : Act F O W → List Node
  | .push _ _ => s.all.head_all.toList.map .task
  | .wake _ t => [.task t]
  | .thread i => s.threadTouches i
  | .poll_next _ => s.all.head_all.toList.map .task
  | .owner => s.ownerTouches
  | .polled _ => s.ownerTouches
  | _ => []

/-- The step touches the ready to run queue: its pointers, its waker, or the count of a
reference to it. -/
def State.touchesQueue (s : State F O W A) : Act F O W → Bool
  | .push _ _ => true
  | .thread i =>
      match s.threads i with
      | .idle => false
      | .wake _ .storeWoken => false
      | .wake _ .swapQueued => false
      | _ => true
  | .owner =>
      match s.owner with
      | .poll _ .register => true
      | .poll _ .dequeue => true
      | .drop .loop => true
      | .dropQueue => true
      | _ => false
  | _ => false

/-- The task that the step's waker points to. -/
def State.onWaker (s : State F O W A) : Act F O W → Option ℕ
  | .wake _ t => some t
  | .thread i =>
      match s.threads i with
      | .wake t _ => some t
      | _ => none
  | _ => none

/-! ## Tasks that the set keeps alive -/

/-- Inside `dequeue` the task taken is the one returned. -/
theorem Owner.taken_of_dequeuing {o : Owner O W} (ho : o.dequeuing = true)
    (c : ReadyToRunQueue.DequeuePc) : o.taken c = c.data := by
  cases o with
  | poll lv pc =>
      cases pc with
      | dequeue => rfl
      | _ => cases ho
  | dropQueue => rfl
  | _ => cases ho

variable {s s' : State F O W A} {l : List ℕ} {t : ℕ}

/-- Task `t` has been pushed, and its owning reference is still out. -/
structure State.Live (s : State F O W A) (t : ℕ) : Prop where
  lt : t < s.fresh
  kept : s.Kept t

namespace State.Inv

theorem live_of_mem (h : s.Inv l) (ht : t ∈ l) : s.Live t :=
  have hmem := (h.places.mem t).mp ht
  ⟨hmem.1, Or.inl hmem.2.1⟩

theorem live_of_held (h : s.Inv l) (ht : s.owner.held = some t) : s.Live t :=
  have hheld := h.places.held_live t ht
  ⟨hheld.1, Or.inl hheld.2⟩

theorem live_of_dropping (h : s.Inv l) (ht : s.owner.dropping = some t) : s.Live t :=
  ⟨h.places.retired_lt t (h.places.dropping_retired t ht), Or.inr (Or.inr (Or.inr ht))⟩

theorem live_of_taken (h : s.Inv l) (ht : s.Taken t) : s.Live t :=
  ⟨(h.flags.taken_out t ht).1, Or.inr (Or.inr (Or.inl ht))⟩

theorem live_of_chain (h : s.Inv l) (ht : .task t ∈ s.ready.chain) : s.Live t := by
  have henq := (h.flags.ready.flag t).mpr (Or.inl ht)
  exact ⟨h.flags.enqueued_lt t henq, Or.inr (Or.inl henq)⟩

/-- Whoever enqueues a task keeps it alive, and so does the chain for the node before it. -/
theorem live_of_enqueue (h : s.Inv l) {k : Option ℕ} (ht : .task t ∈ (s.ready.writers k).touches) :
    s.Live t := by
  cases hk : s.ready.writers k with
  | idle => rw [hk] at ht; exact absurd ht List.not_mem_nil
  | swap n => rw [hk] at ht; exact absurd ht List.not_mem_nil
  | store p n =>
      rw [hk] at ht
      obtain rfl := List.mem_singleton.mp ht
      exact h.live_of_chain (h.flags.ready.linked.broken.holes _ _ ⟨k, hk⟩).1.mem_left
  | clear n =>
      rw [hk] at ht
      obtain rfl := List.mem_singleton.mp ht
      cases k with
      | none => cases h.flags.ready.stub _ (by rw [← Sys.writers_none, hk]; rfl)
      | some i =>
          have henq := h.flags.ready.enqueued_of_node (i := i) (t := t)
            (by rw [← Sys.writers_some, hk]; rfl)
          exact ⟨h.flags.enqueued_lt t henq, Or.inr (Or.inl henq)⟩

/-- Everything `dequeue` looks at is in the chain, but the task it returns. -/
theorem live_of_dequeue (h : s.Inv l) (ho : s.owner.dequeuing = true)
    (ht : .task t ∈ s.ready.consumer.touches s.ready.queue) : s.Live t := by
  have htail : ∀ {n : Node}, n = s.ready.queue.tail → n = .task t → s.Live t := by
    rintro n rfl hn
    exact h.live_of_chain (hn ▸ List.mem_of_head? h.flags.ready.linked.tail)
  cases hc : s.ready.consumer with
  | start => rw [hc] at ht; exact htail rfl (List.mem_singleton.mp ht).symm
  | skip => rw [hc] at ht; exact htail rfl (List.mem_singleton.mp ht).symm
  | reload => rw [hc] at ht; exact htail rfl (List.mem_singleton.mp ht).symm
  | stub e =>
      rw [hc] at ht
      refine h.live_of_enqueue (k := none) ?_
      rw [Sys.writers_none, hc]
      exact ht
  | done d =>
      cases d with
      | Data n =>
          rw [hc] at ht
          refine h.live_of_taken ?_
          unfold State.Taken
          rw [Owner.taken_of_dequeuing ho, hc, ← List.mem_singleton.mp ht]
          rfl
      | _ => rw [hc] at ht; exact absurd ht List.not_mem_nil
  | _ => rw [hc] at ht; exact absurd ht List.not_mem_nil

/-- The neighbours of a task on the list are on the list, and so is either head. -/
theorem live_of_unlink (h : s.Inv l) {u : ℕ} (hu : u ∈ l) (ht : t ∈ s.all.unlinkTouches u) :
    s.Live t := by
  refine h.live_of_mem ?_
  obtain ⟨a, b, rfl⟩ := List.append_of_mem hu
  obtain ⟨hnext, hprev⟩ := h.places.all.linked.links a u b rfl
  have hafter := h.places.all.unlink.head
  unfold AllList.unlinkTouches at ht
  simp only [List.cons_append, List.mem_cons, List.mem_append, Option.mem_toList] at ht
  simp only [List.mem_append, List.mem_cons]
  rcases ht with rfl | (((hhead | hnx) | hpv) | hnew)
  · exact Or.inr (Or.inl rfl)
  · have hmem := List.mem_of_head? (h.places.all.head.symm.trans hhead)
    simpa using hmem
  · exact Or.inr (Or.inr (List.mem_of_head? (hnext.symm.trans hnx)))
  · exact Or.inl (List.mem_of_getLast? (hprev.symm.trans hpv))
  · rcases List.mem_append.mp (List.mem_of_head? (hafter.symm.trans hnew)) with hin | hin
    · exact Or.inl hin
    · exact Or.inr (Or.inr hin)

theorem live_of_head (h : s.Inv l) (ht : t ∈ s.all.head_all.toList) : s.Live t :=
  h.live_of_mem (List.mem_of_head? (h.places.all.head.symm.trans (Option.mem_toList.mp ht)))

/-- Everything the exclusive call touches is alive. -/
theorem live_of_owner (h : s.Inv l) (ht : .task t ∈ s.ownerTouches) : s.Live t := by
  unfold State.ownerTouches at ht
  cases ho : s.owner with
  | poll lv pc =>
      rw [ho] at ht
      have hheld : ∀ {u : ℕ}, s.owner.held = some u → .task t ∈ [Node.task u] → s.Live t := by
        intro u hu hmem
        cases List.mem_singleton.mp hmem
        exact h.live_of_held hu
      cases pc with
      | dequeue => exact h.live_of_dequeue (by rw [ho]; rfl) ht
      | unlink u =>
          obtain ⟨v, hv, ⟨⟩⟩ := List.mem_map.mp ht
          exact h.live_of_unlink (h.mem_of_unlinking (by rw [ho]; rfl)) hv
      | relink u =>
          rcases List.mem_cons.mp ht with heq | hhead
          · cases heq
            exact h.live_of_held (by rw [ho]; rfl)
          · obtain ⟨v, hv, ⟨⟩⟩ := List.mem_map.mp hhead
            exact h.live_of_head hv
      | dropFuture u prev r =>
          cases List.mem_singleton.mp ht
          exact h.live_of_dropping (by rw [ho]; rfl)
      | reset u => exact hheld (by rw [ho]; rfl) ht
      | clearWoken u => exact hheld (by rw [ho]; rfl) ht
      | poll u => exact hheld (by rw [ho]; rfl) ht
      | loadWoken u => exact hheld (by rw [ho]; rfl) ht
      | release u r => exact hheld (by rw [ho]; rfl) ht
      | _ => exact absurd ht List.not_mem_nil
  | drop pc =>
      rw [ho] at ht
      cases pc with
      | loop =>
          obtain ⟨v, hv, ⟨⟩⟩ := List.mem_map.mp ht
          obtain ⟨u, hu, hvu⟩ := List.mem_flatMap.mp hv
          refine h.live_of_unlink ?_ hvu
          exact List.mem_of_head? (h.places.all.head.symm.trans (Option.mem_toList.mp hu))
      | release u =>
          cases List.mem_singleton.mp ht
          exact h.live_of_held (by rw [ho]; rfl)
      | dropFuture u prev =>
          cases List.mem_singleton.mp ht
          exact h.live_of_dropping (by rw [ho]; rfl)
  | dropQueue =>
      rw [ho] at ht
      exact h.live_of_dequeue (by rw [ho]; rfl) ht
  | _ => rw [ho] at ht; exact absurd ht List.not_mem_nil

/-- What a step touches is alive, or it is the task that the step's own waker points to. -/
theorem live_of_touches (h : s.Inv l) {a : Act F O W} (ht : .task t ∈ s.touches a) :
    s.Live t ∨ s.onWaker a = some t := by
  cases a with
  | push i fut =>
      obtain ⟨v, hv, ⟨⟩⟩ := List.mem_map.mp ht
      exact Or.inl (h.live_of_head hv)
  | poll_next w =>
      obtain ⟨v, hv, ⟨⟩⟩ := List.mem_map.mp ht
      exact Or.inl (h.live_of_head hv)
  | wake i u =>
      cases List.mem_singleton.mp ht
      exact Or.inr rfl
  | thread i =>
      have henqueue : .task t ∈ (s.ready.producers i).touches → s.Live t :=
        h.live_of_enqueue (k := some i)
      have hthread : .task t ∈ s.threadTouches i := ht
      unfold State.threadTouches at hthread
      cases hi : s.threads i with
      | idle => rw [hi] at hthread; exact absurd hthread List.not_mem_nil
      | push u => rw [hi] at hthread; exact Or.inl (henqueue hthread)
      | wake u pc =>
          rw [hi] at hthread
          have hown : s.onWaker (.thread i) = some u := by simp [State.onWaker, hi]
          cases pc with
          | storeWoken => cases List.mem_singleton.mp hthread; exact Or.inr hown
          | swapQueued => cases List.mem_singleton.mp hthread; exact Or.inr hown
          | enqueue => exact Or.inl (henqueue hthread)
          | _ => exact absurd hthread List.not_mem_nil
  | owner => exact Or.inl (h.live_of_owner ht)
  | polled r => exact Or.inl (h.live_of_owner ht)
  | ret => exact absurd ht List.not_mem_nil
  | drop => exact absurd ht List.not_mem_nil

/-- The queue is there for everybody who touches it. -/
theorem queue_of_touches (h : s.Inv l) {a : Act F O W} (hm : Move s a s')
    (hq : s.touchesQueue a = true) :
    s.owner.released = false ∨ a = .owner ∧ s.owner = .dropQueue := by
  cases a with
  | push i fut =>
      cases hm with
      | push fut hi ho => exact Or.inl (by rw [ho]; rfl)
  | thread i =>
      left
      by_contra hrel
      have hrel' : s.owner.released = true := by simpa using hrel
      have hidle : s.owner.isIdle = false := by
        cases ho : s.owner with
        | idle => rw [ho] at hrel'; cases hrel'
        | _ => rfl
      cases hi : s.threads i with
      | idle => simp [State.touchesQueue, hi] at hq
      | push t =>
          have hin := (h.calls.mem_pushing i).mpr ⟨t, hi⟩
          rw [h.calls.exclusive hidle] at hin
          simp at hin
      | wake t pc =>
          have hin := (h.calls.mem_holders i).mpr ⟨t, pc, hi⟩
          rw [h.calls.released hrel'] at hin
          simp at hin
  | owner =>
      cases ho : s.owner with
      | poll lv pc => exact Or.inl rfl
      | drop pc => exact Or.inl rfl
      | dropQueue => exact Or.inr ⟨rfl, rfl⟩
      | _ => simp [State.touchesQueue, ho] at hq
  | _ => cases hq

/-- Whoever touches the stub touches the queue. -/
theorem queue_of_stub {a : Act F O W} (hm : Move s a s') (ht : .stub ∈ s.touches a) :
    s.touchesQueue a = true := by
  have htask : ∀ {ts : List ℕ} {P : Prop}, Node.stub ∈ ts.map Node.task → P := by
    intro ts P hmem
    obtain ⟨t, -, ⟨⟩⟩ := List.mem_map.mp hmem
  have hone : ∀ {t : ℕ} {P : Prop}, Node.stub ∈ [Node.task t] → P := by
    intro t P hmem
    cases List.mem_singleton.mp hmem
  cases a with
  | push i fut => rfl
  | poll_next w => exact htask ht
  | wake i t => exact hone ht
  | thread i =>
      have hthread : .stub ∈ s.threadTouches i := ht
      unfold State.threadTouches at hthread
      cases hi : s.threads i with
      | idle => rw [hi] at hthread; exact absurd hthread List.not_mem_nil
      | push t => simp [State.touchesQueue, hi]
      | wake t pc =>
          rw [hi] at hthread
          cases pc with
          | storeWoken => exact hone hthread
          | swapQueued => exact hone hthread
          | _ => simp [State.touchesQueue, hi]
  | owner =>
      have howner : .stub ∈ s.ownerTouches := ht
      unfold State.ownerTouches at howner
      cases ho : s.owner with
      | poll lv pc =>
          rw [ho] at howner
          cases pc with
          | register => simp [State.touchesQueue, ho]
          | dequeue => simp [State.touchesQueue, ho]
          | unlink t => exact htask howner
          | relink t =>
              rcases List.mem_cons.mp howner with heq | hhead
              · cases heq
              · exact htask hhead
          | reset t => exact hone howner
          | clearWoken t => exact hone howner
          | poll t => exact hone howner
          | loadWoken t => exact hone howner
          | release t r => exact hone howner
          | dropFuture t prev r => exact hone howner
          | _ => exact absurd howner List.not_mem_nil
      | drop pc =>
          rw [ho] at howner
          cases pc with
          | loop => simp [State.touchesQueue, ho]
          | release t => exact hone howner
          | dropFuture t prev => exact hone howner
      | dropQueue => simp [State.touchesQueue, ho]
      | _ => rw [ho] at howner; exact absurd howner List.not_mem_nil
  | polled r =>
      cases hm with
      | polled r ho =>
          have howner : .stub ∈ s.ownerTouches := ht
          unfold State.ownerTouches at howner
          rw [ho] at howner
          exact hone howner
  | ret => exact absurd ht List.not_mem_nil
  | drop => exact absurd ht List.not_mem_nil

end State.Inv

end FuturesUnordered

end TokioStreamUtil
