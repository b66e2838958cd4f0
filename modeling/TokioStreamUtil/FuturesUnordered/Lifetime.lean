/-
The whole life of a `FuturesUnordered`: pushes, polls and `clear` while its owner has it,
then, if `into_iter` is called, `IntoIter::next` until the iterator is dropped and the set
with it.

`next` leaves the lengths behind: it moves `head_all` on and touches no `len_all`, so the
new head may carry a length from when it last was the head, or from when it was linked.
Such a length is never too small, and that is all `unlink` needs when the set is dropped.
-/
import TokioStreamUtil.FuturesUnordered.Listed
import TokioStreamUtil.FuturesUnordered.Clear

set_option autoImplicit false

namespace TokioStreamUtil.FuturesUnordered

variable {F O W : Type} {A : AtomicWaker W}

/-! ## The iterator among wakes -/

/-- One step of an iterator while wakes go on, also during its drop. -/
def IntoIter.race (i : IntoIter F O W A) : IntoIter.Act → Option (IntoIter F O W A)
  | .next => if i.inner.owner.isIdle then i.next.map Prod.snd else none
  | .wake j t =>
      (FuturesUnordered.step i.inner (.wake j t)).map fun s => { i with inner := s }
  | .thread j =>
      (FuturesUnordered.step i.inner (.thread j)).map fun s => { i with inner := s }
  | .drop => (FuturesUnordered.step i.inner .drop).map fun s => { i with inner := s }
  | .owner =>
      (FuturesUnordered.step i.inner .owner).map fun s =>
        { i with inner := s, dropped := i.dropped ++ i.inner.drops }

/-- Writing a cell other than the future changes no future. -/
theorem future_update_same (tasks : ℕ → Task F) (t : ℕ) {x : Task F}
    (hx : x.future = (tasks t).future) (u : ℕ) :
    (Function.update tasks t x u).future = (tasks u).future := by
  by_cases hut : u = t
  · subst hut
    rw [Function.update_self, hx]
  · rw [Function.update_of_ne hut]

/-- What is left of the invariant when an iterator owns the set. -/
structure State.Consumed (s : State F O W A) (l : List ℕ) : Prop where
  chain : s.all.Chain l
  mem : ∀ t, t ∈ l ↔ (s.tasks t).future.isSome = true ∧ s.owner.inHand ≠ some t
  releasable : ∀ t, s.owner.held = some t → s.all.releasable t = true
  owner : ∀ lv pc, s.owner ≠ .poll lv pc

namespace State.Consumed

variable {s s' : State F O W A} {l : List ℕ}

/-- A step that touches neither the list nor a future. -/
theorem same (h : s.Consumed l) (hall : s'.all = s.all)
    (hfut : ∀ t, (s'.tasks t).future = (s.tasks t).future)
    (hhand : s'.owner.inHand = s.owner.inHand)
    (hheld : ∀ t, s'.owner.held = some t → s.owner.held = some t)
    (howner : ∀ lv pc, s'.owner ≠ .poll lv pc) : s'.Consumed l where
  chain := by rw [hall]; exact h.chain
  mem := by
    intro t
    rw [h.mem t, hfut, hhand]
  releasable := by
    intro t ht
    rw [hall]
    exact h.releasable t (hheld t ht)
  owner := howner

/-- Such a step, made by somebody else than the owner. -/
theorem frame (h : s.Consumed l) (hall : s'.all = s.all)
    (hfut : ∀ t, (s'.tasks t).future = (s.tasks t).future) (howner : s'.owner = s.owner) :
    s'.Consumed l := by
  refine h.same hall hfut (by rw [howner]) (fun t ht => ?_) fun lv pc => ?_
  · rw [← howner]
    exact ht
  · rw [howner]
    exact h.owner lv pc

/-- A step of the iterator's set that is not one of its owner. -/
theorem shared (h : s.Consumed l) {a : Act F O W} (hm : Move s a s') (ha : a.inner = true)
    (hother : a ≠ .owner) : s'.Consumed l := by
  cases hm with
  | push fut hi ho => cases ha
  | polled r ho => cases ha
  | poll_next w ho hp => cases ha
  | ret ho => cases ha
  | drop ho hp => cases ha
  | upgradeFails hal => exact h
  | storeWoken hi =>
      exact h.frame rfl (future_update_same s.tasks _ rfl) rfl
  | swapQueued hi =>
      unfold State.swapQueued
      split
      · exact h.frame rfl (fun _ => rfl) rfl
      · exact h.frame rfl (future_update_same s.tasks _ rfl) rfl
  | dropInner hi =>
      unfold State.dropInner
      dsimp only
      split
      · rename_i ho
        split
        · exact h.same rfl (fun _ => rfl) (by rw [ho]; rfl) nofun nofun
        · exact h.frame rfl (fun _ => rfl) rfl
      · exact h.frame rfl (fun _ => rfl) rfl
  | produce hp => exact h.frame rfl (fun _ => rfl) rfl
  | endPush hi hp => exact h.frame rfl (fun _ => rfl) rfl
  | upgrade hi ht hal => exact h.frame rfl (fun _ => rfl) rfl
  | endEnqueue hi hp => exact h.frame rfl (fun _ => rfl) rfl
  | wakeWaker hi => exact h.frame rfl (fun _ => rfl) rfl
  | _ => exact absurd rfl hother

/-- The drop begins. -/
theorem drop (h : s.Consumed l) (ho : s.owner = .idle) :
    (s.setOwner (.drop .loop)).Consumed l :=
  h.same rfl (fun _ => rfl) (by rw [ho]; rfl) nofun nofun

/-- One round of the drop unlinks the head, whatever its length says. -/
theorem dropLoop (h : s.Consumed l) (ho : s.owner = .drop .loop) :
    ∃ l', s.dropLoop.Consumed l' := by
  have hhand : s.owner.inHand = none := by rw [ho]; rfl
  cases l with
  | nil =>
      have hhead : s.all.head_all = none := h.chain.head
      refine ⟨[], ?_⟩
      unfold State.dropLoop
      rw [hhead]
      dsimp only
      split
      · exact h.same rfl (fun _ => rfl) (by rw [hhand]; rfl) nofun nofun
      · exact h.same rfl (fun _ => rfl) (by rw [hhand]; rfl) nofun nofun
  | cons t l =>
      have hnodup := List.nodup_cons.mp h.chain.linked.nodup
      refine ⟨l, ?_⟩
      unfold State.dropLoop
      rw [h.chain.head]
      refine ⟨h.chain.unlink, fun u => ?_, fun u hu => ?_, nofun⟩
      · -- the head is in hand now, and was on the list only once
        show u ∈ l ↔ (s.tasks u).future.isSome = true ∧ some t ≠ some u
        have hu := h.mem u
        rw [hhand, List.mem_cons] at hu
        constructor
        · intro hul
          refine ⟨(hu.mp (Or.inr hul)).1, ?_⟩
          rintro ⟨⟩
          exact hnodup.1 hul
        · rintro ⟨hsome, hne⟩
          refine (hu.mpr ⟨hsome, (Option.some_ne_none u).symm⟩).resolve_left ?_
          rintro rfl
          exact hne rfl
      · obtain rfl : t = u := Option.some.inj hu
        exact h.chain.releasable_unlink

/-- The task that has been unlinked loses its future. -/
theorem dropFuture (h : s.Consumed l) {t : ℕ} {prev : Bool}
    (ho : s.owner = .drop (.dropFuture t prev)) :
    (s.dropFuture t prev (.drop .loop)).Consumed l where
  chain := h.chain
  mem := by
    intro u
    show u ∈ l ↔ (Function.update s.tasks t _ u).future.isSome = true ∧ none ≠ some u
    have hu := h.mem u
    have hhand : s.owner.inHand = some t := by rw [ho]; rfl
    rw [hhand] at hu
    by_cases hut : u = t
    · subst hut
      simp [hu]
    · rw [hu, Function.update_of_ne hut]
      simp [Ne.symm hut]
  releasable := nofun
  owner := nofun

/-- A step of the drop. -/
theorem ownerStep (h : s.Consumed l) (hm : Move s .owner s') : ∃ l', s'.Consumed l' := by
  cases hm with
  | consume hrun ho => exact ⟨l, h.frame rfl (fun _ => rfl) rfl⟩
  | dropLoop ho => exact h.dropLoop ho
  | dropRelease ho =>
      exact ⟨l, h.same rfl (future_update_same s.tasks _ rfl) (by rw [ho]; rfl) nofun nofun⟩
  | dropDropFuture ho => exact ⟨l, h.dropFuture ho⟩
  | @dropDequeued d ho hc =>
      cases d with
      | Data n => exact ⟨l, h.frame rfl (fun _ => rfl) rfl⟩
      | _ => exact ⟨l, h.same rfl (fun _ => rfl) (by rw [ho]; rfl) nofun nofun⟩
  | register ho => exact absurd ho (h.owner _ _)
  | dequeueEmpty ho hc => exact absurd ho (h.owner _ _)
  | dequeueInconsistent ho hc => exact absurd ho (h.owner _ _)
  | dequeueReleased ho hc hf => exact absurd ho (h.owner _ _)
  | dequeueData ho hc hf => exact absurd ho (h.owner _ _)
  | unlink ho => exact absurd ho (h.owner _ _)
  | resetQueued ho => exact absurd ho (h.owner _ _)
  | clearWoken ho => exact absurd ho (h.owner _ _)
  | loadWoken ho => exact absurd ho (h.owner _ _)
  | relink ho => exact absurd ho (h.owner _ _)
  | release ho => exact absurd ho (h.owner _ _)
  | dropFuture ho => exact absurd ho (h.owner _ _)
  | wakeParent ho => exact absurd ho (h.owner _ _)

/-- What the drop asserts of the list holds, though the lengths may be out of date. -/
theorem listed (h : s.Consumed l) : s.Listed l where
  chain := h.chain
  mem := h.mem
  unlinking := by
    intro t ht
    cases ho : s.owner with
    | poll lv pc => exact absurd ho (h.owner lv pc)
    | _ => rw [ho] at ht; cases ht
  asserts := by
    unfold State.asserts
    cases ho : s.owner with
    | poll lv pc => exact absurd ho (h.owner lv pc)
    | drop pc =>
        cases pc with
        | loop => exact h.chain.null_or_unlinkable
        | release t => exact h.releasable t (by rw [ho]; rfl)
        | dropFuture t prev => rfl
    | _ => rfl

end State.Consumed

namespace IntoIter

variable {i i' : IntoIter F O W A} {l : List ℕ}

/-- The set of the iterator; its length is exact until it is dropped. -/
structure Left (i : IntoIter F O W A) (l : List ℕ) : Prop where
  consumed : i.inner.Consumed l
  len : i.inner.owner = .idle → i.len = l.length

namespace Left

/-- `next` finds a future at the head and a length to count down, so it does not panic. -/
theorem next (h : i.Left l) (ho : i.inner.owner = .idle) :
    ∃ r i', i.next = some (r, i') ∧ ∃ l', i'.Left l' := by
  cases l with
  | nil =>
      refine ⟨none, i, ?_, [], h⟩
      unfold IntoIter.next
      rw [h.consumed.chain.head]
      rfl
  | cons t l =>
      obtain ⟨hsome, -⟩ := (h.consumed.mem t).mp List.mem_cons_self
      obtain ⟨fut, hfut⟩ := Option.isSome_iff_exists.mp hsome
      have hlen : i.len = l.length + 1 := h.len ho
      have hout := (List.nodup_cons.mp h.consumed.chain.linked.nodup).1
      have hhand : i.inner.owner.inHand = none := by rw [ho]; rfl
      let i' : IntoIter F O W A :=
        { len := l.length
          inner :=
            { i.inner with
              all := i.inner.all.advance
              tasks := Function.update i.inner.tasks t { i.inner.tasks t with future := none } }
          handed := i.handed ++ [(t, fut)]
          dropped := i.dropped }
      refine ⟨some fut, i', ?_, l, ⟨h.consumed.chain.advance, fun u => ?_, ?_, ?_⟩, fun _ => rfl⟩
      · unfold IntoIter.next
        rw [h.consumed.chain.head]
        simp only [List.head?_cons, hfut, hlen]
        rfl
      · -- the head has lost its future, and stays linked all the same
        show u ∈ l ↔ (Function.update i.inner.tasks t _ u).future.isSome = true ∧ _
        have hu := h.consumed.mem u
        rw [List.mem_cons] at hu
        by_cases hut : u = t
        · subst hut
          simp [hout]
        · rw [Function.update_of_ne hut, ← hu]
          simp [hut]
      · intro u hu
        have hheld : i.inner.owner.held = some u := hu
        rw [ho] at hheld
        cases hheld
      · exact h.consumed.owner

/-- A wake on another thread. -/
theorem shared (h : i.Left l) {a : FuturesUnordered.Act F O W} {s : State F O W A}
    (hs : FuturesUnordered.step i.inner a = some s) (ha : a.inner = true) (hother : a ≠ .owner) :
    ∃ l', Left { i with inner := s } l' := by
  have hm := move_of_step hs
  refine ⟨l, h.consumed.shared hm ha hother, fun hidle => h.len (Owner.eq_idle ?_)⟩
  rw [← (frame_move hm ha).idle, show s.owner = .idle from hidle]
  rfl

theorem race (h : i.Left l) {a : IntoIter.Act} (hs : i.race a = some i') :
    ∃ l', i'.Left l' := by
  cases a with
  | next =>
      simp only [IntoIter.race, Option.ite_none_right_eq_some] at hs
      obtain ⟨ho, hs⟩ := hs
      obtain ⟨r, i₁, hnext, hleft⟩ := h.next (Owner.eq_idle ho)
      rw [hnext] at hs
      cases hs
      exact hleft
  | wake j t =>
      simp only [IntoIter.race, Option.map_eq_some_iff] at hs
      obtain ⟨s', hs', rfl⟩ := hs
      exact h.shared hs' rfl (by simp)
  | thread j =>
      simp only [IntoIter.race, Option.map_eq_some_iff] at hs
      obtain ⟨s', hs', rfl⟩ := hs
      exact h.shared hs' rfl (by simp)
  | drop =>
      simp only [IntoIter.race, FuturesUnordered.step, Option.map_eq_some_iff,
        Option.ite_none_right_eq_some, Option.some.injEq] at hs
      obtain ⟨s', ⟨⟨ho, -⟩, rfl⟩, rfl⟩ := hs
      exact ⟨l, h.consumed.drop (Owner.eq_idle ho), by simp [State.setOwner]⟩
  | owner =>
      simp only [IntoIter.race, Option.map_eq_some_iff] at hs
      obtain ⟨s', hs', rfl⟩ := hs
      have hm := move_of_step hs'
      obtain ⟨l', hl'⟩ := h.consumed.ownerStep hm
      -- the drop is in progress, so the length of the iterator is of no use any more
      refine ⟨l', hl', fun hidle => ?_⟩
      have hbusy := owner_not_idle hm
      have hsame := (frame_move hm rfl).idle
      rw [hbusy, show s'.owner = .idle from hidle] at hsame
      cases hsame

end Left

end IntoIter

/-! ## From the first push to the last drop -/

/-- The owner has a set, or an iterator that owns it; the sets that `clear` has replaced go
on beside it. -/
inductive Life (F O W : Type) (A : AtomicWaker W) where
  | set (S : Sets F O W A)
  | iter (i : IntoIter F O W A) (replaced : List (State F O W A))

namespace Life

/-- The sets that no iterator owns. -/
def sets : Life F O W A → List (State F O W A)
  | .set S => S.all
  | .iter _ replaced => replaced

/-- The iterator, if there is one. -/
def iterator : Life F O W A → Option (IntoIter F O W A)
  | .set _ => none
  | .iter i _ => some i

/-- A step of the set or of a set that was replaced, `into_iter`, and a step of the
iterator. -/
inductive Act (F O W : Type) where
  | set (a : Sets.Act F O W)
  | into_iter
  | iter (a : IntoIter.Act)
  | replaced (k : ℕ) (a : FuturesUnordered.Act F O W)

/-- One step. `into_iter` takes the set by value, so that nobody borrows it. -/
def step : Life F O W A → Act F O W → Option (Life F O W A)
  | .set S, .set a => (Sets.step S a).map .set
  | .set S, .into_iter =>
      if S.current.owner.isIdle ∧ S.current.pushing = ∅ then
        some (.iter S.current.into_iter S.replaced)
      else none
  | .iter i replaced, .iter a => (i.race a).map fun i => .iter i replaced
  | .iter i replaced, .replaced k a =>
      match replaced[k]? with
      | some s => (FuturesUnordered.step s a).map fun s' => .iter i (replaced.set k s')
      | none => none
  | _, _ => none

def new : Life F O W A := .set Sets.new

/-- What holds of every set in the course of a life. -/
structure Inv (L : Life F O W A) : Prop where
  sets : ∀ s ∈ L.sets, s.Contained
  iter : ∀ i, L.iterator = some i → ∃ l, i.Left l

theorem inv_new : (new : Life F O W A).Inv where
  sets := by
    intro s hs
    rw [List.mem_singleton.mp hs]
    exact State.Contained.new
  iter := by
    intro i hi
    cases hi

namespace Inv

variable {L L' : Life F O W A}

/-- A set under an iterator starts with exact lengths. -/
theorem into_iter {s : State F O W A} (h : s.Contained) (ho : s.owner = .idle) :
    ∃ l, s.into_iter.Left l := by
  obtain ⟨l, hl, hlen⟩ := h.listed
  refine ⟨l, ⟨hl.chain, hl.mem, ?_, ?_⟩, fun _ => hlen⟩
  · intro t ht
    have hheld : s.owner.held = some t := ht
    rw [ho] at hheld
    cases hheld
  · intro lv pc hpoll
    have hpoll' : s.owner = .poll lv pc := hpoll
    rw [ho] at hpoll'
    cases hpoll'

theorem step (h : L.Inv) {a : Act F O W} (hs : Life.step L a = some L') : L'.Inv := by
  cases L with
  | set S =>
      cases a with
      | set a =>
          simp only [Life.step, Option.map_eq_some_iff] at hs
          obtain ⟨S', hS', rfl⟩ := hs
          refine ⟨fun s hs => ?_, fun i hi => by cases hi⟩
          rcases Generations.mem_all_of_step hS' hs with hold | rfl | ⟨s₀, hold, b, hb⟩
          · exact h.sets s hold
          · exact State.Contained.new
          · exact (h.sets s₀ hold).step hb
      | into_iter =>
          simp only [Life.step, Option.ite_none_right_eq_some, Option.some.injEq] at hs
          obtain ⟨⟨ho, -⟩, rfl⟩ := hs
          refine ⟨fun s hs => h.sets s (List.mem_cons_of_mem _ hs), fun i hi => ?_⟩
          cases hi
          exact into_iter (h.sets S.current List.mem_cons_self) (Owner.eq_idle ho)
      | iter a => cases hs
      | replaced k a => cases hs
  | iter i replaced =>
      obtain ⟨l, hl⟩ := h.iter i rfl
      cases a with
      | set a => cases hs
      | into_iter => cases hs
      | iter a =>
          simp only [Life.step, Option.map_eq_some_iff] at hs
          obtain ⟨i', hi', rfl⟩ := hs
          refine ⟨h.sets, fun j hj => ?_⟩
          cases hj
          exact hl.race hi'
      | replaced k a =>
          simp only [Life.step] at hs
          cases hk : replaced[k]? with
          | none => rw [hk] at hs; cases hs
          | some s =>
              rw [hk] at hs
              simp only [Option.map_eq_some_iff] at hs
              obtain ⟨s', hs', rfl⟩ := hs
              refine ⟨fun u hu => ?_, fun j hj => h.iter j hj⟩
              rcases List.mem_or_eq_of_mem_set hu with hold | rfl
              · exact h.sets u hold
              · exact (h.sets s (List.mem_of_getElem? hk)).step hs'

end Inv

end Life

/-- **The list of all tasks is what the futures say it is.** In every state of every run of
pushes, polls, wakes, `clear`, `into_iter`, `next` and the drop: the pointers of every set
spell out one list without repetitions, null at both ends and nowhere pending; on it are
the tasks with a future, save the one that the exclusive call has in hand; the length of a
node is never less than what is left from it on, and that of the head is exact while no
iterator owns the set; the set is empty exactly if its length is zero; and what `unlink`,
`release_task` and the `link` of a pending future assert is so. An iterator that is asked
finds its own length exact, a future at every head, and does not panic. -/
theorem list_of_all_tasks (L : Life F O W A) (h : Transition.Reachable Life.step Life.new L) :
    (∀ s ∈ L.sets, ∃ l, s.Listed l ∧ s.len = l.length ∧ (s.is_empty = true ↔ s.len = 0)) ∧
    (∀ i, L.iterator = some i → ∃ l, i.inner.Listed l ∧
      (i.inner.is_empty = true ↔ i.inner.len = 0) ∧
      (i.inner.owner = .idle → i.len = l.length ∧ i.next.isSome = true)) := by
  -- by induction on the run; the invariant is `Contained` of a set, `Left` of an iterator
  have hinv : L.Inv := h.invariant Life.inv_new fun _ _ _ hI hs => hI.step hs
  refine ⟨fun s hs => ?_, fun i hi => ?_⟩
  · obtain ⟨l, hl, hlen⟩ := (hinv.sets s hs).listed
    exact ⟨l, hl, hlen, hl.chain.is_empty_iff_len⟩
  · obtain ⟨l, hl⟩ := hinv.iter i hi
    refine ⟨l, hl.consumed.listed, hl.consumed.chain.is_empty_iff_len, fun ho => ⟨hl.len ho, ?_⟩⟩
    obtain ⟨r, i', hnext, -⟩ := hl.next ho
    rw [hnext]
    rfl

/-- Three futures are pushed, the first one polled finishes, the iterator hands out one of
the other two and is dropped. -/
def droppedHalfConsumed : List (Life.Act Unit Unit Unit) :=
  List.flatten [
    (List.replicate 3 (.set (.current (.push 0 ())) ::
      List.replicate 4 (.set (.current (.thread 0))))).flatten,
    [.set (.current (.poll_next ()))], List.replicate 7 (.set (.current .owner)),
    [.set (.current (.polled (.ready ())))], List.replicate 2 (.set (.current .owner)),
    [.set (.current .ret), .into_iter, .iter .next, .iter .drop]]

/-- One future is left in the iterator, and the head says two. -/
theorem list_of_all_tasks_dropped_half_consumed :
    ∃ (L : Life Unit Unit Unit (AtomicWaker.cell Unit)) (i : IntoIter Unit Unit Unit _),
      Transition.run Life.step Life.new droppedHalfConsumed = some L ∧ L.iterator = some i ∧
        i.len = 1 ∧ i.inner.len = 2 ∧ ∃ l, i.inner.Listed l := by
  have hlens : ((Transition.run Life.step (Life.new : Life Unit Unit Unit (AtomicWaker.cell Unit))
      droppedHalfConsumed).bind Life.iterator).map (fun i => (i.len, i.inner.len)) =
        some (1, 2) := rfl
  obtain ⟨i, hbind, hi⟩ := Option.map_eq_some_iff.mp hlens
  obtain ⟨L, hL, hiter⟩ := Option.bind_eq_some_iff.mp hbind
  obtain ⟨hlen, hinner⟩ := Prod.mk.inj hi
  obtain ⟨l, hl, -⟩ := (list_of_all_tasks L ⟨droppedHalfConsumed, hL⟩).2 i hiter
  exact ⟨L, i, hL, hiter, hlen, hinner, l, hl⟩

end TokioStreamUtil.FuturesUnordered
