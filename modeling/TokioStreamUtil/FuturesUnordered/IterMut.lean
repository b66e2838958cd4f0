/-
`IterPinMut` and `IterMut`, the iterators that borrow the set and lend its futures.

`next` follows `next_all` without waiting, and lends the future of the task it stands on.
What it has lent can be written to until the borrow of the set ends, while other threads
go on waking the tasks. None of them moves a task of the list.
-/
import TokioStreamUtil.FuturesUnordered.FusedSet

set_option autoImplicit false

namespace TokioStreamUtil.FuturesUnordered

variable {F O W : Type} {A : AtomicWaker W}

/-- `IterPinMut`. -/
structure IterPinMut where
  task : Option ℕ
  len : ℕ

/-- `FuturesUnordered::iter_pin_mut`, and `iter_mut`. -/
def State.iter_pin_mut (s : State F O W A) : IterPinMut where
  task := s.all.head_all
  len := match s.all.head_all with
    | none => 0
    | some t => s.all.len_all t

namespace IterPinMut

/-- `IterPinMut::next`, with the task whose future is lent. It panics (`none`) where the
task has no future to `unwrap`, or the length is used up. -/
def next (self : IterPinMut) (s : State F O W A) : Option (Option (ℕ × F) × IterPinMut) :=
  match self.task with
  | none => some (none, self)
  | some t =>
      match (s.tasks t).future, self.len with
      | some fut, len + 1 => some (some (t, fut), { task := (s.all.next_all t).task, len := len })
      | _, _ => none

/-- `IterPinMut::size_hint`. -/
def size_hint (self : IterPinMut) : ℕ × Option ℕ := (self.len, some self.len)

end IterPinMut

/-! ## While the set is borrowed -/

/-- The set and its iterator. `lent` are the tasks whose futures `next` has lent, in
order. -/
structure Borrowed (F O W : Type) (A : AtomicWaker W) where
  set : State F O W A
  iter : IterPinMut
  lent : List ℕ

/-- The borrow begins. -/
def State.iter_mut (s : State F O W A) : Borrowed F O W A where
  set := s
  iter := s.iter_pin_mut
  lent := []

namespace Borrowed

/-- What happens meanwhile: `next`, a write to a future that has been lent, a wake of the
task `t` on thread `i`, and the steps of thread `i`. -/
inductive Act (F : Type) where
  | next
  | write (t : ℕ) (fut : F)
  | wake (i t : ℕ)
  | thread (i : ℕ)

/-- One step. -/
def step (x : Borrowed F O W A) : Act F → Option (Borrowed F O W A)
  | .next => (x.iter.next x.set).map fun r =>
      { x with iter := r.2, lent := x.lent ++ (r.1.map Prod.fst).toList }
  | .write t fut =>
      if t ∈ x.lent then
        some { x with set := x.set.setTask t { x.set.tasks t with future := some fut } }
      else none
  | .wake i t => (FuturesUnordered.step x.set (.wake i t)).map fun s => { x with set := s }
  | .thread i => (FuturesUnordered.step x.set (.thread i)).map fun s => { x with set := s }

end Borrowed

/-! ## What the others do -/

variable {s s' : State F O W A} {l : List ℕ}

/-- A write to a future that is there. -/
theorem State.Inv.write (h : s.Inv l) {t : ℕ} {fut fut' : F} (hf : (s.tasks t).future = some fut') :
    (s.setTask t { s.tasks t with future := some fut }).Inv l := by
  have hqueued := queued_update_same s.tasks t (x := { s.tasks t with future := some fut }) rfl
  have hvacant := vacant_update_same s.tasks t (x := { s.tasks t with future := some fut })
    (by rw [hf]; rfl)
  refine ⟨?_, ?_, h.calls, h.consumer, h.unlinking, h.asserted, h.emptied⟩
  · show Flags s.ready s.fresh (fun u => (Function.update s.tasks t _ u).queued) _ _
    rw [hqueued]
    exact h.flags
  · show Places s.all l s.fresh _ (fun u => (Function.update s.tasks t _ u).future.isNone) _ _
    rw [hvacant]
    exact h.places

theorem State.Sound.write (h : s.Sound) {t : ℕ} {fut fut' : F}
    (hf : (s.tasks t).future = some fut') :
    (s.setTask t { s.tasks t with future := some fut }).Sound := by
  obtain ⟨l, hl⟩ := h.inv
  exact ⟨⟨l, hl.write hf⟩, h.ledger⟩

/-- The wakes of other threads touch no future. -/
theorem future_wake {a : Act F O W} (hm : Move s a s') (ha : a.inner = true) (hne : a ≠ .owner)
    (t : ℕ) : (s'.tasks t).future = (s.tasks t).future := by
  have hupdate : ∀ (u : ℕ) (y : Task F), y.future = (s.tasks u).future →
      (Function.update s.tasks u y t).future = (s.tasks t).future := by
    intro u y hy
    by_cases htu : t = u
    · rw [htu, Function.update_self, hy]
    · rw [Function.update_of_ne htu]
  cases hm with
  | push fut hi ho => cases ha
  | polled r ho => cases ha
  | poll_next w ho hp => cases ha
  | ret ho => cases ha
  | drop ho hp => cases ha
  | storeWoken hi => exact hupdate _ _ rfl
  | swapQueued hi =>
      unfold State.swapQueued
      split
      · rfl
      · exact hupdate _ _ rfl
  | dropInner hi =>
      unfold State.dropInner
      dsimp only
      split
      · split <;> rfl
      · rfl
  | produce hp => rfl
  | endPush hi hp => rfl
  | upgrade hi ht hal => rfl
  | upgradeFails hal => rfl
  | endEnqueue hi hp => rfl
  | wakeWaker hi => rfl
  | _ => exact absurd rfl hne

/-! ## The traversal -/

namespace Borrowed

/-- The borrow of `s₀`, whose list is `l`: `lent` is what has been lent of it and `rest`
what is still to come. -/
structure Visits (s₀ : State F O W A) (l : List ℕ) (x : Borrowed F O W A) (rest : List ℕ) :
    Prop where
  sound : x.set.Sound
  inv : x.set.Inv l
  idle : x.set.owner = .idle
  same : x.set.all = s₀.all
  hist : x.set.yielded = s₀.yielded ∧ x.set.hist.discarded = s₀.hist.discarded ∧
    x.set.fresh = s₀.fresh
  parts : x.lent ++ rest = l
  task : x.iter.task = rest.head?
  len : x.iter.len = rest.length

variable {s₀ : State F O W A} {x x' : Borrowed F O W A} {rest : List ℕ}

theorem Visits.new (h : s₀.Sound) (hl : s₀.Inv l) (ho : s₀.owner = .idle) :
    Visits s₀ l s₀.iter_mut l where
  sound := h
  inv := hl
  idle := ho
  same := rfl
  hist := ⟨rfl, rfl, rfl⟩
  parts := rfl
  task := hl.places.all.head
  len := by
    show (match s₀.all.head_all with | none => 0 | some t => s₀.all.len_all t) = l.length
    rw [hl.places.all.head]
    cases l with
    | nil => rfl
    | cons t l => exact hl.places.all.len_head t rfl

/-- A linked task has its future. -/
theorem Visits.future (h : Visits s₀ l x rest) {t : ℕ} (ht : t ∈ l) :
    ∃ fut, (x.set.tasks t).future = some fut := by
  obtain ⟨hlt, hlive, -⟩ := (h.inv.places.mem t).mp ht
  have hvacant := h.inv.places.vacant t hlt
  rw [h.idle] at hvacant
  cases hf : (x.set.tasks t).future with
  | none =>
      rw [hf] at hvacant
      simp [hlive] at hvacant
  | some fut => exact ⟨fut, rfl⟩

/-- `next` lends the first of the rest. -/
theorem Visits.next (h : Visits s₀ l x rest) :
    ∃ r it, x.iter.next x.set = some (r, it) ∧ r.map Prod.fst = rest.head? ∧
      it.task = rest.tail.head? ∧ it.len = rest.tail.length := by
  unfold IterPinMut.next
  cases rest with
  | nil =>
      rw [h.task]
      exact ⟨none, x.iter, rfl, rfl, h.task, h.len⟩
  | cons t rest =>
      obtain ⟨fut, hf⟩ := h.future (h.parts ▸ List.mem_append_right _ List.mem_cons_self)
      have hlinks := (h.inv.places.all.linked.links x.lent t rest h.parts.symm).1
      rw [h.task, h.len]
      dsimp only [List.head?_cons, List.length_cons]
      rw [hf]
      exact ⟨some (t, fut), _, rfl, rfl, hlinks, rfl⟩

/-- The wakes of other threads leave the list alone. -/
theorem Visits.wake (h : Visits s₀ l x rest) {a : FuturesUnordered.Act F O W} (ha : a.inner = true)
    (hs : FuturesUnordered.step x.set a = some s') : Visits s₀ l { x with set := s' } rest := by
  have hm := move_of_step hs
  have hframe := frame_move hm ha
  obtain ⟨hall, -⟩ := others_move h.inv hm ha (others_of_idle hm h.idle)
  have hdrop : a ≠ .drop := by
    rintro rfl
    cases ha
  have hinv : s'.Inv l := by
    obtain ⟨l', hl'⟩ := inv_move h.inv hm
    have hrep := hl'.places.all
    rw [hall] at hrep
    rw [h.inv.places.all.unique hrep]
    exact hl'
  refine ⟨h.sound.move hm hdrop, hinv, ?_, hall.trans h.same, ⟨?_, ?_, ?_⟩, h.parts, h.task, h.len⟩
  · apply Owner.eq_idle
    rw [hframe.idle, h.idle]
    rfl
  · exact (congrArg (List.map Prod.fst) hframe.completed).trans h.hist.1
  · exact hframe.discarded.trans h.hist.2.1
  · exact hframe.fresh.trans h.hist.2.2

/-- **Every step of the borrow.** -/
theorem Visits.step (h : Visits s₀ l x rest) {a : Act F} (hs : x.step a = some x') :
    ∃ rest', Visits s₀ l x' rest' := by
  cases a with
  | next =>
      obtain ⟨r, it, hnext, hr, htask, hlen⟩ := h.next
      simp only [Borrowed.step, hnext, Option.map_some, Option.some.injEq] at hs
      subst hs
      refine ⟨rest.tail, h.sound, h.inv, h.idle, h.same, h.hist, ?_, htask, hlen⟩
      rw [hr, ← h.parts, List.append_assoc]
      cases rest <;> rfl
  | write t fut =>
      simp only [Borrowed.step, Option.ite_none_right_eq_some, Option.some.injEq] at hs
      obtain ⟨ht, rfl⟩ := hs
      obtain ⟨fut', hf⟩ := h.future (h.parts ▸ List.mem_append_left _ ht)
      exact ⟨rest, h.sound.write hf, h.inv.write hf, h.idle, h.same, h.hist, h.parts, h.task, h.len⟩
  | wake i t =>
      obtain ⟨s', hs', rfl⟩ := Option.map_eq_some_iff.mp hs
      exact ⟨rest, h.wake rfl hs'⟩
  | thread i =>
      obtain ⟨s', hs', rfl⟩ := Option.map_eq_some_iff.mp hs
      exact ⟨rest, h.wake rfl hs'⟩

theorem Visits.run {acts : List (Act F)} (h : Visits s₀ l x rest)
    (hrun : Transition.run Borrowed.step x acts = some x') : ∃ rest', Visits s₀ l x' rest' :=
  Transition.run_invariant (I := fun x => ∃ rest, Visits s₀ l x rest)
    (fun _ _ _ hx hs => by
      obtain ⟨rest, hvisits⟩ := hx
      exact hvisits.step hs)
    ⟨rest, h⟩ hrun

/-- The future that a write to the task `t` puts there. -/
def Act.writes (t : ℕ) : Act F → Option F
  | .write u fut => if u = t then some fut else none
  | _ => none

/-- A future is what was last written to it, or what it was. -/
theorem future_of_run {acts : List (Act F)} (h : Visits s₀ l s₀.iter_mut l)
    (hrun : Transition.run Borrowed.step s₀.iter_mut acts = some x) (t : ℕ) :
    (x.set.tasks t).future = ((acts.filterMap (Act.writes t)).getLast?).or (s₀.tasks t).future := by
  induction acts using List.reverseRecOn generalizing x with
  | nil =>
      rw [Transition.run_nil, Option.some.injEq] at hrun
      subst hrun
      rfl
  | append_singleton acts a ih =>
      obtain ⟨x₁, hrun₁, hs⟩ := Transition.run_concat_eq_some.mp hrun
      obtain ⟨rest, hvisits⟩ := h.run hrun₁
      have hwake : ∀ {b : FuturesUnordered.Act F O W} {s' : State F O W A}, b.inner = true →
          FuturesUnordered.step x₁.set b = some s' →
            (s'.tasks t).future = (x₁.set.tasks t).future := by
        intro b s' hb hstep
        have hm := move_of_step hstep
        exact future_wake hm hb (others_of_idle hm hvisits.idle) t
      rw [List.filterMap_append]
      cases a with
      | next =>
          obtain ⟨r, hr, rfl⟩ := Option.map_eq_some_iff.mp hs
          simpa [Act.writes] using ih hrun₁
      | write u fut =>
          simp only [Borrowed.step, Option.ite_none_right_eq_some, Option.some.injEq] at hs
          obtain ⟨-, rfl⟩ := hs
          by_cases hut : u = t
          · subst hut
            simp [Act.writes, State.setTask]
          · have hne : t ≠ u := Ne.symm hut
            simpa [Act.writes, hut, State.setTask, Function.update_of_ne hne] using ih hrun₁
      | wake i u =>
          obtain ⟨s', hs', rfl⟩ := Option.map_eq_some_iff.mp hs
          simpa [Act.writes] using (hwake rfl hs').trans (ih hrun₁)
      | thread i =>
          obtain ⟨s', hs', rfl⟩ := Option.map_eq_some_iff.mp hs
          simpa [Act.writes] using (hwake rfl hs').trans (ih hrun₁)

end Borrowed

/-- Between calls the list holds what was pushed and has not finished. -/
theorem State.Sound.mem_iff (h : s.Sound) (hl : s.Inv l) (ho : s.owner = .idle) (t : ℕ) :
    t ∈ l ↔ t < s.fresh ∧ t ∉ s.yielded ∧ t ∉ s.hist.discarded := by
  have hfinished := h.ledger.finished t
  rw [List.mem_append, ho] at hfinished
  have hheld : s.owner.held = none := by rw [ho]; rfl
  rw [hl.places.mem t, hheld, ← not_or, State.yielded, hfinished]
  simp [Owner.releasing]

/-- **`iter_mut` visits every future once.** Whatever the set has been through, and whatever
is written to the futures that have been lent and whichever tasks are woken meanwhile: what
has been lent and what is still to come are the futures pushed that have not finished, each
once; `next` does not panic, and lends the next of them until none is left; the hint is
exact before every step; every future is what was last written to it; and the set is sound
and as long as before, so it can be used on. -/
theorem iter_mut_visits_each_once (ls : List (Act F O W)) (s : State F O W A) (hdrop : .drop ∉ ls)
    (hrun : Transition.run step State.new ls = some s) (ho : s.owner = .idle)
    (acts : List (Borrowed.Act F)) (x : Borrowed F O W A)
    (hrun' : Transition.run Borrowed.step s.iter_mut acts = some x) :
    ∃ rest, (x.lent ++ rest).Nodup ∧
      (∀ t, t ∈ x.lent ++ rest ↔ t < s.fresh ∧ t ∉ s.yielded ∧ t ∉ s.hist.discarded) ∧
      (∃ r it, x.iter.next x.set = some (r, it) ∧ r.map Prod.fst = rest.head? ∧
        ∀ t fut, r = some (t, fut) → (x.set.tasks t).future = some fut) ∧
      x.iter.size_hint = (rest.length, some rest.length) ∧
      (∀ t, (x.set.tasks t).future =
        ((acts.filterMap (Borrowed.Act.writes t)).getLast?).or (s.tasks t).future) ∧
      x.set.Sound ∧ x.set.owner = .idle ∧ x.set.size_hint = s.size_hint := by
  obtain ⟨hsound, -⟩ := over_of_run hdrop hrun
  obtain ⟨l, hl⟩ := hsound.inv
  have hbegin := Borrowed.Visits.new hsound hl ho
  obtain ⟨rest, h⟩ := hbegin.run hrun'
  refine ⟨rest, ?_, fun t => ?_, ?_, ?_, Borrowed.future_of_run hbegin hrun', h.sound, h.idle, ?_⟩
  · rw [h.parts]
    exact hl.places.nodup
  · rw [h.parts]
    exact hsound.mem_iff hl ho t
  · obtain ⟨r, it, hnext, hr, -⟩ := h.next
    refine ⟨r, it, hnext, hr, ?_⟩
    rintro t fut rfl
    unfold IterPinMut.next at hnext
    split at hnext
    · cases hnext
    · split at hnext
      · rename_i u fut' len hf hlen
        cases hnext
        exact hf
      · cases hnext
  · unfold IterPinMut.size_hint
    rw [h.len]
  · unfold State.size_hint State.len
    rw [h.same]

/-- Of two futures, the first that is lent is written to, and woken before the second is
asked for. -/
def writesAndWakes : List (Borrowed.Act Bool) :=
  [.next, .write 1 false, .wake 1 1, .thread 1, .thread 1, .next]

theorem iter_mut_visits_each_once_written :
    ∃ x : Borrowed Bool Unit Unit (AtomicWaker.cell Unit), x.lent = [1, 0] ∧
      (x.set.tasks 1).future = some false ∧ x.iter.size_hint = (0, some 0) := by
  obtain ⟨s, x, hs, ho, hx, hlent, hend⟩ :
      ∃ (s : State Bool Unit Unit (AtomicWaker.cell Unit)) (x : Borrowed Bool Unit Unit _),
        Transition.run step State.new (extendActs 0 [true, true]) = some s ∧ s.owner = .idle ∧
        Transition.run Borrowed.step s.iter_mut writesAndWakes = some x ∧
        x.lent = [1, 0] ∧ x.iter.task = none :=
    ⟨_, _, rfl, rfl, rfl, rfl, rfl⟩
  obtain ⟨rest, -, -, ⟨r, it, hnext, hr, -⟩, hhint, hfuture, -⟩ :=
    iter_mut_visits_each_once (extendActs 0 [true, true]) s (by simp [extendActs]) hs ho writesAndWakes x hx
  have hrest : rest = [] := by
    unfold IterPinMut.next at hnext
    rw [hend] at hnext
    simp only [Option.some.injEq, Prod.mk.injEq] at hnext
    rw [← hnext.1, Option.map_none] at hr
    exact List.head?_eq_none_iff.mp hr.symm
  subst hrest
  exact ⟨x, hlent, hfuture 1, hhint⟩

end TokioStreamUtil.FuturesUnordered
