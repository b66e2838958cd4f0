/-
Who gives back the references of a set that is iterated by value.

Until it is dropped, the iterator works on a set that is like the untouched one, except
for the list and the futures that are gone (`strip`): no wake looks at either. From the
drop on it runs in lockstep with the drop of a set in which the tasks handed out have been
released (`disown`). What that set has given back at once, and the real one never does,
are the references of the tasks handed out with their flag down: they are in no list and
in no queue.
-/
import TokioStreamUtil.FuturesUnordered.IntoIter
import TokioStreamUtil.FuturesUnordered.References

set_option autoImplicit false

namespace TokioStreamUtil.FuturesUnordered

variable {F O W : Type} {A : AtomicWaker W}

/-! ## Until the drop -/

/-- The set with another list, without the futures of the tasks `gone`. -/
def State.strip (s : State F O W A) (gone : List ℕ) (all : AllList) : State F O W A :=
  { s with
    all := all
    tasks := fun t => if t ∈ gone then { s.tasks t with future := none } else s.tasks t }

variable {s s' u : State F O W A} {gone rest : List ℕ} {all : AllList}

theorem strip_update (s : State F O W A) (gone : List ℕ) (t : ℕ) (f : Task F → Task F)
    (hf : ∀ x, { f x with future := none } = f { x with future := none }) :
    (fun v => if v ∈ gone then { Function.update s.tasks t (f (s.tasks t)) v with future := none }
      else Function.update s.tasks t (f (s.tasks t)) v) =
    Function.update (fun v => if v ∈ gone then { s.tasks v with future := none } else s.tasks v) t
      (f (if t ∈ gone then { s.tasks t with future := none } else s.tasks t)) := by
  funext v
  by_cases hvt : v = t
  · subst hvt
    by_cases hv : v ∈ gone
    · simp [hv, hf]
    · simp [hv]
  · simp [hvt]

theorem strip_queued (s : State F O W A) (gone : List ℕ) (all : AllList) (t : ℕ) :
    ((s.strip gone all).tasks t).queued = (s.tasks t).queued := by
  unfold State.strip
  dsimp only
  split <;> rfl

/-- A shared call neither looks at the futures nor at the list. -/
theorem threadStep_strip (s : State F O W A) (gone : List ℕ) (all : AllList) (i : ℕ) :
    threadStep (s.strip gone all) i = (threadStep s i).map fun s => s.strip gone all := by
  have hth : (s.strip gone all).threads = s.threads := rfl
  have hready : (s.strip gone all).ready = s.ready := rfl
  unfold threadStep
  rw [hth, hready]
  cases hi : s.threads i with
  | idle => rfl
  | push t =>
      dsimp only
      split
      · rfl
      · rfl
  | wake t pc =>
      cases pc with
      | storeWoken =>
          have htasks := strip_update s gone t (fun x => { x with woken := true }) fun _ => rfl
          simp only [Option.map_some, Option.some.injEq]
          unfold State.storeWoken State.setThread State.setTask State.strip
          dsimp only
          rw [htasks]
      | swapQueued =>
          have hq := strip_queued s gone all t
          have htasks := strip_update s gone t (fun x => { x with queued := true }) fun _ => rfl
          simp only [Option.map_some, Option.some.injEq]
          unfold State.swapQueued
          rw [hq]
          split
          · rfl
          · unfold State.strip
            dsimp only
            rw [htasks]
      | enqueue =>
          dsimp only
          split
          · rfl
          · rfl
      | wake => rfl
      | dropInner =>
          simp only [Option.map_some, Option.some.injEq]
          unfold State.dropInner
          have hown : (s.strip gone all).owner = s.owner := rfl
          rw [hown]
          dsimp only
          split
          · have hhold : (s.strip gone all).holders = s.holders := rfl
            rw [hhold]
            split
            · rfl
            · rfl
          · rfl

theorem wake_strip (s : State F O W A) (gone : List ℕ) (all : AllList) (i t : ℕ) :
    step (s.strip gone all) (.wake i t) =
      (step s (.wake i t)).map fun s => s.strip gone all := by
  have hth : (s.strip gone all).threads = s.threads := rfl
  have hfresh : (s.strip gone all).fresh = s.fresh := rfl
  have halive : queueAlive (s.strip gone all) = queueAlive s := rfl
  simp only [step, hth, hfresh, halive]
  split
  · split
    · rfl
    · rfl
  · rfl

/-- The futures of the tasks in `l`, with their tasks. -/
def futuresOf (tasks : ℕ → Task F) (l : List ℕ) : List (ℕ × F) :=
  l.filterMap fun t => (tasks t).future.map fun fut => (t, fut)

theorem futuresOf_append (tasks : ℕ → Task F) (l l' : List ℕ) :
    futuresOf tasks (l ++ l') = futuresOf tasks l ++ futuresOf tasks l' :=
  List.filterMap_append

theorem futuresOf_cons {tasks : ℕ → Task F} {t : ℕ} {fut : F} (h : (tasks t).future = some fut)
    (l : List ℕ) : futuresOf tasks (t :: l) = (t, fut) :: futuresOf tasks l := by
  unfold futuresOf
  rw [List.filterMap_cons, h]
  rfl

theorem futuresOf_congr {tasks tasks' : ℕ → Task F} {l : List ℕ}
    (h : ∀ t ∈ l, (tasks' t).future = (tasks t).future) :
    futuresOf tasks' l = futuresOf tasks l := by
  refine List.filterMap_congr fun t ht => ?_
  rw [h t ht]

/-- The tasks of the list have their futures. -/
theorem State.Inv.future_of_mem (h : s.Inv rest) {t : ℕ} (ht : t ∈ rest) :
    ∃ fut, (s.tasks t).future = some fut := by
  have hvacant := (h.places.vacant_of_mem ht).1
  exact Option.isSome_iff_exists.mp (by simpa using hvacant)

/-- The list holds all futures there are. -/
theorem State.Inv.perm_futures (h : s.Inv rest) (ho : s.owner = .idle) :
    (futuresOf s.tasks rest).Perm s.futures := by
  have hfilter : s.futures =
      futuresOf s.tasks ((List.range s.fresh).filter fun t => (s.tasks t).future.isSome) := by
    unfold State.futures futuresOf
    rw [List.filterMap_filter]
    refine List.filterMap_congr fun t _ => ?_
    cases hf : (s.tasks t).future with
    | none => rfl
    | some fut => rfl
  rw [hfilter]
  refine List.Perm.filterMap _ ((List.perm_ext_iff_of_nodup h.places.nodup
    (List.nodup_range.filter _)).mpr fun t => ?_)
  rw [List.mem_filter, List.mem_range]
  constructor
  · intro ht
    obtain ⟨fut, hfut⟩ := h.future_of_mem ht
    exact ⟨((h.places.mem t).mp ht).1, by rw [hfut]; rfl⟩
  · rintro ⟨hlt, hsome⟩
    have hlive : s.hist.retired t = false :=
      h.places.live_of_future hlt (by simpa using hsome)
        (by rw [ho]; exact (Option.some_ne_none t).symm)
    exact (h.places.mem t).mpr ⟨hlt, hlive, by rw [ho]; exact (Option.some_ne_none t).symm⟩

/-- The tasks whose futures `next` has returned. -/
def IntoIter.taken (i : IntoIter F O W A) : List ℕ := i.handed.map Prod.fst

/-- The iterator `i`, not yet dropped, beside the set `u` as it would be if `next` had
never been called. `futs` are the futures that were in it, `rest` is what is left of
the list. -/
structure IntoIter.Mirrors (futs : List (ℕ × F)) (n : ℕ) (i : IntoIter F O W A)
    (u : State F O W A) (rest : List ℕ) : Prop where
  accounted : u.Accounted
  owner : u.owner = .idle
  pushing : u.pushing = ∅
  fresh : u.fresh = n
  inv : u.Inv (i.taken ++ rest)
  inner : i.inner = u.strip i.taken i.inner.all
  chain : i.inner.all.Chain rest
  len : i.len = rest.length
  handed : futuresOf u.tasks i.taken = i.handed
  futures : i.handed ++ futuresOf u.tasks rest = futs
  dropped : i.dropped = []

namespace IntoIter.Mirrors

variable {futs : List (ℕ × F)} {n : ℕ} {i i' : IntoIter F O W A}

/-- `into_iter`. -/
theorem into_iter (hacc : s.Accounted) (hinv : s.Inv rest) (ho : s.owner = .idle)
    (hp : s.pushing = ∅) :
    Mirrors (futuresOf s.tasks rest) s.fresh s.into_iter s rest := by
  refine ⟨hacc, ho, hp, rfl, hinv, ?_, hinv.places.all.chain, ?_, rfl, rfl, rfl⟩
  · unfold State.strip State.into_iter IntoIter.taken
    simp
  · exact hinv.places.all.len_eq

/-- A wake on another thread. -/
theorem shared (h : Mirrors futs n i u rest) {a : FuturesUnordered.Act F O W}
    (ha : a.inner = true) (hother : a ≠ .owner)
    (hstrip : FuturesUnordered.step (u.strip i.taken i.inner.all) a =
      (FuturesUnordered.step u a).map fun s => s.strip i.taken i.inner.all)
    (hs : FuturesUnordered.step i.inner a = some s') : ∃ u', Mirrors futs n { i with inner := s' } u' rest := by
  rw [h.inner, hstrip, Option.map_eq_some_iff] at hs
  obtain ⟨u', hu', rfl⟩ := hs
  have hm := move_of_step hu'
  have hframe := frame_move hm ha
  have hall := (others_move h.inv hm ha hother).1
  have ho' : u'.owner = .idle := Owner.eq_idle (by rw [hframe.idle, h.owner]; rfl)
  -- the list is untouched, so it spells the same tasks
  obtain ⟨l', hl'⟩ := inv_move h.inv hm
  have hrep := hl'.places.all
  rw [hall] at hrep
  obtain rfl := hrep.unique h.inv.places.all
  have hkept : ∀ t ∈ i.taken ++ rest, (u'.tasks t).future = (u.tasks t).future := by
    intro t ht
    obtain ⟨fut, hfut⟩ := hl'.future_of_mem ht
    rw [hfut, hframe.future t fut hfut]
  refine ⟨u', h.accounted.step hu', ho', hframe.pushing h.pushing, hframe.fresh.trans h.fresh,
    hl', rfl, h.chain, h.len, ?_, ?_, h.dropped⟩
  · refine (futuresOf_congr fun t ht => ?_).trans h.handed
    exact hkept t (List.mem_append_left _ ht)
  · rw [← h.futures]
    congr 1
    exact futuresOf_congr fun t ht => hkept t (List.mem_append_right _ ht)

/-- `next` hands out the future of the head, if there is one. It does not panic. -/
theorem next (h : Mirrors futs n i u rest) :
    ∃ r i', i.next = some (r, i') ∧ ∃ rest', Mirrors futs n i' u rest' := by
  cases rest with
  | nil =>
      refine ⟨none, i, ?_, [], h⟩
      unfold IntoIter.next
      rw [h.chain.head]
      rfl
  | cons t rest =>
      have hmem : t ∈ i.taken ++ t :: rest := by simp
      obtain ⟨fut, hfut⟩ := h.inv.future_of_mem hmem
      have hnodup := h.inv.places.nodup
      have hout : t ∉ i.taken := by
        rw [List.nodup_middle, List.nodup_cons, List.mem_append, not_or] at hnodup
        exact hnodup.1.1
      have hfut' : (i.inner.tasks t).future = some fut := by
        rw [h.inner]
        unfold State.strip
        dsimp only
        rw [if_neg hout]
        exact hfut
      have hlen : i.len = rest.length + 1 := h.len
      let i' : IntoIter F O W A :=
        { len := rest.length
          inner :=
            { i.inner with
              all := i.inner.all.advance
              tasks := Function.update i.inner.tasks t { i.inner.tasks t with future := none } }
          handed := i.handed ++ [(t, fut)]
          dropped := i.dropped }
      have htaken : i'.taken = i.taken ++ [t] := by simp [i', IntoIter.taken]
      have hnext : i.next = some (some fut, i') := by
        unfold IntoIter.next
        rw [h.chain.head]
        simp only [List.head?_cons, hfut', hlen]
        rfl
      refine ⟨some fut, i', hnext, rest, h.accounted, h.owner, h.pushing, h.fresh, ?_, ?_,
        h.chain.advance, rfl, ?_, ?_, h.dropped⟩
      · rw [htaken, List.append_assoc]
        exact h.inv
      · rw [htaken]
        have hinner := h.inner
        have htasks : Function.update i.inner.tasks t { i.inner.tasks t with future := none } =
            fun v => if v ∈ i.taken ++ [t] then { u.tasks v with future := none }
              else u.tasks v := by
          funext v
          rw [hinner]
          unfold State.strip
          dsimp only
          by_cases hvt : v = t
          · subst hvt
            simp [hout]
          · simp [hvt]
        have hstrip : i'.inner = { u.strip i.taken i.inner.all with
            all := i.inner.all.advance
            tasks := Function.update i.inner.tasks t
              { i.inner.tasks t with future := none } } := by
          rw [← hinner]
        rw [hstrip, htasks]
        rfl
      · rw [htaken, futuresOf_append, h.handed, futuresOf_cons hfut]
        rfl
      · rw [← h.futures, futuresOf_cons hfut]
        simp [i']

end IntoIter.Mirrors

/-- One step of an iterator that is not dropped by it. -/
theorem IntoIter.Mirrors.step {futs : List (ℕ × F)} {n : ℕ} {i i' : IntoIter F O W A}
    (h : Mirrors futs n i u rest) {a : IntoIter.Act} (hs : IntoIter.step i a = some i')
    (hidle : i'.inner.owner.isIdle = true) : ∃ u' rest', Mirrors futs n i' u' rest' := by
  have ho : i.inner.owner.isIdle = true := by
    rw [h.inner]
    unfold State.strip
    dsimp only
    rw [h.owner]
    rfl
  cases a with
  | next =>
      obtain ⟨r, i₁, hnext, rest', h'⟩ := h.next
      simp only [IntoIter.step, ho, if_true, hnext, Option.map_some, Option.some.injEq] at hs
      subst hs
      exact ⟨u, rest', h'⟩
  | wake j t =>
      simp only [IntoIter.step, ho, if_true, Option.map_eq_some_iff] at hs
      obtain ⟨s', hs', rfl⟩ := hs
      obtain ⟨u', h'⟩ := h.shared rfl (by simp) (wake_strip u _ _ j t) hs'
      exact ⟨u', rest, h'⟩
  | thread j =>
      simp only [IntoIter.step, ho, if_true, Option.map_eq_some_iff] at hs
      obtain ⟨s', hs', rfl⟩ := hs
      obtain ⟨u', h'⟩ := h.shared (a := .thread j) rfl (by simp) (threadStep_strip u _ _ j) hs'
      exact ⟨u', rest, h'⟩
  | drop =>
      simp only [IntoIter.step, Option.ite_none_right_eq_some, Option.map_eq_some_iff] at hs
      obtain ⟨-, s', hs', rfl⟩ := hs
      simp only [FuturesUnordered.step, Option.ite_none_right_eq_some, Option.some.injEq] at hs'
      obtain ⟨-, rfl⟩ := hs'
      cases hidle
  | owner =>
      simp only [IntoIter.step, Option.map_eq_some_iff] at hs
      obtain ⟨s', hs', rfl⟩ := hs
      have hbusy := owner_not_idle (move_of_step hs')
      rw [ho] at hbusy
      cases hbusy

/-- No step brings a dropped iterator back. -/
theorem idle_of_step {i i' : IntoIter F O W A} {a : IntoIter.Act}
    (hs : IntoIter.step i a = some i') (hidle : i'.inner.owner.isIdle = true) :
    i.inner.owner.isIdle = true := by
  cases a with
  | owner =>
      simp only [IntoIter.step, Option.map_eq_some_iff] at hs
      obtain ⟨s', hs', rfl⟩ := hs
      exact (frame_move (move_of_step hs') rfl).idle ▸ hidle
  | drop =>
      simp only [IntoIter.step, Option.ite_none_right_eq_some, Option.map_eq_some_iff] at hs
      obtain ⟨-, s', hs', rfl⟩ := hs
      simp only [FuturesUnordered.step, Option.ite_none_right_eq_some, Option.some.injEq] at hs'
      exact hs'.1.1
  | _ =>
      simp only [IntoIter.step, Option.ite_none_right_eq_some] at hs
      exact hs.1

/-- **Until the drop the iterator is beside the untouched set.** -/
theorem IntoIter.mirrors_of_run {acts : List IntoIter.Act} {i : IntoIter F O W A}
    (hacc : s.Accounted) (hinv : s.Inv rest) (ho : s.owner = .idle) (hp : s.pushing = ∅)
    (hrun : Transition.run IntoIter.step s.into_iter acts = some i)
    (hidle : i.inner.owner.isIdle = true) :
    ∃ u rest', IntoIter.Mirrors (futuresOf s.tasks rest) s.fresh i u rest' := by
  refine Transition.run_invariant (I := fun i => i.inner.owner.isIdle = true →
    ∃ u rest', IntoIter.Mirrors (futuresOf s.tasks rest) s.fresh i u rest') ?_ ?_ hrun hidle
  · intro i a i' hI hs hidle'
    obtain ⟨u, rest', h⟩ := hI (idle_of_step hs hidle')
    exact h.step hs hidle'
  · exact fun _ => ⟨s, rest, .into_iter hacc hinv ho hp⟩

/-! ## A set that has released the tasks handed out -/

/-- The set at the start of its drop, with the tasks `gone` released: the flag is up for
good, and the reference is given back unless the queue has the task. -/
def State.disown (s : State F O W A) (gone : List ℕ) (all : AllList) : State F O W A :=
  { s with
    all := all
    owner := .drop .loop
    tasks := fun t =>
      if t ∈ gone then { s.tasks t with future := none, queued := true } else s.tasks t
    hist :=
      { s.hist with
        retired := fun t => s.hist.retired t || decide (t ∈ gone)
        freed := fun t =>
          s.hist.freed t + if t ∈ gone ∧ (s.tasks t).queued = false then 1 else 0 } }

namespace State.Inv

theorem disown (h : s.Inv (gone ++ rest)) (ho : s.owner = .idle) (hp : s.pushing = ∅)
    (hall : all.Rep rest) : (s.disown gone all).Inv rest := by
  have hc : s.ready.consumer = .idle := h.consumer.mpr (by rw [ho]; rfl)
  have hflags := h.flags
  have hplaces := h.places
  rw [ho, hc] at hflags
  rw [ho] at hplaces
  have hlive : ∀ t ∈ gone ++ rest, t < s.fresh ∧ s.hist.retired t = false :=
    fun t ht => ⟨((hplaces.mem t).mp ht).1, ((hplaces.mem t).mp ht).2.1⟩
  have hdisjoint : ∀ t ∈ rest, t ∉ gone := by
    intro t ht htg
    exact (List.nodup_append.mp hplaces.nodup).2.2 t htg t ht rfl
  refine ⟨?_, ?_, h.calls.setOwner (fun _ => hp) (fun h => by cases h), ?_,
    fun _ h => (by cases h), fun _ h => (by cases h), fun h => (by cases h)⟩
  · show Flags s.ready s.fresh _ _ ((Owner.drop .loop : Owner O W).taken s.ready.consumer)
    rw [hc]
    refine ⟨hflags.ready, hflags.enqueued_lt, fun _ h => (by cases h), fun t ht => ?_⟩
    by_cases htg : t ∈ gone
    · simp [State.disown, htg]
    · simpa [State.disown, htg, Owner.taken] using hflags.flag t ht
  · refine ⟨hall, fun t => ?_, fun _ h => (by cases h), fun t ht => ?_,
      fun _ h => (by cases h), fun t ht => ?_⟩
    · have hmem := hplaces.mem t
      by_cases htg : t ∈ gone
      · refine iff_of_false (fun ht => hdisjoint t ht htg) ?_
        simp [State.disown, htg]
      · rw [List.mem_append, or_iff_right htg] at hmem
        simpa [State.disown, htg, Owner.held] using hmem
    · by_cases htg : t ∈ gone
      · exact (hlive t (List.mem_append_left _ htg)).1
      · exact hplaces.retired_lt t (by simpa [State.disown, htg] using ht)
    · by_cases htg : t ∈ gone
      · simp [State.disown, htg, Owner.dropping]
      · simpa [State.disown, htg, Owner.dropping] using hplaces.vacant t ht
  · show s.ready.consumer = .idle ↔ _
    simp [hc, State.disown, Owner.dequeuing]

theorem disown_refs (h : s.Inv (gone ++ rest)) (hr : s.Refs) (ho : s.owner = .idle) :
    (s.disown gone all).Refs := by
  have hc : s.ready.consumer = .idle := h.consumer.mpr (by rw [ho]; rfl)
  have hflags := h.flags
  rw [ho, hc] at hflags
  have hgone : ∀ t ∈ gone, s.hist.freed t = 0 ∧
      ((s.tasks t).queued = true ↔ s.ready.enqueued t = true) := by
    intro t ht
    obtain ⟨hlt, hlive, -⟩ := (h.places.mem t).mp (List.mem_append_left _ ht)
    refine ⟨hr.kept t (Or.inl hlive), (hflags.flag t hlt).trans ?_⟩
    rw [hlive]
    simp [Owner.taken, ReadyToRunQueue.DequeuePc.data]
  have hkept : ∀ t ∈ gone, ((s.disown gone all).Kept t ↔ s.ready.enqueued t = true) := by
    intro t ht
    unfold State.Kept State.Taken State.Dropping
    simp [State.disown, ht, hc, Owner.taken, Owner.dropping, ReadyToRunQueue.DequeuePc.data]
  have hother : ∀ t, t ∉ gone → ((s.disown gone all).Kept t ↔ s.Kept t) := by
    intro t ht
    unfold State.Kept State.Taken State.Dropping
    simp [State.disown, ht, ho, hc, Owner.taken, Owner.dropping]
  refine ⟨fun t ht => ?_, fun t ht => ?_, fun t prev hv => ?_⟩
  · by_cases htg : t ∈ gone
    · have hup := (hgone t htg).2.mpr ((hkept t htg).mp ht)
      simp [State.disown, (hgone t htg).1, hup]
    · simpa [State.disown, htg] using hr.kept t ((hother t htg).mp ht)
  · by_cases htg : t ∈ gone
    · have hdown : (s.tasks t).queued = false := by
        by_contra hne
        exact ht ((hkept t htg).mpr ((hgone t htg).2.mp (by simpa using hne)))
      simp [State.disown, (hgone t htg).1, htg, hdown]
    · simpa [State.disown, htg] using hr.back t fun hk => ht ((hother t htg).mpr hk)
  · cases hv

end State.Inv

theorem State.Accounted.disown (h : s.Accounted) (hinv : s.Inv (gone ++ rest))
    (ho : s.owner = .idle) (hp : s.pushing = ∅) (hall : all.Rep rest) :
    (s.disown gone all).Accounted :=
  ⟨⟨rest, hinv.disown ho hp hall⟩, hinv.disown_refs h.refs ho, trivial,
    fun h => by cases h⟩

/-! ## The drop, in lockstep -/

/-- The task that the drop of the set has unlinked and not let go of. -/
def Owner.unlinked : Owner O W → Option ℕ
  | .drop (.release t) => some t
  | .drop (.dropFuture t _) => some t
  | _ => none

/-- The iterator `i`, whose set is being dropped, beside the drop of `m`, a set in which
the tasks `gone` have been released; `lost` counts the references that only `m` has given
back, `l` is what is left of the list, and `futs` are the futures to be dropped. -/
structure IntoIter.Drops (gone : List ℕ) (lost : ℕ → ℕ) (futs : List (ℕ × F))
    (i : IntoIter F O W A) (m : State F O W A) (l : List ℕ) : Prop where
  accounted : m.Accounted
  inv : m.Inv l
  busy : m.owner.undropped = false
  owner : i.inner.owner = m.owner
  ready : i.inner.ready = m.ready
  holders : i.inner.holders = m.holders
  tasks : ∀ t, t ∉ gone → i.inner.tasks t = m.tasks t
  freed : ∀ t, m.hist.freed t = i.inner.hist.freed t + lost t
  chain : i.inner.all.Chain l
  released : ∀ t ∈ gone, m.hist.retired t = true
  kept : ∀ t, m.owner.dropping = some t → t ∉ gone
  futures : i.dropped ++ futuresOf m.tasks (m.owner.unlinked.toList ++ l) = futs

namespace IntoIter.Drops

variable {lost : ℕ → ℕ} {futs : List (ℕ × F)} {i : IntoIter F O W A} {m m' : State F O W A}
  {l : List ℕ}

/-- Where the drop is not inside `release_task`, nothing is dropped by its next step. -/
theorem owner_step {s' : State F O W A}
    (hs : FuturesUnordered.step i.inner .owner = some s') :
    IntoIter.step i .owner = some { i with inner := s', dropped := i.dropped ++ i.inner.drops } := by
  simp only [IntoIter.step, hs, Option.map_some]

/-- The loop of the drop: both take the same head out, or let go of the same queue. -/
theorem dropLoop (h : Drops gone lost futs i m l) (ho : m.owner = .drop .loop) :
    ∃ i' l', IntoIter.step i .owner = some i' ∧ Drops gone lost futs i' m.dropLoop l' := by
  have hown : i.inner.owner = .drop .loop := h.owner.trans ho
  have hstep : FuturesUnordered.step i.inner .owner = some i.inner.dropLoop := by
    simp only [FuturesUnordered.step, ownerStep, hown]
  have hacc : FuturesUnordered.step m .owner = some m.dropLoop := by
    simp only [FuturesUnordered.step, ownerStep, ho]
  have hdrops : i.inner.drops = [] := by unfold State.drops; rw [hown]
  obtain ⟨l', hl'⟩ := inv_move h.inv (move_of_step hacc)
  refine ⟨_, l', owner_step hstep, ?_⟩
  have hdone := h.accounted.step hacc
  have hhead := h.inv.places.all.head
  have hfutures := h.futures
  rw [ho] at hfutures
  rw [hdrops, List.append_nil]
  cases l with
  | nil =>
      have hempty : i.inner.all.head_all = none := h.chain.head
      unfold State.dropLoop at hl' hdone ⊢
      rw [hempty, h.holders, h.ready]
      rw [hhead] at hl' hdone ⊢
      dsimp only [List.head?_nil] at hl' hdone ⊢
      by_cases hnone : m.holders = ∅
      · rw [if_pos hnone] at hl' hdone ⊢
        rw [if_pos hnone]
        obtain rfl := h.inv.places.all.unique hl'.places.all
        exact ⟨hdone, hl', rfl, rfl, rfl, rfl, h.tasks, h.freed, h.chain, h.released,
          fun _ h => (by cases h), hfutures⟩
      · rw [if_neg hnone] at hl' hdone ⊢
        rw [if_neg hnone]
        obtain rfl := h.inv.places.all.unique hl'.places.all
        exact ⟨hdone, hl', rfl, rfl, rfl, rfl, h.tasks, h.freed, h.chain, h.released,
          fun _ h => (by cases h), hfutures⟩
  | cons t rest =>
      have hfirst : i.inner.all.head_all = some t := h.chain.head
      unfold State.dropLoop at hl' hdone ⊢
      rw [hfirst]
      rw [hhead] at hl' hdone ⊢
      dsimp only [List.head?_cons] at hl' hdone ⊢
      have hrep : (m.all.unlink t).Rep rest := h.inv.places.all.unlink (a := [])
      obtain rfl := hl'.places.all.unique hrep
      exact ⟨hdone, hl', rfl, rfl, h.ready, h.holders, h.tasks, h.freed, h.chain.unlink,
        h.released, fun _ h => (by cases h), hfutures⟩

/-- `release_task` looks at the same flag. -/
theorem release (h : Drops gone lost futs i m l) {t : ℕ} (ho : m.owner = .drop (.release t)) :
    ∃ i', IntoIter.step i .owner = some i' ∧ Drops gone lost futs i'
      (m.retire t (.drop (.dropFuture t (m.tasks t).queued))) l := by
  have hown : i.inner.owner = .drop (.release t) := h.owner.trans ho
  have hlive : m.hist.retired t = false := (h.inv.places.held_live t (by rw [ho]; rfl)).2
  have hout : t ∉ gone := by
    intro ht
    rw [h.released t ht] at hlive
    cases hlive
  have hsame := h.tasks t hout
  have hstep : FuturesUnordered.step i.inner .owner =
      some (i.inner.retire t (.drop (.dropFuture t (m.tasks t).queued))) := by
    simp only [FuturesUnordered.step, ownerStep, hown, hsame]
  have hacc : FuturesUnordered.step m .owner =
      some (m.retire t (.drop (.dropFuture t (m.tasks t).queued))) := by
    simp only [FuturesUnordered.step, ownerStep, ho]
  have hdrops : i.inner.drops = [] := by unfold State.drops; rw [hown]
  refine ⟨_, owner_step hstep, ?_⟩
  rw [hdrops, List.append_nil]
  obtain ⟨l', hl'⟩ := inv_move h.inv (move_of_step hacc)
  obtain rfl := h.inv.places.all.unique hl'.places.all
  have hfutures := h.futures
  rw [ho] at hfutures
  refine ⟨h.accounted.step hacc, hl', rfl, rfl, h.ready, h.holders, ?_, h.freed, h.chain, ?_, ?_, ?_⟩
  · intro v hv
    unfold State.retire
    dsimp only
    rw [hsame]
    by_cases hvt : v = t
    · subst hvt
      rw [Function.update_self, Function.update_self]
    · rw [Function.update_of_ne hvt, Function.update_of_ne hvt]
      exact h.tasks v hv
  · intro v hv
    exact retired_move (move_of_step hacc) (h.released v hv)
  · intro v hv
    cases hv
    exact hout
  · refine Eq.trans ?_ hfutures
    congr 1
    refine futuresOf_congr fun v _ => ?_
    unfold State.retire
    dsimp only
    by_cases hvt : v = t
    · subst hvt
      rw [Function.update_self]
    · rw [Function.update_of_ne hvt]

/-- The future is dropped on both sides, and the reference given back on both or neither. -/
theorem dropFuture (h : Drops gone lost futs i m l) {t : ℕ} {prev : Bool}
    (ho : m.owner = .drop (.dropFuture t prev)) :
    ∃ i', IntoIter.step i .owner = some i' ∧
      Drops gone lost futs i' (m.dropFuture t prev (.drop .loop)) l := by
  have hown : i.inner.owner = .drop (.dropFuture t prev) := h.owner.trans ho
  have hout : t ∉ gone := h.kept t (by rw [ho]; rfl)
  have hsame := h.tasks t hout
  have hstep : FuturesUnordered.step i.inner .owner =
      some (i.inner.dropFuture t prev (.drop .loop)) := by
    simp only [FuturesUnordered.step, ownerStep, hown]
  have hacc : FuturesUnordered.step m .owner = some (m.dropFuture t prev (.drop .loop)) := by
    simp only [FuturesUnordered.step, ownerStep, ho]
  refine ⟨_, owner_step hstep, ?_⟩
  obtain ⟨l', hl'⟩ := inv_move h.inv (move_of_step hacc)
  obtain rfl := h.inv.places.all.unique hl'.places.all
  have hret : m.hist.retired t = true := h.inv.places.dropping_retired t (by rw [ho]; rfl)
  have hlinked : ∀ v ∈ l, v ≠ t := by
    rintro v hv rfl
    rw [((h.inv.places.mem v).mp hv).2.1] at hret
    cases hret
  have hfutures := h.futures
  rw [ho] at hfutures
  refine ⟨h.accounted.step hacc, hl', rfl, rfl, h.ready, h.holders, ?_, ?_, h.chain, ?_,
    fun _ h => (by cases h), ?_⟩
  · intro v hv
    unfold State.dropFuture
    dsimp only
    rw [hsame]
    by_cases hvt : v = t
    · subst hvt
      rw [Function.update_self, Function.update_self]
    · rw [Function.update_of_ne hvt, Function.update_of_ne hvt]
      exact h.tasks v hv
  · intro v
    have hv := h.freed v
    unfold State.dropFuture
    dsimp only
    cases prev with
    | true => exact hv
    | false =>
        simp only [Bool.false_eq_true, if_false]
        by_cases hvt : v = t
        · subst hvt
          rw [Function.update_self, Function.update_self]
          omega
        · rw [Function.update_of_ne hvt, Function.update_of_ne hvt]
          exact hv
  · intro v hv
    exact retired_move (move_of_step hacc) (h.released v hv)
  · -- what is dropped is what was first in line
    have hdrops : i.inner.drops = futuresOf m.tasks [t] := by
      unfold State.drops futuresOf
      rw [hown]
      dsimp only
      rw [hsame]
      cases hf : (m.tasks t).future <;> simp [hf]
    have hrest : futuresOf (m.dropFuture t prev (.drop .loop)).tasks l = futuresOf m.tasks l := by
      refine futuresOf_congr fun v hv => ?_
      unfold State.dropFuture
      dsimp only
      rw [Function.update_of_ne (hlinked v hv)]
    show (i.dropped ++ i.inner.drops) ++ futuresOf _ ([] ++ l) = futs
    rw [List.nil_append, hrest, hdrops, List.append_assoc, ← futuresOf_append]
    exact hfutures

/-- The destructor of the queue goes through the same queue. -/
theorem dropQueue (h : Drops gone lost futs i m l) (ho : m.owner = .dropQueue)
    (hs : FuturesUnordered.step m .owner = some m') :
    ∃ i', IntoIter.step i .owner = some i' ∧ Drops gone lost futs i' m' l := by
  have hown : i.inner.owner = .dropQueue := h.owner.trans ho
  have hdrops : i.inner.drops = [] := by unfold State.drops; rw [hown]
  have hacc := h.accounted.step hs
  obtain ⟨l', hl'⟩ := inv_move h.inv (move_of_step hs)
  have hfutures := h.futures
  rw [ho] at hfutures
  have hm := hs
  simp only [FuturesUnordered.step, ownerStep, ho] at hm
  -- a step of `dequeue`
  have hconsume : ∀ s', m' = m.consume →
      FuturesUnordered.step i.inner .owner = some s' → s' = i.inner.consume →
      ∃ i', IntoIter.step i .owner = some i' ∧ Drops gone lost futs i' m' l := by
    rintro s' rfl hstep rfl
    obtain rfl := h.inv.places.all.unique hl'.places.all
    refine ⟨_, owner_step hstep, ?_⟩
    rw [hdrops, List.append_nil]
    refine ⟨hacc, hl', h.busy, h.owner, ?_, h.holders, h.tasks, h.freed, h.chain, h.released, ?_, ?_⟩
    · show i.inner.ready.consume = m.ready.consume
      rw [h.ready]
    · exact h.kept
    · exact h.futures
  have hstep : ∀ d, m.ready.consumer = .done d →
      FuturesUnordered.step i.inner .owner = some (i.inner.dropDequeued d) := by
    intro d hc
    simp only [FuturesUnordered.step, ownerStep, hown, h.ready, hc]
  cases hc : m.ready.consumer with
  | idle => rw [hc] at hm; cases hm
  | done d =>
      rw [hc] at hm
      cases hm
      have hi := hstep d hc
      refine ⟨_, owner_step hi, ?_⟩
      rw [hdrops, List.append_nil]
      cases d with
      | Empty =>
          obtain rfl := h.inv.places.all.unique hl'.places.all
          exact ⟨hacc, hl', rfl, rfl, congrArg ReadyToRunQueue.Sys.endDequeue h.ready, h.holders, h.tasks, h.freed, h.chain,
            h.released, fun _ h => (by cases h), hfutures⟩
      | Inconsistent =>
          obtain rfl := h.inv.places.all.unique hl'.places.all
          exact ⟨hacc, hl', rfl, rfl, congrArg ReadyToRunQueue.Sys.endDequeue h.ready, h.holders, h.tasks, h.freed, h.chain,
            h.released, fun _ h => (by cases h), hfutures⟩
      | Data n =>
          obtain rfl := h.inv.places.all.unique hl'.places.all
          refine ⟨hacc, hl', h.busy, h.owner, ?_, h.holders, h.tasks, ?_, h.chain, h.released,
            h.kept, h.futures⟩
          · show i.inner.ready.endDequeue.beginDequeue = m.ready.endDequeue.beginDequeue
            rw [h.ready]
          · intro v
            have hv := h.freed v
            cases n with
            | stub => exact hv
            | task t =>
                show Function.update m.hist.freed t _ v =
                  Function.update i.inner.hist.freed t _ v + lost v
                by_cases hvt : v = t
                · subst hvt
                  rw [Function.update_self, Function.update_self]
                  omega
                · rw [Function.update_of_ne hvt, Function.update_of_ne hvt]
                  exact hv
  | _ =>
      rw [hc] at hm
      cases hm
      refine hconsume i.inner.consume rfl ?_ rfl
      simp only [FuturesUnordered.step, ownerStep, hown, h.ready, hc]

/-- **The lockstep.** Every step of the drop of `m` is one of the drop of the iterator. -/
theorem step (h : Drops gone lost futs i m l) (hs : FuturesUnordered.step m .owner = some m') :
    ∃ i' l', IntoIter.step i .owner = some i' ∧ Drops gone lost futs i' m' l' := by
  have hbusy := h.busy
  have hstep : ownerStep m = some m' := hs
  unfold ownerStep at hstep
  cases ho : m.owner with
  | idle => rw [ho] at hbusy; cases hbusy
  | poll lv pc => rw [ho] at hbusy; cases hbusy
  | drop pc =>
      rw [ho] at hstep
      cases pc with
      | loop =>
          cases hstep
          exact h.dropLoop ho
      | release t =>
          cases hstep
          obtain ⟨i', hi', h'⟩ := h.release ho
          exact ⟨i', l, hi', h'⟩
      | dropFuture t prev =>
          cases hstep
          obtain ⟨i', hi', h'⟩ := h.dropFuture ho
          exact ⟨i', l, hi', h'⟩
  | dropQueue =>
      obtain ⟨i', hi', h'⟩ := h.dropQueue ho hs
      exact ⟨i', l, hi', h'⟩
  | _ => rw [ho] at hstep; cases hstep

/-- The same for any number of steps. -/
theorem run (k : ℕ) : ∀ {i : IntoIter F O W A} {m : State F O W A} {l : List ℕ},
    Drops gone lost futs i m l →
    Transition.run FuturesUnordered.step m (List.replicate k .owner) = some m' →
    ∃ e l', Transition.run IntoIter.step i (List.replicate k .owner) = some e ∧
      Drops gone lost futs e m' l' := by
  induction k with
  | zero =>
      intro i m l h hrun
      cases hrun
      exact ⟨i, l, rfl, h⟩
  | succ k ih =>
      intro i m l h hrun
      rw [List.replicate_succ, Transition.run_cons, Option.bind_eq_some_iff] at hrun
      obtain ⟨m₁, hm₁, hrun⟩ := hrun
      obtain ⟨i₁, l₁, hi₁, h₁⟩ := h.step hm₁
      obtain ⟨e, l', he, h'⟩ := ih h₁ hrun
      refine ⟨e, l', ?_, h'⟩
      rw [List.replicate_succ, Transition.run_cons, hi₁]
      exact he

/-- What is left when the queue is gone: all futures have been dropped, and every
reference given back that is not lost. -/
theorem of_gone (h : Drops gone lost futs i m l) (ho : m.owner = .gone) :
    i.dropped = futs ∧ ∀ t < m.fresh, i.inner.hist.freed t + lost t = 1 := by
  have hnil : l = [] := h.inv.emptied (by rw [ho]; rfl)
  have hfutures := h.futures
  rw [ho, hnil] at hfutures
  refine ⟨?_, fun t ht => ?_⟩
  · rw [← hfutures]
    exact (List.append_nil _).symm
  · rw [← h.freed t]
    exact h.accounted.freed_of_gone ho ht

end IntoIter.Drops

/-! ## The drop comes to its end -/

/-- One round of the loop of the drop. -/
theorem dropLoop_round {t : ℕ} (h : s.Inv (t :: rest)) (ho : s.owner = .drop .loop) :
    ∃ s', Transition.run step s (List.replicate 3 .owner) = some s' ∧ s'.owner = .drop .loop ∧
      s'.holders = s.holders ∧ s'.fresh = s.fresh ∧ s'.all = s.all.unlink t := by
  have hhead : s.all.head_all = some t := h.places.all.head
  refine ⟨((s.dropLoop).retire t (.drop (.dropFuture t (s.tasks t).queued))).dropFuture t
    (s.tasks t).queued (.drop .loop), ?_, rfl, ?_, ?_, ?_⟩
  · simp only [List.replicate_succ, List.replicate_zero, Transition.run_cons, Transition.run_nil,
      step, ownerStep, ho, State.dropLoop, hhead, Option.bind_some, State.retire]
  · unfold State.dropFuture State.retire State.dropLoop
    rw [hhead]
  · unfold State.dropFuture State.retire State.dropLoop
    rw [hhead]
  · unfold State.dropFuture State.retire State.dropLoop
    rw [hhead]

theorem State.Accounted.run (h : s.Accounted) {ls : List (Act F O W)}
    (hrun : Transition.run FuturesUnordered.step s ls = some s') : s'.Accounted :=
  Transition.run_invariant (fun _ _ _ hI hs => hI.step hs) h hrun

/-- The drop of a set whose queue nobody else holds comes to its end. -/
theorem drop_ends (l : List ℕ) : ∀ s : State F O W A, s.Accounted → s.Inv l →
    s.owner = .drop .loop → s.holders = ∅ →
    ∃ k s', Transition.run step s (List.replicate k .owner) = some s' ∧ s'.owner = .gone := by
  induction l with
  | nil =>
      intro s hacc hinv ho hnone
      have hhead : s.all.head_all = none := hinv.places.all.head
      have hstep : step s .owner =
          some { s with owner := .dropQueue, ready := s.ready.beginDequeue } := by
        simp only [step, ownerStep, ho, State.dropLoop, hhead, hnone, if_true]
      have hacc' := hacc.step hstep
      obtain ⟨l', hl'⟩ := hacc'.inv
      obtain ⟨k, s', hk, hs'⟩ := hl'.dropQueue_ends hacc'.queueDrop rfl
      refine ⟨k + 1, s', ?_, hs'⟩
      rw [List.replicate_succ, Transition.run_cons, hstep]
      exact hk
  | cons t l ih =>
      intro s hacc hinv ho hnone
      obtain ⟨s₁, hrun, ho₁, hholders, -, hall⟩ := dropLoop_round hinv ho
      have hacc₁ := hacc.run hrun
      obtain ⟨l', hl'⟩ := hacc₁.inv
      have hrep : (s.all.unlink t).Rep l := hinv.places.all.unlink (a := [])
      have hrep' := hl'.places.all
      rw [hall] at hrep'
      obtain rfl := hrep.unique hrep'
      obtain ⟨k, s', hk, hs'⟩ := ih s₁ hacc₁ hl' ho₁ (hholders.trans hnone)
      refine ⟨3 + k, s', ?_, hs'⟩
      rw [List.replicate_add, Transition.run_append, hrun]
      exact hk

/-! ## The theorem -/

/-- The task has been handed out with its flag down. -/
def IntoIter.lost (i : IntoIter F O W A) (t : ℕ) : ℕ :=
  if t ∈ i.taken ∧ (i.inner.tasks t).queued = false then 1 else 0

/-- The drop of the iterator begins. -/
theorem IntoIter.Mirrors.drop {futs : List (ℕ × F)} {n : ℕ} {i : IntoIter F O W A}
    (h : Mirrors futs n i u rest) (hnone : i.inner.holders = ∅) :
    ∃ i' m, IntoIter.step i .drop = some i' ∧ i'.handed = i.handed ∧ i'.inner.fresh = n ∧
      m.owner = .drop .loop ∧ m.holders = ∅ ∧ m.fresh = n ∧
      IntoIter.Drops i.taken i.lost (futuresOf u.tasks rest) i' m rest := by
  have hnodup : rest.Nodup := (List.nodup_append.mp h.inv.places.nodup).2.1
  have hdisjoint : ∀ t ∈ rest, t ∉ i.taken := by
    intro t ht htg
    exact (List.nodup_append.mp h.inv.places.nodup).2.2 t htg t ht rfl
  obtain ⟨all, hall⟩ := AllList.exists_rep rest hnodup
  have hown : i.inner.owner = .idle := by rw [h.inner]; exact h.owner
  have hpush : i.inner.pushing = ∅ := by rw [h.inner]; exact h.pushing
  have hqueued : ∀ t, (i.inner.tasks t).queued = (u.tasks t).queued := by
    intro t
    rw [h.inner]
    exact strip_queued u i.taken _ t
  refine ⟨{ i with inner := i.inner.setOwner (.drop .loop) }, u.disown i.taken all, ?_, rfl, ?_,
    rfl, ?_, h.fresh, ?_⟩
  · simp only [IntoIter.step, FuturesUnordered.step, hnone, hown, hpush, Owner.isIdle, and_self,
      if_true, Option.map_some]
  · show i.inner.fresh = n
    rw [h.inner]
    exact h.fresh
  · show u.holders = ∅
    rw [← hnone, h.inner]
    rfl
  · refine ⟨h.accounted.disown h.inv h.owner h.pushing hall, h.inv.disown h.owner h.pushing hall,
      rfl, rfl, ?_, ?_, fun t ht => ?_, fun t => ?_, h.chain, fun t ht => ?_,
      fun _ h => (by cases h), ?_⟩
    · show i.inner.ready = u.ready
      rw [h.inner]
      rfl
    · show i.inner.holders = u.holders
      rw [h.inner]
      rfl
    · show i.inner.tasks t = _
      rw [h.inner]
      unfold State.strip State.disown
      dsimp only
      rw [if_neg ht, if_neg ht]
    · have hfreed : i.inner.hist.freed t = u.hist.freed t := by rw [h.inner]; rfl
      show u.hist.freed t + _ = i.inner.hist.freed t + i.lost t
      rw [hfreed]
      unfold IntoIter.lost
      rw [hqueued t]
    · simp [State.disown, ht]
    · show i.dropped ++ futuresOf _ ([] ++ rest) = _
      rw [h.dropped, List.nil_append, List.nil_append]
      refine futuresOf_congr fun t ht => ?_
      unfold State.disown
      dsimp only
      rw [if_neg (hdisjoint t ht)]

theorem handed_of_run {i e : IntoIter F O W A} {k : ℕ}
    (hrun : Transition.run IntoIter.step i (List.replicate k .owner) = some e) :
    e.handed = i.handed := by
  refine Transition.run_invariant_of_labels (I := fun j => j.handed = i.handed)
    (P := fun a => a = .owner) ?_ _ i e (fun a ha => List.eq_of_mem_replicate ha) rfl hrun
  rintro j a j' rfl hj hs
  simp only [IntoIter.step, Option.map_eq_some_iff] at hs
  obtain ⟨s', -, rfl⟩ := hs
  exact hj

theorem fresh_of_run {k : ℕ}
    (hrun : Transition.run step s (List.replicate k .owner) = some s') : s'.fresh = s.fresh := by
  refine Transition.run_invariant_of_labels (I := fun m => m.fresh = s.fresh)
    (P := fun a => a = .owner) ?_ _ s s' (fun a ha => List.eq_of_mem_replicate ha) rfl hrun
  rintro m a m' rfl hm hs
  exact (frame_move (move_of_step hs) rfl).fresh.trans hm

theorem State.accounted_of_reachable (h : Transition.Reachable step (State.new : State F O W A) s) :
    s.Accounted :=
  h.invariant State.Accounted.new fun _ _ _ hI hs => hI.step hs

/-- Nothing is lost just when the flags of all tasks handed out are up. -/
theorem IntoIter.lost_eq_zero_iff (i : IntoIter F O W A) :
    (∀ t ∈ i.taken, i.lost t = 0) ↔ ∀ x ∈ i.handed, (i.inner.tasks x.1).queued = true := by
  unfold IntoIter.taken IntoIter.lost
  constructor
  · intro h x hx
    have hmem := List.mem_map_of_mem (f := Prod.fst) hx
    have hzero := h x.1 hmem
    by_contra hne
    rw [if_pos ⟨hmem, by simpa using hne⟩] at hzero
    cases hzero
  · intro h t ht
    obtain ⟨x, hx, rfl⟩ := List.mem_map.mp ht
    rw [if_neg]
    rintro ⟨-, hdown⟩
    rw [h x hx] at hdown
    cases hdown

/-- **What an iterator gives back.** Whatever the set has been through before `into_iter`,
and whatever calls of `next` and wakes come after: `next` does not panic, and when no waker
is left the drop comes to its end, with no reference given back twice. Then every future
of the set has been handed out or dropped, once, and every reference given back, exactly
when each task handed out had its flag up at the drop. -/
theorem into_iter_gives_back_iff_queued (s : State F O W A)
    (h : Transition.Reachable step State.new s) (ho : s.owner = .idle) (hp : s.pushing = ∅)
    (acts : List IntoIter.Act) (i : IntoIter F O W A)
    (hrun : Transition.run IntoIter.step s.into_iter acts = some i)
    (hidle : i.inner.owner = .idle) :
    i.next.isSome = true ∧
    (i.inner.holders = ∅ → ∃ k e,
      Transition.run IntoIter.step i (.drop :: List.replicate k .owner) = some e ∧
      e.inner.owner = .gone ∧ (∀ t, e.inner.hist.freed t ≤ 1) ∧
      ((e.handed ++ e.dropped).Perm s.futures ∧ (∀ t < s.fresh, e.inner.hist.freed t = 1) ↔
        ∀ x ∈ i.handed, (i.inner.tasks x.1).queued = true)) := by
  have hacc := State.accounted_of_reachable h
  obtain ⟨l, hinv⟩ := hacc.inv
  obtain ⟨u, rest, hmirrors⟩ :=
    IntoIter.mirrors_of_run hacc hinv ho hp hrun (by rw [hidle]; rfl)
  refine ⟨?_, fun hnone => ?_⟩
  · obtain ⟨r, i', hnext, -⟩ := hmirrors.next
    rw [hnext]
    rfl
  · obtain ⟨i₁, m, hdrop, hhanded, hfresh₁, hom, hholders, hfresh, hdrops⟩ :=
      hmirrors.drop hnone
    obtain ⟨k, m', hm', hgone⟩ := drop_ends rest m hdrops.accounted hdrops.inv hom hholders
    obtain ⟨e, l', he, hend⟩ := hdrops.run k hm'
    obtain ⟨hdropped, hback⟩ := hend.of_gone hgone
    have hmfresh : m'.fresh = s.fresh := (fresh_of_run hm').trans hfresh
    refine ⟨k, e, ?_, hend.owner.trans hgone, fun t => ?_, ?_⟩
    · rw [Transition.run_cons, hdrop]
      exact he
    · have hle := hend.accounted.freed_le_one t
      rw [hend.freed t] at hle
      omega
    · have hall : (e.handed ++ e.dropped).Perm s.futures := by
        rw [handed_of_run he, hhanded, hdropped, hmirrors.futures]
        exact hinv.perm_futures ho
      rw [and_iff_right hall, ← i.lost_eq_zero_iff]
      constructor
      · intro hfreed t ht
        have hlt : t < u.fresh :=
          ((hmirrors.inv.places.mem t).mp (List.mem_append_left _ ht)).1
        rw [hmirrors.fresh] at hlt
        have hone := hback t (by rw [hmfresh]; exact hlt)
        rw [hfreed t hlt] at hone
        omega
      · intro hzero t ht
        have hone := hback t (by rw [hmfresh]; exact ht)
        have hlost : i.lost t = 0 := by
          by_cases hmem : t ∈ i.taken
          · exact hzero t hmem
          · unfold IntoIter.lost
            rw [if_neg fun hboth => hmem hboth.1]
        rw [hlost] at hone
        exact hone

/-- Two futures have been polled and are pending. -/
def twoPending : List (Act Unit Unit Unit) :=
  List.flatten [
    [.push 0 ()], List.replicate 4 (.thread 0), [.push 0 ()], List.replicate 4 (.thread 0),
    [.poll_next ()], List.replicate 7 .owner, [.polled (.pending ())],
    List.replicate 12 .owner, [.polled (.pending ())], List.replicate 3 .owner, [.ret]]

/-- The first of them is handed out and woken once more. -/
def handedThenWoken : List IntoIter.Act :=
  [.next, .wake 1 1] ++ List.replicate 8 (.thread 1)

theorem into_iter_gives_back_iff_queued_woken :
    ∃ e : IntoIter Unit Unit Unit (AtomicWaker.cell Unit), e.inner.owner = .gone ∧
      e.inner.hist.freed 0 = 1 ∧ e.inner.hist.freed 1 = 1 := by
  obtain ⟨s, i, hs, ho, hp, hfresh, hi, hidle, hnone, hhanded, hup⟩ :
      ∃ (s : State Unit Unit Unit (AtomicWaker.cell Unit)) (i : IntoIter Unit Unit Unit _),
        Transition.run step State.new twoPending = some s ∧ s.owner = .idle ∧ s.pushing = ∅ ∧
        s.fresh = 2 ∧ Transition.run IntoIter.step s.into_iter handedThenWoken = some i ∧
        i.inner.owner = .idle ∧ i.inner.holders = ∅ ∧ i.handed = [(1, ())] ∧
        (i.inner.tasks 1).queued = true :=
    ⟨_, _, rfl, rfl, by decide, rfl, rfl, rfl, by decide, rfl, rfl⟩
  obtain ⟨k, e, -, hgone, -, hiff⟩ :=
    (into_iter_gives_back_iff_queued s ⟨twoPending, hs⟩ ho hp handedThenWoken i hi hidle).2 hnone
  have hback := (hiff.mpr (by simpa [hhanded] using hup)).2
  rw [hfresh] at hback
  exact ⟨e, hgone, hback 0 (by omega), hback 1 (by omega)⟩

/-- **A task handed out after a pending poll is never given back.** -/
theorem into_iter_leaks_polled_task :
    ∃ (s : State Unit Unit Unit (AtomicWaker.cell Unit)) (e : IntoIter Unit Unit Unit _),
      Transition.run step State.new twoPending = some s ∧ s.owner = .idle ∧ s.pushing = ∅ ∧
      Transition.run IntoIter.step s.into_iter ([.next, .drop] ++ List.replicate 6 .owner) =
        some e ∧
      e.inner.owner = .gone ∧ 1 < s.fresh ∧ e.handed = [(1, ())] ∧ e.inner.hist.freed 1 = 0 :=
  ⟨_, _, rfl, rfl, by decide, rfl, rfl, by decide, rfl, rfl⟩

end TokioStreamUtil.FuturesUnordered
