/-
The list of all tasks against the futures.

`State.Listed s l` says that the pointers spell out `l`, that `l` is the tasks with a
future save the one in the hands of the exclusive call, and that the next step of that
call passes what the source asserts of the list. As long as no iterator owns the set this
follows from the invariant, and from there being no future outside the tasks allocated.
-/
import TokioStreamUtil.FuturesUnordered.IntoIter
import TokioStreamUtil.FuturesUnordered.Frame

set_option autoImplicit false

namespace TokioStreamUtil

/-! ## What the source asserts of the list -/

namespace AllList

/-- `unlink` needs a head, and a length from which it can subtract. -/
def unlinkable (s : AllList) : Bool :=
  match s.head_all with
  | none => false
  | some h => decide (0 < s.len_all h)

/-- `release_task` needs a task whose `next_all` is pending and whose `prev_all` is null. -/
def releasable (s : AllList) (t : ℕ) : Bool :=
  decide (s.next_all t = .pending) && (s.prev_all t).isNone

variable {s : AllList} {l : List ℕ} {t : ℕ}

theorem Chain.unlinkable_of_mem (h : Chain s l) (ht : t ∈ l) : s.unlinkable = true := by
  cases l with
  | nil => cases ht
  | cons x l =>
      have hlen := h.len_rest [] x l rfl
      unfold unlinkable
      rw [h.head]
      exact decide_eq_true (by omega)

/-- Where the drop of the set tests the head, it stops or can unlink it. -/
theorem Chain.null_or_unlinkable (h : Chain s l) : (s.head_all.isNone || s.unlinkable) = true := by
  cases l with
  | nil =>
      have hhead : s.head_all = none := h.head
      rw [hhead]
      rfl
  | cons x l => rw [h.unlinkable_of_mem List.mem_cons_self, Bool.or_true]

/-- The length at the head, exact or not, is zero only where there is no head. -/
theorem Chain.is_empty_iff_len (h : Chain s l) : s.is_empty = true ↔ s.len = 0 := by
  unfold is_empty len
  rw [h.head]
  cases l with
  | nil => simp
  | cons x l =>
      have hlen := h.len_rest [] x l rfl
      simp only [List.head?_cons, Option.isNone_some, Bool.false_eq_true, false_iff]
      omega

/-- `unlink` leaves the task as `release_task` wants it. -/
theorem Chain.releasable_unlink (h : Chain s (t :: l)) : (s.unlink t).releasable t = true := by
  obtain ⟨-, hnext, hprev⟩ := h.of_cons
  have hhead : l.head? ≠ some t := fun hl =>
    (List.nodup_cons.mp h.linked.nodup).1 (List.mem_of_head? hl)
  simp [releasable, unlink_next_all hnext hprev, unlink_prev_all hnext hprev, hhead]

theorem Rep.releasable (h : Rep s l) (ht : t ∉ l) : s.releasable t = true := by
  obtain ⟨hnext, hprev⟩ := h.outside t ht
  simp [AllList.releasable, hnext, hprev]

end AllList

namespace FuturesUnordered

variable {F O W : Type} {A : AtomicWaker W}

/-- The task that the exclusive call has unlinked, as long as it has not been linked
again and still has its future. -/
def Owner.inHand (o : Owner O W) : Option ℕ := o.held.or o.dropping

/-- What the next step of the exclusive call asserts of the list of all tasks: in
`unlink`, `link`, `release_task`, and in `poll_next` on a task without a future. -/
def State.asserts (s : State F O W A) : Bool :=
  match s.owner with
  | .poll _ .dequeue =>
      -- `poll_next` double checks that a task without a future has been released
      match s.ready.consumer with
      | .done (.Data (.task t)) => (s.tasks t).future.isSome || s.all.releasable t
      | _ => true
  -- `new_len` is computed from the head, whichever task is unlinked
  | .poll _ (.unlink _) => s.all.unlinkable
  | .poll _ (.relink t) => decide (s.all.next_all t = .pending)
  | .poll _ (.release t _) => s.all.releasable t
  | .drop .loop => s.all.head_all.isNone || s.all.unlinkable
  | .drop (.release t) => s.all.releasable t
  | _ => true

/-- The pointers spell out `l`; the tasks on it are those with a future, save the one in
hand; a task about to be unlinked is on it; and the assertions hold. -/
structure State.Listed (s : State F O W A) (l : List ℕ) : Prop where
  chain : s.all.Chain l
  mem : ∀ t, t ∈ l ↔ (s.tasks t).future.isSome = true ∧ s.owner.inHand ≠ some t
  unlinking : ∀ t, s.owner.unlinking = some t → t ∈ l
  asserts : s.asserts = true

/-! ## A set that no iterator owns -/

/-- The invariant, and no future outside the tasks allocated. -/
structure State.Contained (s : State F O W A) : Prop where
  inv : ∃ l, s.Inv l
  unborn : ∀ t, s.fresh ≤ t → (s.tasks t).future = none

variable {s s' : State F O W A} {l : List ℕ}

/-- Only `push` puts a future into a task that had none. -/
theorem unborn_move (hl : s.Inv l) (hnone : ∀ t, s.fresh ≤ t → (s.tasks t).future = none)
    {a : Act F O W} (hm : Move s a s') : ∀ t, s'.fresh ≤ t → (s'.tasks t).future = none := by
  intro t ht
  cases ha : a.inner with
  | true =>
      have hframe := frame_move hm ha
      rw [hframe.fresh] at ht
      refine Option.eq_none_iff_forall_ne_some.mpr fun x hx => ?_
      have hx' := hframe.future t x hx
      rw [hnone t ht] at hx'
      cases hx'
  | false =>
      cases hm with
      | push fut hi ho =>
          have hlt : s.fresh < t := ht
          have hne : t ≠ s.fresh := by omega
          show (Function.update s.tasks s.fresh _ t).future = none
          rw [Function.update_of_ne hne]
          exact hnone t (by omega)
      | poll_next w ho hp => exact hnone t ht
      | @polled lv u r ho =>
          -- the task that has been polled was allocated
          cases r with
          | pending fut =>
              have hlt := (hl.places.held_live u (by rw [ho]; rfl)).1
              have hle : s.fresh ≤ t := ht
              have hne : t ≠ u := by omega
              show (Function.update s.tasks u _ t).future = none
              rw [Function.update_of_ne hne]
              exact hnone t hle
          | ready o => exact hnone t ht
          | unwind => exact hnone t ht
      | ret ho => exact hnone t ht
      | drop ho hp => exact hnone t ht
      | _ => cases ha

namespace State.Contained

theorem new : (State.new : State F O W A).Contained := ⟨⟨[], State.inv_new⟩, fun _ _ => rfl⟩

theorem step (h : s.Contained) {a : Act F O W} (hs : FuturesUnordered.step s a = some s') :
    s'.Contained := by
  obtain ⟨l, hl⟩ := h.inv
  have hm := move_of_step hs
  exact ⟨inv_move hl hm, unborn_move hl h.unborn hm⟩

end State.Contained

/-- A call that is dropping a future holds no other task. -/
theorem Owner.held_of_dropping {o : Owner O W} {t : ℕ} (h : o.dropping = some t) :
    o.held = none := by
  cases o with
  | poll lv pc =>
      cases pc with
      | dropFuture u prev r => rfl
      | _ => cases h
  | drop pc =>
      cases pc with
      | dropFuture u prev => rfl
      | _ => cases h
  | _ => rfl

/-- The list is the tasks with a future, save the one in hand. -/
theorem State.Inv.mem_iff (hl : s.Inv l) (hnone : ∀ t, s.fresh ≤ t → (s.tasks t).future = none)
    (t : ℕ) : t ∈ l ↔ (s.tasks t).future.isSome = true ∧ s.owner.inHand ≠ some t := by
  rw [Owner.inHand]
  constructor
  · intro hmem
    obtain ⟨hvacant, hdrop⟩ := hl.places.vacant_of_mem hmem
    refine ⟨by simpa using hvacant, ?_⟩
    rw [ne_eq, Option.or_eq_some_iff]
    rintro (hheld | ⟨-, hd⟩)
    · exact ((hl.places.mem t).mp hmem).2.2 hheld
    · exact hdrop hd
  · rintro ⟨hsome, hhand⟩
    have hlt : t < s.fresh := by
      by_contra hge
      rw [hnone t (by omega)] at hsome
      cases hsome
    have hheld : s.owner.held ≠ some t := by
      intro hh
      rw [hh] at hhand
      exact hhand rfl
    have hdrop : s.owner.dropping ≠ some t := by
      intro hd
      rw [Owner.held_of_dropping hd, hd] at hhand
      exact hhand rfl
    exact (hl.places.mem t).mpr
      ⟨hlt, hl.places.live_of_future hlt (by simpa using hsome) hdrop, hheld⟩

/-- A task in hand is outside the list, as `release_task` and `link` assert. -/
theorem State.Inv.releasable_of_held (hl : s.Inv l) {t : ℕ} (ht : s.owner.held = some t) :
    s.all.releasable t = true :=
  hl.places.all.releasable fun hmem => ((hl.places.mem t).mp hmem).2.2 ht

theorem State.Inv.mem_of_unlinking (hl : s.Inv l) {t : ℕ} (ht : s.owner.unlinking = some t) :
    t ∈ l := by
  obtain ⟨hlt, hlive⟩ := hl.unlinking t ht
  refine (hl.places.mem t).mpr ⟨hlt, hlive, fun hheld => ?_⟩
  cases ho : s.owner with
  | poll lv pc =>
      rw [ho] at ht hheld
      cases pc with
      | unlink u => cases hheld
      | _ => cases ht
  | _ =>
      rw [ho] at ht
      cases ht

namespace State.Contained

theorem asserts (h : s.Contained) : s.asserts = true := by
  obtain ⟨l, hl⟩ := h.inv
  unfold State.asserts
  -- one case for each place in which the source asserts something of the list
  cases ho : s.owner with
  | poll lv pc =>
      cases pc with
      | dequeue =>
          dsimp only
          split
          · rename_i t hc
            -- a task without a future is not on the list
            cases hf : (s.tasks t).future with
            | some fut => rfl
            | none =>
                refine hl.places.all.releasable fun hmem => ?_
                have hsome := ((hl.mem_iff h.unborn t).mp hmem).1
                rw [hf] at hsome
                cases hsome
          · rfl
      | unlink t =>
          have hmem : t ∈ l := hl.mem_of_unlinking (by rw [ho]; rfl)
          exact hl.places.all.chain.unlinkable_of_mem hmem
      | relink t =>
          have hrel := hl.releasable_of_held (t := t) (by rw [ho]; rfl)
          exact (Bool.and_eq_true_iff.mp hrel).1
      | release t r => exact hl.releasable_of_held (by rw [ho]; rfl)
      | _ => rfl
  | drop pc =>
      cases pc with
      | loop => exact hl.places.all.chain.null_or_unlinkable
      | release t => exact hl.releasable_of_held (by rw [ho]; rfl)
      | dropFuture t prev => rfl
  | _ => rfl

theorem listed (h : s.Contained) : ∃ l, s.Listed l ∧ s.len = l.length := by
  obtain ⟨l, hl⟩ := h.inv
  exact ⟨l, ⟨hl.places.all.chain, hl.mem_iff h.unborn, fun _ => hl.mem_of_unlinking, h.asserts⟩,
    hl.places.all.len_eq⟩

end State.Contained

end FuturesUnordered

end TokioStreamUtil
