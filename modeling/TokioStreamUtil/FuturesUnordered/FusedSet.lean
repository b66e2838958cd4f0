/-
`FuturesUnordered` as a fused stream, and its `size_hint`.

The flag goes up where `poll_next` yields `None` and comes down at the next push. Until
then the set is empty: no call polls a future, and each yields `None` again, unless an
`enqueue` that was under way before keeps it pending. Until the next push, too, the
hint says exactly how many futures have still to finish.
-/
import TokioStreamUtil.FuturesUnordered.Drained
import TokioStreamUtil.FuturesUnordered.Sound

set_option autoImplicit false

namespace TokioStreamUtil.FuturesUnordered

variable {F O W : Type} {A : AtomicWaker W} {s s' : State F O W A} {l : List ℕ}

/-- `size_hint`. -/
def State.size_hint (s : State F O W A) : ℕ × Option ℕ := (s.len, some s.len)

/-- A future is pushed. -/
def Act.isPush : Act F O W → Bool
  | .push _ _ => true
  | _ => false

/-- `poll_next` returns. -/
def Act.isRet : Act F O W → Bool
  | .ret => true
  | _ => false

/-- `poll_next` returns `Ready(None)`. -/
def State.Ends (s : State F O W A) (a : Act F O W) : Prop :=
  a = .ret ∧ ∃ lv, s.owner = .poll lv (.done (.ready none))

/-- `poll_next` has returned `Ready(None)`, and nothing has been pushed since. -/
def Ended (A : AtomicWaker W) (ls : List (Act F O W)) : Prop :=
  Transition.Since step State.Ends (fun a => a.isPush = true) (State.new : State F O W A) ls

/-! ## When the flag is up -/

/-- The flag is up when `None` has been yielded (`ended`), or is about to be. -/
def State.Flagged (s : State F O W A) (ended : Prop) : Prop :=
  s.is_terminated = true ↔ ended ∨ s.owner.result = some (.ready none)

namespace State.Flagged

variable {ended : Prop}

/-- Neither the flag nor the result moves. -/
theorem same (h : s.Flagged ended) {a : Act F O W} (ha : a.isPush = false) (hret : a ≠ .ret)
    (hflag : s'.is_terminated = s.is_terminated) (hresult : s'.owner.result = s.owner.result) :
    s'.Flagged (s.Ends a ∨ (ended ∧ ¬a.isPush = true)) := by
  have hno : ¬s.Ends a := fun hends => hret hends.1
  unfold Flagged at h ⊢
  rw [hflag, hresult, h]
  simp [hno, ha]

/-- A step of the call that settles no result. -/
theorem unsettled (h : s.Flagged ended) (hflag : s'.is_terminated = s.is_terminated)
    (hresult : s.owner.result = none) (hresult' : s'.owner.result = none) :
    s'.Flagged (s.Ends .owner ∨ (ended ∧ ¬(.owner : Act F O W).isPush = true)) :=
  h.same rfl (by simp) hflag (hresult'.trans hresult.symm)

/-- **Every move keeps the flag right.** -/
theorem move (h : s.Flagged ended) {a : Act F O W} (hm : Move s a s') :
    s'.Flagged (s.Ends a ∨ (ended ∧ ¬a.isPush = true)) := by
  cases hm with
  | @push i fut hi ho =>
      have hno : ¬s.Ends (.push i fut) := fun hends => by cases hends.1
      have hresult : (s.push i fut).owner.result = none := by
        show s.owner.result = none
        rw [ho]
        rfl
      unfold Flagged
      rw [hresult]
      simp [hno, Act.isPush, State.push]
  | swapQueued hi =>
      refine h.same rfl (by simp) ?_ ?_
      · unfold State.swapQueued
        split <;> rfl
      · unfold State.swapQueued
        split <;> rfl
  | dropInner hi =>
      refine h.same rfl (by simp) ?_ ?_
      · unfold State.dropInner
        dsimp only
        split
        · split <;> rfl
        · rfl
      · unfold State.dropInner
        dsimp only
        split
        · rename_i ho
          rw [ho]
          split <;> rfl
        · rfl
  | poll_next w ho hp => exact h.same rfl (by simp) rfl (by rw [ho]; rfl)
  | register ho => exact h.unsettled rfl (by rw [ho]; rfl) rfl
  | consume hrun ho => exact h.same rfl (by simp) rfl rfl
  | @dequeueEmpty lv ho hc =>
      have hnone : s.owner.result = none := by rw [ho]; rfl
      unfold State.dequeueEmpty
      split
      · -- this is where it goes up
        exact ⟨fun _ => Or.inr rfl, fun _ => rfl⟩
      · have hno : ¬s.Ends .owner := fun hends => by cases hends.1
        unfold Flagged at h ⊢
        dsimp only
        rw [h, hnone]
        simp [hno, Act.isPush, Owner.result]
  | dequeueInconsistent ho hc => exact h.unsettled rfl (by rw [ho]; rfl) rfl
  | dequeueReleased ho hc hf => exact h.same rfl (by simp) rfl rfl
  | dequeueData ho hc hf => exact h.unsettled rfl (by rw [ho]; rfl) rfl
  | unlink ho => exact h.unsettled rfl (by rw [ho]; rfl) rfl
  | resetQueued ho =>
      refine h.unsettled rfl (by rw [ho]; rfl) ?_
      dsimp only [State.resetQueued]
      split <;> rfl
  | clearWoken ho => exact h.unsettled rfl (by rw [ho]; rfl) rfl
  | polled r ho =>
      have hno : ¬s.Ends (.polled r) := fun hends => by cases hends.1
      have hnone : s.owner.result = none := by rw [ho]; rfl
      unfold Flagged at h ⊢
      rw [hnone] at h
      cases r with
      | _ =>
          simp only [State.polled, State.setOwner, State.setTask]
          rw [h]
          simp [hno, Act.isPush, Owner.result]
  | loadWoken ho => exact h.unsettled rfl (by rw [ho]; rfl) rfl
  | relink ho =>
      refine h.unsettled ?_ (by rw [ho]; rfl) ?_
      · unfold State.relink
        split <;> rfl
      · unfold State.relink
        split <;> rfl
  | release ho => exact h.same rfl (by simp) rfl (by rw [ho]; rfl)
  | dropFuture ho => exact h.same rfl (by simp) rfl (by rw [ho]; rfl)
  | wakeParent ho =>
      have hno : ¬s.Ends .owner := fun hends => by cases hends.1
      have hnone : s.owner.result = none := by rw [ho]; rfl
      unfold Flagged at h ⊢
      rw [hnone] at h
      simp only [State.wakeParent]
      rw [h]
      simp [hno, Act.isPush, Owner.result]
  | @ret lv r ho =>
      have hends : s.Ends .ret ↔ s.owner.result = some (.ready none) := by
        unfold State.Ends
        rw [ho]
        simp [Owner.result]
      have hnone : (s.ret lv r).owner.result = none := rfl
      have hflag : (s.ret lv r).is_terminated = s.is_terminated := rfl
      unfold Flagged at h ⊢
      rw [hends, hnone, hflag, h]
      simp [Act.isPush, or_comm]
  | drop ho hp => exact h.same rfl (by simp) rfl (by rw [ho]; rfl)
  | dropLoop ho =>
      refine h.same rfl (by simp) ?_ ?_
      · unfold State.dropLoop
        split
        · rfl
        · split <;> rfl
      · unfold State.dropLoop
        rw [ho]
        split
        · rfl
        · split <;> rfl
  | dropRelease ho => exact h.same rfl (by simp) rfl (by rw [ho]; rfl)
  | dropDropFuture ho => exact h.same rfl (by simp) rfl (by rw [ho]; rfl)
  | @dropDequeued d ho hc =>
      refine h.same rfl (by simp) ?_ ?_
      · cases d <;> rfl
      · unfold State.dropDequeued
        rw [ho]
        split
        · rfl
        · rfl
        · show s.owner.result = none
          rw [ho]
          rfl
  | _ => exact h.same rfl (by simp) rfl rfl

theorem congr {ended' : Prop} (h : s.Flagged ended) (hiff : ended' ↔ ended) : s.Flagged ended' := by
  unfold Flagged at h ⊢
  rw [h, hiff]

/-- A step that neither pushes nor returns. -/
theorem along (h : s.Flagged ended) {a : Act F O W} (hm : Move s a s') (ha : a.isPush = false)
    (hret : a ≠ .ret) : s'.Flagged ended := by
  have hno : ¬s.Ends a := fun hends => hret hends.1
  exact (h.move hm).congr (by simp [hno, ha])

/-- The call returns `r`. -/
theorem ret (h : s.Flagged ended) {lv : Locals W} {r : PollNext O}
    (ho : s.owner = .poll lv (.done r)) : (s.ret lv r).Flagged (r = .ready none ∨ ended) := by
  have hends : s.Ends .ret ↔ r = .ready none := by
    unfold State.Ends
    rw [ho]
    simp
  exact (h.move (.ret ho)).congr (by simp [hends, Act.isPush])

/-- A push takes the flag down. -/
theorem push (h : s.Flagged ended) {i : ℕ} (fut : F) (hi : s.threads i = .idle)
    (ho : s.owner = .idle) : (s.push i fut).Flagged False := by
  have hno : ¬s.Ends (.push i fut) := fun hends => by cases hends.1
  exact (h.move (.push fut hi ho)).congr (by simp [hno, Act.isPush])

end State.Flagged

theorem flagged_of_run {ls : List (Act F O W)} (h : Transition.run step State.new ls = some s) :
    s.Flagged (Ended A ls) := by
  induction ls using List.reverseRecOn generalizing s with
  | nil =>
      rw [Transition.run_nil, Option.some.injEq] at h
      subst h
      constructor
      · intro hflag
        cases hflag
      · rintro (hsince | hresult)
        · exact absurd hsince Transition.not_since_nil
        · cases hresult
  | append_singleton ls a ih =>
      obtain ⟨s₁, hrun, hs⟩ := Transition.run_concat_eq_some.mp h
      unfold State.Flagged Ended
      rw [Transition.since_concat hrun]
      exact (ih hrun).move (move_of_step hs)

/-! ## After `None` -/

/-- Nothing is in the set, and a call in progress finds nothing in it. -/
structure State.Over (s : State F O W A) : Prop where
  empty : s.is_empty = true
  quiet : s.pushing = ∅
  place : s.owner = .idle ∨ s.owner.ofVacant = true

/-- The flag goes up over an empty set. -/
theorem is_terminated_move {a : Act F O W} (hm : Move s a s') :
    s'.is_terminated = s.is_terminated ∨ s'.is_terminated = false ∨
      (s'.is_empty = true ∧ ∃ lv, s'.owner = .poll lv (.done (.ready none))) := by
  cases hm with
  | push fut hi ho => exact Or.inr (Or.inl rfl)
  | swapQueued hi => unfold State.swapQueued; split <;> exact Or.inl rfl
  | dropInner hi =>
      unfold State.dropInner
      dsimp only
      split
      · split <;> exact Or.inl rfl
      · exact Or.inl rfl
  | @dequeueEmpty lv ho hc =>
      unfold State.dequeueEmpty
      split
      · rename_i hempty
        exact Or.inr (Or.inr ⟨hempty, lv, rfl⟩)
      · exact Or.inl rfl
  | polled r ho => cases r <;> exact Or.inl rfl
  | relink ho => unfold State.relink; split <;> exact Or.inl rfl
  | dropLoop ho =>
      unfold State.dropLoop
      split
      · exact Or.inl rfl
      · split <;> exact Or.inl rfl
  | @dropDequeued d ho hc => cases d <;> exact Or.inl rfl
  | _ => exact Or.inl rfl

/-- **Under the flag the set is empty**, and stays so. -/
theorem over_move (hl : s.Inv l) (h : s.is_terminated = true → s.Over) {a : Act F O W}
    (hm : Move s a s') (ha : a ≠ .drop) (hup : s'.is_terminated = true) : s'.Over := by
  obtain ⟨l', hl'⟩ := inv_move hl hm
  rcases is_terminated_move hm with hsame | hdown | ⟨hempty, lv, ho⟩
  · have hover := h (hsame ▸ hup)
    rcases hover.place with ho | hvacant
    · cases a with
      | push i fut =>
          cases hm with
          | push fut hi ho => cases hup
      | poll_next w =>
          cases hm with
          | poll_next w ho hp => exact ⟨hover.empty, hp, Or.inr rfl⟩
      | polled r =>
          cases hm with
          | polled r hat =>
              rw [ho] at hat
              cases hat
      | ret =>
          cases hm with
          | ret hat =>
              rw [ho] at hat
              cases hat
      | drop => exact absurd rfl ha
      | _ =>
          have hframe := frame_move hm rfl
          obtain ⟨hall, -⟩ := others_move hl hm rfl (others_of_idle hm ho)
          refine ⟨?_, hframe.pushing hover.quiet, Or.inl (Owner.eq_idle ?_)⟩
          · unfold State.is_empty
            rw [hall]
            exact hover.empty
          · rw [hframe.idle, ho]
            rfl
    · by_cases hret : a = .ret
      · subst hret
        cases hm with
        | ret hat => exact ⟨hover.empty, hover.quiet, Or.inl rfl⟩
      · obtain ⟨hempty, hvacant'⟩ := vacant_move hl hover.empty hvacant hm hret
        refine ⟨hempty, hl'.calls.exclusive ?_, Or.inr hvacant'⟩
        cases ho : s'.owner with
        | idle =>
            rw [ho] at hvacant'
            cases hvacant'
        | _ => rfl
  · rw [hdown] at hup
    cases hup
  · exact ⟨hempty, hl'.calls.exclusive (by rw [ho]; rfl), Or.inr (by rw [ho]; rfl)⟩

theorem over_of_run {ls : List (Act F O W)} (hdrop : .drop ∉ ls)
    (hrun : Transition.run step State.new ls = some s) :
    s.Sound ∧ (s.is_terminated = true → s.Over) := by
  have hP : ∀ a ∈ ls, a ≠ .drop := by
    rintro a ha rfl
    exact hdrop ha
  refine Transition.run_invariant_of_labels (I := fun s => s.Sound ∧ (s.is_terminated = true → s.Over))
    (P := fun a => a ≠ .drop) ?_ ls State.new s hP ⟨State.Sound.new, by simp [State.new]⟩ hrun
  rintro s a s' ha ⟨hsound, hover⟩ hs
  obtain ⟨l, hl⟩ := hsound.inv
  have hm := move_of_step hs
  exact ⟨hsound.move hm ha, over_move hl hover hm ha⟩

/-- **A set that is empty stays so** until the next push, and polls no future. -/
theorem State.Drained.step {calm : Prop} (h : s.Drained calm) {a : Act F O W}
    (hpush : a.isPush = false) (hdrop : a ≠ .drop) (hs : step s a = some s') :
    s'.Drained calm ∧ ∀ r, a ≠ .polled r := by
  have hm := move_of_step hs
  cases a with
  | push i fut => cases hpush
  | wake i t => exact ⟨(h.inner hm rfl).1, by simp⟩
  | thread i => exact ⟨(h.inner hm rfl).1, by simp⟩
  | poll_next w =>
      cases hm with
      | poll_next w ho hp => exact ⟨(h.poll_next w ho).1, by simp⟩
  | owner => exact ⟨(h.inner hm rfl).1, by simp⟩
  | polled r =>
      cases hm with
      | polled r ho => exact absurd ho h.not_polled
  | ret =>
      cases hm with
      | ret ho => exact ⟨h.ret ho, by simp⟩
  | drop => exact absurd rfl hdrop

theorem State.Drained.run {calm : Prop} (h : s.Drained calm) {ls : List (Act F O W)}
    (hpush : ∀ a ∈ ls, a.isPush = false) (hdrop : .drop ∉ ls)
    (hrun : Transition.run FuturesUnordered.step s ls = some s') :
    s'.Drained calm ∧ ∀ r, .polled r ∉ ls := by
  induction ls generalizing s with
  | nil =>
      rw [Transition.run_nil, Option.some.injEq] at hrun
      exact ⟨hrun ▸ h, by simp⟩
  | cons a ls ih =>
      rw [Transition.run_cons, Option.bind_eq_some_iff] at hrun
      obtain ⟨s₁, hs, hrun⟩ := hrun
      rw [List.mem_cons, not_or] at hdrop
      obtain ⟨h₁, hpolled⟩ := h.step (hpush a List.mem_cons_self) (Ne.symm hdrop.1) hs
      obtain ⟨h', hrest⟩ := ih h₁ (fun b hb => hpush b (List.mem_cons_of_mem a hb)) hdrop.2 hrun
      refine ⟨h', fun r hr => ?_⟩
      rcases List.mem_cons.mp hr with hr | hr
      · exact hpolled r hr.symm
      · exact hrest r hr

/-- **A call on an empty set comes to its end.** -/
theorem State.Drained.completes {calm : Prop} (h : s.Drained calm) (ho : s.owner.isIdle = false) :
    Transition.Completes FuturesUnordered.step Act.isRet Act.ofCall (fun _ a => a.ofCall)
      (State.Drained calm) (fun e => ∃ lv r, e.owner = .poll lv (.done r)) s := by
  have hstep : ∀ (s : State F O W A) a s', Act.isRet a = false →
      s.Drained calm ∧ s.owner.isIdle = false → FuturesUnordered.step s a = some s' →
      (s'.Drained calm ∧ s'.owner.isIdle = false) ∧
        drainedRank s' + (if a.ofCall then 1 else 0) ≤ drainedRank s := by
    rintro s a s' hret ⟨h, ho⟩ hs
    have hm := move_of_step hs
    have hinner : a.inner = true → (s'.Drained calm ∧ s'.owner.isIdle = false) ∧
        drainedRank s' + (if a.ofCall then 1 else 0) ≤ drainedRank s := fun ha =>
      ⟨⟨(h.inner hm ha).1, (frame_move hm ha).idle.trans ho⟩, (h.inner hm ha).2⟩
    -- inside a call nobody pushes, calls or drops
    have hidle : s.owner = .idle → False := fun hidle => by rw [hidle] at ho; cases ho
    cases a with
    | wake i t => exact hinner rfl
    | thread i => exact hinner rfl
    | owner => exact hinner rfl
    | push i fut =>
        cases hm with
        | push fut hi hidle' => exact (hidle hidle').elim
    | poll_next w =>
        cases hm with
        | poll_next w hidle' hp => exact (hidle hidle').elim
    | drop =>
        cases hm with
        | drop hidle' hp => exact (hidle hidle').elim
    | polled r =>
        cases hm with
        | polled r hat => exact absurd hat h.not_polled
    | ret => cases hret
  refine Transition.completes_of_rank hstep (fun _ h => h.1) ?_ ⟨h, ho⟩
  rintro s ⟨h, ho⟩
  rcases h.live ho with hdone | ⟨s', hs'⟩
  · exact Or.inl hdone
  · exact Or.inr ⟨.owner, s', rfl, hs'⟩

/-! ## The hint -/

/-- What has been handed out and discarded only grows, and only a push brings a new task. -/
structure Records (s s' : State F O W A) (ls : List (Act F O W)) : Prop where
  outputs : s.hist.outputs <+: s'.hist.outputs
  discarded : s.hist.discarded <+: s'.hist.discarded
  fresh : (∀ a ∈ ls, a.isPush = false) → s'.fresh = s.fresh

theorem Records.same {ls : List (Act F O W)} (ho : s'.hist.outputs = s.hist.outputs)
    (hd : s'.hist.discarded = s.hist.discarded) (hf : s'.fresh = s.fresh) : Records s s' ls :=
  ⟨ho ▸ List.prefix_refl _, hd ▸ List.prefix_refl _, fun _ => hf⟩

theorem records_move {a : Act F O W} (hm : Move s a s') : Records s s' [a] := by
  cases hm with
  | push fut hi ho =>
      refine ⟨List.prefix_refl _, List.prefix_refl _, fun hpush => ?_⟩
      cases hpush _ (List.mem_singleton_self _)
  | swapQueued hi => unfold State.swapQueued; split <;> exact .same rfl rfl rfl
  | dropInner hi =>
      unfold State.dropInner
      dsimp only
      split
      · split <;> exact .same rfl rfl rfl
      · exact .same rfl rfl rfl
  | dequeueEmpty ho hc => unfold State.dequeueEmpty; split <;> exact .same rfl rfl rfl
  | polled r ho =>
      cases r with
      | pending fut => exact .same rfl rfl rfl
      | ready o => exact .same rfl rfl rfl
      | unwind => exact ⟨List.prefix_refl _, List.prefix_append _ _, fun _ => rfl⟩
  | relink ho => unfold State.relink; split <;> exact .same rfl rfl rfl
  | ret ho => exact ⟨List.prefix_append _ _, List.prefix_refl _, fun _ => rfl⟩
  | dropLoop ho =>
      unfold State.dropLoop
      split
      · exact .same rfl rfl rfl
      · split <;> exact .same rfl rfl rfl
  | @dropDequeued d ho hc => cases d <;> exact .same rfl rfl rfl
  | _ => exact .same rfl rfl rfl

theorem records_of_run {ls : List (Act F O W)} (h : Transition.run step s ls = some s') :
    Records s s' ls := by
  induction ls generalizing s with
  | nil =>
      rw [Transition.run_nil, Option.some.injEq] at h
      subst h
      exact ⟨List.prefix_refl _, List.prefix_refl _, fun _ => rfl⟩
  | cons a ls ih =>
      rw [Transition.run_cons, Option.bind_eq_some_iff] at h
      obtain ⟨s₁, hs, h⟩ := h
      have hone := records_move (move_of_step hs)
      have hrest := ih h
      refine ⟨hone.outputs.trans hrest.outputs, hone.discarded.trans hrest.discarded, ?_⟩
      intro hpush
      rw [List.forall_mem_cons] at hpush
      exact (hrest.fresh hpush.2).trans (hone.fresh (by simpa using hpush.1))

/-- Between calls, what is there, has been handed out and has unwound is what was pushed. -/
theorem balance (h : s.Sound) (ho : s.owner = .idle) :
    s.hist.outputs.length + s.hist.discarded.length + s.len = s.fresh := by
  obtain ⟨l, hl⟩ := h.inv
  have hhanded := congrArg List.length h.ledger.handed
  rw [ho, Owner.carrying_of_idle rfl, List.append_nil, List.length_map] at hhanded
  have hbal := len_balance hl h.ledger ho
  omega

/-- **The contract of the set as a stream.** In every interleaving of pushes, calls and
wakes, whatever the futures answer, between two calls: the flag is up exactly when `None`
has been yielded and nothing pushed since. Then until the next push the set stays empty and
its flag up, no future is polled, and a call comes to its end and yields `None` again, or is
pending because an `enqueue` was under way. And the hint is exactly the number of futures that will have been
yielded, have unwound, or still be there between two later calls. -/
theorem fused_and_exact (ls ls' : List (Act F O W)) (s s' : State F O W A) (hdrop : .drop ∉ ls)
    (hrun : Transition.run step State.new ls = some s) (ho : s.owner = .idle) (hdrop' : .drop ∉ ls')
    (hpush : ∀ a ∈ ls', a.isPush = false) (hrun' : Transition.run step s ls' = some s') :
    -- the flag
    (s.is_terminated = true ↔ Ended A ls) ∧
    (s.is_terminated = true → s'.is_terminated = true ∧ s'.size_hint = (0, some 0) ∧
      (∀ r, .polled r ∉ ls') ∧
      (∀ lv r, s'.owner = .poll lv (.done r) →
        r = .ready none ∨ (r = .pending ∧ ∃ i t, s.Enqueueing i t)) ∧
      ∀ w s₁, step s' (.poll_next w) = some s₁ →
        Transition.Completes step Act.isRet Act.ofCall (fun _ a => a.ofCall)
          (fun e => e.is_empty = true)
          (fun e => ∃ lv r, e.owner = .poll lv (.done r) ∧
            (r = .ready none ∨ (r = .pending ∧ ∃ i t, s.Enqueueing i t))) s₁) ∧
    -- the hint
    (s'.owner = .idle → ∃ outs unwound,
      s'.hist.outputs = s.hist.outputs ++ outs ∧ s'.hist.discarded = s.hist.discarded ++ unwound ∧
      s.size_hint = (outs.length + unwound.length + s'.len,
        some (outs.length + unwound.length + s'.len))) := by
  have hflag : s.is_terminated = true ↔ Ended A ls := by
    have hall := flagged_of_run hrun
    unfold State.Flagged at hall
    rw [hall, ho]
    simp [Owner.result]
  obtain ⟨hsound, hover⟩ := over_of_run hdrop hrun
  refine ⟨hflag, fun hup => ?_, fun ho' => ?_⟩
  · -- nobody enqueues, or somebody does and the call may come to pending
    have hdrained : s.Drained (∀ i t, ¬s.Enqueueing i t) :=
      .of_empty hsound.inv (hover hup).empty ho (hover hup).quiet id
    obtain ⟨hdrained', hpolled⟩ := hdrained.run hpush hdrop' hrun'
    have hlen : s'.len = 0 := by
      obtain ⟨l', hl'⟩ := hdrained'.inv
      exact hl'.places.all.len_eq.trans
        (List.length_eq_zero_iff.mpr (hl'.places.all.is_empty_iff.mp hdrained'.empty))
    have hresult : ∀ {e : State F O W A} {lv r}, e.Drained (∀ i t, ¬s.Enqueueing i t) →
        e.owner = .poll lv (.done r) →
        r = .ready none ∨ (r = .pending ∧ ∃ i t, s.Enqueueing i t) := by
      intro e lv r he hr
      refine (he.result hr).imp_right fun hpending => ⟨hpending.1, ?_⟩
      by_contra hno
      exact hpending.2 fun i t ht => hno ⟨i, t, ht⟩
    refine ⟨?_, ?_, hpolled, fun lv r hr => hresult hdrained' hr, fun w s₁ hs₁ => ?_⟩
    · have hrun₂ : Transition.run step State.new (ls ++ ls') = some s' :=
        Transition.run_append_eq_some.mpr ⟨s, hrun, hrun'⟩
      have hlater : Ended A (ls ++ ls') :=
        Transition.Since.append (hflag.mp hup) fun b hb => by simp [hpush b hb]
      exact (flagged_of_run hrun₂).mpr (Or.inl hlater)
    · unfold State.size_hint
      rw [hlen]
    · cases move_of_step hs₁ with
      | poll_next w ho' hp =>
          have hcall := (hdrained'.poll_next w ho').1
          obtain ⟨bound, hbound⟩ := hcall.completes rfl
          refine ⟨bound, fun ls₁ e hls₁ hrun₁ => ?_⟩
          obtain ⟨he, hle, hlive⟩ := hbound ls₁ e hls₁ hrun₁
          refine ⟨he.empty, hle, hlive.imp_left ?_⟩
          rintro ⟨lv, r, hr⟩
          exact ⟨lv, r, hr, hresult he hr⟩
  · have hrun₂ : Transition.run step State.new (ls ++ ls') = some s' :=
      Transition.run_append_eq_some.mpr ⟨s, hrun, hrun'⟩
    have hdrop₂ : .drop ∉ ls ++ ls' := by simp [hdrop, hdrop']
    have hrecords := records_of_run hrun'
    obtain ⟨outs, houts⟩ := hrecords.outputs
    obtain ⟨unwound, hunwound⟩ := hrecords.discarded
    refine ⟨outs, unwound, houts.symm, hunwound.symm, ?_⟩
    have hsound' := (over_of_run hdrop₂ hrun₂).1
    have hbal := balance hsound ho
    have hbal' := balance hsound' ho'
    rw [hrecords.fresh hpush, ← houts, ← hunwound, List.length_append, List.length_append] at hbal'
    have hlen : s.len = outs.length + unwound.length + s'.len := by omega
    unfold State.size_hint
    rw [hlen]

/-- The future completes while another thread wakes it, and then `None` is yielded. -/
def yieldedToTheEnd : List (Act Unit ℕ Unit) :=
  List.flatten [
    [.push 0 (), .thread 0, .thread 0, .thread 0, .thread 0, .poll_next ()],
    List.replicate 12 .owner,
    [.wake 1 0, .thread 1, .thread 1, .polled (.ready 7), .owner, .owner, .ret, .poll_next ()],
    List.replicate 3 .owner,
    [.ret]]

/-- The wake enqueues the task that is gone, and `poll_next` is called once more. -/
def polledOnceMore : List (Act Unit ℕ Unit) :=
  List.replicate 3 (.thread 1) ++ [.poll_next ()] ++ List.replicate 11 .owner

theorem fused_and_exact_once_more :
    ∃ s s' : State Unit ℕ Unit (AtomicWaker.cell Unit),
      Transition.run step State.new yieldedToTheEnd = some s ∧
        Transition.run step s polledOnceMore = some s' ∧ s.is_terminated = true ∧
        Ended (AtomicWaker.cell Unit) yieldedToTheEnd ∧ s'.size_hint = (0, some 0) := by
  refine ⟨_, _, rfl, rfl, rfl, ?_⟩
  have h := fused_and_exact (A := AtomicWaker.cell Unit) yieldedToTheEnd polledOnceMore _ _
    (by simp [yieldedToTheEnd]) rfl rfl (by simp [polledOnceMore])
    (by simp [polledOnceMore, Act.isPush]) rfl
  exact ⟨h.1.mp rfl, (h.2.1 rfl).2.1⟩

end TokioStreamUtil.FuturesUnordered
