/-
What one call of `FuturesOrdered::poll_next` may spend.

The loop calls `poll_next` of the set again whenever an output comes out of order, and
the set counts its budget afresh each time. Every such round leaves one future less in
the set, and at most one released task more in its queue, so the rounds and what they
spend are bounded by the state the call was made in.
-/
import TokioStreamUtil.FuturesUnordered.SetCall
import TokioStreamUtil.FuturesOrdered.Drained

set_option autoImplicit false

namespace TokioStreamUtil.FuturesOrdered


open FuturesUnordered (PollNext Polled SetCall move_of_step)

variable {F O W : Type} {A : AtomicWaker W} {s s' : State F O W A}

/-! ## What a step does with the set -/

/-- A step of `poll_next` itself hands out an output that waited, calls the set for the
first time, returns, or calls the set again. -/
inductive OwnMove (s s' : State F O W A) : Prop where
  | queued {w : W} {r : PollNext O} (hpc : s.pc = .peek w)
      (hset : s'.in_progress_queue = s.in_progress_queue) (hpc' : s'.pc = .done r)
  | enter {w : W} (hpc : s.pc = .peek w)
      (hset : s'.in_progress_queue = s.in_progress_queue.poll_next w) (hpc' : s'.pc = .loop w)
  | leave {w : W} {lv : FuturesUnordered.Locals W} {r : PollNext (Ordered O)} {r' : PollNext O}
      (hpc : s.pc = .loop w) (ho : s.in_progress_queue.owner = .poll lv (.done r))
      (hset : s'.in_progress_queue = s.in_progress_queue.ret lv r) (hpc' : s'.pc = .done r')
  | again {w : W} {lv : FuturesUnordered.Locals W} {output : Ordered O} (hpc : s.pc = .loop w)
      (ho : s.in_progress_queue.owner = .poll lv (.done (.ready (some output))))
      (hset : s'.in_progress_queue =
        (s.in_progress_queue.ret lv (.ready (some output))).poll_next w) (hpc' : s'.pc = .loop w)

theorem ownMove_of_step (hs : stepOwn s = some s') : OwnMove s s' := by
  unfold stepOwn at hs
  split at hs
  · cases hs
  · rename_i w hpc
    cases hs
    unfold State.peekQueued
    split
    · split
      · exact .queued hpc rfl rfl
      · exact .enter hpc rfl rfl
    · exact .enter hpc rfl rfl
  · rename_i w hpc
    split at hs
    · rename_i lv r ho
      cases hs
      unfold State.loopBody
      split
      · split
        · exact .leave hpc ho rfl rfl
        · exact .again hpc ho rfl rfl
      · exact .leave hpc ho rfl rfl
      · exact .leave hpc ho rfl rfl
      · exact .leave hpc ho rfl rfl
    · cases hs
  · cases hs

/-- The answer of a future is its answer in the set. -/
theorem set_of_polled {r : Polled F O} (hs : stepPolled s r = some s') :
    ∃ lv t r', s.in_progress_queue.owner = .poll lv (.poll t) ∧
      s'.in_progress_queue = s.in_progress_queue.polled lv t r' ∧ s'.pc = s.pc := by
  unfold stepPolled at hs
  split at hs
  · rename_i lv t ho
    split at hs
    · rename_i fut hf
      cases hs
      exact ⟨lv, t, Ordered.poll fut.index r, ho, rfl, rfl⟩
    · cases hs
  · cases hs

/-! ## Between the steps -/

/-- The set is sound, is polled only inside the loop, and nobody pushes during a call. -/
structure State.Orderly (s : State F O W A) : Prop where
  set : s.in_progress_queue.Sound
  idle : (∀ w, s.pc ≠ .loop w) → s.in_progress_queue.owner = .idle
  pushing : s.pc ≠ .idle → s.in_progress_queue.pushing = ∅

namespace State.Orderly

theorem new : (State.new : State F O W A).Orderly :=
  ⟨FuturesUnordered.State.Sound.new, fun _ => rfl, fun _ => rfl⟩

theorem push (h : s.Orderly) {i : ℕ} {wrapped : Ordered F} (hpc : s.pc = .idle)
    (hi : s.in_progress_queue.threads i = .idle) (hq : s'.in_progress_queue =
      s.in_progress_queue.push i wrapped) (hpc' : s'.pc = .idle) : s'.Orderly := by
  have ho := h.idle fun w hw => by rw [hpc] at hw; cases hw
  refine ⟨?_, fun _ => ?_, fun hne => absurd hpc' hne⟩
  · rw [hq]
    exact h.set.move (.push wrapped hi ho) nofun
  · rw [hq]
    exact ho

/-- The machinery of the set moves. -/
theorem inner (h : s.Orderly) {a : FuturesUnordered.Act (Ordered F) (Ordered O) W}
    (ha : a.inner = true) (hs : stepSet s a = some s') : s'.Orderly := by
  obtain ⟨q, hq, rfl⟩ := Option.map_eq_some_iff.mp hs
  have hm := move_of_step hq
  have hframe := FuturesUnordered.frame_move hm ha
  refine ⟨h.set.move hm ?_, fun hpc => ?_, fun hpc => hframe.pushing (h.pushing hpc)⟩
  · rintro rfl
    cases ha
  · apply FuturesUnordered.Owner.eq_idle
    rw [hframe.idle, h.idle hpc]
    rfl

theorem own (h : s.Orderly) (hs : stepOwn s = some s') : s'.Orderly := by
  have hp : s.in_progress_queue.pushing = ∅ := by
    apply h.pushing
    intro hpc
    unfold stepOwn at hs
    rw [hpc] at hs
    cases hs
  cases ownMove_of_step hs with
  | @queued w r hpc hset hpc' =>
      have ho := h.idle fun v hv => by rw [hpc] at hv; cases hv
      exact ⟨hset ▸ h.set, fun _ => hset ▸ ho, fun _ => hset ▸ hp⟩
  | @enter w hpc hset hpc' =>
      have ho := h.idle fun v hv => by rw [hpc] at hv; cases hv
      refine ⟨?_, fun hloop => absurd hpc' (hloop w), fun _ => hset ▸ hp⟩
      rw [hset]
      exact h.set.move (.poll_next w ho hp) nofun
  | leave hpc ho hset hpc' =>
      refine ⟨?_, fun _ => hset ▸ rfl, fun _ => hset ▸ hp⟩
      rw [hset]
      exact h.set.move (.ret ho) nofun
  | @again w lv output hpc ho hset hpc' =>
      refine ⟨?_, fun hloop => absurd hpc' (hloop w), fun _ => hset ▸ hp⟩
      have hret := h.set.move (.ret ho) nofun
      rw [hset]
      exact hret.move (.poll_next w rfl hp) nofun

/-- The future that the set polls answers. -/
theorem polled (h : s.Orderly) {r : Polled F O} (hs : stepPolled s r = some s') : s'.Orderly := by
  obtain ⟨lv, t, r', ho, hset, hpc⟩ := set_of_polled hs
  refine ⟨?_, fun hloop => ?_, fun hne => ?_⟩
  · rw [hset]
    exact h.set.move (.polled r' ho) nofun
  · -- the set polls a future, so this is the loop
    rw [hpc] at hloop
    rw [h.idle hloop] at ho
    cases ho
  · rw [hpc] at hne
    rw [hset, ← h.pushing hne]
    cases r' <;> rfl

theorem step (h : s.Orderly) {a : Act F O W} (hs : step s a = some s') : s'.Orderly := by
  cases a with
  | push_back i future =>
      simp only [FuturesOrdered.step, Option.ite_none_right_eq_some, Option.some.injEq] at hs
      obtain ⟨⟨hpc, -, hi⟩, rfl⟩ := hs
      exact h.push (Pc.eq_idle hpc) hi rfl (Pc.eq_idle hpc)
  | push_front i future =>
      simp only [FuturesOrdered.step, Option.ite_none_right_eq_some, Option.some.injEq] at hs
      obtain ⟨⟨hpc, -, hi⟩, rfl⟩ := hs
      exact h.push (Pc.eq_idle hpc) hi rfl (Pc.eq_idle hpc)
  | poll_next w =>
      simp only [FuturesOrdered.step, Option.ite_none_right_eq_some, Option.some.injEq] at hs
      obtain ⟨⟨hpc, hp⟩, rfl⟩ := hs
      refine ⟨h.set, fun _ => h.idle fun v hv => ?_, fun _ => hp⟩
      rw [Pc.eq_idle hpc] at hv
      cases hv
  | own => exact h.own hs
  | wake i t => exact h.inner rfl hs
  | thread i => exact h.inner rfl hs
  | owner => exact h.inner rfl hs
  | polled r => exact h.polled hs
  | ret =>
      simp only [FuturesOrdered.step] at hs
      split at hs
      · rename_i r hpc
        cases hs
        refine ⟨h.set, fun _ => h.idle fun v hv => ?_, fun hne => absurd rfl hne⟩
        rw [hpc] at hv
        cases hv
      · cases hs

end State.Orderly

theorem orderly_of_reachable (h : Transition.Reachable step (State.new : State F O W A) s) :
    s.Orderly :=
  h.invariant State.Orderly.new fun _ _ _ hi hs => hi.step hs

/-! ## The whole call -/

/-- The label is the answer of a future. -/
def Act.isPolled : Act F O W → Bool
  | .polled _ => true
  | _ => false

/-- The steps of a call whose set holds `n` futures and `left` released tasks. -/
def callCost (n left : ℕ) : ℕ := (n + 1) * (24 * n + 8 * left + 11)

/-- A round of the loop and the rounds that come after it. -/
theorem callCost_round {n m left left' : ℕ} (hn : m + 1 ≤ n) (hleft : left' ≤ left + 1) :
    16 * n + 8 * left + 11 + callCost m left' ≤ callCost n left := by
  unfold callCost
  have hmul : (m + 1) * (24 * m + 8 * left' + 11) ≤ n * (24 * n + 8 * left + 11) := by
    apply Nat.mul_le_mul hn
    omega
  rw [Nat.succ_mul n]
  omega

theorem round_le_callCost (n left : ℕ) : 16 * n + 8 * left + 11 ≤ callCost n left := by
  unfold callCost
  have hone : 1 * (24 * n + 8 * left + 11) ≤ (n + 1) * (24 * n + 8 * left + 11) :=
    Nat.mul_le_mul_right _ (Nat.le_add_left 1 n)
  omega

theorem two_mul_add_le {polls₀ polls n : ℕ} (h : polls ≤ n) :
    2 * (polls₀ + polls) ≤ 2 * polls₀ + n * (n + 1) := by
  have hle : n + n ≤ n * (n + 1) := by
    rw [Nat.mul_succ]
    exact Nat.add_le_add_right (Nat.le_mul_self n) n
  omega

/-- The polls of a round with `n` futures, and of those after it with `m`. -/
theorem two_mul_round {polls₀ polls n m : ℕ} (hm : m + 1 ≤ n) (h : polls ≤ n) :
    2 * (polls₀ + polls) + m * (m + 1) ≤ 2 * polls₀ + n * (n + 1) := by
  have hmul : m * (m + 1) + 2 * n ≤ n * (n + 1) := by
    calc m * (m + 1) + 2 * n ≤ m * n + 2 * n := Nat.add_le_add_right (Nat.mul_le_mul_left m hm) _
      _ = (m + 2) * n := (Nat.add_mul m 2 n).symm
      _ ≤ (n + 1) * n := Nat.mul_le_mul_right n (Nat.succ_le_succ hm)
      _ = n * (n + 1) := Nat.mul_comm _ _
  omega

/-- Where a call is that has taken `steps` steps and polled `polls` futures, when it began
with `n` futures and `left` released tasks in the set. -/
def State.CallBooks (n left polls steps : ℕ) (s : State F O W A) : Prop :=
  match s.pc with
  | .idle => False
  | .peek _ => s.in_progress_queue.len = n ∧ s.in_progress_queue.leftover = left ∧
      polls = 0 ∧ steps = 0
  -- `polls₀` and `steps₀` are those of the rounds before this one
  | .loop w => ∃ q₀ ls polls₀ steps₀, SetCall q₀ w ls s.in_progress_queue ∧
      2 * polls₀ + q₀.len * (q₀.len + 1) ≤ n * (n + 1) ∧
      steps₀ + callCost q₀.len q₀.leftover ≤ callCost n left + 1 ∧
      polls = polls₀ + ls.countP FuturesUnordered.Act.isPolled ∧
      steps = steps₀ + ls.countP FuturesUnordered.Act.ofCall
  | .done _ => 2 * polls ≤ n * (n + 1) ∧ steps ≤ callCost n left + 1

namespace State.CallBooks

variable {n left polls steps : ℕ}

/-- A step of the set inside the loop. -/
theorem set (h : s.CallBooks n left polls steps) {w : W} (hpc : s.pc = .loop w)
    {a : FuturesUnordered.Act (Ordered F) (Ordered O) W}
    (hs : FuturesUnordered.step s.in_progress_queue a = some s'.in_progress_queue)
    (ha : a.inner = true ∨ a.isPolled = true) (hpc' : s'.pc = s.pc) :
    s'.CallBooks n left (polls + if a.isPolled then 1 else 0)
      (steps + if a.ofCall then 1 else 0) := by
  unfold CallBooks at h ⊢
  rw [hpc] at h
  rw [hpc', hpc]
  obtain ⟨q₀, ls, polls₀, steps₀, hcall, hpolls₀, hsteps₀, rfl, rfl⟩ := h
  refine ⟨q₀, ls ++ [a], polls₀, steps₀, hcall.concat hs ha, hpolls₀, hsteps₀, ?_, ?_⟩
  · rw [List.countP_append, List.countP_singleton, Nat.add_assoc]
  · rw [List.countP_append, List.countP_singleton, Nat.add_assoc]

/-- The machinery of the set moves. -/
theorem inner (h : s.CallBooks n left polls steps) (hord : s.Orderly)
    {a : FuturesUnordered.Act (Ordered F) (Ordered O) W} (ha : a.inner = true)
    (hs : stepSet s a = some s') :
    s'.CallBooks n left polls (steps + if a.ofCall then 1 else 0) := by
  have hpolled : a.isPolled = false := by
    cases a with
    | polled r => cases ha
    | _ => rfl
  cases hpc : s.pc with
  | loop w =>
      obtain ⟨q, hq, rfl⟩ := Option.map_eq_some_iff.mp hs
      have hset : CallBooks n left (polls + if a.isPolled then 1 else 0)
          (steps + if a.ofCall then 1 else 0) { s with in_progress_queue := q } :=
        h.set hpc hq (Or.inl ha) rfl
      rw [hpolled] at hset
      exact hset
  | idle =>
      unfold CallBooks at h
      rw [hpc] at h
      exact h.elim
  | peek w =>
      have ho := hord.idle fun v hv => by rw [hpc] at hv; cases hv
      obtain ⟨q, hq, rfl⟩ := Option.map_eq_some_iff.mp hs
      have hm := move_of_step hq
      have hnot := FuturesUnordered.not_ofCall_of_idle hm ha ho
      obtain ⟨l, hl⟩ := hord.set.inv
      obtain ⟨hall, hleft⟩ := FuturesUnordered.others_move hl hm ha
        (FuturesUnordered.others_of_idle hm ho)
      unfold CallBooks at h ⊢
      rw [hpc] at h
      dsimp only
      rw [hpc, hnot]
      refine ⟨?_, hleft.trans h.2.1, h.2.2.1, h.2.2.2⟩
      show q.all.len = n
      rw [hall]
      exact h.1
  | done r =>
      have ho := hord.idle fun v hv => by rw [hpc] at hv; cases hv
      obtain ⟨q, hq, rfl⟩ := Option.map_eq_some_iff.mp hs
      have hnot := FuturesUnordered.not_ofCall_of_idle (move_of_step hq) ha ho
      unfold CallBooks at h ⊢
      rw [hpc] at h
      dsimp only
      rw [hpc, hnot]
      exact h

/-- The future that the set polls answers. -/
theorem polled (h : s.CallBooks n left polls steps) (hord : s.Orderly) {r : Polled F O}
    (hs : stepPolled s r = some s') : s'.CallBooks n left (polls + 1) (steps + 1) := by
  obtain ⟨lv, t, r', ho, hset, hpc'⟩ := set_of_polled hs
  have hloop : ∃ w, s.pc = .loop w := by
    by_contra hno
    rw [hord.idle fun w hw => hno ⟨w, hw⟩] at ho
    cases ho
  obtain ⟨w, hpc⟩ := hloop
  have hstep : FuturesUnordered.step s.in_progress_queue (.polled r') =
      some s'.in_progress_queue := by
    rw [hset]
    simp [FuturesUnordered.step, ho]
  exact h.set hpc hstep (Or.inr rfl) hpc'

/-- A step of `poll_next` itself. A round that hands out an output has paid for the next. -/
theorem own (h : s.CallBooks n left polls steps) (hord : s.Orderly) (hs : stepOwn s = some s') :
    s'.CallBooks n left polls (steps + 1) := by
  unfold CallBooks at h ⊢
  cases ownMove_of_step hs with
  | queued hpc hset hpc' =>
      rw [hpc] at h
      rw [hpc']
      obtain ⟨-, -, rfl, rfl⟩ := h
      exact ⟨Nat.zero_le _, Nat.le_add_left _ _⟩
  | enter hpc hset hpc' =>
      rw [hpc] at h
      rw [hpc']
      have ho := hord.idle fun v hv => by rw [hpc] at hv; cases hv
      have hp := hord.pushing fun hidle => by rw [hpc] at hidle; cases hidle
      obtain ⟨rfl, rfl, rfl, rfl⟩ := h
      refine ⟨s.in_progress_queue, [], 0, 1, ?_, ?_, ?_, rfl, rfl⟩
      · rw [hset]
        exact SetCall.poll_next hord.set ho hp _
      · omega
      · omega
  | leave hpc ho hset hpc' =>
      rw [hpc] at h
      rw [hpc']
      obtain ⟨q₀, ls, polls₀, steps₀, hcall, hpolls₀, hsteps₀, rfl, rfl⟩ := h
      obtain ⟨hpolls, hsteps⟩ := hcall.spent
      have hround := round_le_callCost q₀.len q₀.leftover
      refine ⟨(two_mul_add_le hpolls).trans hpolls₀, ?_⟩
      omega
  | @again w lv output hpc ho hset hpc' =>
      rw [hpc] at h
      rw [hpc']
      obtain ⟨q₀, ls, polls₀, steps₀, hcall, hpolls₀, hsteps₀, rfl, rfl⟩ := h
      obtain ⟨hpolls, hsteps⟩ := hcall.spent
      obtain ⟨hlen, hleft⟩ := hcall.yields ho
      have hp := hord.pushing fun hidle => by rw [hpc] at hidle; cases hidle
      have hcost := callCost_round hlen hleft
      have hsound := hord.set.move (.ret ho) nofun
      refine ⟨s.in_progress_queue.ret lv (.ready (some output)), [],
        polls₀ + ls.countP FuturesUnordered.Act.isPolled,
        steps₀ + ls.countP FuturesUnordered.Act.ofCall + 1, ?_, ?_, ?_, rfl, rfl⟩
      · rw [hset]
        exact SetCall.poll_next hsound rfl hp w
      · exact (two_mul_round hlen hpolls).trans hpolls₀
      · omega

/-- What has been spent is within the bounds of the call. -/
theorem within (h : s.CallBooks n left polls steps) :
    2 * polls ≤ n * (n + 1) ∧ steps ≤ callCost n left + 1 := by
  unfold CallBooks at h
  split at h
  · exact h.elim
  · obtain ⟨-, -, rfl, rfl⟩ := h
    exact ⟨Nat.zero_le _, Nat.zero_le _⟩
  · obtain ⟨q₀, ls, polls₀, steps₀, hcall, hpolls₀, hsteps₀, rfl, rfl⟩ := h
    obtain ⟨hpolls, hsteps⟩ := hcall.spent
    have hround := round_le_callCost q₀.len q₀.leftover
    refine ⟨(two_mul_add_le hpolls).trans hpolls₀, ?_⟩
    omega
  · exact h

/-- The call is at its end, waits for a future, or can take its next step. -/
theorem live (h : s.CallBooks n left polls steps) :
    (∃ r, s.pc = .done r) ∨ (∃ lv t, s.in_progress_queue.owner = .poll lv (.poll t)) ∨
      ∃ a s', a.ofCall = true ∧ step s a = some s' := by
  unfold CallBooks at h
  cases hpc : s.pc with
  | idle =>
      rw [hpc] at h
      exact h.elim
  | done r => exact Or.inl ⟨r, rfl⟩
  | peek w => exact Or.inr (Or.inr ⟨.own, s.peekQueued w, rfl, by simp [FuturesOrdered.step, stepOwn, hpc]⟩)
  | loop w =>
      rw [hpc] at h
      obtain ⟨q₀, ls, polls₀, steps₀, hcall, -⟩ := h
      obtain ⟨l, hl⟩ := hcall.sound.inv
      rcases FuturesUnordered.not_stuck hl hcall.books.polling with ⟨lv, r, ho⟩ | hwaits | ⟨q, hq⟩
      · refine Or.inr (Or.inr ⟨.own, State.loopBody { s with
          in_progress_queue := s.in_progress_queue.ret lv r } w r, rfl, ?_⟩)
        simp [FuturesOrdered.step, stepOwn, hpc, ho]
      · exact Or.inr (Or.inl hwaits)
      · exact Or.inr (Or.inr ⟨.owner, { s with in_progress_queue := q }, rfl, by
          simp [FuturesOrdered.step, stepSet, hq]⟩)

/-- **Every step of the call is on its books.** -/
theorem step (h : s.CallBooks n left polls steps) (hord : s.Orderly) {a : Act F O W}
    (ha : a ≠ .ret) (hs : step s a = some s') :
    s'.CallBooks n left (polls + if a.isPolled then 1 else 0)
      (steps + if a.ofCall then 1 else 0) := by
  have hbusy : s.pc.isIdle = false := by
    unfold CallBooks at h
    cases hpc : s.pc with
    | idle =>
        rw [hpc] at h
        exact h.elim
    | _ => rfl
  cases a with
  | push_back i future =>
      simp only [FuturesOrdered.step, Option.ite_none_right_eq_some] at hs
      rw [hbusy] at hs
      cases hs.1.1
  | push_front i future =>
      simp only [FuturesOrdered.step, Option.ite_none_right_eq_some] at hs
      rw [hbusy] at hs
      cases hs.1.1
  | poll_next w =>
      simp only [FuturesOrdered.step, Option.ite_none_right_eq_some] at hs
      rw [hbusy] at hs
      cases hs.1.1
  | own => exact h.own hord hs
  | wake i t => exact h.inner hord rfl hs
  | thread i => exact h.inner hord rfl hs
  | owner => exact h.inner hord rfl hs
  | polled r => exact h.polled hord hs
  | ret => exact absurd rfl ha

/-- The books of a call that has not returned are right. -/
theorem run : ∀ {ls : List (Act F O W)} {s s' : State F O W A} {polls steps : ℕ},
    s.CallBooks n left polls steps → s.Orderly → .ret ∉ ls →
      Transition.run FuturesOrdered.step s ls = some s' →
      s'.CallBooks n left (polls + ls.countP Act.isPolled) (steps + ls.countP Act.ofCall) := by
  intro ls
  induction ls with
  | nil =>
      intro s s' polls steps h _ _ hrun
      rw [Transition.run_nil, Option.some.injEq] at hrun
      exact hrun ▸ h
  | cons a ls ih =>
      intro s s' polls steps h hord hret hrun
      rw [Transition.run_cons, Option.bind_eq_some_iff] at hrun
      obtain ⟨s₁, hs, hrun⟩ := hrun
      rw [List.mem_cons, not_or] at hret
      have hrest := ih (h.step hord (Ne.symm hret.1) hs) (hord.step hs) hret.2 hrun
      rw [List.countP_cons, List.countP_cons, Nat.add_comm (ls.countP Act.isPolled),
        Nat.add_comm (ls.countP Act.ofCall), ← Nat.add_assoc, ← Nat.add_assoc]
      exact hrest

end State.CallBooks

/-- **Every call of `poll_next` terminates**, if the polls of the futures do, whatever the
futures and the other threads do to the wakers meanwhile. With `n` futures and `left`
released tasks in the set when it is called, it polls at most `n (n + 1) / 2` futures in
all its rounds, and until it returns it waits for a future or can take its next step. -/
theorem poll_next_terminates (ls₀ ls : List (Act F O W)) (s₀ s₁ s : State F O W A) (w : W)
    (hrun₀ : Transition.run step State.new ls₀ = some s₀) (hcall : step s₀ (.poll_next w) = some s₁)
    (hret : .ret ∉ ls) (hrun : Transition.run step s₁ ls = some s) :
    2 * ls.countP Act.isPolled ≤ s₀.in_progress_queue.len * (s₀.in_progress_queue.len + 1) ∧
    ls.countP Act.ofCall ≤ (s₀.in_progress_queue.len + 1) *
      (24 * s₀.in_progress_queue.len + 8 * s₀.in_progress_queue.leftover + 11) + 1 ∧
    ((∃ r, s.pc = .done r) ∨ (∃ lv t, s.in_progress_queue.owner = .poll lv (.poll t)) ∨
      ∃ a s', a.ofCall = true ∧ step s a = some s') := by
  have hord : s₁.Orderly := orderly_of_reachable ((Transition.Reachable.of_run hrun₀).tail hcall)
  have hbegin : s₁.CallBooks s₀.in_progress_queue.len s₀.in_progress_queue.leftover 0 0 := by
    simp only [step, Option.ite_none_right_eq_some, Option.some.injEq] at hcall
    obtain ⟨-, rfl⟩ := hcall
    exact ⟨rfl, rfl, rfl, rfl⟩
  have hbooks := hbegin.run hord hret hrun
  rw [Nat.zero_add, Nat.zero_add] at hbooks
  exact ⟨hbooks.within.1, hbooks.within.2, hbooks.live⟩

/-- Two futures are pushed. -/
def twoFutures : List (Act Unit ℕ Unit) :=
  List.flatten [
    [.push_back 0 (), .thread 0, .thread 0, .thread 0, .thread 0],
    [.push_back 0 (), .thread 0, .thread 0, .thread 0, .thread 0]]

/-- The first wakes itself and pends, the second is ready out of order, so the first is
polled again in the same call. -/
def polledThrice : List (Act Unit ℕ Unit) :=
  List.flatten [
    .own :: List.replicate 7 .owner,
    .wake 1 0 :: List.replicate 8 (.thread 1),
    .polled (.pending ()) :: List.replicate 7 .owner,
    .polled (.ready 5) :: List.replicate 2 .owner,
    .own :: List.replicate 11 .owner,
    [.polled (.ready 3)]]

/-- Two futures are polled three times, which is the bound. -/
theorem poll_next_terminates_two_futures :
    ∃ s₀ s₁ s : State Unit ℕ Unit (AtomicWaker.cell Unit),
      Transition.run step State.new twoFutures = some s₀ ∧ step s₀ (.poll_next ()) = some s₁ ∧
        Transition.run step s₁ polledThrice = some s ∧ s₀.in_progress_queue.len = 2 ∧
        polledThrice.countP Act.isPolled = 3 ∧
        2 * polledThrice.countP Act.isPolled ≤
          s₀.in_progress_queue.len * (s₀.in_progress_queue.len + 1) :=
  ⟨_, _, _, rfl, rfl, rfl, rfl, rfl,
    (poll_next_terminates twoFutures polledThrice _ _ _ () rfl rfl (by simp [polledThrice]) rfl).1⟩

end TokioStreamUtil.FuturesOrdered
