/-
The work of a chain of adaptors.

An adaptor may poll the stream below it many times in one call, and so may each adaptor
below that. No call of a chain goes on by itself all the same: an item of the base costs each
adaptor at most two questions, its poll and the poll of the future made of it, and what
else is asked ends the call. So the questions of a run are bounded by the items the base
has given and the calls that have come to nothing, times the length of the chain.
-/
import TokioStreamUtil.TryStream.Chain

set_option autoImplicit false

namespace TokioStreamUtil

open PollLoop OneAtATime

variable {φ Fut T U E E' R σ : Type}

/-! ## Items and stops -/

/-- An item, not `Pending` and not the end. -/
def isItem : TryPoll U E → Bool
  | .ready (some _) => true
  | _ => false

/-- How many items there are. -/
def itemCount (rs : List (TryPoll U E)) : ℕ := rs.countP isItem

/-- How many `Pending` and `Ready(None)` there are. -/
def stopCount (rs : List (TryPoll U E)) : ℕ := rs.countP fun r => !isItem r

@[simp] theorem itemCount_append (rs rs' : List (TryPoll U E)) :
    itemCount (rs ++ rs') = itemCount rs + itemCount rs' := List.countP_append

@[simp] theorem stopCount_append (rs rs' : List (TryPoll U E)) :
    stopCount (rs ++ rs') = stopCount rs + stopCount rs' := List.countP_append

@[simp] theorem itemCount_nil : itemCount ([] : List (TryPoll U E)) = 0 := rfl

@[simp] theorem stopCount_nil : stopCount ([] : List (TryPoll U E)) = 0 := rfl

@[simp] theorem itemCount_singleton (r : TryPoll U E) : itemCount [r] = (isItem r).toNat := by
  unfold itemCount
  rw [List.countP_singleton]
  cases isItem r <;> rfl

@[simp] theorem stopCount_singleton (r : TryPoll U E) : stopCount [r] = (!isItem r).toNat := by
  unfold stopCount
  rw [List.countP_singleton]
  cases isItem r <;> rfl

@[simp] theorem isItem_pending : isItem (.pending : TryPoll U E) = false := rfl

@[simp] theorem isItem_end : isItem (.ready none : TryPoll U E) = false := rfl

@[simp] theorem isItem_item (item : Except E U) : isItem (.ready (some item)) = true := rfl

/-! ## One adaptor -/

namespace OneAtATime

/-- No future is left in progress where a call returns, but by a pending answer. -/
structure Settles (B : OneAtATime σ Fut T E R (Option (Except E' U))) : Prop where
  start : ∀ s, B.start s = .again s ∨ B.start s = .ret (.ready none) s
  onFuture : ∀ s res, B.pending s ≠ none → B.pending (B.onFuture s res).self = none
  onItem : ∀ s item r s', B.pending s = none → B.onBase s (some item) = .ret r s' →
    B.pending s' = none
  onEnd : ∀ s, B.pending s = none →
    ∃ s', B.onBase s none = .ret (.ready none) s' ∧ B.pending s' = none

/-- The future in progress, counted. -/
def held (B : OneAtATime σ Fut T E R (Option (Except E' U))) (s : σ) : ℕ :=
  (B.pending s).isSome.toNat

/-- What was returned and asked, against what the base has given. A future in progress
stands for an item, and for a question to come. -/
structure Ledger (B : OneAtATime σ Fut T E R (Option (Except E' U))) (s : σ)
    (rs : List (TryPoll U E')) (log : List (Option Fut × Answer T E R)) : Prop where
  items : itemCount rs + B.held s ≤ itemCount (baseAnswers log)
  stops : stopCount (baseAnswers log) ≤ stopCount rs
  asked : log.length + B.held s ≤ 2 * itemCount (baseAnswers log) + stopCount rs

variable {B : OneAtATime σ Fut T E R (Option (Except E' U))} {s s' : σ}
  {rs : List (TryPoll U E')} {log : List (Option Fut × Answer T E R)}

theorem held_of_none (hp : B.pending s = none) : B.held s = 0 := by
  unfold held
  rw [hp]
  rfl

theorem held_le_one : B.held s ≤ 1 := Bool.toNat_le _

theorem held_of_ne_none (hp : B.pending s ≠ none) : B.held s = 1 := by
  unfold held
  rw [Option.isSome_iff_ne_none.mpr hp]
  rfl

/-- One stretch more. -/
theorem Ledger.append (h : B.Ledger s rs log) {rs' : List (TryPoll U E')}
    {log' : List (Option Fut × Answer T E R)}
    (hitems : itemCount rs' + B.held s' ≤ B.held s + itemCount (baseAnswers log'))
    (hstops : stopCount (baseAnswers log') ≤ stopCount rs')
    (hasked : log'.length + B.held s' ≤
      B.held s + (2 * itemCount (baseAnswers log') + stopCount rs')) :
    B.Ledger s' (rs ++ rs') (log ++ log') := by
  obtain ⟨hitems₀, hstops₀, hasked₀⟩ := h
  constructor
  · rw [itemCount_append, baseAnswers_append, itemCount_append]
    omega
  · rw [stopCount_append, baseAnswers_append, stopCount_append]
    omega
  · rw [List.length_append, baseAnswers_append, itemCount_append, stopCount_append]
    omega

/-- A round keeps the ledger. -/
theorem Ledger.round (hB : B.Settles) (h : B.Ledger s rs log) {a : Answer T E R}
    {f : Flow σ (TryPoll U E')} (hf : B.machine.resume s a = some f) :
    B.Ledger f.self (rs ++ f.result.toList) (log ++ [(B.pending s, a)]) := by
  by_cases hp : B.pending s = none
  · have hs := held_of_none hp
    rcases resume_of_none hp hf with ⟨rfl, rfl⟩ | ⟨_ | item, rfl, rfl⟩
    · -- the base is pending, and the call with it
      apply h.append <;> simp [Flow.result, Flow.self, hs]
    · obtain ⟨s', hend, hp'⟩ := hB.onEnd s hp
      have hs' := held_of_none hp'
      rw [hend]
      apply h.append <;> simp [Flow.result, Flow.self, hs, hs']
    · cases hflow : B.onBase s (some item) with
      | again s' =>
          -- the item may be with a future
          have hs' : B.held s' ≤ 1 := held_le_one
          apply h.append <;> simp [Flow.result, Flow.self, hs] <;> omega
      | ret r s' =>
          have hs' := held_of_none (hB.onItem s item r s' hp hflow)
          apply h.append <;> simp [Flow.result, Flow.self, hs, hs', Bool.toNat_le]
          omega
  · have hs := held_of_ne_none hp
    obtain ⟨fut, hfut⟩ := Option.ne_none_iff_exists'.mp hp
    rcases resume_of_some hfut hf with ⟨rfl, rfl⟩ | ⟨res, rfl, rfl⟩
    · apply h.append <;> simp [Flow.result, Flow.self, hs]
    · -- the future has stood for the item that may be returned, and for this question
      have hs' := held_of_none (hB.onFuture s res hp)
      cases hflow : B.onFuture s res with
      | again s' =>
          rw [hflow] at hs'
          replace hs' : B.held s' = 0 := hs'
          apply h.append <;> simp [Flow.result, Flow.self, hs, hs']
      | ret r s' =>
          rw [hflow] at hs'
          replace hs' : B.held s' = 0 := hs'
          apply h.append <;> simp [Flow.result, Flow.self, hs, hs', Bool.toNat_le]

/-- In every run. -/
theorem Settles.ledger (hB : B.Settles) {new : σ} (hnew : B.pending new = none)
    {ls : List (Act Unit (Answer T E R))} {s : Run σ Fut T E R (Except E' U)}
    (hrun : B.machine.run new ls = some s) : B.Ledger s.self (results s.calls) s.log := by
  -- what holds after a stretch holds where the stretch ends
  have hkeeps : ∀ (f : Flow σ (TryPoll U E')) calls (k : Unit) (asked : List (Option Fut × Answer T E R)),
      B.Ledger f.self (results calls ++ f.result.toList) (log calls ++ asked) →
      f.Keeps (fun s calls => B.Ledger s (results calls) (log calls))
        (fun s calls _ asked => B.Ledger s (results calls) (log calls ++ asked)) calls k asked := by
    intro f calls k asked h
    cases f with
    | again s =>
        have hnone : results calls ++ (Flow.again s : Flow σ (TryPoll U E')).result.toList =
            results calls := List.append_nil _
        rw [hnone] at h
        exact h
    | ret r s =>
        show B.Ledger s (results (calls ++ [_])) (log (calls ++ [_]))
        rw [results_concat, log_concat]
        exact h
  have hholds : s.Holds (fun s calls => B.Ledger s (results calls) (log calls))
      (fun s calls _ asked => B.Ledger s (results calls) (log calls ++ asked)) := by
    refine run_keeps ?_ ?_ ?_ hrun
    · have hs := held_of_none hnew
      constructor <;> simp [results, log, baseAnswers, hs]
    · intro s calls k h
      refine hkeeps (B.start s) _ _ _ ?_
      -- a call that ends at once returns the end, and stops pay for themselves
      rcases hB.start s with hstart | hstart
      all_goals
        rw [hstart]
        apply h.append <;> simp [Flow.result, Flow.self, baseAnswers]
    · intro s calls k asked a f h hresume
      refine hkeeps _ _ _ _ ?_
      rw [← List.append_assoc]
      exact h.round hB hresume
  unfold State.Holds at hholds
  unfold State.log
  split at hholds
  · rename_i hcurrent
    rw [hcurrent]
    exact hholds
  · rename_i hcurrent
    rw [hcurrent]
    exact hholds

end OneAtATime

/-! ## Every adaptor settles -/

theorem Mapped.settles (onItem : φ → Except E T → Except E' U × φ) :
    (Mapped.poll_next onItem).Settles where
  start := fun _ => Or.inl rfl
  onFuture := fun _ res => res.elim
  onItem := fun _ _ _ _ _ _ => rfl
  onEnd := fun s _ => ⟨s, rfl, rfl⟩

theorem TryFilter.settles (call : φ → T → Fut × φ) :
    (TryFilter.poll_next (E := E) call).Settles where
  start := fun _ => Or.inl rfl
  onFuture := by
    intro s res _
    cases res <;> rfl
  onItem := by
    intro s item r s' hp hret
    cases item with
    | ok item => cases hret
    | error e =>
        cases hret
        exact hp
  onEnd := fun s hp => ⟨s, rfl, hp⟩

theorem TryFilterMap.settles (call : φ → T → Fut × φ) :
    (TryFilterMap.poll_next (E := E) (U := U) call).Settles where
  start := fun _ => Or.inl rfl
  onFuture := by
    intro s res _
    rcases res with _ | _ | _ <;> rfl
  onItem := by
    intro s item r s' hp hret
    cases item with
    | ok item => cases hret
    | error e =>
        cases hret
        exact hp
  onEnd := fun s hp => ⟨s, rfl, hp⟩

theorem AndThen.settles (call : φ → T → Fut × φ) :
    (AndThen.poll_next (E := E) (U := U) call).Settles where
  start := fun _ => Or.inl rfl
  onFuture := fun _ _ _ => rfl
  onItem := by
    intro s item r s' hp hret
    cases item with
    | ok item => cases hret
    | error e =>
        cases hret
        exact hp
  onEnd := fun s hp => ⟨s, rfl, hp⟩

theorem OrElse.settles (call : φ → E → Fut × φ) :
    (OrElse.poll_next call : OneAtATime _ Fut T E (Except E' T) _).Settles where
  start := fun _ => Or.inl rfl
  onFuture := fun _ _ _ => rfl
  onItem := by
    intro s item r s' hp hret
    cases item with
    | ok item =>
        cases hret
        exact hp
    | error e => cases hret
  onEnd := fun s hp => ⟨s, rfl, hp⟩

theorem TryTakeWhile.settles (call : φ → T → Fut × φ) :
    (TryTakeWhile.poll_next (E := E) call).Settles where
  start := by
    intro s
    cases hdone : s.done_taking <;> simp [TryTakeWhile.poll_next, hdone]
  onFuture := by
    intro s res _
    rcases res with _ | _ | _ <;> rfl
  onItem := by
    intro s item r s' hp hret
    cases item with
    | ok item => cases hret
    | error e =>
        cases hret
        exact hp
  onEnd := fun s hp => ⟨{ s with done_taking := true }, rfl, hp⟩

theorem TrySkipWhile.settles (call : φ → T → Fut × φ) :
    (TrySkipWhile.poll_next (E := E) call).Settles where
  start := fun _ => Or.inl rfl
  onFuture := by
    intro s res _
    rcases res with _ | _ | _ <;> simp [TrySkipWhile.poll_next, Flow.self]
  onItem := by
    intro s item r s' hp hret
    cases hdone : s.done_skipping with
    | true =>
        simp only [TrySkipWhile.poll_next, hdone, if_true, Flow.ret.injEq] at hret
        rw [← hret.2]
        exact hp
    | false =>
        cases item with
        | ok item => simp [TrySkipWhile.poll_next, hdone] at hret
        | error e =>
            simp only [TrySkipWhile.poll_next, hdone, Bool.false_eq_true, if_false,
              Flow.ret.injEq] at hret
            rw [← hret.2]
            rfl
  onEnd := by
    intro s hp
    cases hdone : s.done_skipping with
    | true => exact ⟨s, by simp [TrySkipWhile.poll_next, hdone], hp⟩
    | false => exact ⟨{ s with done_skipping := true }, by simp [TrySkipWhile.poll_next, hdone], rfl⟩

/-! ## Chains -/

/-- The bounds, for a stream made of `length` adaptors. -/
structure Pipe.Frugal (P : Pipe T E U E') (length : ℕ)
    (s : State Unit P.σ P.θ P.α (TryPoll U E')) : Prop where
  items : itemCount (results s.calls) ≤ itemCount (P.feed.answers s.log)
  stops : stopCount (P.feed.answers s.log) ≤ stopCount (results s.calls)
  asked : s.log.length <
    length * (2 * itemCount (P.feed.answers s.log) + stopCount (results s.calls) + 1)

/-- In every state of every run. -/
def Pipe.AlwaysFrugal (P : Pipe T E U E') (length : ℕ) : Prop :=
  ∀ ls s, P.machine.run P.new ls = some s → P.Frugal length s

/-- The questions of both, where the upper is given at most the items of the base and the
lower stops at most as often as the upper. -/
theorem asked_lt {n m upper lower inside items items₂ stops stops₂ asked : ℕ}
    (hupper : upper < n * (2 * items + stops + 1)) (hlower : lower < m * (2 * items₂ + stops₂ + 1))
    (hitems : items ≤ items₂) (hstops : stops₂ ≤ stops) (hinside : inside ≤ 1)
    (hasked : asked = upper + lower + inside) : asked < (m + n) * (2 * items₂ + stops + 1) := by
  have hn : n * (2 * items + stops + 1) ≤ n * (2 * items₂ + stops + 1) :=
    Nat.mul_le_mul_left n (by omega)
  have hm : m * (2 * items₂ + stops₂ + 1) ≤ m * (2 * items₂ + stops + 1) :=
    Nat.mul_le_mul_left m (by omega)
  rw [Nat.add_mul]
  omega

/-- What the lower returns is what the upper is given, so the bounds meet. -/
theorem Pipe.AlwaysFrugal.atop {T₂ E₂ T₃ E₃ : Type} {P : Pipe T₂ E₂ T₃ E₃} {Q : Pipe T E T₂ E₂}
    {n m : ℕ} (hP : P.AlwaysFrugal n) (hQ : Q.AlwaysFrugal m) : (P.atop Q).AlwaysFrugal (m + n) := by
  intro ls s hrun
  obtain ⟨us, ls', u, l, hu, hl, h⟩ :=
    tracks_of_run (U := P.machine) (D := P.feed) (L := Q.machine) hrun
  obtain ⟨hitems, hstops, hasked⟩ := hP us u hu
  obtain ⟨hitems₂, hstops₂, hasked₂⟩ := hQ ls' l hl
  rw [h.fed, h.results] at hitems hstops hasked
  -- the base of the stack is that of the lower
  have hbase : (P.atop Q).feed.answers s.log = Q.feed.answers l.log := by
    rw [h.lowers]
    exact h.matched.answers
  refine ⟨?_, ?_, ?_⟩ <;> rw [hbase]
  · exact hitems.trans hitems₂
  · exact hstops₂.trans hstops
  · exact asked_lt hasked hasked₂ hitems₂ hstops (Bool.toNat_le _) h.asked

theorem OneAtATime.pipe_frugal {B : OneAtATime σ Fut T E R (Option (Except E' U))} {new : σ}
    {size_hint : ∀ MAX, σ → SizeHint MAX → SizeHint MAX} {is_terminated : Option (σ → Bool → Bool)}
    {yields : List (Except E T) → List R → List (Except E' U)} (hB : B.Settles)
    (hnew : B.pending new = none) : (B.pipe new size_hint is_terminated yields).AlwaysFrugal 1 := by
  intro ls s hrun
  obtain ⟨hitems, hstops, hasked⟩ := hB.ledger hnew hrun
  have hanswers : (B.pipe new size_hint is_terminated yields).feed.answers s.log =
      baseAnswers s.log := rfl
  refine ⟨?_, ?_, ?_⟩ <;> rw [hanswers]
  · exact (Nat.le_add_right _ _).trans hitems
  · exact hstops
  · rw [Nat.one_mul]
    exact Nat.lt_succ_of_le ((Nat.le_add_right _ _).trans hasked)

theorem Mapped.over_into_stream_frugal (onItem : φ → Except E T → Except E' U × φ) (f : φ) :
    (Mapped.over_into_stream (Mapped.poll_next onItem) onItem f).AlwaysFrugal 2 :=
  Pipe.AlwaysFrugal.atop (pipe_frugal (Mapped.settles _) rfl) (pipe_frugal (Mapped.settles _) rfl)

/-- The number of adaptors, with `IntoStream` at the bottom and those within the adaptors
that map. -/
def Chain.length {T E U E' : Type} : Chain T E U E' → ℕ
  | .into_stream => 1
  | .map_ok stream _ _ => stream.length + 2
  | .map_err stream _ _ => stream.length + 2
  | .err_into stream _ => stream.length + 1
  | .inspect_ok stream _ _ => stream.length + 2
  | .inspect_err stream _ _ => stream.length + 2
  | .try_filter stream _ _ => stream.length + 1
  | .try_filter_map stream _ _ => stream.length + 1
  | .and_then stream _ _ => stream.length + 1
  | .or_else stream _ _ => stream.length + 1
  | .try_skip_while stream _ _ => stream.length + 1
  | .try_take_while stream _ _ => stream.length + 1

/-- The bounds hold of every chain, by induction on the chain. -/
theorem Chain.frugal (c : Chain T E U E') : c.pipe.AlwaysFrugal c.length := by
  induction c with
  | into_stream => exact pipe_frugal (Mapped.settles _) rfl
  | map_ok stream call f ih => exact (Mapped.over_into_stream_frugal _ f).atop ih
  | map_err stream call f ih => exact (Mapped.over_into_stream_frugal _ f).atop ih
  | err_into stream into ih => exact Pipe.AlwaysFrugal.atop (pipe_frugal (Mapped.settles _) rfl) ih
  | inspect_ok stream call f ih => exact (Mapped.over_into_stream_frugal _ f).atop ih
  | inspect_err stream call f ih => exact (Mapped.over_into_stream_frugal _ f).atop ih
  | try_filter stream call f ih =>
      exact Pipe.AlwaysFrugal.atop (pipe_frugal (TryFilter.settles call) rfl) ih
  | try_filter_map stream call f ih =>
      exact Pipe.AlwaysFrugal.atop (pipe_frugal (TryFilterMap.settles call) rfl) ih
  | and_then stream call f ih =>
      exact Pipe.AlwaysFrugal.atop (pipe_frugal (AndThen.settles call) rfl) ih
  | or_else stream call f ih =>
      exact Pipe.AlwaysFrugal.atop (pipe_frugal (OrElse.settles call) rfl) ih
  | try_skip_while stream call f ih =>
      exact Pipe.AlwaysFrugal.atop (pipe_frugal (TrySkipWhile.settles call) rfl) ih
  | try_take_while stream call f ih =>
      exact Pipe.AlwaysFrugal.atop (pipe_frugal (TryTakeWhile.settles call) rfl) ih

/-- **The work of a chain is bounded.** In every state of every run of every chain of
adaptors, calls in progress included: it has returned no more items than the base has given,
every `Pending` and every end of the base has ended a call, and the questions asked at all its
levels, the calls from one adaptor to the next included, are fewer than the length of the
chain times two for each item of the base, one for each `Pending` or `Ready(None)` returned,
and one. So a call goes on only as long as the base gives items. -/
theorem chain_work_bounded (T E U E' : Type) (c : Chain T E U E') (ls : List (Act Unit c.pipe.α))
    (s : State Unit c.pipe.σ c.pipe.θ c.pipe.α (TryPoll U E'))
    (hrun : c.pipe.machine.run c.pipe.new ls = some s) :
    itemCount (results s.calls) ≤ itemCount (c.pipe.feed.answers s.log) ∧
      stopCount (c.pipe.feed.answers s.log) ≤ stopCount (results s.calls) ∧
      s.log.length <
        c.length * (2 * itemCount (c.pipe.feed.answers s.log) + stopCount (results s.calls) + 1) :=
  have h := c.frugal ls s hrun
  ⟨h.items, h.stops, h.asked⟩

theorem chain_work_bounded_filtered :
    ∃ s, filteredThenMapped.pipe.machine.run filteredThenMapped.pipe.new refusesFirst = some s ∧
      filteredThenMapped.length = 4 ∧ s.log.length = 16 ∧
      itemCount (filteredThenMapped.pipe.feed.answers s.log) = 3 ∧
      stopCount (results s.calls) = 1 ∧
      s.log.length < filteredThenMapped.length *
        (2 * itemCount (filteredThenMapped.pipe.feed.answers s.log) + stopCount (results s.calls) + 1) := by
  have hrun : (filteredThenMapped.pipe.machine.run filteredThenMapped.pipe.new refusesFirst).map
      (fun s => (s.log.length, itemCount (filteredThenMapped.pipe.feed.answers s.log),
        stopCount (results s.calls))) = some (16, 3, 1) := rfl
  obtain ⟨s, hs, heq⟩ := Option.map_eq_some_iff.mp hrun
  obtain ⟨hlength, hrest⟩ := Prod.mk.inj heq
  obtain ⟨hitems, hstops⟩ := Prod.mk.inj hrest
  exact ⟨s, hs, rfl, hlength, hitems, hstops,
    (chain_work_bounded ℕ ℕ ℕ ℕ filteredThenMapped refusesFirst s hs).2.2⟩

end TokioStreamUtil
