/-
What `TryUnfold` yields.

The stream is a seed that is unfolded: the closure makes a future of the state, and the
future resolves to an item with the next state, or to the end, or to an error. The
results of the futures determine the states; the state that the next future is made of is
taken out of the adaptor only when an item is asked for.
-/
import TokioStreamUtil.TryStream.OneAtATime
import TokioStreamUtil.Lib.OneByOne

set_option autoImplicit false

namespace TokioStreamUtil

open PollLoop OneByOne

variable {φ Fut S T E : Type}

namespace TryUnfold

/-- What a future resolves to. -/
abbrev Step (S T E : Type) := Except E (Option (T × S))

/-- The questions and answers of a run. -/
abbrev Log (Fut S T E : Type) := List (Option Fut × Poll (Step S T E))

/-- The state between two steps. -/
abbrev Run (φ Fut S T E : Type) :=
  State Unit (TryUnfold φ Fut S) (Option Fut) (Poll (Step S T E)) (TryPoll T E)

/-- The states the closure is handed, in order, when the futures resolve to the list. -/
def handed : S → List (Step S T E) → List S
  | init, [] => [init]
  | init, .ok (some (_, next)) :: rs => init :: handed next rs
  | init, .ok none :: _ => [init]
  | init, .error _ :: _ => [init]

/-- What the futures have resolved to. -/
def resolved (log : Log Fut S T E) : List (Step S T E) :=
  (log.map Prod.snd).filterMap Poll.value

/-- What `poll_next` returns on the answer of the future. -/
def yields : Poll (Step S T E) → TryPoll T E
  | .pending => .pending
  | .ready (.ok (some (item, _))) => .ready (some (.ok item))
  | .ready (.ok none) => .ready none
  | .ready (.error e) => .ready (some (.error e))

/-- A call polls the future whose turn it is, once, and returns by its answer. It polls
nothing and returns the end when there is no state to make a future of. -/
def Unfolded (call : φ → S → Fut × φ) (f : φ) (init : S)
    (earlier : List (Call Unit (Option Fut) (Poll (Step S T E)) (TryPoll T E)))
    (c : Call Unit (Option Fut) (Poll (Step S T E)) (TryPoll T E)) : Prop :=
  match (tasks call f (handed init (resolved (log earlier))))[(resolved (log earlier)).length]? with
  | some fut => ∃ a, c.asked = [(some fut, a)] ∧ c.result = yields a
  | none => c.asked = [] ∧ c.result = .ready none

/-! ## The states -/

section

variable {init : S} {rs : List (Step S T E)}

/-- An item brings the next state. -/
theorem handed_concat_item (h : (handed init rs).length = rs.length + 1) (item : T) (next : S) :
    handed init (rs ++ [.ok (some (item, next))]) = handed init rs ++ [next] := by
  induction rs generalizing init with
  | nil => rfl
  | cons r rs ih =>
      rcases r with e | _ | ⟨x, s⟩
      · simp [handed] at h
      · simp [handed] at h
      · simp only [handed, List.length_cons, List.cons_append] at h ⊢
        rw [ih (by omega)]

/-- Anything else brings none. -/
theorem handed_concat_last (h : (handed init rs).length = rs.length + 1) {r : Step S T E}
    (hr : ∀ p, r ≠ .ok (some p)) : handed init (rs ++ [r]) = handed init rs := by
  induction rs generalizing init with
  | nil =>
      rcases r with e | _ | p
      · rfl
      · rfl
      · exact absurd rfl (hr p)
  | cons r' rs ih =>
      rcases r' with e | _ | ⟨x, s⟩
      · rfl
      · rfl
      · simp only [handed, List.length_cons, List.cons_append] at h ⊢
        rw [ih (by omega)]

@[simp] theorem resolved_append (l₁ l₂ : Log Fut S T E) :
    resolved (l₁ ++ l₂) = resolved l₁ ++ resolved l₂ := by
  unfold resolved
  rw [List.map_append, List.filterMap_append]

end

/-! ## The invariant -/

/-- The stream goes on with the state `s`, after the states `before`. -/
structure GoesOn (init : S) (log : Log Fut S T E) (before : List S) (s : S) : Prop where
  handed : handed init (resolved log) = before ++ [s]
  length : before.length = (resolved log).length

/-- What the adaptor holds: a state, a future made of it, or nothing when it is over. -/
inductive Holds (call : φ → S → Fut × φ) (f : φ) (init : S) (log : Log Fut S T E) :
    TryUnfold φ Fut S → Prop where
  | state {before : List S} {s : S} (h : GoesOn init log before s) :
      Holds call f init log { f := stateAfter call f before, state := some s, fut := none }
  | fut {before : List S} {s : S} (h : GoesOn init log before s) :
      Holds call f init log
        { f := (call (stateAfter call f before) s).2
          state := none
          fut := some (call (stateAfter call f before) s).1 }
  | stopped (h : (handed init (resolved log)).length = (resolved log).length) :
      Holds call f init log
        { f := stateAfter call f (handed init (resolved log)), state := none, fut := none }

section

variable {call : φ → S → Fut × φ} {f : φ} {init : S} {log : Log Fut S T E} {before : List S}
  {s : S} {q : Option Fut}

theorem GoesOn.length_handed (h : GoesOn init log before s) :
    (TryUnfold.handed init (resolved log)).length = (resolved log).length + 1 := by
  rw [h.handed, List.length_append, h.length]
  rfl

/-- The future whose turn it is. -/
theorem GoesOn.turn (h : GoesOn init log before s) :
    (tasks call f (TryUnfold.handed init (resolved log)))[(resolved log).length]? =
      some (call (stateAfter call f before) s).1 := by
  rw [h.handed]
  exact open_last h.length s

/-- A pending answer changes nothing. -/
theorem GoesOn.wait (h : GoesOn init log before s) : GoesOn init (log ++ [(q, .pending)]) before s := by
  have hresolved : resolved (log ++ [(q, (.pending : Poll (Step S T E)))]) = resolved log :=
    (resolved_append _ _).trans (List.append_nil _)
  exact ⟨hresolved ▸ h.handed, hresolved ▸ h.length⟩

/-- The future gives an item and the next state. -/
theorem GoesOn.item (h : GoesOn init log before s) (item : T) (next : S) :
    GoesOn init (log ++ [(q, .ready (.ok (some (item, next))))]) (before ++ [s]) next := by
  have hresolved : resolved (log ++ [(q, .ready (.ok (some (item, next))))]) =
      resolved log ++ [.ok (some (item, next))] := resolved_append _ _
  refine ⟨?_, ?_⟩
  · rw [hresolved, handed_concat_item h.length_handed, h.handed]
  · rw [hresolved, List.length_append, List.length_append, h.length]
    rfl

/-- The future ends the stream. -/
theorem GoesOn.last (h : GoesOn init log before s) {r : Step S T E} (hr : ∀ p, r ≠ .ok (some p)) :
    Holds call f init (log ++ [(q, .ready r)])
      { f := (call (stateAfter call f before) s).2, state := none, fut := none } := by
  have hresolved : resolved (log ++ [(q, .ready r)]) = resolved log ++ [r] := resolved_append _ _
  have hhanded : TryUnfold.handed init (resolved (log ++ [(q, .ready r)])) = before ++ [s] := by
    rw [hresolved, handed_concat_last h.length_handed hr, h.handed]
  rw [← stateAfter_concat, ← hhanded]
  apply Holds.stopped
  rw [hhanded, hresolved, List.length_append, List.length_append, h.length]
  rfl

end

/-- Between calls. -/
def Law (call : φ → S → Fut × φ) (f : φ) (init : S) (self : TryUnfold φ Fut S)
    (calls : List (Call Unit (Option Fut) (Poll (Step S T E)) (TryPoll T E))) : Prop :=
  Throughout (Unfolded call f init) calls ∧ Holds call f init (log calls) self

/-- In a call that polls: it has asked nothing yet, and there is a future. -/
def LawInside (call : φ → S → Fut × φ) (f : φ) (init : S) (self : TryUnfold φ Fut S)
    (calls : List (Call Unit (Option Fut) (Poll (Step S T E)) (TryPoll T E))) (_ : Unit)
    (asked : Log Fut S T E) : Prop :=
  Throughout (Unfolded call f init) calls ∧ asked = [] ∧
    ∃ before s, GoesOn init (log calls) before s ∧
      self = { f := (call (stateAfter call f before) s).2
               state := none
               fut := some (call (stateAfter call f before) s).1 }

section

variable {call : φ → S → Fut × φ} {f : φ} {init : S} {self : TryUnfold φ Fut S}
  {calls : List (Call Unit (Option Fut) (Poll (Step S T E)) (TryPoll T E))} {k : Unit}

/-- A call begins. -/
theorem law_enter (h : Law call f init self calls) :
    ((machine (E := E) call).enter k self).Keeps (Law call f init) (LawInside call f init) calls k
      [] := by
  obtain ⟨hcalls, hholds⟩ := h
  cases hholds with
  | @state before s h => exact ⟨hcalls, rfl, before, s, h, rfl⟩
  | @fut before s h => exact ⟨hcalls, rfl, before, s, h, rfl⟩
  | stopped h =>
      have hlog : log (calls ++ [⟨k, [], (.ready none : TryPoll T E)⟩]) = log calls := by
        rw [log_concat]
        exact List.append_nil _
      refine ⟨hcalls.concat ?_, ?_⟩
      · unfold Unfolded
        rw [open_none h]
        exact ⟨rfl, rfl⟩
      · rw [hlog]
        exact .stopped h

/-- The future answers. -/
theorem law_resume {asked : Log Fut S T E} {a : Poll (Step S T E)}
    {fl : Flow (TryUnfold φ Fut S) (TryPoll T E)} (h : LawInside call f init self calls k asked)
    (hresume : (machine call).resume self a = some fl) :
    fl.Keeps (Law call f init) (LawInside call f init) calls k (asked ++ [(self.fut, a)]) := by
  obtain ⟨hcalls, rfl, before, s, hgoes, rfl⟩ := h
  -- the call returns by the answer
  have hret : ∀ self', Holds call f init
      (log calls ++ [(some (call (stateAfter call f before) s).1, a)]) self' →
      Law call f init self'
        (calls ++ [⟨k, [(some (call (stateAfter call f before) s).1, a)], yields a⟩]) := by
    intro self' h'
    refine ⟨hcalls.concat ?_, ?_⟩
    · unfold Unfolded
      rw [hgoes.turn]
      exact ⟨a, rfl, rfl⟩
    · rw [log_concat]
      exact h'
  rcases a with _ | e | _ | ⟨item, next⟩
  · obtain rfl := Option.some.inj hresume
    exact hret _ (.fut hgoes.wait)
  · obtain rfl := Option.some.inj hresume
    exact hret _ (hgoes.last (by rintro p ⟨⟩))
  · obtain rfl := Option.some.inj hresume
    exact hret _ (hgoes.last (by rintro p ⟨⟩))
  · obtain rfl := Option.some.inj hresume
    have h' := hgoes.item (q := some (call (stateAfter call f before) s).1) item next
    apply hret
    rw [← stateAfter_concat]
    exact .state h'

/-- The closure has been called on the states it was handed, the last one only if its
future is there. -/
theorem Holds.closure {log : Log Fut S T E} (h : Holds call f init log self) :
    self.f = stateAfter call f ((handed init (resolved log)).take
      ((resolved log).length + if self.fut.isSome then 1 else 0)) := by
  cases h with
  | @state before s h =>
      rw [h.handed, ← h.length]
      exact congrArg (stateAfter call f) (List.take_left' rfl).symm
  | @fut before s h =>
      rw [h.handed, ← h.length, List.take_of_length_le (by simp)]
      exact (stateAfter_concat call f before s).symm
  | stopped h => exact congrArg (stateAfter call f) (List.take_of_length_le (Nat.le_of_eq h)).symm

end

end TryUnfold

/-- **`TryUnfold` unfolds its state.** In every run, whatever the closure and wherever its
futures are pending: the future that a call polls is the one made of the state whose turn it
is (first `init`, then the state that came with the item before), the call polls it once and
returns `Pending`, its item, its error, or the end by what it answers; and after an error or
an end every call returns the end and polls nothing. The closure is called once on each of
these states, in order, and not before its item is asked for. -/
theorem try_unfold_unfolds (call : φ → S → Fut × φ) (f : φ) (init : S)
    (ls : List (Act Unit (Poll (TryUnfold.Step S T E)))) (s : TryUnfold.Run φ Fut S T E)
    (hrun : (TryUnfold.machine call).run (TryUnfold.new init f) ls = some s) :
    Throughout (TryUnfold.Unfolded call f init) s.calls ∧
      s.self.f = OneByOne.stateAfter call f
        ((TryUnfold.handed init (TryUnfold.resolved s.log)).take
          ((TryUnfold.resolved s.log).length + if s.self.fut.isSome then 1 else 0)) := by
  have hstart : TryUnfold.GoesOn init ([] : TryUnfold.Log Fut S T E) [] init := ⟨rfl, rfl⟩
  have hnew : TryUnfold.Law call f init (TryUnfold.new init f) [] := ⟨.nil, .state hstart⟩
  have hholds := run_keeps hnew (fun _ _ _ h => TryUnfold.law_enter h)
    (fun _ _ _ _ _ _ h hr => TryUnfold.law_resume h hr) hrun
  unfold State.Holds at hholds
  cases hcurrent : s.current with
  | none =>
      rw [hcurrent] at hholds
      have hlog : s.log = log s.calls := by
        unfold State.log
        rw [hcurrent]
      exact ⟨hholds.1, hlog ▸ hholds.2.closure⟩
  | some c =>
      rw [hcurrent] at hholds
      obtain ⟨hcalls, hasked, before, st, hgoes, hself⟩ := hholds
      have hlog : s.log = log s.calls := by
        unfold State.log
        rw [hcurrent]
        dsimp only
        rw [hasked, List.append_nil]
      refine ⟨hcalls, ?_⟩
      rw [hlog, hself]
      exact (TryUnfold.Holds.fut hgoes).closure

/-- Two items, the second after a pending answer, and an error. -/
def twoItems : List (Act Unit (Poll (TryUnfold.Step ℕ ℕ ℕ))) :=
  [.call (), .answer (.ready (.ok (some (10, 1)))), .call (), .answer .pending, .call (),
    .answer (.ready (.ok (some (11, 2)))), .call (), .answer (.ready (.error 7)), .call ()]

theorem try_unfold_unfolds_two_items :
    ∃ s : TryUnfold.Run Unit ℕ ℕ ℕ ℕ,
      (TryUnfold.machine fun f n => (n, f)).run (TryUnfold.new 0 ()) twoItems = some s ∧
      results s.calls = [.ready (some (.ok 10)), .pending, .ready (some (.ok 11)),
        .ready (some (.error 7)), .ready none] ∧
      Throughout (TryUnfold.Unfolded (fun f n => (n, f)) () 0) s.calls :=
  ⟨_, rfl, rfl, (try_unfold_unfolds _ () 0 twoItems _ rfl).1⟩

end TokioStreamUtil
