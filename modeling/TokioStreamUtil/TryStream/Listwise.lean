/-
What `TryFilter`, `TryFilterMap`, `AndThen` and `OrElse` compute.

Each of the four is a function of two lists: what the base has answered, and what the
futures have resolved to. The rule of an adaptor says which items get a future and what
becomes of them. The invariant is that the future in progress belongs to the last item
taken, and that everything before it has been yielded or dropped.
-/
import TokioStreamUtil.TryStream.SizeHint
import TokioStreamUtil.Lib.OneByOne

set_option autoImplicit false

namespace TokioStreamUtil

open PollLoop OneAtATime OneByOne

variable {φ Fut T U E E' : Type}

/-! ## The rules -/

/-- `TryFilter` keeps the `Ok` items that the predicate accepts. -/
def TryFilter.rule (T E : Type) : Rule (Except E T) T Bool (Except E T) where
  treat := fun
    | .ok item => .start item
    | .error e => .pass (.error e)
  emit := fun item res => if res then some (.ok item) else none

/-- `TryFilterMap` keeps the `Some` results and the errors of the futures. -/
def TryFilterMap.rule (T U E : Type) : Rule (Except E T) T (Except E (Option U)) (Except E U) where
  treat := fun
    | .ok item => .start item
    | .error e => .pass (.error e)
  emit := fun _ res =>
    match res with
    | .ok (some val) => some (.ok val)
    | .ok none => none
    | .error e => some (.error e)

/-- `AndThen` replaces every `Ok` item by the result of its future. -/
def AndThen.rule (T U E : Type) : Rule (Except E T) T (Except E U) (Except E U) where
  treat := fun
    | .ok item => .start item
    | .error e => .pass (.error e)
  emit := fun _ res => some res

/-- `OrElse` replaces every error by the result of its future. -/
def OrElse.rule (T E E' : Type) : Rule (Except E T) E (Except E' T) (Except E' T) where
  treat := fun
    | .ok item => .pass (.ok item)
    | .error e => .start e
  emit := fun _ res => some res

/-! ## The law -/

namespace OneAtATime

variable {σ A R ρ : Type}

/-- What the base has been ready with, the end included. -/
def taken (log : List (Option Fut × Answer T E R)) : List (Option (Except E T)) :=
  (baseAnswers log).filterMap Poll.value

/-- What the futures have resolved to. -/
def resolved (log : List (Option Fut × Answer T E R)) : List R :=
  (futureAnswers log).filterMap Poll.value

/-- What the calls have returned, the end included. -/
def returned (calls : List (Call Unit (Option Fut) (Answer T E R) (Poll (Option ρ)))) :
    List (Option ρ) :=
  (results calls).filterMap Poll.value

/-- The answer is `Pending`. -/
def Answer.isPending : Answer T E R → Bool
  | .base .pending => true
  | .future .pending => true
  | _ => false

/-- Each round has asked what `next` says, from what was answered before it. -/
def Asked (next : List (Option Fut × Answer T E R) → Option Fut)
    (log : List (Option Fut × Answer T E R)) : Prop :=
  ∀ before q a later, log = before ++ (q, a) :: later → q = next before

/-- The future whose turn it is after `log`, when the closure starts as `f`. -/
def inProgress (L : Rule (Except E T) A R ρ) (call : φ → A → Fut × φ) (f : φ)
    (log : List (Option Fut × Answer T E R)) : Option Fut :=
  (tasks call f (L.started (taken log)))[(resolved log).length]?

/-- What a run has done in the state `s`, in the middle of a call or between calls. -/
structure Computes (L : Rule (Except E T) A R ρ) (call : φ → A → Fut × φ) (closure : σ → φ) (f : φ)
    (s : Run σ Fut T E R ρ) : Prop where
  /-- The results are what the rule makes of what was taken. -/
  returned : returned s.calls = L.outputs (taken s.log) (resolved s.log)
  /-- The closure was called once on each item that gets a future, in order. -/
  closure : closure s.self = stateAfter call f (L.started (taken s.log))
  /-- And only when the future before it had resolved. -/
  one : (resolved s.log).length ≤ (L.started (taken s.log)).length ∧
    (L.started (taken s.log)).length ≤ (resolved s.log).length + 1
  /-- Each round polled the future in progress, and the base if there was none. -/
  asked : Asked (inProgress L call f) s.log
  /-- Only a pending answer makes a call pending. -/
  pending : ∀ c ∈ s.calls, c.result = .pending → ∃ x ∈ c.asked.getLast?, x.2.isPending = true

/-! ## The invariant -/

section

variable {L : Rule (Except E T) A R ρ} {call : φ → A → Fut × φ} {closure : σ → φ} {f : φ}
  {log : List (Option Fut × Answer T E R)}

@[simp] theorem taken_append (l₁ l₂ : List (Option Fut × Answer T E R)) :
    taken (l₁ ++ l₂) = taken l₁ ++ taken l₂ := by
  unfold taken
  rw [baseAnswers_append, List.filterMap_append]

@[simp] theorem resolved_append (l₁ l₂ : List (Option Fut × Answer T E R)) :
    resolved (l₁ ++ l₂) = resolved l₁ ++ resolved l₂ := by
  unfold resolved
  rw [futureAnswers_append, List.filterMap_append]

@[simp] theorem returned_concat
    (calls : List (Call Unit (Option Fut) (Answer T E R) (Poll (Option ρ))))
    (c : Call Unit (Option Fut) (Answer T E R) (Poll (Option ρ))) :
    returned (calls ++ [c]) = returned calls ++ c.result.value.toList := by
  unfold returned
  rw [results_concat, List.filterMap_append]
  cases c.result <;> rfl

theorem Asked.nil (next : List (Option Fut × Answer T E R) → Option Fut) : Asked next [] := by
  intro before q a later heq
  exact absurd heq.symm (List.append_ne_nil_of_right_ne_nil _ (List.cons_ne_nil _ _))

/-- One question more. -/
theorem Asked.concat {next : List (Option Fut × Answer T E R) → Option Fut} (h : Asked next log)
    {q : Option Fut} (hq : q = next log) (a : Answer T E R) : Asked next (log ++ [(q, a)]) := by
  intro before q' b later heq
  rcases List.append_eq_append_iff.mp heq with ⟨as, rfl, hsplit⟩ | ⟨as, hlog, hsplit⟩
  · cases as with
    | nil =>
        rw [List.append_nil]
        obtain ⟨hx, -⟩ := List.cons.inj hsplit
        exact (Prod.mk.inj hx).1 ▸ hq
    | cons x as =>
        obtain ⟨-, hnil⟩ := List.cons.inj hsplit
        exact absurd hnil.symm (List.append_ne_nil_of_right_ne_nil _ (List.cons_ne_nil _ _))
  · cases as with
    | nil =>
        rw [List.append_nil] at hlog
        obtain ⟨hx, -⟩ := List.cons.inj hsplit
        rw [← hlog, (Prod.mk.inj hx).1]
        exact hq
    | cons x as =>
        obtain ⟨rfl, -⟩ := List.cons.inj hsplit
        exact h before q' b as hlog

/-- An item is in progress: the last one taken, with the last future made. -/
def Busy (L : Rule (Except E T) A R ρ) (call : φ → A → Fut × φ) (f : φ) (a : A) (fut : Fut)
    (log : List (Option Fut × Answer T E R)) : Prop :=
  ∃ xs x, taken log = xs ++ [some x] ∧ L.treat x = .start a ∧
    (L.started xs).length = (resolved log).length ∧
    fut = (call (stateAfter call f (L.started xs)) a).1

/-- The law, between the rounds. `holds s a` says that the state holds the item `a`
beside its future, where the adaptor does. -/
structure Books (B : OneAtATime σ Fut T E R (Option ρ)) (L : Rule (Except E T) A R ρ)
    (call : φ → A → Fut × φ) (closure : σ → φ) (f : φ) (holds : σ → A → Prop) (s : σ)
    (log : List (Option Fut × Answer T E R)) (out : List (Option ρ)) : Prop where
  out : out = L.outputs (taken log) (resolved log)
  closure : closure s = stateAfter call f (L.started (taken log))
  idle : B.pending s = none → (L.started (taken log)).length = (resolved log).length
  busy : ∀ fut, B.pending s = some fut → ∃ a, holds s a ∧ Busy L call f a fut log
  asked : Asked (inProgress L call f) log

variable {B : OneAtATime σ Fut T E R (Option ρ)} {holds : σ → A → Prop} {s s' : σ}
  {out : List (Option ρ)}

/-- The future in progress is the one whose turn it is. -/
theorem Books.pending_eq (h : Books B L call closure f holds s log out) :
    B.pending s = inProgress L call f log := by
  unfold inProgress
  cases hp : B.pending s with
  | none => rw [open_none (h.idle hp)]
  | some fut =>
      obtain ⟨a, -, xs, x, htaken, hx, hlen, rfl⟩ := h.busy fut hp
      rw [htaken, Rule.started_append, Rule.started_start hx]
      exact (open_last hlen a).symm

theorem Books.one (h : Books B L call closure f holds s log out) :
    (resolved log).length ≤ (L.started (taken log)).length ∧
      (L.started (taken log)).length ≤ (resolved log).length + 1 := by
  cases hp : B.pending s with
  | none =>
      rw [h.idle hp]
      exact ⟨Nat.le_refl _, Nat.le_succ _⟩
  | some fut =>
      obtain ⟨a, -, xs, x, htaken, hx, hlen, -⟩ := h.busy fut hp
      rw [htaken, Rule.started_append, Rule.started_start hx, List.length_append, hlen]
      exact ⟨Nat.le_succ _, Nat.le_refl _⟩

/-- One question more, about the future in progress. -/
theorem Books.asked_concat (h : Books B L call closure f holds s log out) (a : Answer T E R) :
    Asked (inProgress L call f) (log ++ [(B.pending s, a)]) := h.asked.concat h.pending_eq a

/-- A pending answer changes nothing. -/
theorem Books.wait (h : Books B L call closure f holds s log out) {a : Answer T E R}
    (ha : a.isPending = true) :
    Books B L call closure f holds s (log ++ [(B.pending s, a)]) out := by
  have htaken : taken (log ++ [(B.pending s, a)]) = taken log := by
    rw [taken_append]
    rcases a with (_ | r) | _ | r
    · exact List.append_nil _
    · cases ha
    · exact List.append_nil _
    · cases ha
  have hresolved : resolved (log ++ [(B.pending s, a)]) = resolved log := by
    rw [resolved_append]
    rcases a with (_ | r) | _ | r
    · exact List.append_nil _
    · cases ha
    · exact List.append_nil _
    · cases ha
  refine ⟨?_, ?_, ?_, ?_, h.asked_concat a⟩
  · rw [htaken, hresolved]
    exact h.out
  · rw [htaken]
    exact h.closure
  · rw [htaken, hresolved]
    exact h.idle
  · unfold Busy
    rw [htaken, hresolved]
    exact h.busy

/-- With no future in progress, the base answers, and nothing is started. -/
theorem Books.pass (h : Books B L call closure f holds s log out) (hp : B.pending s = none)
    {item : Option (Except E T)} {y : Option ρ} (hstarted : L.started [item] = [])
    (hout : L.outputs [item] [] = [y]) :
    Books B L call closure f holds s (log ++ [(B.pending s, .base (.ready item))]) (out ++ [y]) := by
  have htaken : taken (log ++ [(B.pending s, (.base (.ready item) : Answer T E R))]) =
      taken log ++ [item] := taken_append _ _
  have hresolved : resolved (log ++ [(B.pending s, (.base (.ready item) : Answer T E R))]) =
      resolved log := (resolved_append _ _).trans (List.append_nil _)
  have hlist : L.started (taken log ++ [item]) = L.started (taken log) := by
    rw [Rule.started_append, hstarted, List.append_nil]
  refine ⟨?_, ?_, fun _ => ?_, fun fut hfut => ?_, h.asked_concat _⟩
  · have happend := Rule.outputs_append (h.idle hp) [item] []
    rw [List.append_nil, hout, ← h.out] at happend
    rw [htaken, hresolved, happend]
  · rw [htaken, hlist]
    exact h.closure
  · rw [htaken, hresolved, hlist]
    exact h.idle hp
  · rw [hp] at hfut
    cases hfut

/-- With no future in progress, the base gives an item that gets one. -/
theorem Books.start (h : Books B L call closure f holds s log out) (hp : B.pending s = none)
    {x : Except E T} {a : A} (hx : L.treat x = .start a)
    (hp' : B.pending s' = some (call (closure s) a).1) (hf : closure s' = (call (closure s) a).2)
    (hholds : holds s' a) :
    Books B L call closure f holds s' (log ++ [(B.pending s, .base (.ready (some x)))]) out := by
  have htaken : taken (log ++ [(B.pending s, (.base (.ready (some x)) : Answer T E R))]) =
      taken log ++ [some x] := taken_append _ _
  have hresolved : resolved (log ++ [(B.pending s, (.base (.ready (some x)) : Answer T E R))]) =
      resolved log := (resolved_append _ _).trans (List.append_nil _)
  refine ⟨?_, ?_, fun hnone => ?_, fun fut hfut => ?_, h.asked_concat _⟩
  · have happend := Rule.outputs_append (h.idle hp) [some x] []
    rw [List.append_nil, Rule.outputs_open hx, List.append_nil, ← h.out] at happend
    rw [htaken, hresolved, happend]
  · rw [htaken, Rule.started_append, Rule.started_start hx, hf, h.closure]
    exact (stateAfter_concat _ _ _ _).symm
  · rw [hp'] at hnone
    cases hnone
  · rw [hp'] at hfut
    cases hfut
    refine ⟨a, hholds, taken log, x, htaken, hx, ?_, ?_⟩
    · rw [hresolved]
      exact h.idle hp
    · rw [h.closure]

/-- The future in progress resolves. -/
theorem Books.resolve (h : Books B L call closure f holds s log out) {a : A} {fut : Fut}
    (ha : Busy L call f a fut log) (hp' : B.pending s' = none) (hf : closure s' = closure s) (r : R) :
    Books B L call closure f holds s' (log ++ [(B.pending s, .future (.ready r))])
      (out ++ (L.emit a r).toList.map some) := by
  obtain ⟨xs, x, hxs, hx, hlen, -⟩ := ha
  have htaken : taken (log ++ [(B.pending s, (.future (.ready r) : Answer T E R))]) = taken log :=
    (taken_append _ _).trans (List.append_nil _)
  have hresolved : resolved (log ++ [(B.pending s, (.future (.ready r) : Answer T E R))]) =
      resolved log ++ [r] := resolved_append _ _
  refine ⟨?_, ?_, fun _ => ?_, fun fut hfut => ?_, h.asked_concat _⟩
  · -- the item had nothing to show before
    have hbefore : out = L.outputs xs (resolved log) := by
      have happend := Rule.outputs_append hlen [some x] []
      rw [List.append_nil, Rule.outputs_open hx, List.append_nil] at happend
      rw [h.out, hxs, happend]
    rw [htaken, hresolved, hxs, Rule.outputs_append hlen, ← hbefore, Rule.outputs_resolved hx]
    exact congrArg (out ++ ·) (List.append_nil _).symm
  · rw [htaken, hf]
    exact h.closure
  · rw [htaken, hresolved, hxs, Rule.started_append, Rule.started_start hx, List.length_append, hlen,
      List.length_append]
    rfl
  · rw [hp'] at hfut
    cases hfut

end

/-- What an adaptor has to show, part by part of the loop. -/
structure Follows (B : OneAtATime σ Fut T E R (Option ρ)) (L : Rule (Except E T) A R ρ)
    (call : φ → A → Fut × φ) (closure : σ → φ) (holds : σ → A → Prop) : Prop where
  start : ∀ s, B.start s = .again s
  onEnd : ∀ s, B.onBase s none = .ret (.ready none) s
  onPass : ∀ s x y, L.treat x = .pass y → B.onBase s (some x) = .ret (.ready (some y)) s
  onStart : ∀ s x a, L.treat x = .start a → ∃ s', B.onBase s (some x) = .again s' ∧
    B.pending s' = some (call (closure s) a).1 ∧ closure s' = (call (closure s) a).2 ∧ holds s' a
  onFuture : ∀ s a res, holds s a → ∃ s', B.pending s' = none ∧ closure s' = closure s ∧
    B.onFuture s res =
      match L.emit a res with
      | some y => .ret (.ready (some y)) s'
      | none => .again s'

section

variable {L : Rule (Except E T) A R ρ} {call : φ → A → Fut × φ} {closure : σ → φ}
  {holds : σ → A → Prop} {B : OneAtATime σ Fut T E R (Option ρ)}

/-- What has held of the finished calls. -/
def PendingOk (calls : List (Call Unit (Option Fut) (Answer T E R) (Poll (Option ρ)))) : Prop :=
  ∀ c ∈ calls, c.result = .pending → ∃ x ∈ c.asked.getLast?, x.2.isPending = true

theorem PendingOk.concat {calls : List (Call Unit (Option Fut) (Answer T E R) (Poll (Option ρ)))}
    (h : PendingOk calls) {c : Call Unit (Option Fut) (Answer T E R) (Poll (Option ρ))}
    (hc : c.result = .pending → ∃ x ∈ c.asked.getLast?, x.2.isPending = true) :
    PendingOk (calls ++ [c]) := by
  intro c' hc'
  rcases List.mem_append.mp hc' with hc' | hc'
  · exact h c' hc'
  · obtain rfl := List.mem_singleton.mp hc'
    exact hc

/-- The law between calls. -/
def LawAtRest (B : OneAtATime σ Fut T E R (Option ρ)) (L : Rule (Except E T) A R ρ)
    (call : φ → A → Fut × φ) (closure : σ → φ) (f : φ) (holds : σ → A → Prop) (s : σ)
    (calls : List (Call Unit (Option Fut) (Answer T E R) (Poll (Option ρ)))) : Prop :=
  Books B L call closure f holds s (log calls) (returned calls) ∧ PendingOk calls

/-- The law at the head of the loop. -/
def LawInside (B : OneAtATime σ Fut T E R (Option ρ)) (L : Rule (Except E T) A R ρ)
    (call : φ → A → Fut × φ) (closure : σ → φ) (f : φ) (holds : σ → A → Prop) (s : σ)
    (calls : List (Call Unit (Option Fut) (Answer T E R) (Poll (Option ρ)))) (_ : Unit)
    (asked : List (Option Fut × Answer T E R)) : Prop :=
  Books B L call closure f holds s (log calls ++ asked) (returned calls) ∧ PendingOk calls

/-- One round keeps the law. -/
theorem Follows.round_keeps (hB : B.Follows L call closure holds) {f : φ} {s : σ}
    {calls : List (Call Unit (Option Fut) (Answer T E R) (Poll (Option ρ)))} {k : Unit}
    {asked : List (Option Fut × Answer T E R)} {a : Answer T E R} {fl : Flow σ (Poll (Option ρ))}
    (h : LawInside B L call closure f holds s calls k asked) (hresume : B.machine.resume s a = some fl) :
    fl.Keeps (LawAtRest B L call closure f holds) (LawInside B L call closure f holds) calls k
      (asked ++ [(B.machine.asks s, a)]) := by
  obtain ⟨hbooks, hpending⟩ := h
  have hlog : log calls ++ (asked ++ [(B.pending s, a)]) = log calls ++ asked ++ [(B.pending s, a)] :=
    (List.append_assoc _ _ _).symm
  -- the call returns `y`
  have hreturn : ∀ s' (y : Option ρ),
      Books B L call closure f holds s' (log calls ++ asked ++ [(B.pending s, a)]) (returned calls ++ [y]) →
      LawAtRest B L call closure f holds s' (calls ++ [⟨k, asked ++ [(B.pending s, a)], .ready y⟩]) := by
    intro s' y hb
    refine ⟨?_, hpending.concat (by rintro ⟨⟩)⟩
    rw [log_concat, returned_concat, hlog]
    exact hb
  have hwait : a.isPending = true → LawAtRest B L call closure f holds s
      (calls ++ [⟨k, asked ++ [(B.pending s, a)], .pending⟩]) := by
    intro ha
    refine ⟨?_, hpending.concat fun _ => ⟨(B.pending s, a), List.getLast?_concat, ha⟩⟩
    rw [log_concat, returned_concat, hlog]
    exact (List.append_nil (returned calls)).symm ▸ hbooks.wait ha
  cases hp : B.pending s with
  | some fut =>
      rcases resume_of_some hp hresume with ⟨rfl, rfl⟩ | ⟨res, rfl, rfl⟩
      · exact hwait rfl
      · obtain ⟨a, hholds, hbusy⟩ := hbooks.busy fut hp
        obtain ⟨s', hp', hf, hflow⟩ := hB.onFuture s a res hholds
        have hnext := hbooks.resolve hbusy hp' hf res
        rw [hflow]
        cases hy : L.emit a res with
        | some y =>
            rw [hy] at hnext
            exact hreturn s' (some y) hnext
        | none =>
            rw [hy, Option.toList_none, List.map_nil, List.append_nil] at hnext
            refine ⟨?_, hpending⟩
            show Books B L call closure f holds s' (log calls ++ (asked ++ [(B.pending s, _)])) _
            rw [hlog]
            exact hnext
  | none =>
      rcases resume_of_none hp hresume with ⟨rfl, rfl⟩ | ⟨_ | x, rfl, rfl⟩
      · exact hwait rfl
      · rw [hB.onEnd]
        exact hreturn s none (hbooks.pass hp rfl rfl)
      · cases hx : L.treat x with
        | pass y =>
            rw [hB.onPass s x y hx]
            exact hreturn s (some y) (hbooks.pass hp (Rule.started_pass hx []) (Rule.outputs_pass hx [] []))
        | start a =>
            obtain ⟨s', hflow, hp', hf, hholds⟩ := hB.onStart s x a hx
            rw [hflow]
            refine ⟨?_, hpending⟩
            show Books B L call closure f holds s' (log calls ++ (asked ++ [(B.pending s, _)])) _
            rw [hlog]
            exact hbooks.start hp hx hp' hf hholds

/-- **The rule for the four.** An adaptor that follows its rule computes it, in every
state of every run. -/
theorem Follows.computes (hB : B.Follows L call closure holds) {f : φ} {new : σ}
    (hnew : B.pending new = none ∧ closure new = f) {ls : List (Act Unit (Answer T E R))}
    {s : Run σ Fut T E R ρ} (hrun : B.machine.run new ls = some s) :
    Computes L call closure f s := by
  have hstart : LawAtRest B L call closure f holds new [] := by
    refine ⟨⟨rfl, hnew.2, fun _ => rfl, fun fut hfut => ?_, .nil _⟩, ?_⟩
    · rw [hnew.1] at hfut
      cases hfut
    · intro c hc
      cases hc
  have hholds : s.Holds (LawAtRest B L call closure f holds) (LawInside B L call closure f holds) := by
    refine run_keeps hstart ?_ (fun s calls k asked a fl h hresume => hB.round_keeps h hresume) hrun
    rintro s calls k ⟨hbooks, hpending⟩
    show (B.start s).Keeps _ _ _ _ _
    rw [hB.start]
    refine ⟨?_, hpending⟩
    rw [List.append_nil]
    exact hbooks
  have hbooks : Books B L call closure f holds s.self s.log (returned s.calls) ∧ PendingOk s.calls := by
    unfold State.Holds at hholds
    unfold State.log
    cases hcurrent : s.current with
    | none =>
        rw [hcurrent] at hholds
        exact hholds
    | some c =>
        rw [hcurrent] at hholds
        exact hholds
  exact ⟨hbooks.1.out, hbooks.1.closure, hbooks.1.one, hbooks.1.asked, hbooks.2⟩

end

end OneAtATime

/-! ## The four adaptors -/

theorem TryFilter.follows (call : φ → T → Fut × φ) :
    (TryFilter.poll_next (E := E) call).Follows (rule T E) call TryFilter.f
      fun s item => s.pending_item = some item where
  start := fun _ => rfl
  onEnd := fun _ => rfl
  onPass := by
    intro s x y hx
    cases x with
    | ok item => cases hx
    | error e =>
        cases hx
        rfl
  onStart := by
    intro s x a hx
    cases x with
    | ok item =>
        cases hx
        exact ⟨_, rfl, rfl, rfl, rfl⟩
    | error e => cases hx
  onFuture := by
    intro s item res hitem
    refine ⟨{ s with pending_fut := none, pending_item := none }, rfl, rfl, ?_⟩
    unfold poll_next rule
    dsimp only
    cases res with
    | true =>
        rw [hitem]
        rfl
    | false => rfl

theorem TryFilterMap.follows (call : φ → T → Fut × φ) :
    (TryFilterMap.poll_next (E := E) (U := U) call).Follows (rule T U E) call TryFilterMap.f
      fun _ _ => True where
  start := fun _ => rfl
  onEnd := fun _ => rfl
  onPass := by
    intro s x y hx
    cases x with
    | ok item => cases hx
    | error e =>
        cases hx
        rfl
  onStart := by
    intro s x a hx
    cases x with
    | ok item =>
        cases hx
        exact ⟨_, rfl, rfl, rfl, trivial⟩
    | error e => cases hx
  onFuture := by
    intro s item res _
    refine ⟨{ s with pending := none }, rfl, rfl, ?_⟩
    rcases res with e | _ | val <;> rfl

theorem AndThen.follows (call : φ → T → Fut × φ) :
    (AndThen.poll_next (E := E) (U := U) call).Follows (rule T U E) call Chained.f
      fun _ _ => True where
  start := fun _ => rfl
  onEnd := fun _ => rfl
  onPass := by
    intro s x y hx
    cases x with
    | ok item => cases hx
    | error e =>
        cases hx
        rfl
  onStart := by
    intro s x a hx
    cases x with
    | ok item =>
        cases hx
        exact ⟨_, rfl, rfl, rfl, trivial⟩
    | error e => cases hx
  onFuture := fun s _ _ _ => ⟨{ s with future := none }, rfl, rfl, rfl⟩

theorem OrElse.follows (call : φ → E → Fut × φ) :
    (OrElse.poll_next call : OneAtATime _ Fut T E (Except E' T) _).Follows (rule T E E') call
      Chained.f fun _ _ => True where
  start := fun _ => rfl
  onEnd := fun _ => rfl
  onPass := by
    intro s x y hx
    cases x with
    | ok item =>
        cases hx
        rfl
    | error e => cases hx
  onStart := by
    intro s x a hx
    cases x with
    | ok item => cases hx
    | error e =>
        cases hx
        exact ⟨_, rfl, rfl, rfl, trivial⟩
  onFuture := fun s _ _ _ => ⟨{ s with future := none }, rfl, rfl, rfl⟩

end TokioStreamUtil
