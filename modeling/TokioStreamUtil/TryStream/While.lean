/-
`TrySkipWhile` and `TryTakeWhile`.

Both judge the elements of the base one by one and stop at the first that is an error,
or whose predicate fails or says no. From there on the one passes everything and the
other nothing. The invariant has two phases: before the stop all elements were accepted,
up to the one in progress, and after it the list is cut at the element that stopped.
-/
import TokioStreamUtil.TryStream.Listwise

set_option autoImplicit false

namespace TokioStreamUtil

open PollLoop OneAtATime OneByOne

variable {φ Fut T E : Type}

/-! ## The list functions -/

/-- The index of the first element that is an error, or whose predicate future has
resolved to something else than `Ok(true)`. -/
def firstStop : List (Except E T) → List (Except E Bool) → Option ℕ
  | .ok _ :: xs, .ok true :: rs => (firstStop xs rs).map (· + 1)
  | .ok _ :: _, [] => none
  | [], _ => none
  | _ :: _, _ => some 0

/-- The items the predicate is called on: all up to the element that stops, with it. -/
def judged (xs : List (Except E T)) (rs : List (Except E Bool)) : List T :=
  match firstStop xs rs with
  | none => xs.filterMap Except.toOption
  | some i => (xs.take (i + 1)).filterMap Except.toOption

/-- `TrySkipWhile` yields nothing before the element that stops, then this element, or
the error of its predicate in its place, and everything after it. -/
def TrySkipWhile.yields (xs : List (Except E T)) (rs : List (Except E Bool)) : List (Except E T) :=
  match firstStop xs rs with
  | none => []
  | some i =>
      match xs.drop i, rs[i]? with
      | _ :: rest, some (.error e) => .error e :: rest
      | rest, _ => rest

/-- `TryTakeWhile` yields what comes before the element that stops, and then its error
or that of its predicate, if there is one. Without such an element it yields all that
were accepted. -/
def TryTakeWhile.yields (xs : List (Except E T)) (rs : List (Except E Bool)) : List (Except E T) :=
  match firstStop xs rs with
  | none => xs.take rs.length
  | some i =>
      xs.take i ++
        match xs[i]?, rs[i]? with
        | some (.error e), _ => [.error e]
        | _, some (.error e) => [.error e]
        | _, _ => []

/-- How an element stops: with the resolutions of its predicate `rs`, what `TrySkipWhile`
yields in its place and what `TryTakeWhile` ends with. -/
inductive Stops : Except E T → List (Except E Bool) → Except E T → List (Except E T) → Prop
  | failed (e : E) : Stops (.error e) [] (.error e) [.error e]
  | refused (item : T) : Stops (.ok item) [.ok false] (.ok item) []
  | unjudged (item : T) (e : E) : Stops (.ok item) [.error e] (.error e) [.error e]

section

variable {oks : List T} {n : ℕ} {x y : Except E T} {rs : List (Except E Bool)}
  {last rest : List (Except E T)}

theorem filterMap_ok (oks : List T) :
    (oks.map (Except.ok (ε := E))).filterMap Except.toOption = oks := by
  rw [List.filterMap_map]
  exact List.filterMap_some

/-- Nothing stops while all were accepted. -/
theorem firstStop_accepted (h : n ≤ oks.length) :
    firstStop (oks.map (Except.ok (ε := E))) (List.replicate n (.ok true)) = none := by
  induction oks generalizing n with
  | nil => rfl
  | cons item oks ih =>
      cases n with
      | zero => rfl
      | succ n =>
          show (firstStop (oks.map .ok) (List.replicate n (.ok true))).map (· + 1) = none
          rw [ih (Nat.le_of_succ_le_succ h)]
          rfl

/-- The element that stops comes after the accepted ones. -/
theorem firstStop_stopped (h : Stops x rs y last) (oks : List T) :
    firstStop (oks.map .ok ++ x :: rest) (List.replicate oks.length (.ok true) ++ rs) =
      some oks.length := by
  induction oks with
  | nil => cases h <;> rfl
  | cons item oks ih =>
      show (firstStop (oks.map .ok ++ x :: rest)
        (List.replicate oks.length (.ok true) ++ rs)).map (· + 1) = _
      rw [ih]
      rfl

theorem judged_accepted (h : n ≤ oks.length) :
    judged (oks.map (Except.ok (ε := E))) (List.replicate n (.ok true)) = oks := by
  unfold judged
  rw [firstStop_accepted h]
  exact filterMap_ok oks

theorem judged_stopped (h : Stops x rs y last) (oks : List T) :
    judged (oks.map .ok ++ x :: rest) (List.replicate oks.length (.ok true) ++ rs) =
      oks ++ x.toOption.toList := by
  have htake : (oks.map Except.ok ++ x :: rest).take (oks.length + 1) = oks.map Except.ok ++ [x] := by
    have hlen : (oks.map (Except.ok (ε := E))).length = oks.length := List.length_map _
    rw [← hlen, List.take_length_add_append]
    rfl
  unfold judged
  rw [firstStop_stopped h]
  dsimp only
  rw [htake, List.filterMap_append, filterMap_ok]
  cases x <;> rfl

theorem TrySkipWhile.yields_accepted (h : n ≤ oks.length) :
    TrySkipWhile.yields (oks.map (Except.ok (ε := E))) (List.replicate n (.ok true)) = [] := by
  unfold TrySkipWhile.yields
  rw [firstStop_accepted h]

theorem TryTakeWhile.yields_accepted (h : n ≤ oks.length) :
    TryTakeWhile.yields (oks.map (Except.ok (ε := E))) (List.replicate n (.ok true)) =
      (oks.take n).map .ok := by
  unfold TryTakeWhile.yields
  rw [firstStop_accepted h, List.length_replicate, List.map_take]

theorem drop_stopped (oks : List T) :
    (oks.map (Except.ok (ε := E)) ++ x :: rest).drop oks.length = x :: rest := by
  have hlen : (oks.map (Except.ok (ε := E))).length = oks.length := List.length_map _
  rw [← hlen, List.drop_left]

theorem resolution_stopped (oks : List T) :
    (List.replicate oks.length (.ok true) ++ rs)[oks.length]? = rs[0]? := by
  rw [List.getElem?_append_right (List.length_replicate).le, List.length_replicate, Nat.sub_self]

theorem TrySkipWhile.yields_stopped (h : Stops x rs y last) (oks : List T) :
    TrySkipWhile.yields (oks.map .ok ++ x :: rest) (List.replicate oks.length (.ok true) ++ rs) =
      y :: rest := by
  unfold TrySkipWhile.yields
  rw [firstStop_stopped h]
  dsimp only
  rw [drop_stopped, resolution_stopped]
  cases h <;> rfl

theorem TryTakeWhile.yields_stopped (h : Stops x rs y last) (oks : List T) :
    TryTakeWhile.yields (oks.map .ok ++ x :: rest) (List.replicate oks.length (.ok true) ++ rs) =
      oks.map .ok ++ last := by
  have hlen : (oks.map (Except.ok (ε := E))).length = oks.length := List.length_map _
  have htake : (oks.map Except.ok ++ x :: rest).take oks.length = oks.map Except.ok := by
    rw [← hlen, List.take_left]
  have hget : (oks.map Except.ok ++ x :: rest)[oks.length]? = some x := by
    rw [← List.head?_drop, drop_stopped]
    rfl
  unfold TryTakeWhile.yields
  rw [firstStop_stopped h]
  dsimp only
  rw [htake, hget, resolution_stopped]
  cases h <;> rfl

end

/-! ## The phases -/

/-- The fields of the two adaptors. -/
structure While (φ Fut T : Type) where
  f : φ
  pending_fut : Option Fut
  pending_item : Option T
  done : Bool

/-- The fields of a `TrySkipWhile`. -/
def TrySkipWhile.fields (self : TrySkipWhile φ Fut T) : While φ Fut T :=
  ⟨self.f, self.pending_fut, self.pending_item, self.done_skipping⟩

/-- The fields of a `TryTakeWhile`. -/
def TryTakeWhile.fields (self : TryTakeWhile φ Fut T) : While φ Fut T :=
  ⟨self.f, self.pending_fut, self.pending_item, self.done_taking⟩

namespace While

variable {R : Type}

/-- What the base has answered. -/
abbrev Log (Fut T E : Type) := List (Option Fut × Answer T E (Except E Bool))

/-- The elements of the base before its end. -/
def items (log : List (Option Fut × Answer T E R)) : List (Except E T) := untilEnd (baseAnswers log)

/-- The future whose turn it is after `log`, when the predicate starts as `f`. -/
def inProgress (call : φ → T → Fut × φ) (f : φ) (log : Log Fut T E) : Option Fut :=
  (tasks call f (judged (items log) (resolved log)))[(resolved log).length]?

/-- The fields, what has come from the base and the futures, and what the predicate was
called on. -/
structure At (call : φ → T → Fut × φ) (f : φ) (w : While φ Fut T) (log : Log Fut T E)
    (xs : List (Except E T)) (rs : List (Except E Bool)) (calledOn : List T) (fut : Option Fut)
    (item : Option T) (done : Bool) : Prop where
  items : items log = xs
  resolved : resolved log = rs
  f : w.f = stateAfter call f calledOn
  pending_fut : w.pending_fut = fut
  pending_item : w.pending_item = item
  done : w.done = done

/-- The phases of a run. -/
inductive Phase (call : φ → T → Fut × φ) (f : φ) (w : While φ Fut T) (log : Log Fut T E) : Prop
  /-- All elements were accepted, -/
  | idle (oks : List T) (running : .ready none ∉ baseAnswers log)
      (h : At call f w log (oks.map .ok) (List.replicate oks.length (.ok true)) oks none none false)
  /-- or the predicate has not resolved for the last. -/
  | busy (oks : List T) (item : T) (running : .ready none ∉ baseAnswers log)
      (h : At call f w log ((oks ++ [item]).map .ok) (List.replicate oks.length (.ok true))
        (oks ++ [item]) (some (call (stateAfter call f oks) item).1) (some item) false)
  /-- The base has ended before any element stopped. -/
  | ended (oks : List T) (gone : .ready none ∈ baseAnswers log)
      (h : At call f w log (oks.map .ok) (List.replicate oks.length (.ok true)) oks none none true)
  /-- An element has stopped. -/
  | stopped (oks : List T) {x y : Except E T} {rs : List (Except E Bool)}
      {last : List (Except E T)} (rest : List (Except E T)) (hx : Stops x rs y last)
      (h : At call f w log (oks.map .ok ++ x :: rest) (List.replicate oks.length (.ok true) ++ rs)
        (oks ++ x.toOption.toList) none none true)

section

variable {log : List (Option Fut × Answer T E R)} {q : Option Fut}

@[simp] theorem items_future (r : Poll R) : items (log ++ [(q, .future r)]) = items log := by
  unfold items
  rw [baseAnswers_append, baseAnswers_future, List.append_nil]

@[simp] theorem items_pending : items (log ++ [(q, .base .pending)]) = items log := by
  unfold items
  rw [baseAnswers_append, baseAnswers_base, untilEnd_concat_pending]

@[simp] theorem items_end : items (log ++ [(q, .base (.ready none))]) = items log := by
  unfold items
  rw [baseAnswers_append, baseAnswers_base, untilEnd_concat_end]

theorem items_item (h : .ready none ∉ baseAnswers log) (x : Except E T) :
    items (log ++ [(q, .base (.ready (some x)))]) = items log ++ [x] := by
  unfold items
  rw [baseAnswers_append, baseAnswers_base, untilEnd_concat_item h]

theorem items_of_ended (h : .ready none ∈ baseAnswers log) (a : Answer T E R) :
    items (log ++ [(q, a)]) = items log := by
  unfold items
  rw [baseAnswers_append, untilEnd_append_of_mem h]

@[simp] theorem resolved_base (r : TryPoll T E) : resolved (log ++ [(q, .base r)]) = resolved log := by
  rw [resolved_append]
  exact List.append_nil _

@[simp] theorem resolved_pending : resolved (log ++ [(q, .future .pending)]) = resolved log := by
  rw [resolved_append]
  exact List.append_nil _

@[simp] theorem resolved_ready (r : R) :
    resolved (log ++ [(q, .future (.ready r))]) = resolved log ++ [r] := resolved_append _ _

theorem ended_future (r : Poll R) :
    .ready none ∈ baseAnswers (log ++ [(q, .future r)]) ↔ .ready none ∈ baseAnswers log := by
  rw [baseAnswers_append, baseAnswers_future, List.append_nil]

theorem ended_base (r : TryPoll T E) :
    .ready none ∈ baseAnswers (log ++ [(q, .base r)]) ↔
      .ready none ∈ baseAnswers log ∨ r = .ready none := by
  rw [baseAnswers_append, baseAnswers_base]
  exact end_mem_concat

/-- An answer that is not the end leaves the base running. -/
theorem not_ended_base (h : .ready none ∉ baseAnswers log) {r : TryPoll T E} (hr : r ≠ .ready none) :
    .ready none ∉ baseAnswers (log ++ [(q, .base r)]) :=
  mt (ended_base r).mp (not_or.mpr ⟨h, hr⟩)

end

section

variable {call : φ → T → Fut × φ} {f : φ} {w : While φ Fut T} {log : Log Fut T E}

/-- What the phase says of the predicate. -/
theorem Phase.judges (h : Phase call f w log) :
    w.pending_fut = inProgress call f log ∧
      w.f = stateAfter call f (judged (items log) (resolved log)) ∧
      (resolved log).length ≤ (judged (items log) (resolved log)).length ∧
      (judged (items log) (resolved log)).length ≤ (resolved log).length + 1 ∧
      (.ready none ∈ baseAnswers log → firstStop (items log) (resolved log) = none →
        (resolved log).length = (items log).length) := by
  unfold inProgress
  cases h with
  | idle oks running h =>
      rw [h.items, h.resolved, judged_accepted (Nat.le_refl _), h.pending_fut, h.f, List.length_replicate]
      exact ⟨(open_none rfl).symm, rfl, Nat.le_refl _, Nat.le_succ _, fun hgone => absurd hgone running⟩
  | busy oks item running h =>
      have hle : oks.length ≤ (oks ++ [item]).length := by
        rw [List.length_append]
        exact Nat.le_add_right _ _
      rw [h.items, h.resolved, judged_accepted hle, h.pending_fut, h.f, List.length_replicate,
        List.length_append]
      exact ⟨(open_last rfl item).symm, rfl, Nat.le_succ _, Nat.le_refl _,
        fun hgone => absurd hgone running⟩
  | ended oks gone h =>
      rw [h.items, h.resolved, judged_accepted (Nat.le_refl _), h.pending_fut, h.f, List.length_replicate]
      exact ⟨(open_none rfl).symm, rfl, Nat.le_refl _, Nat.le_succ _,
        fun _ _ => (List.length_map _).symm⟩
  | @stopped oks x y rs last rest hx h =>
      have hlen : (oks ++ x.toOption.toList).length =
          (List.replicate oks.length (Except.ok (ε := E) true) ++ rs).length := by
        rw [List.length_append, List.length_append, List.length_replicate]
        cases hx <;> rfl
      rw [h.items, h.resolved, judged_stopped hx, h.pending_fut, h.f, firstStop_stopped hx, hlen]
      exact ⟨(open_none hlen).symm, rfl, Nat.le_refl _, Nat.le_succ _, fun _ hnone => by cases hnone⟩

/-! ## What a round does to the phase -/

variable {q : Option Fut} {w' : While φ Fut T} {oks : List T}

theorem at_congr {log' : Log Fut T E} {xs : List (Except E T)} {rs : List (Except E Bool)}
    {calledOn : List T} {fut : Option Fut} {item : Option T} {done : Bool}
    (h : At call f w log xs rs calledOn fut item done) (hitems : items log' = items log)
    (hresolved : resolved log' = resolved log) : At call f w log' xs rs calledOn fut item done :=
  ⟨hitems.trans h.items, hresolved.trans h.resolved, h.f, h.pending_fut, h.pending_item, h.done⟩

/-- A pending answer changes nothing. -/
theorem wait_same (log : Log Fut T E) (q : Option Fut) {a : Answer T E (Except E Bool)}
    (ha : a.isPending = true) :
    items (log ++ [(q, a)]) = items log ∧ resolved (log ++ [(q, a)]) = resolved log ∧
      (.ready none ∈ baseAnswers (log ++ [(q, a)]) ↔ .ready none ∈ baseAnswers log) := by
  rcases a with (_ | r) | _ | r
  · exact ⟨items_pending, resolved_base _, (ended_base _).trans (or_iff_left (by rintro ⟨⟩))⟩
  · cases ha
  · exact ⟨items_future _, resolved_pending, ended_future _⟩
  · cases ha

theorem Phase.wait (h : Phase call f w log) {a : Answer T E (Except E Bool)}
    (ha : a.isPending = true) : Phase call f w (log ++ [(q, a)]) := by
  obtain ⟨hitems, hresolved, hended⟩ := wait_same log q ha
  cases h with
  | idle oks running h => exact .idle oks (mt hended.mp running) (at_congr h hitems hresolved)
  | busy oks item running h => exact .busy oks item (mt hended.mp running) (at_congr h hitems hresolved)
  | ended oks gone h => exact .ended oks (hended.mpr gone) (at_congr h hitems hresolved)
  | stopped oks rest hx h => exact .stopped oks rest hx (at_congr h hitems hresolved)

/-- The base gives an item, and the predicate is called on it. -/
theorem phase_take (running : .ready none ∉ baseAnswers log)
    (h : At call f w log (oks.map .ok) (List.replicate oks.length (.ok true)) oks none none false)
    (item : T) :
    Phase call f ⟨(call w.f item).2, some (call w.f item).1, some item, w.done⟩
      (log ++ [(q, .base (.ready (some (.ok item))))]) := by
  refine .busy oks item (not_ended_base running (by rintro ⟨⟩)) ⟨?_, ?_, ?_, ?_, rfl, h.done⟩
  · rw [items_item running, h.items, List.map_append]
    rfl
  · rw [resolved_base, h.resolved]
  · rw [stateAfter_concat, ← h.f]
  · rw [← h.f]

/-- The predicate accepts. -/
theorem phase_accept (running : .ready none ∉ baseAnswers log) {item : T} {fut : Option Fut}
    (h : At call f w log ((oks ++ [item]).map .ok) (List.replicate oks.length (.ok true))
      (oks ++ [item]) fut (some item) false) :
    Phase call f { w with pending_fut := none, pending_item := none }
      (log ++ [(q, .future (.ready (.ok true)))]) := by
  refine .idle (oks ++ [item]) (mt (ended_future _).mp running) ⟨?_, ?_, h.f, rfl, rfl, h.done⟩
  · rw [items_future, h.items]
  · rw [resolved_ready, h.resolved, List.length_append, ← List.replicate_succ']
    rfl

/-- The predicate does not accept. -/
theorem at_stop {item : T} {fut : Option Fut}
    (h : At call f w log ((oks ++ [item]).map .ok) (List.replicate oks.length (.ok true))
      (oks ++ [item]) fut (some item) false) (r : Except E Bool) :
    At call f ⟨w.f, none, none, true⟩ (log ++ [(q, .future (.ready r))])
      (oks.map .ok ++ [.ok item]) (List.replicate oks.length (.ok true) ++ [r])
      (oks ++ (Except.ok (ε := E) item).toOption.toList) none none true := by
  refine ⟨?_, ?_, h.f, rfl, rfl, rfl⟩
  · rw [items_future, h.items, List.map_append]
    rfl
  · rw [resolved_ready, h.resolved]

/-- The base fails. -/
theorem at_fail (running : .ready none ∉ baseAnswers log)
    (h : At call f w log (oks.map .ok) (List.replicate oks.length (.ok true)) oks none none false)
    (e : E) :
    At call f { w with done := true } (log ++ [(q, .base (.ready (some (.error e))))])
      (oks.map .ok ++ [.error e]) (List.replicate oks.length (.ok true) ++ [])
      (oks ++ (Except.error (α := T) e).toOption.toList) none none true := by
  refine ⟨?_, ?_, ?_, h.pending_fut, h.pending_item, rfl⟩
  · rw [items_item running, h.items]
  · rw [resolved_base, h.resolved, List.append_nil]
  · rw [show (Except.error (α := T) e).toOption.toList = [] from rfl, List.append_nil]
    exact h.f

/-- The base ends. -/
theorem phase_finish
    (h : At call f w log (oks.map .ok) (List.replicate oks.length (.ok true)) oks none none false) :
    Phase call f { w with done := true } (log ++ [(q, .base (.ready none))]) := by
  refine .ended oks ?_ ⟨?_, ?_, h.f, h.pending_fut, h.pending_item, rfl⟩
  · exact (ended_base _).mpr (Or.inr rfl)
  · rw [items_end, h.items]
  · rw [resolved_base, h.resolved]

end

/-! ## The calls -/

variable {σ : Type}

/-- The finished calls. -/
abbrev Calls (Fut T E : Type) :=
  List (Call Unit (Option Fut) (Answer T E (Except E Bool)) (TryPoll T E))

/-- What holds between the rounds of a call, and between calls. `Out` says what has been
returned. -/
structure Books (call : φ → T → Fut × φ) (f : φ) (fields : σ → While φ Fut T)
    (Out : σ → List (TryPoll T E) → Log Fut T E → Prop) (s : σ) (calls : Calls Fut T E)
    (log : Log Fut T E) : Prop where
  phase : Phase call f (fields s) log
  asked : Asked (inProgress call f) log
  out : Out s (results calls) log
  pending : PendingOk calls

/-- The books between calls. -/
abbrev AtRest (call : φ → T → Fut × φ) (f : φ) (fields : σ → While φ Fut T)
    (Out : σ → List (TryPoll T E) → Log Fut T E → Prop) (s : σ) (calls : Calls Fut T E) : Prop :=
  Books call f fields Out s calls (PollLoop.log calls)

/-- The books at the head of the loop, which `asks` in a state comes to. -/
abbrev Inside (call : φ → T → Fut × φ) (f : φ) (fields : σ → While φ Fut T)
    (Out : σ → List (TryPoll T E) → Log Fut T E → Prop) (asks : σ → Prop) (s : σ)
    (calls : Calls Fut T E) (_ : Unit) (asked : Log Fut T E) : Prop :=
  Books call f fields Out s calls (PollLoop.log calls ++ asked) ∧ asks s

section

variable {call : φ → T → Fut × φ} {f : φ} {fields : σ → While φ Fut T}
  {Out : σ → List (TryPoll T E) → Log Fut T E → Prop} {asks : σ → Prop} {self self' : σ}
  {calls : Calls Fut T E} {k : Unit} {asked : Log Fut T E} {q : Option Fut}
  {a : Answer T E (Except E Bool)}

/-- The call goes on. -/
theorem keeps_again (h : Books call f fields Out self calls (log calls ++ asked))
    (hq : q = (fields self).pending_fut)
    (hphase : Phase call f (fields self') (log calls ++ asked ++ [(q, a)]))
    (hout : Out self' (results calls) (log calls ++ asked ++ [(q, a)])) (hasks : asks self') :
    (Flow.again self' : Flow σ (TryPoll T E)).Keeps (AtRest call f fields Out)
      (Inside call f fields Out asks) calls k (asked ++ [(q, a)]) := by
  refine ⟨?_, hasks⟩
  rw [← List.append_assoc]
  exact ⟨hphase, h.asked.concat (hq.trans h.phase.judges.1) a, hout, h.pending⟩

/-- The call returns. -/
theorem keeps_ret (h : Books call f fields Out self calls (log calls ++ asked))
    (hq : q = (fields self).pending_fut) {r : TryPoll T E}
    (hphase : Phase call f (fields self') (log calls ++ asked ++ [(q, a)]))
    (hout : Out self' (results calls ++ [r]) (log calls ++ asked ++ [(q, a)]))
    (hr : r = .pending → a.isPending = true) :
    (Flow.ret r self').Keeps (AtRest call f fields Out) (Inside call f fields Out asks) calls k
      (asked ++ [(q, a)]) := by
  show Books call f fields Out self' (calls ++ [_]) (log (calls ++ [_]))
  rw [log_concat, ← List.append_assoc]
  refine ⟨hphase, h.asked.concat (hq.trans h.phase.judges.1) a, ?_, ?_⟩
  · rw [results_concat]
    exact hout
  · exact h.pending.concat fun hpending => ⟨(q, a), List.getLast?_concat, hr hpending⟩

end

/-- What a run has done with the predicate in the state `s`, in the middle of a call or
between calls. -/
structure Judges (call : φ → T → Fut × φ) (f : φ) (fields : σ → While φ Fut T)
    (s : Run σ Fut T E (Except E Bool) (Except E T)) : Prop where
  /-- It was called once on each `Ok` element up to the one that stops, in order, -/
  closure : (fields s.self).f = stateAfter call f (judged (items s.log) (resolved s.log))
  /-- and only when the future before it had resolved. -/
  one : (resolved s.log).length ≤ (judged (items s.log) (resolved s.log)).length ∧
    (judged (items s.log) (resolved s.log)).length ≤ (resolved s.log).length + 1
  /-- Each round polled the future in progress, and the base if there was none. -/
  asked : Asked (inProgress call f) s.log
  /-- When the base has ended and nothing has stopped, all elements were accepted. -/
  complete : .ready none ∈ baseAnswers s.log → firstStop (items s.log) (resolved s.log) = none →
    (resolved s.log).length = (items s.log).length
  /-- Only a pending answer makes a call pending. -/
  pending : PendingOk s.calls

/-- The books of a state, in the middle of a call or between calls. -/
theorem books_of_holds {call : φ → T → Fut × φ} {f : φ} {fields : σ → While φ Fut T}
    {Out : σ → List (TryPoll T E) → Log Fut T E → Prop}
    {asks : σ → Prop} {s : Run σ Fut T E (Except E Bool) (Except E T)}
    (h : s.Holds (AtRest call f fields Out) (Inside call f fields Out asks)) :
    Books call f fields Out s.self s.calls s.log := by
  unfold State.Holds at h
  unfold State.log
  cases hcurrent : s.current with
  | none =>
      rw [hcurrent] at h
      exact h
  | some c =>
      rw [hcurrent] at h
      exact h.1

theorem Books.judges {call : φ → T → Fut × φ} {f : φ} {fields : σ → While φ Fut T}
    {Out : σ → List (TryPoll T E) → Log Fut T E → Prop}
    {s : Run σ Fut T E (Except E Bool) (Except E T)}
    (h : Books call f fields Out s.self s.calls s.log) : Judges call f fields s := by
  obtain ⟨-, hclosure, hle, hlt, hcomplete⟩ := h.phase.judges
  exact ⟨hclosure, ⟨hle, hlt⟩, h.asked, hcomplete, h.pending⟩

end While

open While

/-! ## `TrySkipWhile` -/

namespace TrySkipWhile

variable {call : φ → T → Fut × φ} {f : φ} {self : TrySkipWhile φ Fut T} {log : Log Fut T E}
  {rs : List (TryPoll T E)} {q : Option Fut}

/-- What has been returned before the end, which is that of the base. -/
def Out (_ : TrySkipWhile φ Fut T) (rs : List (TryPoll T E)) (log : Log Fut T E) : Prop :=
  untilEnd rs = yields (items log) (resolved log) ∧
    (.ready none ∈ rs ↔ .ready none ∈ baseAnswers log)

/-- The future that is polled is the one in the field: there is none after the stop. -/
theorem pending_eq (h : Phase call f self.fields log) :
    (poll_next (E := E) call).pending self = self.fields.pending_fut := by
  have hdone : self.done_skipping = true → self.fields.pending_fut = none := by
    intro hdone
    cases h with
    | idle oks running h => exact h.pending_fut
    | busy oks item running h => exact absurd (hdone.symm.trans h.done) (by rintro ⟨⟩)
    | ended oks gone h => exact h.pending_fut
    | stopped oks rest hx h => exact h.pending_fut
  unfold poll_next
  dsimp only
  split
  · rename_i hskipped
    exact (hdone hskipped).symm
  · rfl

theorem onBase_of_skipping (h : self.done_skipping = false) (item : Option (Except E T)) :
    (poll_next call).onBase self item =
      match item with
      | some (.ok item) =>
          .again
            { self with
              f := (call self.f item).2
              pending_fut := some (call self.f item).1
              pending_item := some item }
      | some (.error e) => .ret (.ready (some (.error e))) { self with done_skipping := true }
      | none => .ret (.ready none) { self with done_skipping := true } := by
  unfold poll_next
  dsimp only
  rw [h]
  rfl

theorem onBase_of_done (h : self.done_skipping = true) (item : Option (Except E T)) :
    (poll_next call).onBase self item = .ret (.ready item) self := by
  unfold poll_next
  dsimp only
  rw [if_pos h]

/-- A pending answer returns nothing. -/
theorem out_wait (h : Out self rs log) {a : Answer T E (Except E Bool)} (ha : a.isPending = true) :
    Out self (rs ++ [.pending]) (log ++ [(q, a)]) := by
  obtain ⟨hitems, hresolved, hended⟩ := wait_same log q ha
  refine ⟨?_, ?_⟩
  · rw [untilEnd_concat_pending, hitems, hresolved]
    exact h.1
  · rw [hended, end_mem_concat, h.2]
    exact or_iff_left (by rintro ⟨⟩)

/-- The end of the base is passed on. -/
theorem out_end (h : Out self rs log) (self' : TrySkipWhile φ Fut T) :
    Out self' (rs ++ [.ready none]) (log ++ [(q, .base (.ready none))]) := by
  refine ⟨?_, ?_⟩
  · rw [untilEnd_concat_end, items_end, resolved_base]
    exact h.1
  · exact iff_of_true (end_mem_concat.mpr (Or.inr rfl)) ((ended_base _).mpr (Or.inr rfl))

/-- Nothing counts after the end. -/
theorem out_of_ended (h : Out self rs log) (gone : .ready none ∈ baseAnswers log)
    (self' : TrySkipWhile φ Fut T) (x : Option (Except E T)) :
    Out self' (rs ++ [.ready x]) (log ++ [(q, .base (.ready x))]) := by
  refine ⟨?_, ?_⟩
  · rw [untilEnd_append_of_mem (h.2.mpr gone), items_of_ended gone, resolved_base]
    exact h.1
  · exact iff_of_true (List.mem_append_left _ (h.2.mpr gone)) ((ended_base _).mpr (Or.inl gone))

/-- Nothing is returned while the elements are accepted. -/
theorem out_none (h : Out self rs log) {oks : List T} {n : ℕ} (hle : n ≤ oks.length)
    (hitems : items log = oks.map .ok) (hresolved : resolved log = List.replicate n (.ok true)) :
    untilEnd rs = [] := by
  rw [h.1, hitems, hresolved]
  exact yields_accepted hle

/-- What is returned for the element that stops is the first output. -/
theorem out_stop (h : Out self rs log) (running : .ready none ∉ baseAnswers log)
    (hnil : untilEnd rs = []) {log' : Log Fut T E} (hrunning : .ready none ∉ baseAnswers log')
    {oks : List T} {x y : Except E T} {rs' : List (Except E Bool)} {last : List (Except E T)}
    (hx : Stops x rs' y last) (hitems : items log' = oks.map .ok ++ [x])
    (hresolved : resolved log' = List.replicate oks.length (.ok true) ++ rs')
    (self' : TrySkipWhile φ Fut T) : Out self' (rs ++ [.ready (some y)]) log' := by
  have hnone : .ready none ∉ rs := mt h.2.mp running
  refine ⟨?_, ?_⟩
  · rw [hitems, hresolved, yields_stopped hx, untilEnd_concat_item hnone, hnil]
    rfl
  · exact iff_of_false (mt end_mem_concat.mp (not_or.mpr ⟨hnone, by rintro ⟨⟩⟩)) hrunning

/-- After the element that stopped, what the base gives is passed on. -/
theorem out_pass (h : Out self rs log) (running : .ready none ∉ baseAnswers log) {oks : List T}
    {x y : Except E T} {rs' : List (Except E Bool)} {last rest : List (Except E T)}
    (hx : Stops x rs' y last) (hitems : items log = oks.map .ok ++ x :: rest)
    (hresolved : resolved log = List.replicate oks.length (.ok true) ++ rs') (item : Except E T)
    (self' : TrySkipWhile φ Fut T) :
    Out self' (rs ++ [.ready (some item)]) (log ++ [(q, .base (.ready (some item)))]) := by
  have hnone : .ready none ∉ rs := mt h.2.mp running
  refine ⟨?_, ?_⟩
  · rw [untilEnd_concat_item hnone, h.1, items_item running, resolved_base, hitems, hresolved,
      yields_stopped hx, List.append_assoc]
    have hmore : yields (oks.map .ok ++ x :: (rest ++ [item]))
        (List.replicate oks.length (.ok true) ++ rs') = y :: (rest ++ [item]) :=
      yields_stopped hx oks
    exact hmore.symm
  · exact iff_of_false (mt end_mem_concat.mp (not_or.mpr ⟨hnone, by rintro ⟨⟩⟩))
      (not_ended_base running (by rintro ⟨⟩))

/-- One round. -/
theorem round_keeps {calls : While.Calls Fut T E} {k : Unit} {asked : Log Fut T E}
    {a : Answer T E (Except E Bool)} {fl : Flow (TrySkipWhile φ Fut T) (TryPoll T E)}
    (h : Books call f fields Out self calls (PollLoop.log calls ++ asked))
    (hresume : (poll_next call).machine.resume self a = some fl) :
    fl.Keeps (AtRest call f fields Out) (Inside call f fields Out fun _ => True) calls k
      (asked ++ [((poll_next (E := E) call).machine.asks self, a)]) := by
  have hq : (poll_next (E := E) call).machine.asks self = self.fields.pending_fut :=
    pending_eq h.phase
  have hwait : a.isPending = true → (Flow.ret .pending self).Keeps (AtRest call f fields Out)
      (Inside call f fields Out fun _ => True) calls k
      (asked ++ [((poll_next (E := E) call).machine.asks self, a)]) := fun ha =>
    keeps_ret h hq (h.phase.wait ha) (out_wait h.out ha) fun _ => ha
  have hended := h.out.2
  cases h.phase with
  | idle oks running hat =>
      have hpending : (poll_next (E := E) call).pending self = none :=
        (pending_eq h.phase).trans hat.pending_fut
      have hrunning : .ready none ∉ results calls := mt hended.mp running
      have hnil := out_none h.out (Nat.le_refl _) hat.items hat.resolved
      rcases resume_of_none hpending hresume with ⟨rfl, rfl⟩ | ⟨_ | e | item, rfl, rfl⟩
      · exact hwait rfl
      · rw [onBase_of_skipping hat.done]
        exact keeps_ret h hq (phase_finish hat) (out_end h.out _) (by rintro ⟨⟩)
      · rw [onBase_of_skipping hat.done]
        have hstop := at_fail (q := (poll_next (E := E) call).machine.asks self) running hat e
        exact keeps_ret h hq (.stopped oks [] (.failed e) hstop)
          (out_stop h.out running hnil (not_ended_base running (by rintro ⟨⟩)) (.failed e) hstop.items
            hstop.resolved _) (by rintro ⟨⟩)
      · rw [onBase_of_skipping hat.done]
        refine keeps_again h hq (phase_take running hat item) ⟨?_, ?_⟩ trivial
        · rw [items_item running, hat.items, resolved_base, hat.resolved, hnil]
          have hle : oks.length ≤ (oks ++ [item]).length := by
            rw [List.length_append]
            exact Nat.le_add_right _ _
          exact (yields_accepted hle).symm.trans (congrArg (yields · _) List.map_append)
        · exact iff_of_false hrunning (not_ended_base running (by rintro ⟨⟩))
  | busy oks item running hat =>
      have hpending : (poll_next (E := E) call).pending self =
          some (call (stateAfter call f oks) item).1 := (pending_eq h.phase).trans hat.pending_fut
      have hrunning : .ready none ∉ results calls := mt hended.mp running
      have hle : oks.length ≤ (oks ++ [item]).length := by
        rw [List.length_append]
        exact Nat.le_add_right _ _
      have hnil := out_none h.out hle hat.items hat.resolved
      have hitem : self.pending_item = some item := hat.pending_item
      -- the predicate has not accepted, and the call returns what comes in place of the item
      have hstops : ∀ {r : Except E Bool} {y : Except E T} {last : List (Except E T)},
          Stops (.ok item) [r] y last →
          (Flow.ret (.ready (some y))
            { self with pending_fut := none, pending_item := none, done_skipping := true }).Keeps
            (AtRest call f fields Out) (Inside call f fields Out fun _ => True) calls k
            (asked ++ [((poll_next (E := E) call).machine.asks self, .future (.ready r))]) := by
        intro r y last hx
        have hstop := at_stop (q := (poll_next (E := E) call).machine.asks self) hat r
        exact keeps_ret h hq (.stopped oks [] hx hstop)
          (out_stop h.out running hnil (mt (ended_future _).mp running) hx hstop.items hstop.resolved _)
          (by rintro ⟨⟩)
      rcases resume_of_some hpending hresume with ⟨rfl, rfl⟩ | ⟨e | _ | _, rfl, rfl⟩
      · exact hwait rfl
      · exact hstops (.unjudged item e)
      · have hreturn := hstops (.refused item)
        rw [show (some (.ok item) : Option (Except E T)) = self.pending_item.map .ok by
          rw [hitem]; rfl] at hreturn
        exact hreturn
      · refine keeps_again h hq (phase_accept running hat) ⟨?_, ?_⟩ trivial
        · rw [items_future, hat.items, resolved_ready, hat.resolved, hnil, ← List.replicate_succ']
          refine (yields_accepted ?_).symm
          rw [List.length_append]
          exact Nat.le_refl _
        · exact iff_of_false hrunning (mt (ended_future _).mp running)
  | ended oks gone hat =>
      have hpending : (poll_next (E := E) call).pending self = none :=
        (pending_eq h.phase).trans hat.pending_fut
      rcases resume_of_none hpending hresume with ⟨rfl, rfl⟩ | ⟨x, rfl, rfl⟩
      · exact hwait rfl
      · rw [onBase_of_done hat.done]
        have hsame := items_of_ended (q := (poll_next (E := E) call).machine.asks self) gone
          (.base (.ready x))
        have hgone := (ended_base (q := (poll_next (E := E) call).machine.asks self) (.ready x)).mpr
          (Or.inl gone)
        exact keeps_ret h hq (.ended oks hgone (at_congr hat hsame (resolved_base _)))
          (out_of_ended h.out gone _ x) (by rintro ⟨⟩)
  | @stopped oks x y rs last rest hx hat =>
      have hpending : (poll_next (E := E) call).pending self = none :=
        (pending_eq h.phase).trans hat.pending_fut
      rcases resume_of_none hpending hresume with ⟨rfl, rfl⟩ | ⟨r, rfl, rfl⟩
      · exact hwait rfl
      · rw [onBase_of_done hat.done]
        by_cases gone : .ready none ∈ baseAnswers (PollLoop.log calls ++ asked)
        · have hsame := items_of_ended (q := (poll_next (E := E) call).machine.asks self) gone
            (.base (.ready r))
          exact keeps_ret h hq (.stopped oks rest hx (at_congr hat hsame (resolved_base _)))
            (out_of_ended h.out gone _ r) (by rintro ⟨⟩)
        · cases r with
          | none =>
              exact keeps_ret h hq (.stopped oks rest hx (at_congr hat items_end (resolved_base _)))
                (out_end h.out _) (by rintro ⟨⟩)
          | some item =>
              have hmore : items (PollLoop.log calls ++ asked ++
                  [((poll_next (E := E) call).machine.asks self, .base (.ready (some item)))]) =
                  oks.map .ok ++ x :: (rest ++ [item]) := by
                rw [items_item gone, hat.items, List.append_assoc]
                rfl
              exact keeps_ret h hq (.stopped oks (rest ++ [item]) hx
                ⟨hmore, (resolved_base _).trans hat.resolved, hat.f, hat.pending_fut,
                  hat.pending_item, hat.done⟩)
                (out_pass h.out gone hx hat.items hat.resolved item _) (by rintro ⟨⟩)

end TrySkipWhile

/-! ## `TryTakeWhile` -/

namespace TryTakeWhile

variable {call : φ → T → Fut × φ} {f : φ} {self : TryTakeWhile φ Fut T} {log : Log Fut T E}
  {calls : While.Calls Fut T E} {k : Unit} {asked : Log Fut T E}

/-- What has been returned before the end, and the flag after it. -/
def Out (self : TryTakeWhile φ Fut T) (rs : List (TryPoll T E)) (log : Log Fut T E) : Prop :=
  untilEnd rs = yields (items log) (resolved log) ∧ (.ready none ∈ rs → self.done_taking = true)

theorem out_wait {rs : List (TryPoll T E)} {q : Option Fut} (h : Out self rs log)
    {a : Answer T E (Except E Bool)} (ha : a.isPending = true) :
    Out self (rs ++ [.pending]) (log ++ [(q, a)]) := by
  obtain ⟨hitems, hresolved, -⟩ := wait_same log q ha
  refine ⟨?_, fun hmem => h.2 ((end_mem_concat.mp hmem).resolve_right (by rintro ⟨⟩))⟩
  rw [untilEnd_concat_pending, hitems, hresolved]
  exact h.1

/-- One round. -/
theorem round_keeps {a : Answer T E (Except E Bool)}
    {fl : Flow (TryTakeWhile φ Fut T) (TryPoll T E)}
    (h : Books call f fields Out self calls (PollLoop.log calls ++ asked))
    (htaking : self.done_taking = false) (hresume : (poll_next call).machine.resume self a = some fl) :
    fl.Keeps (AtRest call f fields Out)
      (Inside call f fields Out fun self => self.done_taking = false) calls k
      (asked ++ [((poll_next (E := E) call).machine.asks self, a)]) := by
  have hq : (poll_next (E := E) call).machine.asks self = self.fields.pending_fut := rfl
  obtain ⟨hyields, hflag⟩ := h.out
  have hrunning : .ready none ∉ results calls := fun hmem =>
    Bool.false_ne_true (htaking.symm.trans (hflag hmem))
  have hwait : a.isPending = true → (Flow.ret .pending self).Keeps (AtRest call f fields Out)
      (Inside call f fields Out fun self => self.done_taking = false) calls k
      (asked ++ [((poll_next (E := E) call).machine.asks self, a)]) := fun ha =>
    keeps_ret h hq (h.phase.wait ha) (out_wait h.out ha) fun _ => ha
  cases h.phase with
  | idle oks running hat =>
      have hpending : (poll_next (E := E) call).pending self = none := hat.pending_fut
      have hout : untilEnd (results calls) = oks.map .ok := by
        rw [hyields, hat.items, hat.resolved, yields_accepted (Nat.le_refl _), List.take_length]
      rcases resume_of_none hpending hresume with ⟨rfl, rfl⟩ | ⟨_ | e | item, rfl, rfl⟩
      · exact hwait rfl
      · refine keeps_ret h hq (phase_finish hat) ⟨?_, fun _ => rfl⟩ (by rintro ⟨⟩)
        rw [untilEnd_concat_end, items_end, resolved_base]
        exact hyields
      · have hstop := at_fail (q := (poll_next (E := E) call).machine.asks self) running hat e
        refine keeps_ret h hq (.stopped oks [] (.failed e) hstop) ⟨?_, fun _ => rfl⟩ (by rintro ⟨⟩)
        rw [hstop.items, hstop.resolved, yields_stopped (.failed e), untilEnd_concat_item hrunning, hout]
      · show (Flow.again { self with
          f := (call self.f item).2
          pending_fut := some (call self.f item).1
          pending_item := some item }).Keeps _ _ _ _ _
        refine keeps_again h hq (phase_take running hat item) ⟨?_, fun hmem => absurd hmem hrunning⟩
          htaking
        have hle : oks.length ≤ (oks ++ [item]).length := by
          rw [List.length_append]
          exact Nat.le_add_right _ _
        have hyield := yields_accepted (E := E) hle
        rw [List.take_left, List.map_append] at hyield
        rw [items_item running, hat.items, resolved_base, hat.resolved, hout]
        exact hyield.symm
  | busy oks item running hat =>
      have hpending : (poll_next (E := E) call).pending self =
          some (call (stateAfter call f oks) item).1 := hat.pending_fut
      have hle : oks.length ≤ (oks ++ [item]).length := by
        rw [List.length_append]
        exact Nat.le_add_right _ _
      have hout : untilEnd (results calls) = oks.map .ok := by
        rw [hyields, hat.items, hat.resolved, yields_accepted hle, List.take_left]
      have hitem : self.pending_item = some item := hat.pending_item
      rcases resume_of_some hpending hresume with ⟨rfl, rfl⟩ | ⟨e | _ | _, rfl, rfl⟩
      · exact hwait rfl
      · have hstop := at_stop (q := (poll_next (E := E) call).machine.asks self) hat (.error e)
        refine keeps_ret h hq (.stopped oks [] (.unjudged item e) hstop) ⟨?_, fun _ => rfl⟩ (by rintro ⟨⟩)
        rw [hstop.items, hstop.resolved, yields_stopped (.unjudged item e),
          untilEnd_concat_item hrunning, hout]
      · have hstop := at_stop (q := (poll_next (E := E) call).machine.asks self) hat (.ok false)
        refine keeps_ret h hq (.stopped oks [] (.refused item) hstop) ⟨?_, fun _ => rfl⟩ (by rintro ⟨⟩)
        rw [hstop.items, hstop.resolved, yields_stopped (.refused item), untilEnd_concat_end, hout,
          List.append_nil]
      · show (Flow.ret (Poll.ready (self.pending_item.map (Except.ok (ε := E)))) _).Keeps _ _ _ _ _
        rw [hitem, Option.map_some]
        refine keeps_ret h hq (phase_accept running hat) ⟨?_, fun hmem => ?_⟩ (by rintro ⟨⟩)
        · have hyield := yields_accepted (E := E) (Nat.le_refl (oks ++ [item]).length)
          rw [List.take_length, List.length_append] at hyield
          rw [untilEnd_concat_item hrunning, hout, items_future, hat.items, resolved_ready, hat.resolved,
            ← List.replicate_succ']
          exact List.map_append.symm.trans hyield.symm
        · rcases end_mem_concat.mp hmem with hmem | heq
          · exact absurd hmem hrunning
          · cases heq
  | ended oks gone hat => exact absurd (htaking.symm.trans hat.done) Bool.false_ne_true
  | stopped oks rest hx hat => exact absurd (htaking.symm.trans hat.done) Bool.false_ne_true

/-- The beginning of a call. -/
theorem start_keeps (h : Books call f fields Out self calls (PollLoop.log calls)) :
    ((poll_next (E := E) call).start self).Keeps (AtRest call f fields Out)
      (Inside call f fields Out fun self => self.done_taking = false) calls k [] := by
  unfold poll_next
  dsimp only
  split
  · rename_i hdone
    show Books call f fields Out self (calls ++ [_]) (PollLoop.log (calls ++ [_]))
    rw [log_concat, List.append_nil]
    refine ⟨h.phase, h.asked, ?_, h.pending.concat (by rintro ⟨⟩)⟩
    rw [results_concat]
    refine ⟨?_, fun _ => hdone⟩
    rw [untilEnd_concat_end]
    exact h.out.1
  · rename_i htaking
    refine ⟨?_, Bool.eq_false_iff.mpr htaking⟩
    rw [List.append_nil]
    exact h

/-- The flag is up just when an element has stopped or the base has ended. -/
theorem done_iff (h : Phase call f self.fields log) :
    self.done_taking = true ↔
      (firstStop (items log) (resolved log)).isSome = true ∨ .ready none ∈ baseAnswers log := by
  cases h with
  | idle oks running h =>
      rw [h.items, h.resolved, firstStop_accepted (Nat.le_refl _)]
      exact iff_of_false (Bool.eq_false_iff.mp h.done) (not_or.mpr ⟨Bool.false_ne_true, running⟩)
  | busy oks item running h =>
      have hle : oks.length ≤ (oks ++ [item]).length := by
        rw [List.length_append]
        exact Nat.le_add_right _ _
      rw [h.items, h.resolved, firstStop_accepted hle]
      exact iff_of_false (Bool.eq_false_iff.mp h.done) (not_or.mpr ⟨Bool.false_ne_true, running⟩)
  | ended oks gone h => exact iff_of_true h.done (Or.inr gone)
  | stopped oks rest hx h =>
      rw [h.items, h.resolved, firstStop_stopped hx]
      exact iff_of_true h.done (Or.inl rfl)

end TryTakeWhile

/-! ## The law -/

/-- What a run of `TrySkipWhile` has done. -/
structure TrySkipWhile.Skips (call : φ → T → Fut × φ) (f : φ)
    (s : Run (TrySkipWhile φ Fut T) Fut T E (Except E Bool) (Except E T)) : Prop where
  yields : untilEnd (results s.calls) = TrySkipWhile.yields (items s.log) (resolved s.log)
  ended : .ready none ∈ results s.calls ↔ .ready none ∈ baseAnswers s.log
  judges : Judges call f TrySkipWhile.fields s

/-- What a run of `TryTakeWhile` has done. -/
structure TryTakeWhile.Takes (call : φ → T → Fut × φ) (f : φ)
    (s : Run (TryTakeWhile φ Fut T) Fut T E (Except E Bool) (Except E T)) : Prop where
  yields : untilEnd (results s.calls) = TryTakeWhile.yields (items s.log) (resolved s.log)
  ended : .ready none ∈ results s.calls →
    (firstStop (items s.log) (resolved s.log)).isSome = true ∨ .ready none ∈ baseAnswers s.log
  /-- Once an element has stopped or the base has ended, every call returns `None`, and
  polls neither the base nor a future. -/
  stays_ended : s.current = none →
    (firstStop (items s.log) (resolved s.log)).isSome = true ∨ .ready none ∈ baseAnswers s.log →
    ∀ later, (TryTakeWhile.poll_next (E := E) call).machine.Continues s later →
      ∀ c ∈ later, c.result = .ready none ∧ c.asked = []
  judges : Judges call f TryTakeWhile.fields s

/-- **What the two adaptors yield.** In every state of every run, for every predicate and
every placement of the pending answers: `TrySkipWhile` yields from the first element on
that is an error or that its predicate does not accept, and `TryTakeWhile` what comes
before it and then nothing, forever. The predicate is called once on each `Ok` element
up to that one. -/
theorem while_adaptors_cut_at_first_stop (φ Fut T E : Type) (call : φ → T → Fut × φ) (f : φ) :
    (∀ ls s, (TrySkipWhile.poll_next (E := E) call).machine.run (TrySkipWhile.new f) ls = some s →
      TrySkipWhile.Skips call f s) ∧
    ∀ ls s, (TryTakeWhile.poll_next (E := E) call).machine.run (TryTakeWhile.new f) ls = some s →
      TryTakeWhile.Takes call f s := by
  constructor
  · intro ls s hrun
    have hholds : s.Holds (AtRest call f TrySkipWhile.fields TrySkipWhile.Out)
        (Inside call f TrySkipWhile.fields TrySkipWhile.Out fun _ => True) := by
      refine run_keeps ⟨?_, .nil _, ⟨rfl, Iff.rfl⟩, fun c hc => by cases hc⟩ ?_ ?_ hrun
      · exact .idle [] List.not_mem_nil ⟨rfl, rfl, rfl, rfl, rfl, rfl⟩
      · intro self calls k h
        refine ⟨?_, trivial⟩
        rw [List.append_nil]
        exact h
      · intro self calls k asked a fl h hresume
        exact TrySkipWhile.round_keeps h.1 hresume
    have hbooks := books_of_holds hholds
    exact ⟨hbooks.out.1, hbooks.out.2, hbooks.judges⟩
  · intro ls s hrun
    have hholds : s.Holds (AtRest call f TryTakeWhile.fields TryTakeWhile.Out)
        (Inside call f TryTakeWhile.fields TryTakeWhile.Out fun self => self.done_taking = false) := by
      refine run_keeps ⟨?_, .nil _, ⟨rfl, ?_⟩, fun c hc => by cases hc⟩ ?_ ?_ hrun
      · exact .idle [] List.not_mem_nil ⟨rfl, rfl, rfl, rfl, rfl, rfl⟩
      · intro hmem
        cases hmem
      · intro self calls k h
        exact TryTakeWhile.start_keeps h
      · intro self calls k asked a fl h hresume
        exact TryTakeWhile.round_keeps h.1 h.2 hresume
    have hbooks := books_of_holds hholds
    have hdone := TryTakeWhile.done_iff hbooks.phase
    refine ⟨hbooks.out.1, fun hmem => hdone.mp (hbooks.out.2 hmem), ?_, hbooks.judges⟩
    intro hs hstop later hlater c hc
    obtain ⟨ls', s', hrun', hs', rfl⟩ := (Machine.continues_iff hs).mp hlater
    exact TryTakeWhile.stays_ended call (hdone.mpr hstop) hrun' hs' c hc

/-- Two items, the second of which the predicate refuses, and an error. -/
def refusedSecond : List (Act Unit (Answer ℕ ℕ (Except ℕ Bool))) :=
  [.call (), .answer (.base (.ready (some (.ok 5)))), .answer (.future .pending),
    .call (), .answer (.future (.ready (.ok true))), .answer (.base (.ready (some (.ok 6)))),
    .answer (.future (.ready (.ok false))),
    .call (), .answer (.base (.ready (some (.error 7))))]

theorem while_adaptors_cut_at_first_stop_refused :
    ∃ s, (TrySkipWhile.poll_next (E := ℕ) fun n item => ((n, item), n + 1)).machine.run
        (TrySkipWhile.new 0) refusedSecond = some s ∧
      untilEnd (results s.calls) = [.ok 6, .error 7] ∧
      firstStop (items s.log) (resolved s.log) = some 1 ∧
      TrySkipWhile.Skips (fun n item => ((n, item), n + 1)) 0 s := by
  have hrun : ((TrySkipWhile.poll_next (E := ℕ) fun n item => ((n, item), n + 1)).machine.run
      (TrySkipWhile.new 0) refusedSecond).map
        (fun s => (untilEnd (results s.calls), firstStop (items s.log) (resolved s.log))) =
      some ([.ok 6, .error 7], some 1) := rfl
  obtain ⟨s, hs, hseen⟩ := Option.map_eq_some_iff.mp hrun
  obtain ⟨hyielded, hstop⟩ := Prod.mk.inj hseen
  exact ⟨s, hs, hyielded, hstop,
    (while_adaptors_cut_at_first_stop ℕ (ℕ × ℕ) ℕ ℕ (fun n item => ((n, item), n + 1)) 0).1
      refusedSecond s hs⟩

end TokioStreamUtil
