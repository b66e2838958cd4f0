/-
What the adaptors that consume a stream resolve to.

`TryAll` and `TryAny` are one search: the items of the base are tried one at a time, and
the first future that resolves to the value that decides ends it, as does the first error
of the base, or its end. `TryCollect` and `TryConcat` gather the items the base has given
since it last ended. In all four a poll that is answered `Pending` changes nothing.
-/
import TokioStreamUtil.TryStream.Consuming
import TokioStreamUtil.TryStream.Listwise

set_option autoImplicit false

namespace TokioStreamUtil

open PollLoop OneAtATime OneByOne

variable {φ Fut T E C : Type}

/-! ## The search -/

namespace Quantifier

/-- The state between two steps. -/
abbrev Run (φ Fut T E : Type) :=
  State Unit (Quantifier φ Fut) (Option Fut) (Answer T E Bool) (Outcome (Except E Bool))

/-- What the elements of the base, its end included, come to when the futures of its items
resolve to `rs`. -/
def verdict (decides : Bool) : List (Option (Except E T)) → List Bool → Option (Except E Bool)
  | [], _ => none
  | none :: _, _ => some (.ok !decides)
  | some (.error e) :: _, _ => some (.error e)
  | some (.ok _) :: _, [] => none
  | some (.ok _) :: xs, r :: rs => if r = decides then some (.ok decides) else verdict decides xs rs

/-- What the log comes to. -/
def verdictOf (decides : Bool) (log : List (Option Fut × Answer T E Bool)) :
    Option (Except E Bool) := verdict decides (taken log) (resolved log)

/-- The items of the base. -/
def items (xs : List (Option (Except E T))) : List T :=
  xs.filterMap fun
    | some (.ok item) => some item
    | _ => none

/-- What a poll returns that finds the log as `before` and leaves it as `after`. -/
def outcome (decides : Bool) (before after : List (Option Fut × Answer T E Bool)) :
    Outcome (Except E Bool) :=
  match verdictOf decides before, verdictOf decides after with
  | some _, _ => .panicked
  | none, none => .poll .pending
  | none, some r => .poll (.ready r)

/-- A question is asked only while there is no verdict; a future in progress is polled
before another item is taken. -/
def Asked (decides : Bool) (call : φ → T → Fut × φ) (f : φ)
    (before : List (Option Fut × Answer T E Bool)) (x : Option Fut × Answer T E Bool) : Prop :=
  verdictOf decides before = none ∧
    x.1 = (tasks call f (items (taken before)))[(resolved before).length]?

/-- A poll returns what the elements so far come to, and panics when that was known
before. Only a pending answer makes it pending. -/
def Answered (decides : Bool) (earlier : Calls Fut T E)
    (c : Call Unit (Option Fut) (Answer T E Bool) (Outcome (Except E Bool))) : Prop :=
  c.result = outcome decides (log earlier) (log earlier ++ c.asked) ∧
    (c.result = .poll .pending → ∃ x ∈ c.asked.getLast?, x.2.isPending = true)

/-- What a run has done in the state `s`. -/
structure Resolves (decides : Bool) (call : φ → T → Fut × φ) (f : φ) (s : Run φ Fut T E) :
    Prop where
  asked : Throughout (Asked decides call f) s.log
  results : Throughout (Answered decides) s.calls
  /-- The closure was called once on each item, in order. -/
  closure : s.self.f = stateAfter call f (items (taken s.log))
  /-- The value that decides is the answer just when a future has resolved to it. -/
  decided : ∀ b, verdictOf decides s.log = some (.ok b) → (b = decides ↔ decides ∈ resolved s.log)

/-! ## Its invariant -/

section

variable {decides : Bool} {xs : List T} {rs : List Bool}

@[simp] theorem items_append (xs ys : List (Option (Except E T))) :
    items (xs ++ ys) = items xs ++ items ys := List.filterMap_append

@[simp] theorem items_map_ok (xs : List T) :
    items (xs.map fun x => (some (.ok x) : Option (Except E T))) = xs := by
  induction xs with
  | nil => rfl
  | cons x xs ih => exact congrArg (x :: ·) ih

/-- Items whose futures have not decided leave the rest to itself. -/
theorem verdict_append (hlen : xs.length = rs.length) (hrs : ∀ r ∈ rs, r = !decides)
    (ys : List (Option (Except E T))) (rs' : List Bool) :
    verdict decides ((xs.map fun x => some (.ok x)) ++ ys) (rs ++ rs') =
      verdict decides ys rs' := by
  induction xs generalizing rs with
  | nil =>
      obtain rfl := List.length_eq_zero_iff.mp hlen.symm
      rfl
  | cons x xs ih =>
      cases rs with
      | nil => cases hlen
      | cons r rs =>
          have hr : r ≠ decides := by
            rw [hrs r List.mem_cons_self]
            exact Bool.not_ne_self decides
          rw [List.map_cons, List.cons_append, List.cons_append, verdict, if_neg hr]
          apply ih (Nat.succ.inj hlen)
          exact fun r' hr' => hrs r' (List.mem_cons_of_mem r hr')

end

section

variable {decides : Bool} {call : φ → T → Fut × φ} {f : φ} {q : Quantifier φ Fut}
  {log : List (Option Fut × Answer T E Bool)}

/-- The search goes on: every item but the one in progress has been tried in vain. -/
structure Searching (decides : Bool) (call : φ → T → Fut × φ) (f : φ) (q : Quantifier φ Fut)
    (log : List (Option Fut × Answer T E Bool)) : Prop where
  done : q.done = false
  taken : OneAtATime.taken log = (items (OneAtATime.taken log)).map fun x => some (.ok x)
  vain : ∀ r ∈ resolved log, r = !decides
  closure : q.f = stateAfter call f (items (OneAtATime.taken log))
  idle : q.future = none → (items (OneAtATime.taken log)).length = (resolved log).length
  busy : ∀ fut, q.future = some fut → ∃ xs x, items (OneAtATime.taken log) = xs ++ [x] ∧
    xs.length = (resolved log).length ∧ fut = (call (stateAfter call f xs) x).1

/-- The search is over. -/
structure Found (decides : Bool) (call : φ → T → Fut × φ) (f : φ) (q : Quantifier φ Fut)
    (log : List (Option Fut × Answer T E Bool)) (r : Except E Bool) : Prop where
  done : q.done = true
  future : q.future = none
  verdict : verdictOf decides log = some r
  closure : q.f = stateAfter call f (items (OneAtATime.taken log))
  decided : ∀ b, r = .ok b → (b = decides ↔ decides ∈ resolved log)

namespace Searching

/-- As long as it goes on there is no verdict. -/
theorem verdict (h : Searching decides call f q log) : verdictOf decides log = none := by
  unfold verdictOf
  rw [h.taken]
  cases hfut : q.future with
  | none =>
      have happend := verdict_append (E := E) (h.idle hfut) h.vain [] []
      rw [List.append_nil, List.append_nil] at happend
      exact happend
  | some fut =>
      obtain ⟨xs, x, hitems, hlen, -⟩ := h.busy fut hfut
      have happend := verdict_append (E := E) hlen h.vain [some (.ok x)] []
      rw [List.append_nil] at happend
      rw [hitems, List.map_append]
      exact happend

/-- The future in progress is the one whose turn it is. -/
theorem future_eq (h : Searching decides call f q log) :
    q.future = (tasks call f (items (OneAtATime.taken log)))[(resolved log).length]? := by
  cases hfut : q.future with
  | none => rw [open_none (h.idle hfut)]
  | some fut =>
      obtain ⟨xs, x, hitems, hlen, rfl⟩ := h.busy fut hfut
      rw [hitems]
      exact (open_last hlen x).symm

variable {x : Option Fut}

/-- A pending answer changes nothing. -/
theorem wait (h : Searching decides call f q log) {a : Answer T E Bool} (ha : a.isPending = true) :
    Searching decides call f q (log ++ [(x, a)]) := by
  have htaken : OneAtATime.taken (log ++ [(x, a)]) = OneAtATime.taken log := by
    rw [taken_append]
    rcases a with (_ | r) | _ | r <;> first | exact List.append_nil _ | cases ha
  have hresolved : resolved (log ++ [(x, a)]) = resolved log := by
    rw [resolved_append]
    rcases a with (_ | r) | _ | r <;> first | exact List.append_nil _ | cases ha
  refine ⟨h.done, ?_, ?_, ?_, ?_, ?_⟩
  · rw [htaken]
    exact h.taken
  · rw [hresolved]
    exact h.vain
  · rw [htaken]
    exact h.closure
  · rw [htaken, hresolved]
    exact h.idle
  · rw [htaken, hresolved]
    exact h.busy

/-- With nothing in progress, the base gives an item. -/
theorem item (h : Searching decides call f q log) (hq : q.future = none) (item : T) :
    Searching decides call f
      { q with future := some (call q.f item).1, f := (call q.f item).2 }
      (log ++ [(x, .base (.ready (some (.ok item))))]) := by
  have htaken : OneAtATime.taken (log ++ [(x, (.base (.ready (some (.ok item))) : Answer T E Bool))]) =
      OneAtATime.taken log ++ [some (.ok item)] := taken_append _ _
  have hitems : items (OneAtATime.taken log ++ [some (.ok item)]) =
      items (OneAtATime.taken log) ++ [item] := items_append _ _
  have hresolved : resolved (log ++ [(x, (.base (.ready (some (.ok item))) : Answer T E Bool))]) =
      resolved log := (resolved_append _ _).trans (List.append_nil _)
  refine ⟨h.done, ?_, ?_, ?_, by rintro ⟨⟩, ?_⟩
  · rw [htaken, hitems, List.map_append, ← h.taken]
    rfl
  · rw [hresolved]
    exact h.vain
  · rw [htaken, hitems, stateAfter_concat, ← h.closure]
  · intro fut hfut
    refine ⟨items (OneAtATime.taken log), item, ?_, ?_, ?_⟩
    · rw [htaken, hitems]
    · rw [hresolved]
      exact h.idle hq
    · rw [← h.closure]
      exact (Option.some.inj hfut).symm

/-- With nothing in progress, the base gives an error or ends. -/
theorem last (h : Searching decides call f q log) (hq : q.future = none)
    {y : Option (Except E T)} {r : Except E Bool} (hy : Quantifier.verdict decides [y] [] = some r)
    (hr : ∀ b, r = .ok b → b = !decides) :
    Found decides call f { q with done := true } (log ++ [(x, .base (.ready y))]) r := by
  have htaken : OneAtATime.taken (log ++ [(x, (.base (.ready y) : Answer T E Bool))]) =
      OneAtATime.taken log ++ [y] := taken_append _ _
  have hresolved : resolved (log ++ [(x, (.base (.ready y) : Answer T E Bool))]) = resolved log :=
    (resolved_append _ _).trans (List.append_nil _)
  have hnone : items [y] = [] := by
    rcases y with _ | e | item
    · rfl
    · rfl
    · cases hy
  refine ⟨rfl, hq, ?_, ?_, ?_⟩
  · have happend := verdict_append (E := E) (h.idle hq) h.vain [y] []
    rw [List.append_nil, ← h.taken] at happend
    unfold verdictOf
    rw [htaken, hresolved, happend, hy]
  · rw [htaken, items_append, hnone, List.append_nil]
    exact h.closure
  · intro b hb
    rw [hresolved, hr b hb]
    apply iff_of_false (Bool.not_ne_self decides)
    exact fun hmem => Bool.not_ne_self decides (h.vain decides hmem).symm

/-- The future in progress resolves, and does not decide. -/
theorem next (h : Searching decides call f q log) {fut : Fut} (hq : q.future = some fut) :
    Searching decides call f { q with future := none } (log ++ [(x, .future (.ready !decides))]) := by
  have htaken : OneAtATime.taken (log ++ [(x, (.future (.ready !decides) : Answer T E Bool))]) =
      OneAtATime.taken log := (taken_append _ _).trans (List.append_nil _)
  have hresolved : resolved (log ++ [(x, (.future (.ready !decides) : Answer T E Bool))]) =
      resolved log ++ [!decides] := resolved_append _ _
  obtain ⟨xs, y, hitems, hlen, -⟩ := h.busy fut hq
  refine ⟨h.done, ?_, ?_, ?_, fun _ => ?_, by rintro _ ⟨⟩⟩
  · rw [htaken]
    exact h.taken
  · intro r hr
    rw [hresolved, List.mem_append, List.mem_singleton] at hr
    exact hr.elim (h.vain r) id
  · rw [htaken]
    exact h.closure
  · rw [htaken, hresolved, hitems, List.length_append, List.length_append, hlen]
    rfl

/-- The future in progress resolves, and decides. -/
theorem decide (h : Searching decides call f q log) {fut : Fut} (hq : q.future = some fut) :
    Found decides call f { q with future := none, done := true }
      (log ++ [(x, .future (.ready decides))]) (.ok decides) := by
  have htaken : OneAtATime.taken (log ++ [(x, (.future (.ready decides) : Answer T E Bool))]) =
      OneAtATime.taken log := (taken_append _ _).trans (List.append_nil _)
  have hresolved : resolved (log ++ [(x, (.future (.ready decides) : Answer T E Bool))]) =
      resolved log ++ [decides] := resolved_append _ _
  obtain ⟨xs, y, hitems, hlen, -⟩ := h.busy fut hq
  refine ⟨rfl, rfl, ?_, ?_, ?_⟩
  · have happend := verdict_append (E := E) hlen h.vain [some (.ok y)] [decides]
    unfold verdictOf
    rw [htaken, hresolved, h.taken, hitems, List.map_append]
    refine happend.trans ?_
    rw [Quantifier.verdict, if_pos rfl]
  · rw [htaken]
    exact h.closure
  · intro b hb
    obtain rfl := Except.ok.inj hb
    rw [hresolved]
    exact iff_of_true rfl (List.mem_append_right _ List.mem_cons_self)

end Searching

/-- The history between polls, with the search going on or over. -/
def Law (decides : Bool) (call : φ → T → Fut × φ) (f : φ) (q : Quantifier φ Fut)
    (calls : Calls Fut T E) : Prop :=
  Throughout (Asked decides call f) (PollLoop.log calls) ∧ Throughout (Answered decides) calls ∧
    (Searching decides call f q (PollLoop.log calls) ∨
      ∃ r, Found decides call f q (PollLoop.log calls) r)

/-- The history at the head of the loop. -/
def LawInside (decides : Bool) (call : φ → T → Fut × φ) (f : φ) (q : Quantifier φ Fut)
    (calls : Calls Fut T E) (_ : Unit) (asked : List (Option Fut × Answer T E Bool)) : Prop :=
  Throughout (Asked decides call f) (PollLoop.log calls ++ asked) ∧
    Throughout (Answered decides) calls ∧ verdictOf decides (PollLoop.log calls) = none ∧
    Searching decides call f q (PollLoop.log calls ++ asked)

/-- A search that goes on does not panic. -/
theorem Searching.head (h : Searching decides call f q log) :
    q.head = (.again q : Flow _ (Outcome (Except E Bool))) := by
  unfold Quantifier.head
  rw [h.done, Bool.and_false]
  rfl

variable {calls : Calls Fut T E} {k : Unit} {asked : List (Option Fut × Answer T E Bool)}

/-- A poll begins. -/
theorem law_enter (h : Law decides call f q calls) :
    (q.head).Keeps (Law decides call f) (LawInside decides call f) calls k [] := by
  obtain ⟨hasked, hanswered, hsearch | ⟨r, hfound⟩⟩ := h
  · rw [hsearch.head]
    refine ⟨?_, hanswered, hsearch.verdict, ?_⟩
    · rw [List.append_nil]
      exact hasked
    · rw [List.append_nil]
      exact hsearch
  · -- it panics, and the history stays as it is
    have hhead : q.head = (.ret .panicked q : Flow _ (Outcome (Except E Bool))) := by
      unfold Quantifier.head
      rw [hfound.done, hfound.future]
      rfl
    rw [hhead]
    have hlog : PollLoop.log (calls ++ [⟨k, [], .panicked⟩]) = PollLoop.log calls := by
      rw [log_concat]
      exact List.append_nil _
    refine ⟨hlog ▸ hasked, hanswered.concat ⟨?_, by rintro ⟨⟩⟩, Or.inr ⟨r, hlog ▸ hfound⟩⟩
    unfold outcome
    rw [hfound.verdict]

/-- One answer. -/
theorem law_resume {a : Answer T E Bool} {fl : Flow (Quantifier φ Fut) (Outcome (Except E Bool))}
    (h : LawInside decides call f q calls k asked)
    (hresume : (machine decides call).resume q a = some fl) :
    fl.Keeps (Law decides call f) (LawInside decides call f) calls k
      (asked ++ [((machine (E := E) decides call).asks q, a)]) := by
  obtain ⟨hasked, hanswered, hbefore, hsearch⟩ := h
  have hlog : PollLoop.log calls ++ (asked ++ [(q.future, a)]) =
      PollLoop.log calls ++ asked ++ [(q.future, a)] := (List.append_assoc _ _ _).symm
  have hround : Throughout (Asked decides call f) (PollLoop.log calls ++ (asked ++ [(q.future, a)])) := by
    rw [hlog]
    exact hasked.concat ⟨hsearch.verdict, hsearch.future_eq⟩
  -- the loop goes round
  have hagain : ∀ q', Searching decides call f q' (PollLoop.log calls ++ asked ++ [(q.future, a)]) →
      LawInside decides call f q' calls k (asked ++ [(q.future, a)]) := by
    intro q' h'
    exact ⟨hround, hanswered, hbefore, hlog ▸ h'⟩
  -- the search is over
  have hfound : ∀ q' r, Found decides call f q' (PollLoop.log calls ++ asked ++ [(q.future, a)]) r →
      Law decides call f q' (calls ++ [⟨k, asked ++ [(q.future, a)], .poll (.ready r)⟩]) := by
    intro q' r h'
    refine ⟨log_concat calls _ ▸ hround, hanswered.concat ⟨?_, by rintro ⟨⟩⟩, Or.inr ⟨r, ?_⟩⟩
    · unfold outcome
      dsimp only
      rw [hbefore, hlog, h'.verdict]
    · rw [log_concat, hlog]
      exact h'
  -- the answer is pending
  have hwait : a.isPending = true →
      Law decides call f q (calls ++ [⟨k, asked ++ [(q.future, a)], .poll .pending⟩]) := by
    intro ha
    have h' := hsearch.wait (x := q.future) ha
    refine ⟨log_concat calls _ ▸ hround, hanswered.concat ⟨?_, fun _ => ?_⟩, Or.inl ?_⟩
    · unfold outcome
      dsimp only
      rw [hbefore, hlog, h'.verdict]
    · exact ⟨(q.future, a), List.getLast?_concat, ha⟩
    · rw [log_concat, hlog]
      exact h'
  unfold machine at hresume
  dsimp only at hresume
  cases hq : q.future with
  | some fut =>
      rw [hq] at hresume
      rcases a with r | _ | acc
      · cases hresume
      · obtain rfl := Option.some.inj hresume
        exact hwait rfl
      · obtain rfl := Option.some.inj hresume
        unfold onFuture
        by_cases hacc : acc = decides
        · subst hacc
          rw [if_pos rfl]
          exact hfound _ _ (hsearch.decide hq)
        · rw [if_neg hacc]
          obtain rfl : acc = !decides := Bool.eq_not.mpr hacc
          have h' := hsearch.next (x := q.future) hq
          rw [h'.head]
          exact hagain _ h'
  | none =>
      rw [hq] at hresume
      rcases a with (_ | _ | e | item) | r
      · obtain rfl := Option.some.inj hresume
        exact hwait rfl
      · obtain rfl := Option.some.inj hresume
        exact hfound _ _ (hsearch.last hq rfl fun b hb => (Except.ok.inj hb).symm)
      · obtain rfl := Option.some.inj hresume
        exact hfound _ _ (hsearch.last hq rfl (by rintro b ⟨⟩))
      · obtain rfl := Option.some.inj hresume
        exact hagain _ (hsearch.item hq item)
      · cases hresume

/-- **The rule for the search.** -/
theorem resolves {ls : List (Act Unit (Answer T E Bool))} {s : Run φ Fut T E}
    (hrun : (machine decides call).run (new f) ls = some s) : Resolves decides call f s := by
  have hnew : Law (E := E) decides call f (new f : Quantifier φ Fut) [] := by
    refine ⟨.nil, .nil, Or.inl ⟨rfl, rfl, ?_, rfl, fun _ => rfl, by rintro fut ⟨⟩⟩⟩
    rintro r ⟨⟩
  have hholds := run_keeps hnew (fun _ _ _ h => law_enter h) (fun _ _ _ _ _ _ h hr => law_resume h hr) hrun
  have hsearching : ∀ {log : List (Option Fut × Answer T E Bool)},
      Searching decides call f s.self log → s.self.f = stateAfter call f (items (taken log)) ∧
        ∀ b, verdictOf decides log = some (.ok b) → (b = decides ↔ decides ∈ resolved log) := by
    intro log h
    refine ⟨h.closure, fun b hb => ?_⟩
    rw [h.verdict] at hb
    cases hb
  unfold State.Holds at hholds
  cases hcurrent : s.current with
  | none =>
      rw [hcurrent] at hholds
      obtain ⟨hasked, hanswered, hsearch⟩ := hholds
      have hlog : s.log = PollLoop.log s.calls := by
        unfold State.log
        rw [hcurrent]
      refine ⟨hlog ▸ hasked, hanswered, ?_, ?_⟩
      · rw [hlog]
        exact hsearch.elim (fun h => (hsearching h).1) fun ⟨r, h⟩ => h.closure
      · rw [hlog]
        rcases hsearch with h | ⟨r, h⟩
        · exact (hsearching h).2
        · intro b hb
          rw [h.verdict] at hb
          exact h.decided b (Option.some.inj hb)
  | some c =>
      rw [hcurrent] at hholds
      obtain ⟨hasked, hanswered, -, hsearch⟩ := hholds
      have hlog : s.log = PollLoop.log s.calls ++ c.2 := by
        unfold State.log
        rw [hcurrent]
      refine ⟨hlog ▸ hasked, hanswered, ?_, ?_⟩
      · rw [hlog]
        exact (hsearching hsearch).1
      · rw [hlog]
        exact (hsearching hsearch).2

end

end Quantifier

/-! ## The two that gather -/

section

variable {σ : Type}

/-- The calls of a `poll` that gathers. -/
abbrev GatherCalls (T E C : Type) := List (Call Unit Unit (TryPoll T E) (Poll (Except E C)))

/-- The `Ok` items among the answers of the base. -/
def okItems (answers : List (TryPoll T E)) : List T :=
  answers.filterMap fun
    | .ready (some (.ok item)) => some item
    | _ => none

/-- What the polls have returned with `Ok`. -/
def gathered (calls : GatherCalls T E C) : List C :=
  (results calls).filterMap fun
    | .ready (.ok c) => some c
    | _ => none

/-- What a poll returns on the answer that ends its loop, when the items `xs` have come
since the base last ended. -/
def gathering (gather : List T → C) (xs : List T) : TryPoll T E → Option (Poll (Except E C))
  | .ready (some (.ok _)) => none
  | .ready (some (.error e)) => some (.ready (.error e))
  | .ready none => some (.ready (.ok (gather xs)))
  | .pending => some .pending

/-- A poll takes `Ok` items until the base answers otherwise, and returns by that answer. -/
def Gathered (gather : List T → C) (earlier : GatherCalls T E C)
    (c : Call Unit Unit (TryPoll T E) (Poll (Except E C))) : Prop :=
  ∃ xs last, c.asked.map Prod.snd = (xs.map fun x => .ready (some (.ok x))) ++ [last] ∧
    gathering gather (sinceEnd (answered earlier) ++ xs) last = some c.result

/-- What a run has done in the state `s`. -/
structure Gathers (gather : List T → C)
    (s : State Unit σ Unit (TryPoll T E) (Poll (Except E C))) : Prop where
  results : Throughout (Gathered gather) s.calls
  /-- Every item is in one batch, or is held, in order: an error loses none. -/
  batches : ∃ batches : List (List T), gathered s.calls = batches.map gather ∧
    batches.flatten ++ sinceEnd (s.log.map Prod.snd) = okItems (s.log.map Prod.snd)

/-- The parts of a machine that gathers. `holds s xs` says that the state holds `xs`. -/
structure Gatherer (M : Machine Unit σ Unit (TryPoll T E) (Poll (Except E C)))
    (gather : List T → C) (holds : σ → List T → Prop) : Prop where
  enter : ∀ k s, M.enter k s = .again s
  item : ∀ s xs item, holds s xs →
    ∃ s', M.resume s (.ready (some (.ok item))) = some (.again s') ∧ holds s' (xs ++ [item])
  error : ∀ s e, M.resume s (.ready (some (.error e))) = some (.ret (.ready (.error e)) s)
  ended : ∀ s xs, holds s xs →
    ∃ s', M.resume s (.ready none) = some (.ret (.ready (.ok (gather xs))) s') ∧ holds s' []
  pending : ∀ s, M.resume s .pending = some (.ret .pending s)

variable {gather : List T → C} {holds : σ → List T → Prop}
  {M : Machine Unit σ Unit (TryPoll T E) (Poll (Except E C))} {s : σ} {calls : GatherCalls T E C}
  {k : Unit} {asked : List (Unit × TryPoll T E)}

@[simp] theorem okItems_append (l₁ l₂ : List (TryPoll T E)) :
    okItems (l₁ ++ l₂) = okItems l₁ ++ okItems l₂ := List.filterMap_append

@[simp] theorem gathered_concat (c : Call Unit Unit (TryPoll T E) (Poll (Except E C))) :
    gathered (calls ++ [c]) = gathered calls ++ gathered [c] := by
  unfold gathered
  rw [results_concat, List.filterMap_append]
  rfl

/-- Items are held after those that were held. -/
theorem sinceEnd_append_items (answers : List (TryPoll T E)) (xs : List T) :
    sinceEnd (answers ++ xs.map fun x => .ready (some (.ok x))) = sinceEnd answers ++ xs := by
  induction xs generalizing answers with
  | nil => simp
  | cons x xs ih =>
      rw [List.map_cons, List.append_cons, ih, sinceEnd_append_item, List.append_assoc]
      rfl

/-- The books: what has been returned, and what is held. -/
def Balanced (gather : List T → C) (calls : GatherCalls T E C) (answers : List (TryPoll T E)) :
    Prop :=
  ∃ batches : List (List T), gathered calls = batches.map gather ∧
    batches.flatten ++ sinceEnd answers = okItems answers

/-- Between polls. -/
def GatherLaw (gather : List T → C) (holds : σ → List T → Prop) (s : σ)
    (calls : GatherCalls T E C) : Prop :=
  holds s (sinceEnd (answered calls)) ∧ Throughout (Gathered gather) calls ∧
    Balanced gather calls (answered calls)

/-- At the head of the loop: the base has given items only. -/
def GatherLawInside (gather : List T → C) (holds : σ → List T → Prop) (s : σ)
    (calls : GatherCalls T E C) (_ : Unit) (asked : List (Unit × TryPoll T E)) : Prop :=
  ∃ xs : List T, asked.map Prod.snd = (xs.map fun x => .ready (some (.ok x))) ∧
    holds s (sinceEnd (answered calls) ++ xs) ∧ Throughout (Gathered gather) calls ∧
    Balanced gather calls (answered calls ++ asked.map Prod.snd)

/-- A poll returns, by the answer `last`. -/
theorem GatherLawInside.ret {r : Poll (Except E C)} {s' : σ}
    (h : GatherLawInside gather holds s calls k asked) (last : TryPoll T E)
    (hr : ∀ xs, gathering gather (sinceEnd (answered calls) ++ xs) last = some r →
      asked.map Prod.snd = (xs.map fun x => .ready (some (.ok x))) →
      holds s' (sinceEnd (answered calls ++ asked.map Prod.snd ++ [last])) ∧
      Balanced gather (calls ++ [⟨k, asked ++ [((), last)], r⟩])
        (answered calls ++ asked.map Prod.snd ++ [last]))
    (hlast : ∀ xs, asked.map Prod.snd = (xs.map fun x => .ready (some (.ok x))) →
      gathering gather (sinceEnd (answered calls) ++ xs) last = some r) :
    GatherLaw gather holds s' (calls ++ [⟨k, asked ++ [((), last)], r⟩]) := by
  obtain ⟨xs, hasked, hholds, hthroughout, hbalanced⟩ := h
  have hanswered : answered (calls ++ [(⟨k, asked ++ [((), last)], r⟩ : Call _ _ _ _)]) =
      answered calls ++ asked.map Prod.snd ++ [last] := by
    rw [answered_concat, List.map_append, List.append_assoc]
    rfl
  obtain ⟨hheld, hbal⟩ := hr xs (hlast xs hasked) hasked
  refine ⟨hanswered ▸ hheld, hthroughout.concat ⟨xs, last, ?_, hlast xs hasked⟩, hanswered ▸ hbal⟩
  rw [List.map_append, hasked]
  rfl

/-- An answer that is no item and no end leaves the books as they are. -/
theorem Balanced.quiet {answers : List (TryPoll T E)} (h : Balanced gather calls answers)
    {c : Call Unit Unit (TryPoll T E) (Poll (Except E C))} {last : TryPoll T E}
    (hc : gathered [c] = []) (hsince : sinceEnd (answers ++ [last]) = sinceEnd answers)
    (hlast : okItems [last] = []) : Balanced gather (calls ++ [c]) (answers ++ [last]) := by
  obtain ⟨batches, hbatches, hflat⟩ := h
  refine ⟨batches, ?_, ?_⟩
  · rw [gathered_concat, hc, List.append_nil]
    exact hbatches
  · rw [hsince, okItems_append, hlast, List.append_nil]
    exact hflat

/-- One answer. -/
theorem Gatherer.law_resume (hM : Gatherer M gather holds) {r : TryPoll T E}
    {fl : Flow σ (Poll (Except E C))} (h : GatherLawInside gather holds s calls k asked)
    (hresume : M.resume s r = some fl) :
    fl.Keeps (GatherLaw gather holds) (GatherLawInside gather holds) calls k
      (asked ++ [((), r)]) := by
  obtain ⟨xs, hasked, hholds, hthroughout, hbalanced⟩ := id h
  -- what is held before the answer
  have hsince : sinceEnd (answered calls ++ asked.map Prod.snd) = sinceEnd (answered calls) ++ xs := by
    rw [hasked]
    exact sinceEnd_append_items _ _
  rcases r with _ | _ | e | item
  · rw [hM.pending] at hresume
    obtain rfl := Option.some.inj hresume
    apply h.ret .pending
    · intro xs' _ _
      rw [sinceEnd_append_pending, hsince]
      exact ⟨hholds, hbalanced.quiet rfl (sinceEnd_append_pending _) rfl⟩
    · exact fun _ _ => rfl
  · obtain ⟨s', hs', hempty⟩ := hM.ended s _ hholds
    rw [hs'] at hresume
    obtain rfl := Option.some.inj hresume
    obtain ⟨batches, hbatches, hflat⟩ := hbalanced
    apply h.ret (.ready none)
    · intro xs' hxs' _
      rw [sinceEnd_append_end]
      refine ⟨hempty, batches ++ [sinceEnd (answered calls) ++ xs], ?_, ?_⟩
      · rw [gathered_concat, hbatches, List.map_append]
        rfl
      · rw [sinceEnd_append_end, okItems_append, ← hflat, hsince]
        simp [okItems]
    · intro xs' hxs'
      obtain rfl : xs' = xs := by
        have hmap := hxs'.symm.trans hasked
        exact List.map_injective_iff.mpr (fun a b hab => by simpa using hab) hmap
      rfl
  · rw [hM.error] at hresume
    obtain rfl := Option.some.inj hresume
    apply h.ret (.ready (some (.error e)))
    · intro xs' _ _
      rw [sinceEnd_append_error, hsince]
      exact ⟨hholds, hbalanced.quiet rfl (sinceEnd_append_error _ _) rfl⟩
    · exact fun _ _ => rfl
  · obtain ⟨s', hs', hmore⟩ := hM.item s _ item hholds
    rw [hs'] at hresume
    obtain rfl := Option.some.inj hresume
    obtain ⟨batches, hbatches, hflat⟩ := hbalanced
    refine ⟨xs ++ [item], ?_, ?_, hthroughout, batches, hbatches, ?_⟩
    · rw [List.map_append, List.map_append, hasked]
      rfl
    · rw [← List.append_assoc]
      exact hmore
    · have hmap : answered calls ++ (asked ++ [((), (.ready (some (.ok item)) : TryPoll T E))]).map
          Prod.snd = answered calls ++ asked.map Prod.snd ++ [.ready (some (.ok item))] := by
        rw [List.map_append, List.append_assoc]
        rfl
      rw [hmap, sinceEnd_append_item, ← List.append_assoc, hflat]
      exact (okItems_append _ [.ready (some (.ok item))]).symm

/-- **The rule for the two.** -/
theorem Gatherer.gathers (hM : Gatherer M gather holds) {new : σ} (hnew : holds new [])
    {ls : List (Act Unit (TryPoll T E))} {s : State Unit σ Unit (TryPoll T E) (Poll (Except E C))}
    (hrun : M.run new ls = some s) : Gathers gather s := by
  have hstart : GatherLaw (E := E) gather holds new [] := ⟨hnew, .nil, [], rfl, rfl⟩
  have hholds : s.Holds (GatherLaw gather holds) (GatherLawInside gather holds) := by
    refine run_keeps hstart ?_ (fun _ _ _ _ _ _ h hr => hM.law_resume h hr) hrun
    rintro s calls k ⟨hheld, hthroughout, hbalanced⟩
    rw [hM.enter]
    refine ⟨[], rfl, ?_, hthroughout, ?_⟩
    · rw [List.append_nil]
      exact hheld
    · rw [List.map_nil, List.append_nil]
      exact hbalanced
  have hlog : (PollLoop.log s.calls).map Prod.snd = answered s.calls := List.map_flatMap
  unfold State.Holds at hholds
  cases hcurrent : s.current with
  | none =>
      rw [hcurrent] at hholds
      obtain ⟨-, hthroughout, hbalanced⟩ := hholds
      refine ⟨hthroughout, ?_⟩
      unfold State.log
      rw [hcurrent]
      dsimp only
      rw [hlog]
      exact hbalanced
  | some c =>
      rw [hcurrent] at hholds
      obtain ⟨xs, -, -, hthroughout, hbalanced⟩ := hholds
      refine ⟨hthroughout, ?_⟩
      unfold State.log
      rw [hcurrent]
      dsimp only
      rw [List.map_append, hlog]
      exact hbalanced

end

theorem TryCollect.gatherer (default : C) (extend : C → T → C) :
    Gatherer (machine E default extend) (fun xs => xs.foldl extend default)
      fun s xs => s.items = xs.foldl extend default where
  enter := fun _ _ => rfl
  item := by
    intro s xs item hs
    refine ⟨_, rfl, ?_⟩
    rw [List.foldl_append, ← hs]
    rfl
  error := fun _ _ => rfl
  ended := by
    intro s xs hs
    rw [← hs]
    exact ⟨_, rfl, rfl⟩
  pending := fun _ => rfl

/-- The items joined from the left, or the default if there is none. -/
def TryConcat.concat (default : T) (extend : T → T → T) : List T → T
  | [] => default
  | x :: xs => xs.foldl extend x

theorem TryConcat.gatherer (default : T) (extend : T → T → T) :
    Gatherer (machine E default extend) (concat default extend)
      fun s xs => s.accum = if xs = [] then none else some (concat default extend xs) where
  enter := fun _ _ => rfl
  item := by
    intro s xs item hs
    cases xs with
    | nil =>
        refine ⟨{ accum := some item }, ?_, rfl⟩
        unfold machine
        dsimp only
        rw [hs]
        rfl
    | cons x xs =>
        refine ⟨{ accum := some (extend (concat default extend (x :: xs)) item) }, ?_, ?_⟩
        · unfold machine
          dsimp only
          rw [hs]
          rfl
        · show some _ = some ((xs ++ [item]).foldl extend x)
          rw [List.foldl_append]
          rfl
  error := fun _ _ => rfl
  ended := by
    intro s xs hs
    refine ⟨{ accum := none }, ?_, rfl⟩
    have hgather : s.accum.getD default = concat default extend xs := by
      rw [hs]
      cases xs <;> rfl
    rw [← hgather]
    rfl
  pending := fun _ => rfl

/-! ## The theorems -/

/-- **`TryAll` and `TryAny` resolve to what their items come to.** In every state of every
run, whatever the closure and wherever the base and the futures are pending: a poll returns
what the elements of the base, taken one at a time, have come to (`false` for `TryAll` and
`true` for `TryAny` by the first future that says so, the first error of the base, or the
other value at its end), or `Pending` after a pending answer, and panics once it has
returned. The closure is called on each item in order, a future is polled until it resolves
before the base is asked again, and nothing is asked once the answer is known. -/
theorem try_all_try_any_resolve (call : φ → T → Fut × φ) (f : φ)
    (ls : List (Act Unit (Answer T E Bool))) (s : Quantifier.Run φ Fut T E) :
    ((TryAll.machine call).run (Quantifier.new f) ls = some s →
      Quantifier.Resolves false call f s) ∧
    ((TryAny.machine call).run (Quantifier.new f) ls = some s →
      Quantifier.Resolves true call f s) :=
  ⟨Quantifier.resolves, Quantifier.resolves⟩

/-- The future of the second item says no. -/
def secondSaysNo : List (Act Unit (Answer ℕ ℕ Bool)) :=
  [.call (), .answer (.base (.ready (some (.ok 1)))), .answer (.future .pending), .call (),
    .answer (.future (.ready true)), .answer (.base (.ready (some (.ok 2)))),
    .answer (.future (.ready false)), .call ()]

theorem try_all_try_any_resolve_second :
    ∃ s : Quantifier.Run Unit ℕ ℕ ℕ,
      (TryAll.machine fun f n => (n, f)).run (Quantifier.new ()) secondSaysNo = some s ∧
      results s.calls = [.poll .pending, .poll (.ready (.ok false)), .panicked] ∧
      Quantifier.Resolves false (fun f n => (n, f)) () s :=
  ⟨_, rfl, rfl, (try_all_try_any_resolve _ () secondSaysNo _).1 rfl⟩

/-- **`TryCollect` and `TryConcat` gather the items since the base last ended.** In every
state of every run: a poll takes `Ok` items until the base answers otherwise, and returns
`Pending` or the error when it does so; when the base ends, it returns the items the base
has given since it last ended, in order, with those before an error among them. So every
item is in exactly one of the results, or held for the next. -/
theorem try_collect_try_concat_gather (E : Type) (ls : List (Act Unit (TryPoll T E))) :
    (∀ (default : C) (extend : C → T → C) s,
      (TryCollect.machine E default extend).run (TryCollect.new default) ls = some s →
      Gathers (fun xs => xs.foldl extend default) s) ∧
    (∀ (default : T) (extend : T → T → T) s,
      (TryConcat.machine E default extend).run (TryConcat.new T) ls = some s →
      Gathers (TryConcat.concat default extend) s) :=
  ⟨fun default extend _ hrun => (TryCollect.gatherer default extend).gathers rfl hrun,
    fun default extend _ hrun => (TryConcat.gatherer default extend).gathers rfl hrun⟩

/-- An error comes between two items. -/
def errorBetween : List (Act Unit (TryPoll ℕ ℕ)) :=
  [.call (), .answer (.ready (some (.ok 1))), .answer (.ready (some (.error 7))), .call (),
    .answer (.ready (some (.ok 2))), .answer (.ready none)]

/-- The poll after the error returns the items on either side of it. -/
theorem try_collect_try_concat_gather_after_error :
    ∃ s, (TryCollect.machine ℕ ([] : List ℕ) fun items item => items ++ [item]).run
        (TryCollect.new []) errorBetween = some s ∧
      results s.calls = [.ready (.error 7), .ready (.ok [1, 2])] ∧
      Gathers (fun xs => xs.foldl (fun items item => items ++ [item]) []) s :=
  ⟨_, rfl, rfl, (try_collect_try_concat_gather ℕ errorBetween).1 [] _ _ rfl⟩

end TokioStreamUtil
