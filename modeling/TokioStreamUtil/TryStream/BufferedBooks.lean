/-
The books of the buffering adaptors.

A call that returns an item has it from the queue or from the base, in that call; a call
that returns `Pending` has been told so by one of the two; and `Ready(None)` comes when
the base has ended and the queue has handed out an output for every future. `Sound` says
this of every call, and of the one in progress as far as it has come.
-/
import TokioStreamUtil.TryStream.BufferedCalls
import TokioStreamUtil.TryStream.BufferedLimit

set_option autoImplicit false

namespace TokioStreamUtil.Buffered

open FuturesUnordered (Polled PollNext)
open FuturesUnordered.State (outputOf)

variable {E T F W : Type} {Q : InProgressQueue F (Except E T) W}

/-! ## What is asked of the environment -/

/-- No poll unwinds in the step `a`, neither the base nor a future nor the arithmetic of
the queue, and futures are true to what they agree with. -/
def Allowed (polls : Q.Polling) (overflows : Q.State → Prop) (Agrees : F → Except E T → Prop)
    (s : Watched Q) : Act Q → Prop
  | .base _ r => r ≠ .unwound ∧ (gives r = true → ¬ overflows s.state.in_progress_queue)
  | .queue a => ∀ fut r, polls s.state.in_progress_queue a = some (fut, r) → r.Honest Agrees fut
  | _ => True

/-- Whether a poll is allowed is decided on the future that it polls. -/
instance [DecidableEq E] [DecidableEq T] (value : F → Except E T) (fut : F)
    (r : Polled F (Except E T)) : Decidable (r.Honest (fun fut o => value fut = o) fut) :=
  match r with
  | .pending fut' =>
      decidable_of_iff (value fut' = value fut)
        ⟨fun h _ ho => h.symm.trans ho, fun h => (h _ rfl).symm⟩
  | .ready o => inferInstanceAs (Decidable (value fut = o))
  | .unwind => isFalse id

/-- Without a value to be true to, a future only must not unwind. -/
instance {O : Type} (fut : F) (r : Polled F O) : Decidable (r.Honest (fun _ _ => True) fut) :=
  match r with
  | .pending _ => isTrue fun _ _ => trivial
  | .ready _ => isTrue trivial
  | .unwind => isFalse id

instance (polls : Q.Polling) (overflows : Q.State → Prop) [DecidablePred overflows]
    (Agrees : F → Except E T → Prop)
    [∀ fut (r : Polled F (Except E T)), Decidable (r.Honest Agrees fut)]
    (s : Watched Q) (a : Act Q) : Decidable (Allowed polls overflows Agrees s a) :=
  match a with
  | .base _ .unwound => isFalse fun h => h.1 rfl
  | .base _ .pending => isTrue ⟨nofun, nofun⟩
  | .base _ (.ready none) => isTrue ⟨nofun, nofun⟩
  | .base _ (.ready (some (.error _))) => isTrue ⟨nofun, nofun⟩
  | .base _ (.ready (some (.ok _))) =>
      decidable_of_iff (¬ overflows s.state.in_progress_queue)
        ⟨fun h => ⟨nofun, fun _ => h⟩, fun h => h.2 rfl⟩
  | .queue a =>
      match h : polls s.state.in_progress_queue a with
      | none => isTrue fun _ _ heq => by rw [h] at heq; cases heq
      | some (fut, r) =>
          decidable_of_iff (r.Honest Agrees fut)
            ⟨fun hr _ _ heq => by rw [h] at heq; cases heq; exact hr, fun hr => hr fut r h⟩
  | .poll_next _ => isTrue trivial
  | .own => isTrue trivial
  | .ret => isTrue trivial

/-! ## One answer more -/

section

variable (l l' : List (Answer E F T))

theorem taken_append : taken (l ++ l') = taken l ++ taken l' := List.filterMap_append

theorem errors_append : errors (l ++ l') = errors l ++ errors l' := List.filterMap_append

theorem fromQueue_append : fromQueue (l ++ l') = fromQueue l ++ fromQueue l' := List.flatMap_append

end

/-- The answers bring no item. -/
structure Nothing (answers : List (Answer E F T)) : Prop where
  fromQueue : fromQueue answers = []
  errors : errors answers = []

theorem Nothing.append {l l' : List (Answer E F T)} (h : Nothing l) (h' : Nothing l') :
    Nothing (l ++ l') :=
  ⟨by rw [fromQueue_append, h.fromQueue, h'.fromQueue]; rfl,
    by rw [errors_append, h.errors, h'.errors]; rfl⟩

/-! ## The invariant -/

/-- What a call has returned is what it was told. -/
structure Call.Settled (c : Call E F T) : Prop where
  item : outputOf c.result = fromQueue c.answers ++ (errors c.answers).map .error
  pending : c.result = .pending → .base .pending ∈ c.answers ∨ .queue .pending ∈ c.answers
  unwound : c.result ≠ .unwound

/-- Everything has been taken, and everything taken has been handed out. -/
def Watched.Over (s : Watched Q) : Prop :=
  s.state.stream.is_terminated = true ∧ (fromQueue s.log).length = (taken s.log).length

/-- The call in progress. On the way to the queue it has been told to wait, or the base
has ended, or the queue holds a future. -/
def Watched.Current (s : Watched Q) : Prop :=
  match s.state.pc with
  | .idle => s.answers = []
  | .fill _ in_progress_queue_len =>
      Nothing s.answers ∧ in_progress_queue_len + (fromQueue s.log).length ≤ (taken s.log).length
  | .queue _ =>
      Nothing s.answers ∧ (.base .pending ∈ s.answers ∨ s.state.stream.is_terminated = true ∨
        (fromQueue s.log).length < (taken s.log).length)
  | .done r => (Call.mk s.answers r).Settled ∧ (r = .ready none → s.Over)

/-- The queue's `poll_next` is in progress. -/
def Pc.polls {O : Type} : Pc O W → Bool
  | .queue _ => true
  | _ => false

/-- The loop over the base is in progress. -/
def Pc.fills {O : Type} : Pc O W → Bool
  | .fill _ _ => true
  | _ => false

/-- The books. -/
structure Watched.Sound (busy : Q.State → Bool) (Holds : List F → List (Except E T) → Q.State → Prop)
    (s : Watched Q) : Prop where
  queue : Holds (taken s.log) (fromQueue s.log) s.state.in_progress_queue
  busy : busy s.state.in_progress_queue = s.state.pc.polls
  quiet : s.state.pc.fills = false → Q.quiet s.state.in_progress_queue = true
  ended : s.state.stream.is_terminated = true ↔ .base (.ready none) ∈ s.log
  current : s.Current
  settled : ∀ c ∈ s.calls, c.Settled
  finished : (∃ c ∈ s.calls, c.result = .ready none) → s.Over

variable {polls : Q.Polling} {busy : Q.State → Bool} {overflows : Q.State → Prop}
  {Agrees : F → Except E T → Prop} {Holds : List F → List (Except E T) → Q.State → Prop}
  {s s' : Watched Q}

/-- What the adaptor is told is added to the log. -/
theorem log_told (s : Watched Q) (v : State Q) (l : List (Answer E F T)) :
    Watched.log { state := v, calls := s.calls, answers := s.answers ++ l } = s.log ++ l := by
  unfold Watched.log
  rw [List.append_assoc]

/-- Every step but the return adds what it is told. -/
theorem after_told (a : Act Q) (l : List (Answer E F T)) (ha : a ≠ .ret) {v : State Q}
    (hl : s.state.told a = l) :
    s.after a v = { state := v, calls := s.calls, answers := s.answers ++ l } := by
  unfold Watched.after
  split
  · exact absurd rfl ha
  · rw [hl]

/-- A step of `poll_next` itself is told nothing, unless it takes the result of the queue. -/
theorem told_own_fill {w : W} {len : ℕ} (hpc : s.state.pc = .fill w len) :
    s.state.told .own = [] := by
  unfold State.told
  rw [hpc]

/-- What it is told then is this result. -/
theorem told_own_queue {w : W} {r : PollNext (Except E T)} (hpc : s.state.pc = .queue w)
    (hr : Q.result s.state.in_progress_queue = some r) : s.state.told .own = [.queue r] := by
  unfold State.told
  rw [hpc]
  dsimp only
  rw [hr]
  rfl

/-- The return ends the call. -/
theorem after_ret {r : PollNext (Except E T)} (hpc : s.state.pc = .done r) (v : State Q) :
    s.after .ret v =
      { state := v, calls := s.calls ++ [{ answers := s.answers, result := r }], answers := [] } := by
  unfold Watched.after
  rw [hpc]

theorem log_ret (r : PollNext (Except E T)) (v : State Q) :
    Watched.log { state := v, calls := s.calls ++ [{ answers := s.answers, result := r }]
                  answers := [] } = s.log := by
  unfold Watched.log
  rw [List.flatMap_append, List.append_nil]
  exact congrArg _ (List.append_nil _)

/-- Another answer is not the end of the base. -/
theorem ended_mem (y : Answer E F T) (hy : .base (.ready none) ≠ y) :
    .base (.ready none) ∈ s.log ++ [y] ↔ .base (.ready none) ∈ s.log := by
  rw [List.mem_append, List.mem_singleton, or_iff_left hy]

namespace Watched.Sound

theorem new (hQ : Q.Delivers polls busy overflows Agrees Holds) (n : Option ℕ) :
    (Watched.new Q n).Sound busy Holds where
  queue := hQ.new.1
  busy := hQ.new.2.1
  quiet := fun _ => hQ.new.2.2
  ended := ⟨nofun, nofun⟩
  current := rfl
  settled := nofun
  finished := nofun

/-- Between polls the queue has not handed out more than it was given. -/
theorem length_le (hQ : Q.Delivers polls busy overflows Agrees Holds) (h : s.Sound busy Holds)
    (hpc : s.state.pc.polls = false) : (fromQueue s.log).length ≤ (taken s.log).length := by
  have hlen := hQ.len_eq h.queue (h.busy.trans hpc)
  omega

/-- The loop over the base is left for the queue, `l` being what the base has said last. -/
theorem polling (hQ : Q.Delivers polls busy overflows Agrees Holds) (h : s.Sound busy Holds)
    {w : W} {len : ℕ} {q : Q.State} (stream : IntoFuseStream) (l : List (Answer E F T))
    (hpc : s.state.pc = .fill w len)
    (hq : Q.step s.state.in_progress_queue (Q.poll_next w) = some q) (htaken : taken l = [])
    (hnothing : Nothing l)
    (hended : stream.is_terminated = true ↔ .base (.ready none) ∈ s.log ++ l)
    (hexit : .base .pending ∈ l ∨ stream.is_terminated = true ∨ 0 < len)
    (hstays : s.state.stream.is_terminated = true → stream.is_terminated = true) :
    Watched.Sound busy Holds { state := { s.state.polling w q with stream := stream }
                               calls := s.calls, answers := s.answers ++ l } := by
  have hcurrent := h.current
  unfold Watched.Current at hcurrent
  rw [hpc] at hcurrent
  obtain ⟨hholds, hbusy', hquiet⟩ := hQ.poll_next h.queue hq
  have htaken' : taken (s.log ++ l) = taken s.log := by
    rw [taken_append, htaken, List.append_nil]
  have hfrom' : fromQueue (s.log ++ l) = fromQueue s.log := by
    rw [fromQueue_append, hnothing.fromQueue, List.append_nil]
  refine ⟨?_, hbusy', fun _ => hquiet, ?_, ⟨hcurrent.1.append hnothing, ?_⟩, h.settled, ?_⟩
  · rw [log_told, htaken', hfrom']
    exact hholds
  · rw [log_told]
    exact hended
  · rw [log_told, htaken', hfrom']
    rcases hexit with hpend | hterm | hpos
    · exact Or.inl (List.mem_append_right _ hpend)
    · exact Or.inr (Or.inl hterm)
    · exact Or.inr (Or.inr (by omega))
  · intro hover
    obtain ⟨hterm, heq⟩ := h.finished hover
    refine ⟨hstays hterm, ?_⟩
    rw [log_told, htaken', hfrom']
    exact heq

/-- The call. -/
theorem poll_next (hQ : Q.Delivers polls busy overflows Agrees Holds) (h : s.Sound busy Holds)
    (w : W) (hpc : s.state.pc = .idle) :
    (s.after (.poll_next w) (s.state.poll_next w)).Sound busy Holds := by
  have hcurrent := h.current
  have hbusy := h.busy
  unfold Watched.Current at hcurrent
  rw [hpc] at hcurrent hbusy
  have hlen := hQ.len_eq h.queue hbusy
  have hlog := (log_told s (s.state.poll_next w) []).trans (List.append_nil _)
  rw [after_told (.poll_next w) [] nofun rfl]
  refine ⟨?_, hbusy, nofun, ?_, ⟨?_, ?_⟩, h.settled, fun hover => ?_⟩
  · rw [hlog]
    exact h.queue
  · rw [hlog]
    exact h.ended
  · rw [show s.answers = [] from hcurrent]
    exact ⟨rfl, rfl⟩
  · rw [hlog]
    exact le_of_eq hlen
  · obtain ⟨hterm, heq⟩ := h.finished hover
    refine ⟨hterm, ?_⟩
    rw [hlog]
    exact heq

/-- The base answers with a future, for which the queue has room. -/
theorem future (hQ : Q.Delivers polls busy overflows Agrees Holds) (h : s.Sound busy Holds)
    {w : W} {len i : ℕ} {fut : F} {q : Q.State} (hb : AsksBase s.state w len)
    (hroom : ¬ overflows s.state.in_progress_queue)
    (hq : Q.step s.state.in_progress_queue (Q.push i fut) = some q) :
    (s.after (.base i (.ready (some (.ok fut))))
      { s.state.withQueue q with taken := s.state.taken + 1 }).Sound busy Holds := by
  have hcurrent := h.current
  have hbusy := h.busy
  unfold Watched.Current at hcurrent
  rw [hb.pc] at hcurrent hbusy
  obtain ⟨hholds, hbusy'⟩ := hQ.push h.queue hbusy hroom hq
  have hlog := log_told s { s.state.withQueue q with taken := s.state.taken + 1 }
    [.base (.ready (some (.ok fut)))]
  have htaken : taken (s.log ++ [.base (.ready (some (.ok fut)))]) = taken s.log ++ [fut] :=
    taken_append _ _
  have hfrom : fromQueue (s.log ++ [.base (.ready (some (.ok fut)))]) = fromQueue s.log :=
    (fromQueue_append _ _).trans (List.append_nil _)
  rw [after_told (.base i (.ready (some (.ok fut)))) [.base (.ready (some (.ok fut)))] nofun rfl]
  refine ⟨?_, ?_, ?_, ?_, ?_, h.settled, fun hover => ?_⟩
  · rw [hlog, htaken, hfrom]
    exact hholds
  · show busy q = s.state.pc.polls
    rw [hb.pc]
    exact hbusy'
  · intro hfills
    have hno : s.state.pc.fills = false := hfills
    rw [hb.pc] at hno
    cases hno
  · rw [hlog, ended_mem (.base (.ready (some (.ok fut)))) nofun]
    exact h.ended
  · unfold Watched.Current
    rw [hlog, htaken, hfrom]
    dsimp only [State.withQueue]
    rw [hb.pc, List.length_append]
    exact ⟨hcurrent.1.append ⟨rfl, rfl⟩, Nat.le_succ_of_le hcurrent.2⟩
  · have hterm := (h.finished hover).1
    rw [hb.running] at hterm
    cases hterm

/-- The base answers with an error, which the call returns. -/
theorem error (h : s.Sound busy Holds) {w : W} {len : ℕ} (i : ℕ) (e : E)
    (hb : AsksBase s.state w len) :
    (s.after (.base i (.ready (some (.error e))))
      (s.state.settle (.ready (some (.error e))))).Sound busy Holds := by
  have hcurrent := h.current
  have hbusy := h.busy
  unfold Watched.Current at hcurrent
  rw [hb.pc] at hcurrent hbusy
  have hlog := log_told s (s.state.settle (.ready (some (.error e))))
    [.base (.ready (some (.error e)))]
  have htaken : taken (s.log ++ [.base (.ready (some (.error e)))]) = taken s.log :=
    (taken_append _ _).trans (List.append_nil _)
  have hfrom : fromQueue (s.log ++ [.base (.ready (some (.error e)))]) = fromQueue s.log :=
    (fromQueue_append _ _).trans (List.append_nil _)
  rw [after_told (.base i (.ready (some (.error e)))) [.base (.ready (some (.error e)))] nofun rfl]
  refine ⟨?_, hbusy, fun _ => hb.quiet, ?_, ⟨⟨?_, nofun, nofun⟩, nofun⟩, h.settled,
    fun hover => ?_⟩
  · rw [hlog, htaken, hfrom]
    exact h.queue
  · rw [hlog, ended_mem (.base (.ready (some (.error e)))) nofun]
    exact h.ended
  · dsimp only
    rw [fromQueue_append, errors_append, hcurrent.1.fromQueue, hcurrent.1.errors]
    rfl
  · have hterm := (h.finished hover).1
    rw [hb.running] at hterm
    cases hterm

/-- The call returns what the queue says. -/
theorem concludes (hQ : Q.Delivers polls busy overflows Agrees Holds) (h : s.Sound busy Holds)
    {w : W} {r : PollNext (Except E T)} {q : Q.State} (hpc : s.state.pc = .queue w)
    (hr : Q.result s.state.in_progress_queue = some r)
    (hq : Q.step s.state.in_progress_queue Q.ret = some q) :
    (s.after .own ((s.state.withQueue q).settle (s.state.conclude r))).Sound busy Holds := by
  have hcurrent := h.current
  unfold Watched.Current at hcurrent
  rw [hpc] at hcurrent
  obtain ⟨hholds, hbusy', hquiet⟩ := hQ.ret h.queue hr hq
  obtain ⟨hunwound, hnone⟩ := hQ.result h.queue hr
  have hlog := log_told s ((s.state.withQueue q).settle (s.state.conclude r)) [.queue r]
  have htaken : taken (s.log ++ [.queue r]) = taken s.log :=
    (taken_append _ _).trans (List.append_nil _)
  have hfrom : fromQueue (s.log ++ [.queue r]) = fromQueue s.log ++ outputOf r := by
    rw [fromQueue_append]
    exact congrArg _ (List.append_nil _)
  have hlen := hQ.len_eq hholds hbusy'
  have hitem : outputOf (s.state.conclude r) = outputOf r := by
    unfold State.conclude
    split
    · split <;> rfl
    · rfl
  rw [after_told .own [.queue r] nofun (told_own_queue hpc hr)]
  refine ⟨?_, hbusy', fun _ => hquiet (h.quiet (by rw [hpc]; rfl)), ?_, ⟨⟨?_, ?_, ?_⟩, ?_⟩,
    h.settled, fun hover => ?_⟩
  · rw [hlog, htaken, hfrom]
    exact hholds
  · rw [hlog, ended_mem (.queue r) nofun]
    exact h.ended
  · dsimp only
    rw [fromQueue_append, errors_append, hcurrent.1.fromQueue, hcurrent.1.errors, hitem]
    show _ = outputOf r ++ [] ++ []
    rw [List.append_nil, List.append_nil]
  · -- the call has been told to wait, since the queue cannot have run dry
    intro hpend
    unfold State.conclude at hpend
    split at hpend
    · split at hpend
      · cases hpend
      · rename_i hrun
        rcases hcurrent.2 with hmem | hterm | hlt
        · exact Or.inl (List.mem_append_left _ hmem)
        · exact absurd hterm hrun
        · have heq := hnone rfl
          omega
    · rw [show r = .pending from hpend]
      exact Or.inr (List.mem_append_right _ List.mem_cons_self)
  · intro hbad
    unfold State.conclude at hbad
    split at hbad
    · split at hbad <;> cases hbad
    · exact hunwound hbad
  · intro hready
    unfold State.conclude at hready
    split at hready
    · split at hready
      · rename_i hterm
        refine ⟨hterm, ?_⟩
        rw [hlog, htaken, hfrom, show outputOf _ = [] from rfl, List.append_nil]
        exact hnone rfl
      · cases hready
    · rename_i hne
      exact absurd hready (hne · )
  · obtain ⟨hterm, heq⟩ := h.finished hover
    refine ⟨hterm, ?_⟩
    rw [hlog, htaken, hfrom, List.length_append]
    rw [List.length_append] at hlen
    omega

/-- A step of the queue. -/
theorem queueStep (hQ : Q.Delivers polls busy overflows Agrees Holds) (h : s.Sound busy Holds)
    {a : Q.Act} {q : Q.State} (hruns : Q.runs a = true)
    (hhonest : ∀ fut r, polls s.state.in_progress_queue a = some (fut, r) → r.Honest Agrees fut)
    (hq : Q.step s.state.in_progress_queue a = some q) :
    (s.after (.queue a) (s.state.withQueue q)).Sound busy Holds := by
  obtain ⟨hholds, hbusy', hquiet⟩ := hQ.runs h.queue hruns hhonest hq
  have hlog := (log_told s (s.state.withQueue q) []).trans (List.append_nil _)
  rw [after_told (.queue a) [] nofun rfl]
  refine ⟨?_, hbusy'.trans h.busy, fun hfills => hquiet (h.quiet hfills), ?_, ?_, h.settled,
    fun hover => ?_⟩
  · rw [hlog]
    exact hholds
  · rw [hlog]
    exact h.ended
  · unfold Watched.Current Watched.Over
    rw [hlog, List.append_nil]
    exact h.current
  · unfold Watched.Over
    rw [hlog]
    exact h.finished hover

/-- The call returns: it joins those that are over. -/
theorem ret (h : s.Sound busy Holds) {r : PollNext (Except E T)} (hpc : s.state.pc = .done r) :
    (s.after .ret { s.state with pc := .idle }).Sound busy Holds := by
  have hcurrent := h.current
  have hbusy := h.busy
  unfold Watched.Current at hcurrent
  rw [hpc] at hcurrent hbusy
  rw [after_ret hpc]
  refine ⟨?_, hbusy, fun _ => h.quiet (by rw [hpc]; rfl), ?_, rfl, ?_, ?_⟩
  · rw [log_ret]
    exact h.queue
  · rw [log_ret]
    exact h.ended
  · intro c hc
    rcases List.mem_append.mp hc with hold | hnew
    · exact h.settled c hold
    · rw [List.mem_singleton.mp hnew]
      exact hcurrent.1
  · rintro ⟨c, hc, hready⟩
    unfold Watched.Over
    rw [log_ret]
    rcases List.mem_append.mp hc with hold | hnew
    · exact h.finished ⟨c, hold, hready⟩
    · rw [List.mem_singleton.mp hnew] at hready
      exact hcurrent.2 hready

/-- **Every step keeps the books.** -/
theorem move (hQ : Q.Delivers polls busy overflows Agrees Holds) (h : s.Sound busy Holds)
    {a : Act Q} {v : State Q} (ha : Allowed polls overflows Agrees s a) (hm : Move s.state a v) :
    (s.after a v).Sound busy Holds := by
  cases hm with
  | poll_next w hpc => exact h.poll_next hQ w hpc
  | @full w len q hpc hquiet hlimit hq =>
      have hpos : 0 < len := by
        unfold State.belowMax at hlimit
        split at hlimit
        · rename_i max hmax
          exact Nat.lt_of_lt_of_le max.2 (Nat.le_of_not_lt (of_decide_eq_false hlimit))
        · cases hlimit
      rw [after_told .own [] nofun (told_own_fill hpc)]
      exact h.polling hQ s.state.stream [] hpc hq rfl ⟨rfl, rfl⟩ (by rw [List.append_nil]; exact h.ended)
        (Or.inr (Or.inr hpos)) id
  | @ended w len q hpc hquiet hend hq =>
      rw [after_told .own [] nofun (told_own_fill hpc)]
      exact h.polling hQ s.state.stream [] hpc hq rfl ⟨rfl, rfl⟩ (by rw [List.append_nil]; exact h.ended)
        (Or.inr (Or.inl hend)) id
  | future hb hq => exact h.future hQ hb (ha.2 rfl) hq
  | error hb => exact h.error _ _ hb
  | @ends w len i q hb hq =>
      rw [after_told (.base i (.ready none)) [.base (.ready none)] nofun rfl]
      exact h.polling hQ { terminated := true } [.base (.ready none)] hb.pc hq rfl ⟨rfl, rfl⟩
        ⟨fun _ => List.mem_append_right _ List.mem_cons_self, fun _ => rfl⟩ (Or.inr (Or.inl rfl))
        fun _ => rfl
  | @pending w len i q hb hq =>
      rw [after_told (.base i .pending) [.base .pending] nofun rfl]
      exact h.polling hQ s.state.stream [.base .pending] hb.pc hq rfl ⟨rfl, rfl⟩
        (by rw [ended_mem (.base .pending) nofun]; exact h.ended) (Or.inl List.mem_cons_self) id
  | unwinds hb => exact absurd rfl ha.1
  | concludes hpc hr hq => exact h.concludes hQ hpc hr hq
  | queue hruns hq => exact h.queueStep hQ hruns ha hq
  | ret hpc => exact h.ret hpc

/-- The books are right after every run. -/
theorem of_run (hQ : Q.Delivers polls busy overflows Agrees Holds) {n : Option ℕ}
    {ls : List (Act Q)}
    (hallowed : Transition.Along Watched.step (Allowed polls overflows Agrees) (Watched.new Q n) ls)
    (hrun : Transition.run Watched.step (Watched.new Q n) ls = some s) : s.Sound busy Holds := by
  refine Transition.run_invariant_along (I := Watched.Sound busy Holds) ?_ hallowed (.new hQ n) hrun
  intro s a s' ha h hstep
  obtain ⟨v, hv, rfl⟩ := Option.map_eq_some_iff.mp hstep
  exact h.move hQ ha (move_of_step hv)

end Watched.Sound

end TokioStreamUtil.Buffered
