/-
With room for one stream, `FlattenUnordered` flattens in order.

The base is asked again only when the bucket is empty, so the stream that is polled is
always the one the base gave last (`Current`). What is given is then what the answers of
the base come to, one after the other: the item that the flow controller returned, or all
that the stream has given (`inTurn`). Nothing is lost in this when a poll unwinds.
-/
import TokioStreamUtil.FlattenUnordered.Recovery
import TokioStreamUtil.TryStream.WithinLimit

set_option autoImplicit false

namespace TokioStreamUtil

namespace FlattenUnordered

open FuturesUnordered (Polled PollNext)

variable {B I T W : Type} {A : AtomicWaker WrappedWaker}

/-! ## One answer of the base after the other -/

/-- What an answer of the base comes to, when stream `k` has given `gave k`. -/
def Event.turn (gave : ℕ → List T) : Event T → List T
  | .returned x => [x]
  | .taken k => gave k
  | _ => []

/-- The event is an answer of the base that ends the turn of the stream before. -/
def Event.isTurn : Event T → Bool
  | .returned _ => true
  | .taken _ => true
  | _ => false

/-- What the answers of the base come to, in order. -/
def inTurn (events : List (Event T)) : List T :=
  events.flatMap (Event.turn fun k => (Origin.inner k).gave events)

/-- The base has given stream `k`, once, and nothing after it. -/
def Current (events : List (Event T)) (k : ℕ) : Prop :=
  ∃ before after, events = before ++ .taken k :: after ∧ .taken k ∉ before ∧
    ∀ e ∈ after, e.isTurn = false

section

variable {events : List (Event T)} {k : ℕ} {e : Event T}

/-- What is no turn comes to nothing. -/
theorem turn_of_not_isTurn (gave : ℕ → List T) (h : e.isTurn = false) : e.turn gave = [] := by
  cases e with
  | returned x => cases h
  | taken k => cases h
  | _ => rfl

theorem flatMap_turn_of_not_isTurn (gave : ℕ → List T) (h : ∀ e ∈ events, e.isTurn = false) :
    events.flatMap (Event.turn gave) = [] := by
  rw [List.flatMap_eq_nil_iff]
  exact fun e he => turn_of_not_isTurn gave (h e he)

/-- Turns look at the streams that were taken only. -/
theorem flatMap_turn_congr {gave gave' : ℕ → List T}
    (h : ∀ k, .taken k ∈ events → gave k = gave' k) :
    events.flatMap (Event.turn gave) = events.flatMap (Event.turn gave') := by
  apply List.flatMap_congr
  intro e he
  cases e with
  | taken k => exact h k he
  | _ => rfl

/-- An event that no stream gives. -/
theorem gave_inner_concat_of_ne (h : ∀ x, e ≠ .produced k x) :
    (Origin.inner k).gave (events ++ [e]) = (Origin.inner k).gave events := by
  rw [gave_concat]
  have hnone : (Origin.inner k).gives e = none := by
    cases e with
    | produced k' x =>
        have hk : k' ≠ k := by
          rintro rfl
          exact h x rfl
        simp [Origin.gives, hk]
    | _ => rfl
  simp [Origin.gave, hnone]

/-- An event that no stream gives adds its own turn, if it has one. -/
theorem inTurn_concat (h : ∀ k x, e ≠ .produced k x) :
    inTurn (events ++ [e]) =
      inTurn events ++ e.turn fun k => (Origin.inner k).gave (events ++ [e]) := by
  unfold inTurn
  rw [List.flatMap_append, List.flatMap_singleton]
  congr 1
  apply flatMap_turn_congr
  exact fun k _ => gave_inner_concat_of_ne (h k)

/-- The stream whose turn it is gives an item. -/
theorem Current.inTurn_produced (h : Current events k) (x : T) :
    inTurn (events ++ [.produced k x]) = inTurn events ++ [x] := by
  obtain ⟨before, after, heq, hnot, hafter⟩ := h
  have hturns : ∀ gave : ℕ → List T,
      (events ++ [(.produced k x : Event T)]).flatMap (Event.turn gave) =
        before.flatMap (Event.turn gave) ++ gave k := by
    intro gave
    rw [heq, List.flatMap_append, List.flatMap_append, List.flatMap_cons,
      flatMap_turn_of_not_isTurn gave hafter]
    simp [Event.turn]
  have hsame : events.flatMap (Event.turn fun k => (Origin.inner k).gave events) =
      before.flatMap (Event.turn fun k => (Origin.inner k).gave events) ++
        (Origin.inner k).gave events := by
    conv_lhs => rw [heq]
    rw [List.flatMap_append, List.flatMap_cons, flatMap_turn_of_not_isTurn _ hafter, ← heq]
    simp [Event.turn]
  unfold inTurn
  rw [hturns, hsame, gave_concat, List.append_assoc]
  congr 1
  · -- the streams before are other ones
    apply flatMap_turn_congr
    intro k' hk'
    apply gave_inner_concat_of_ne
    rintro y ⟨⟩
    exact hnot hk'
  · simp [Origin.gave, Origin.gives]

namespace Current

/-- Something happens that is no turn. -/
theorem concat (h : Current events k) (he : e.isTurn = false) : Current (events ++ [e]) k := by
  obtain ⟨before, after, rfl, hnot, hafter⟩ := h
  refine ⟨before, after ++ [e], by rw [List.append_assoc, List.cons_append], hnot, ?_⟩
  intro e' he'
  rcases List.mem_append.mp he' with he' | he'
  · exact hafter e' he'
  · exact List.mem_singleton.mp he' ▸ he

/-- The base gives a stream. -/
theorem take (h : .taken k ∉ events) : Current (events ++ [.taken k]) k :=
  ⟨events, [], rfl, h, by rintro e ⟨⟩⟩

end Current

end

/-! ## The bucket of one -/

section

variable {q q' : FuturesUnordered.State (PollStreamFut I) (Option (T × PollStreamFut I))
  WrappedWaker A}

/-- What was given is what the answers of the base come to, and the streams in the bucket,
or on their way back to it, are the one that was taken last. -/
structure Serial (events : List (Event T))
    (q : FuturesUnordered.State (PollStreamFut I) (Option (T × PollStreamFut I)) WrappedWaker A) :
    Prop where
  given : (given events).map Item.value = inTurn events
  held : ∀ t fut, q.Holds t fut → Current events fut.source
  carried : ∀ x fut, some (x, fut) ∈ q.owner.carrying → Current events fut.source

/-- The future that is polled is in the bucket. -/
theorem holds_of_polling (h : q.Sound) {lv : FuturesUnordered.Locals WrappedWaker} {t : ℕ}
    {fut : PollStreamFut I} (ho : q.owner = .poll lv (.poll t))
    (hf : (q.tasks t).future = some fut) : q.Holds t fut := by
  obtain ⟨l, hl⟩ := h.inv
  obtain ⟨hlt, hlive⟩ := hl.places.held_live t (by rw [ho]; rfl)
  refine ⟨hlt, fun hfinished => ?_, hf⟩
  rcases (h.ledger.finished t).mp hfinished with hretired | hreleasing
  · rw [hlive] at hretired
    cases hretired
  · rw [ho] at hreleasing
    cases hreleasing

namespace Serial

variable {events : List (Event T)}

theorem new : Serial ([] : List (Event T)) (FuturesUnordered.State.new (A := A) :
    FuturesUnordered.State (PollStreamFut I) (Option (T × PollStreamFut I)) WrappedWaker A) := by
  refine ⟨rfl, ?_, ?_⟩
  · intro t fut h
    exact absurd h.pushed (Nat.not_lt_zero t)
  · rintro x fut ⟨⟩

/-- Something happens that is no turn and no item. -/
theorem record (h : Serial events q) {e : Event T} (he : e.isTurn = false)
    (hgiven : e.given = none) : Serial (events ++ [e]) q := by
  have hproduced : ∀ k x, e ≠ .produced k x := by
    rintro k x rfl
    cases hgiven
  refine ⟨?_, fun t fut hfut => (h.held t fut hfut).concat he,
    fun x fut hfut => (h.carried x fut hfut).concat he⟩
  rw [inTurn_concat hproduced, turn_of_not_isTurn _ he, given_concat, hgiven, ← h.given]
  simp

/-- The bucket holds and carries no stream that it did not hold or carry before. -/
theorem within (h : Serial events q)
    (hheld : ∀ t fut, q'.Holds t fut → (∃ u fut', q.Holds u fut' ∧ fut'.source = fut.source) ∨
      ∃ x fut', some (x, fut') ∈ q.owner.carrying ∧ fut'.source = fut.source)
    (hcarried : ∀ x fut, some (x, fut) ∈ q'.owner.carrying →
      (∃ u fut', q.Holds u fut' ∧ fut'.source = fut.source) ∨
      ∃ x fut', some (x, fut') ∈ q.owner.carrying ∧ fut'.source = fut.source) :
    Serial events q' := by
  have hcurrent : ∀ fut : PollStreamFut I,
      ((∃ u fut', q.Holds u fut' ∧ fut'.source = fut.source) ∨
        ∃ x fut', some (x, fut') ∈ q.owner.carrying ∧ fut'.source = fut.source) →
      Current events fut.source := by
    rintro fut (⟨u, fut', hfut', hsource⟩ | ⟨x, fut', hfut', hsource⟩)
    · exact hsource ▸ h.held u fut' hfut'
    · exact hsource ▸ h.carried x fut' hfut'
  exact ⟨h.given, fun t fut hfut => hcurrent fut (hheld t fut hfut),
    fun x fut hfut => hcurrent fut (hcarried x fut hfut)⟩

/-- The base answers with an item that is returned, while the bucket is empty. -/
theorem turn_returned (h : Serial events q) (hheld : ∀ t fut, ¬q.Holds t fut)
    (hcarried : q.owner.carrying = []) (x : T) : Serial (events ++ [.returned x]) q := by
  refine ⟨?_, fun t fut hfut => absurd hfut (hheld t fut), ?_⟩
  · rw [inTurn_concat (by rintro k y ⟨⟩), given_concat, ← h.given]
    simp [Event.given, Event.turn]
  · intro y fut hfut
    rw [hcarried] at hfut
    cases hfut

/-- The base answers with stream `k`, which is new, and the bucket gets no other. -/
theorem turn_taken (h : Serial events q) {k : ℕ} (hnew : .taken k ∉ events)
    (hnone : ∀ x, .produced k x ∉ events) (hheld : ∀ t fut, q'.Holds t fut → fut.source = k)
    (hcarried : q'.owner.carrying = []) : Serial (events ++ [.taken k]) q' := by
  refine ⟨?_, fun t fut hfut => (hheld t fut hfut).symm ▸ Current.take hnew, ?_⟩
  · have hgave : (Origin.inner k).gave (events ++ [.taken k]) = [] := by
      rw [gave_inner_concat_of_ne (by rintro x ⟨⟩)]
      unfold Origin.gave
      rw [List.filterMap_eq_nil_iff]
      intro e he
      cases e with
      | produced k' x =>
          have hk : k' ≠ k := by
            rintro rfl
            exact hnone x he
          simp [Origin.gives, hk]
      | _ => rfl
    rw [inTurn_concat (by rintro k y ⟨⟩), given_concat, ← h.given]
    simp [Event.given, Event.turn, hgave]
  · intro y fut hfut
    rw [hcarried] at hfut
    cases hfut

/-- The stream whose turn it is gives an item. -/
theorem produce (h : Serial events q) {k : ℕ} (hk : Current events k) (x : T) :
    Serial (events ++ [.produced k x]) q := by
  refine ⟨?_, fun t fut hfut => (h.held t fut hfut).concat rfl,
    fun y fut hfut => (h.carried y fut hfut).concat rfl⟩
  rw [hk.inTurn_produced, given_concat, ← h.given]
  simp [Event.given]

end Serial

/-! ### Which futures the bucket holds after a step -/

/-- The bucket holds a future that was pushed, or held before. -/
theorem holds_of_push {i t : ℕ} {fut fut' : PollStreamFut I} (h : (q.push i fut').Holds t fut) :
    fut = fut' ∨ q.Holds t fut := by
  have hf := h.future
  change (Function.update q.tasks q.fresh _ t).future = some fut at hf
  by_cases ht : t = q.fresh
  · rw [ht, Function.update_self] at hf
    exact Or.inl (Option.some.inj hf).symm
  · rw [Function.update_of_ne ht] at hf
    exact Or.inr ⟨Nat.lt_of_le_of_ne (Nat.le_of_lt_succ h.pushed) ht, h.unfinished, hf⟩

/-- Its machinery brings no future. -/
theorem holds_of_inner {a : InnerAct I T} (ha : a.inner = true) (hm : FuturesUnordered.Move q a q')
    {t : ℕ} {fut : PollStreamFut I} (h : q'.Holds t fut) : q.Holds t fut := by
  have hframe := FuturesUnordered.frame_move hm ha
  have hunfinished := h.unfinished
  unfold FuturesUnordered.State.yielded at hunfinished
  rw [hframe.completed, hframe.discarded] at hunfinished
  exact ⟨hframe.fresh ▸ h.pushed, hunfinished, hframe.future t fut h.future⟩

/-- A future that answers is held on only if it is pending, and then with what is left of
it. -/
theorem holds_of_polled {lv : FuturesUnordered.Locals WrappedWaker} {t u : ℕ}
    {r : Polled (PollStreamFut I) (Option (T × PollStreamFut I))} {fut : PollStreamFut I}
    (h : (q.polled lv t r).Holds u fut) : (u = t ∧ r = .pending fut) ∨ q.Holds u fut := by
  have hf := h.future
  have hunfinished := h.unfinished
  unfold FuturesUnordered.State.yielded at hunfinished
  cases r with
  | pending fut' =>
      change (Function.update q.tasks t _ u).future = some fut at hf
      by_cases hu : u = t
      · rw [hu, Function.update_self] at hf
        exact Or.inl ⟨hu, congrArg Polled.pending (Option.some.inj hf)⟩
      · rw [Function.update_of_ne hu] at hf
        exact Or.inr ⟨h.pushed, hunfinished, hf⟩
  | ready o =>
      refine Or.inr ⟨h.pushed, fun hu => hunfinished ?_, hf⟩
      show u ∈ (q.hist.completed ++ [(t, o)]).map Prod.fst ++ q.hist.discarded
      rw [List.map_append, List.append_assoc]
      rcases List.mem_append.mp hu with hu | hu
      · exact List.mem_append_left _ hu
      · exact List.mem_append_right _ (List.mem_append_right _ hu)
  | unwind =>
      refine Or.inr ⟨h.pushed, fun hu => hunfinished ?_, hf⟩
      show u ∈ q.hist.completed.map Prod.fst ++ (q.hist.discarded ++ [t])
      rw [← List.append_assoc]
      exact List.mem_append_left _ hu

end

/-! ## What a move does to it -/

/-- What was given, and what is in the bucket. -/
def State.Serial (s : State I T W A) : Prop := FlattenUnordered.Serial s.hist.events s.inner_streams

variable {next_step : B → Option (FlowStep I T)} {s s' : State I T W A} {cap : NonZeroUsize}
  {P : I → Prop} {lost : ℕ → Prop}

/-- Calls of wrapped wakers are no matter of items. -/
theorem serial_wakes (ks : List WrappedWaker) : ∀ {s : State I T W A}, s.Serial →
    (ks.foldl (fun s' k => s'.wake_by_ref .poll k) s).Serial := by
  induction ks with
  | nil => exact fun h => h
  | cons k ks ih => exact fun h => ih (s := _) h

/-- The machinery of the bucket moves. -/
theorem serial_inner (h : s.Serial) {a : InnerAct I T} (ha : a.inner = true)
    {q : FuturesUnordered.State (PollStreamFut I) (Option (T × PollStreamFut I)) WrappedWaker A}
    (hq : FuturesUnordered.Move s.inner_streams a q) :
    State.Serial { s with inner_streams := q } := by
  apply Serial.within h
  · intro t fut hfut
    exact Or.inl ⟨t, fut, holds_of_inner ha hq hfut, rfl⟩
  · intro x fut hfut
    rw [(FuturesUnordered.frame_move hq ha).carrying] at hfut
    exact Or.inr ⟨x, fut, hfut, rfl⟩

/-- Where the base is asked, a bucket of one is empty. -/
theorem empty_of_asks (hinv : s.Inv) (hcapped : s.Capped (some cap)) (hone : cap.1 = 1)
    {l : Locals T W} (hb : AsksBase s l) :
    (∀ t fut, ¬s.inner_streams.Holds t fut) ∧ s.inner_streams.owner.carrying = [] := by
  have hout : ∀ l', s.pc ≠ .innerPoll l' := by
    intro l' hl'
    cases hb.pc.symm.trans hl'
  have hroom := hcapped.room hb.room rfl
  have hempty : s.inner_streams.is_empty = true := by
    rw [hinv.bucket.sound.is_empty_iff]
    omega
  refine ⟨fun t fut hfut => ?_, carrying_of_outside hinv hout⟩
  rw [hfut.not_empty hinv.bucket.sound (hinv.bucket.idle hout)] at hempty
  cases hempty

/-- The stream that the bucket polls answers. -/
theorem State.Serial.answered (h : s.Serial) (hinv : s.Inv)
    {lv : FuturesUnordered.Locals WrappedWaker} {t : ℕ} {fut : PollStreamFut I} {st : I}
    (ho : s.inner_streams.owner = .poll lv (.poll t))
    (hf : (s.inner_streams.tasks t).future = some fut) (hst : fut.stream = some st)
    (r : StreamPolled I T) :
    State.Serial ({ s with inner_streams := s.inner_streams.polled lv t (fut.poll r) }.answered t fut
      r) := by
  have hfut := holds_of_polling hinv.bucket.sound ho hf
  -- the bucket keeps the rest of the stream, if it keeps it at all
  have hwithin : ∀ {events : List (Event T)}, FlattenUnordered.Serial events s.inner_streams →
      FlattenUnordered.Serial events (s.inner_streams.polled lv t (fut.poll r)) := by
    intro events h'
    apply h'.within
    · intro u fut' hfut'
      left
      rcases holds_of_polled hfut' with ⟨-, hpending⟩ | hbefore
      · refine ⟨t, fut, hfut, ?_⟩
        unfold PollStreamFut.poll at hpending
        rw [hst] at hpending
        cases r <;> cases hpending
        rfl
      · exact ⟨u, fut', hbefore, rfl⟩
    · intro x fut' hfut'
      left
      refine ⟨t, fut, hfut, ?_⟩
      unfold PollStreamFut.poll at hfut'
      rw [hst] at hfut'
      cases r with
      | item y st' =>
          obtain ⟨-, rfl⟩ := Prod.mk.inj (Option.some.inj (List.mem_singleton.mp hfut'))
          rfl
      | ended => cases List.mem_singleton.mp hfut'
      | pending st' => cases hfut'
      | unwind => cases hfut'
  unfold PollStreamFut.poll at hwithin ⊢
  unfold State.answered
  rw [hst] at hwithin ⊢
  cases r with
  | pending st' => exact hwithin h
  | item x st' => exact hwithin (Serial.produce h (h.held t fut hfut) x)
  | ended => exact hwithin (Serial.record h rfl rfl)
  | unwind => exact hwithin h

/-- **Every move keeps the order**, if the bucket has room for one stream. -/
theorem serial_move {a : Act B I T W} (hinv : s.Inv) (htaken : s.Taken P lost)
    (hcapped : s.Capped (some cap)) (hone : cap.1 = 1) (h : s.Serial) (hm : Move next_step s a s') :
    s'.Serial := by
  have hserial := h
  unfold State.Serial at h
  -- the call of the bucket is over, and nothing is on its way from it
  have hret : ∀ {lv r}, FlattenUnordered.Serial s.hist.events (s.inner_streams.ret lv r) := by
    intro lv r
    apply h.within
    · intro t fut hfut
      exact Or.inl ⟨t, fut, ⟨hfut.pushed, hfut.unfinished, hfut.future⟩, rfl⟩
    · rintro x fut ⟨⟩
  cases hm with
  | baseReturn hb hpush hstep =>
      obtain ⟨hheld, hcarried⟩ := empty_of_asks hinv hcapped hone hb
      exact h.turn_returned hheld hcarried _
  | @baseContinue l i item inner_stream hb hpush hstep hi ho =>
      obtain ⟨hheld, hcarried⟩ := empty_of_asks hinv hcapped hone hb
      apply h.turn_taken
      · rw [htaken.taken]
        exact Nat.lt_irrefl _
      · exact fun x hx => Nat.lt_irrefl _ (htaken.produced _ x hx)
      · intro t fut hfut
        rcases holds_of_push hfut with rfl | hbefore
        · rfl
        · exact absurd hbefore (hheld t fut)
      · exact hcarried
  | baseEnds hb hpush => exact h.record rfl rfl
  | basePending hb hpush => exact h.record rfl rfl
  | baseUnwinds hb hr => exact h.record rfl rfl
  | innerPoll i hpc hneed ho hpush =>
      apply h.within
      · intro t fut hfut
        exact Or.inl ⟨t, fut, ⟨hfut.pushed, hfut.unfinished, hfut.future⟩, rfl⟩
      · rintro x fut ⟨⟩
  | @innerItem l lv i x fut hb hi =>
      have hcarrying : some (x, fut) ∈ s.inner_streams.owner.carrying := by
        rw [hb.owner]
        exact List.mem_singleton_self _
      apply h.within
      · intro t fut' hfut'
        rcases holds_of_push hfut' with rfl | hbefore
        · exact Or.inr ⟨x, _, hcarrying, rfl⟩
        · exact Or.inl ⟨t, fut', ⟨hbefore.pushed, hbefore.unfinished, hbefore.future⟩, rfl⟩
      · rintro y fut' ⟨⟩
  | innerEnd i hb => exact hret
  | innerNone i hb hr => exact hret
  | innerUnwinds i hb => exact hret.record rfl rfl
  | @stream lv t fut r ho hf =>
      obtain ⟨st, hst, -⟩ := (htaken.tasks t fut hf).stream
      exact hserial.answered hinv ho hf hst r
  | owner hq => exact serial_wakes _ (serial_inner hserial rfl hq)
  | stop i hpc hpush =>
      unfold State.stop_polling
      dsimp only
      split
      · exact h.record rfl rfl
      · split
        · exact h.record rfl rfl
        · exact h.record rfl rfl
  | wakeTask hcalls hq => exact serial_inner hserial rfl hq
  | thread hcalls hq => exact serial_inner hserial rfl hq
  | _ => exact hserial

/-! ## Runs -/

/-- What the consumer sees of a `FlattenUnordered` with room for one stream. -/
structure State.InTurn (s : State I T W A) : Prop where
  /-- Between calls, what has been yielded is what the answers of the base come to. -/
  yielded : s.pc = .idle →
    (yielded s.hist.events).map Item.value = inTurn s.hist.events
  /-- At all times it is the beginning of that. -/
  begun : (FlattenUnordered.yielded s.hist.events).map Item.value <+: inTurn s.hist.events

/-- Whatever the streams do, they are lost at worst. -/
abbrev State.Flattens (s : State I T W A) : Prop :=
  s.Kept (fun _ => True) ∧ s.Capped (NonZeroUsize.new 1) ∧ s.Serial

theorem flattens_new : (State.new I T W A (some 1)).Flattens :=
  ⟨.new _ _, capped_new (some 1), Serial.new⟩

theorem flattens_move {a : Act B I T W} (h : s.Flattens) (hm : Move next_step s a s') :
    s'.Flattens := by
  obtain ⟨hkept, hcapped, hserial⟩ := h
  have hone : NonZeroUsize.new 1 = some ⟨1, Nat.one_pos⟩ := rfl
  refine ⟨hkept.move (fun _ _ => trivial) hm, capped_move hkept.inv hcapped hm, ?_⟩
  rw [hone] at hcapped
  exact serial_move hkept.inv hkept.taken hcapped rfl hserial hm

theorem State.Flattens.inTurn (h : s.Flattens) : s.InTurn := by
  obtain ⟨hkept, -, hserial⟩ := h
  have hbalance := hkept.items.balance
  refine ⟨fun hpc => ?_, ?_⟩
  · have hout := carrying_of_outside hkept.inv (by rw [hpc]; rintro l ⟨⟩)
    rw [hout, hpc] at hbalance
    rw [← hserial.given, hbalance]
    exact congrArg (List.map Item.value) (List.append_nil _).symm
  · rw [← hserial.given, hbalance, List.map_append]
    exact List.prefix_append _ _

end FlattenUnordered

open FlattenUnordered
open TryFlattenUnordered (propagate)

variable {B I E E' T W : Type} {A : AtomicWaker WrappedWaker}

/-- **With room for one stream, the streams are flattened in order.** In every run of
`FlattenUnordered` with the limit one, with any flow controller, and of
`TryFlattenUnordered`, whoever wakes whom and whoever unwinds: what has been yielded,
between calls, is what the answers of the base come to, one after the other, where an
answer comes to the item that the flow controller returned for it, or to all that its
stream has given; and within a call it is the beginning of that. The history has the
answers that the labels bring, and no others. -/
theorem flattens_in_order (next_step : B → Option (FlowStep I T)) (into : E → E') :
    (∀ s : FlattenUnordered.State I T W A,
      Transition.Reachable (FlattenUnordered.step next_step) (.new I T W A (some 1)) s →
      s.InTurn ∧
        ∀ a s', FlattenUnordered.step next_step s a = some s' →
          answers s'.hist.events = answers s.hist.events ++ s.says next_step a) ∧
    ∀ s : TryFlattenUnordered.State I E' T W A,
      Transition.Reachable (TryFlattenUnordered.step into) (.new I E' T W A (some 1)) s →
      s.inner.InTurn ∧
        ∀ a s', TryFlattenUnordered.step into s a = some s' →
          answers s'.inner.hist.events =
            answers s.inner.hist.events ++ s.inner.says (propagate into) a := by
  refine ⟨fun s hreach => ?_, fun s hreach => ?_⟩
  · have hflattens := hreach.invariant (I := FlattenUnordered.State.Flattens) flattens_new
      fun s a s' h hs => flattens_move h (FlattenUnordered.move_of_step hs)
    exact ⟨hflattens.inTurn, fun a s' hs => answers_move (FlattenUnordered.move_of_step hs)⟩
  · obtain ⟨hflattens, hwrapped⟩ := hreach.invariant (I := fun s => s.inner.Flattens ∧ s.Wrapped)
      ⟨flattens_new, TryFlattenUnordered.wrapped_new (some 1)⟩ fun s a s' h hs =>
        have hm := (TryFlattenUnordered.wraps_inner into).move hs
        ⟨flattens_move h.1 hm, TryFlattenUnordered.wrapped_step into h.1.1.inv h.2 hs⟩
    exact ⟨hflattens.inTurn, fun a s' hs =>
      TryFlattenUnordered.answers_step into hwrapped.fused hwrapped.stream hs⟩

/-- The base gives a stream of one item, an error, and another stream with an item. -/
def twoStreams : List (Act (Except ℕ Unit) Unit (Except (ℕ × Bool) ℕ) Unit) :=
  let call := [.poll_next ()] ++ List.replicate 4 (.own 0)
  let polled (r : StreamPolled Unit (Except (ℕ × Bool) ℕ)) :=
    [.own 0] ++ List.replicate 12 .owner ++ [.inner r, .owner, .owner, .own 0]
  let pushed := List.replicate 4 (.thread 0)
  List.flatten
    [call, [.base 0 (.ready (some (.ok ())))], pushed, [.own 0], polled (.item (.ok 8) ()), pushed,
      [.own 0, .ret], call, [.own 0], polled .ended, [.own 0, .own 0, .ret],
      call, [.base 0 (.ready (some (.error 3))), .own 0, .own 0, .ret],
      call, [.base 0 (.ready (some (.ok ())))], pushed, [.own 0], polled (.item (.ok 9) ()), pushed,
      [.own 0, .ret]]

theorem flattens_in_order_two_streams :
    (∃ s : FlattenUnordered.State Unit (Except (ℕ × Bool) ℕ) Unit (AtomicWaker.cell WrappedWaker),
      Transition.run (FlattenUnordered.step (propagate fun e => (e, true))) (.new _ _ _ _ (some 1))
        twoStreams = some s ∧
      (yielded s.hist.events).map Item.value = [.ok 8, .error (3, true), .ok 9] ∧ s.InTurn) ∧
    ∃ s : TryFlattenUnordered.State Unit (ℕ × Bool) ℕ Unit (AtomicWaker.cell WrappedWaker),
      Transition.run (TryFlattenUnordered.step fun e => (e, true)) (.new _ _ _ _ _ (some 1))
        twoStreams = some s ∧
      (yielded s.inner.hist.events).map Item.value = [.ok 8, .error (3, true), .ok 9] ∧
      s.inner.InTurn := by
  have hinOrder := flattens_in_order (A := AtomicWaker.cell WrappedWaker) (W := Unit)
    (propagate (I := Unit) (T := ℕ) fun e : ℕ => (e, true)) (fun e : ℕ => (e, true))
  have htry := flattens_in_order (A := AtomicWaker.cell WrappedWaker) (W := Unit)
    (fun _ : ℕ => (none : Option (FlowStep Unit ℕ))) (fun e : ℕ => (e, true))
  refine ⟨?_, ?_⟩
  · have hrun : (Transition.run (FlattenUnordered.step (propagate fun e => (e, true)))
        (.new Unit (Except (ℕ × Bool) ℕ) Unit (AtomicWaker.cell WrappedWaker) (some 1))
        twoStreams).map (fun s => (yielded s.hist.events).map Item.value) =
        some [.ok 8, .error (3, true), .ok 9] := by
      decide +kernel
    obtain ⟨s, hs, hyielded⟩ := Option.map_eq_some_iff.mp hrun
    exact ⟨s, hs, hyielded, (hinOrder.1 s ⟨twoStreams, hs⟩).1⟩
  · have hrun : (Transition.run (TryFlattenUnordered.step fun e => (e, true))
        (.new Unit (ℕ × Bool) ℕ Unit (AtomicWaker.cell WrappedWaker) (some 1)) twoStreams).map
        (fun s => (yielded s.inner.hist.events).map Item.value) =
        some [.ok 8, .error (3, true), .ok 9] := by
      decide +kernel
    obtain ⟨s, hs, hyielded⟩ := Option.map_eq_some_iff.mp hrun
    exact ⟨s, hs, hyielded, (htry.2 s ⟨twoStreams, hs⟩).1⟩

end TokioStreamUtil
