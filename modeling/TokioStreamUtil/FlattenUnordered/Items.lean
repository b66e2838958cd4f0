/-
What `FlattenUnordered` yields.

Every item that the base or an inner stream has given is yielded once, in the order
in which the items were given: between calls the two sequences are the same
(`Items`). A stream taken from the base stays in the bucket, or is on its way back
to it, until it ends (`Streams`), and the end of the stream is the end of
everything (`Ends`). All this is about runs in which no poll unwinds.
-/
import TokioStreamUtil.FlattenUnordered.Taken

set_option autoImplicit false

namespace TokioStreamUtil.FlattenUnordered

open FuturesUnordered (Polled PollNext)
open Word (need)

variable {B I T W : Type} {A : AtomicWaker WrappedWaker}

/-! ## Runs without unwinding -/

/-- A poll unwinds, of the base, of the flow controller on its item, or of an inner
stream. -/
def Act.unwinds (next_step : B → Option (FlowStep I T)) : Act B I T W → Bool
  | .base _ .unwound => true
  | .base _ (.ready (some item)) => (next_step item).isNone
  | .inner .unwind => true
  | _ => false

/-! ## Items given, items yielded -/

/-- The item that a source gives. -/
def Event.given : Event T → Option (Item T)
  | .returned x => some { value := x, origin := .base }
  | .produced k x => some { value := x, origin := .inner k }
  | _ => none

/-- The item that `poll_next` yields. -/
def Event.yielded : Event T → Option (Item T)
  | .result (.ready item) => item
  | _ => none

/-- The items given so far, in order. -/
def given (events : List (Event T)) : List (Item T) := events.filterMap Event.given

/-- The items yielded so far, in order. -/
def yielded (events : List (Event T)) : List (Item T) := events.filterMap Event.yielded

theorem given_concat (events : List (Event T)) (e : Event T) :
    given (events ++ [e]) = given events ++ e.given.toList := by
  unfold given
  cases h : e.given <;> simp [h]

theorem yielded_concat (events : List (Event T)) (e : Event T) :
    yielded (events ++ [e]) = yielded events ++ e.yielded.toList := by
  unfold yielded
  cases h : e.yielded <;> simp [h]

/-- The values of the items that come from `o`. -/
def itemsOf (o : Origin) (items : List (Item T)) : List T :=
  (items.filter fun item => item.origin = o).map Item.value

/-- What `o` gives in an event: the item the flow controller made of an answer of the
base, or the answer of an inner stream. -/
def Origin.gives : Origin → Event T → Option T
  | .base, .returned x => some x
  | .inner k, .produced k' x => if k' = k then some x else none
  | _, _ => none

/-- What `o` has given so far. -/
def Origin.gave (o : Origin) (events : List (Event T)) : List T := events.filterMap o.gives

theorem itemsOf_given (o : Origin) (events : List (Event T)) :
    itemsOf o (given events) = o.gave events := by
  unfold itemsOf given Origin.gave
  rw [List.filter_filterMap, List.map_filterMap]
  apply List.filterMap_congr
  intro e he
  cases o with
  | base => cases e <;> rfl
  | inner k =>
      cases e with
      | produced k' x => by_cases hk : k' = k <;> simp [Event.given, Origin.gives, hk]
      | _ => rfl

/-- The item in the slot `next_item`. -/
def Pc.slot (pc : Pc T W) : List (Item T) :=
  match pc.locals with
  | some l => l.next_item.toList
  | none => []

/-- The slot is not written twice: it is empty before the base loop and before the
bucket is polled. -/
def Pc.SlotFree : Pc T W → Prop
  | .replace l => l.next_item = none
  | .base l => l.next_item = none
  | .inner l => l.next_item = none ∨ need .inner_streams l.poll_state_value = false
  | .innerPoll l => l.next_item = none
  | _ => True

/-- The items in the outputs that the bucket is about to return. -/
def carriedItems (outputs : List (Option (T × PollStreamFut I))) : List (Item T) :=
  outputs.filterMap fun o => o.map fun p => { value := p.1, origin := .inner p.2.source }

/-- What was given has been yielded, or is in the slot, or about to get there. -/
structure Items (events : List (Event T)) (pc : Pc T W) (carried : List (Item T)) : Prop where
  balance : given events = yielded events ++ (pc.slot ++ carried)
  free : pc.SlotFree

namespace Items

variable {events : List (Event T)} {pc pc' : Pc T W} {carried : List (Item T)}

theorem new : Items ([] : List (Event T)) (.idle : Pc T W) [] := ⟨rfl, trivial⟩

/-- `poll_next` moves on with the same item. -/
theorem advance (h : Items events pc carried) (hslot : pc'.slot = pc.slot) (hfree : pc'.SlotFree) :
    Items events pc' carried := ⟨by rw [hslot]; exact h.balance, hfree⟩

/-- Something happens that is no matter of items. -/
theorem record (h : Items events pc carried) {e : Event T} (hgiven : e.given = none)
    (hyielded : e.yielded = none) : Items (events ++ [e]) pc carried := by
  refine ⟨?_, h.free⟩
  rw [given_concat, yielded_concat, hgiven, hyielded, Option.toList_none, List.append_nil,
    List.append_nil]
  exact h.balance

/-- A source gives an item, and there is no other on its way. -/
theorem give (h : Items events pc []) (hslot : pc.slot = []) {e : Event T} {item : Item T}
    (hgiven : e.given = some item) (hyielded : e.yielded = none) {carried' : List (Item T)}
    (hflight : pc'.slot ++ carried' = [item]) (hfree : pc'.SlotFree) :
    Items (events ++ [e]) pc' carried' := by
  have hbalance := h.balance
  rw [hslot, List.append_nil, List.append_nil] at hbalance
  refine ⟨?_, hfree⟩
  rw [given_concat, yielded_concat, hgiven, hyielded, hbalance, hflight, Option.toList_none,
    List.append_nil]
  rfl

/-- `poll_next` comes to a result: it yields what is in the slot. -/
theorem yield (h : Items events pc []) {e : Event T} (hgiven : e.given = none)
    (hyielded : e.yielded.toList = pc.slot) (hslot : pc'.slot = []) (hfree : pc'.SlotFree) :
    Items (events ++ [e]) pc' [] := by
  have hbalance := h.balance
  refine ⟨?_, hfree⟩
  rw [given_concat, yielded_concat, hgiven, hyielded, hslot, hbalance, Option.toList_none,
    List.append_nil, List.append_nil, List.append_nil, List.append_nil]

end Items

/-- The items of a state. -/
def State.Items (s : State I T W A) : Prop :=
  FlattenUnordered.Items s.hist.events s.pc (carriedItems s.inner_streams.owner.carrying)

variable {next_step : B → Option (FlowStep I T)} {s s' : State I T W A}

/-- Calls of wrapped wakers are no matter of items. -/
theorem items_wakes (ks : List WrappedWaker) : ∀ {s : State I T W A}, s.Items →
    (ks.foldl (fun s' k => s'.wake_by_ref .poll k) s).Items := by
  induction ks with
  | nil => exact fun h => h
  | cons k ks ih => exact fun h => ih (s := _) h

/-- The machinery of the bucket moves. -/
theorem items_inner (h : s.Items) {a : InnerAct I T} (ha : a.inner = true)
    {q : FuturesUnordered.State (PollStreamFut I) (Option (T × PollStreamFut I)) WrappedWaker A}
    (hq : FuturesUnordered.Move s.inner_streams a q) :
    State.Items { s with inner_streams := q } := by
  unfold State.Items
  dsimp only
  rw [(FuturesUnordered.frame_move hq ha).carrying]
  exact h

/-- Outside the bucket nothing is on its way from it. -/
theorem carrying_of_outside (h : s.Inv) (hout : ∀ l, s.pc ≠ .innerPoll l) :
    s.inner_streams.owner.carrying = [] := by
  rw [h.bucket.idle hout]
  rfl

/-- `FlowStep::Return`: the slot was empty, and the bucket is not polled in this call. -/
theorem State.Items.baseReturn (h : s.Items) (hinv : s.Inv) {l : Locals T W} (hb : AsksBase s l)
    (x : T) : (s.baseReturn l x).Items := by
  unfold State.Items at h
  have hempty : s.pc.slot = [] := by
    rw [hb.pc] at h ⊢
    exact congrArg Option.toList h.free
  have hout := carrying_of_outside hinv (by rw [hb.pc]; nofun)
  rw [hout] at h
  show FlattenUnordered.Items (s.hist.events ++ [.returned x]) _
    (carriedItems s.inner_streams.owner.carrying)
  rw [hout]
  refine h.give hempty rfl rfl rfl (Or.inr ?_)
  have hclear : need .inner_streams (~~~NEED_TO_POLL_INNER_STREAMS) = false := by decide
  dsimp only
  rw [need_and, hclear, Bool.and_false]

/-- The stream of task `t` answers, while nothing is in the slot. -/
theorem State.Items.answered (h : s.Items) (hinv : s.Inv) {lv : FuturesUnordered.Locals WrappedWaker}
    {t : ℕ} {fut : PollStreamFut I} {st : I} (ho : s.inner_streams.owner = .poll lv (.poll t))
    (hst : fut.stream = some st) (r : StreamPolled I T) :
    State.Items ({ s with inner_streams := s.inner_streams.polled lv t (fut.poll r) }.answered t fut
      r) := by
  obtain ⟨l, hl⟩ := hinv.bucket.innerPoll_of_not_idle (by rw [ho]; rfl)
  unfold State.Items at h
  have hempty : s.pc.slot = [] := by
    rw [hl] at h ⊢
    exact congrArg Option.toList h.free
  rw [ho] at h
  unfold PollStreamFut.poll State.answered
  rw [hst]
  cases r with
  | pending st => exact h
  | item x st =>
      refine h.give hempty rfl rfl ?_ h.free
      show s.pc.slot ++ _ = _
      rw [hempty]
      rfl
  | ended => exact h.record rfl rfl
  | unwind => exact h

/-- `poll_next` comes to its result: the item in the slot, if there is one. -/
theorem State.Items.stop (h : s.Items) (hinv : s.Inv) {l : Locals T W} (hpc : s.pc = .finish l) :
    (s.stop_polling l).Items := by
  have hout := carrying_of_outside hinv (by rw [hpc]; nofun)
  unfold State.Items at h
  rw [hpc, hout] at h
  unfold State.stop_polling State.Items
  dsimp only
  split
  · show FlattenUnordered.Items _ _ (carriedItems s.inner_streams.owner.carrying)
    rw [hout]
    exact h.yield rfl rfl rfl trivial
  · rename_i hnone
    rw [Bool.or_eq_true, not_or, Option.not_isSome_iff_eq_none] at hnone
    split
    · show FlattenUnordered.Items _ _ (carriedItems s.inner_streams.owner.carrying)
      rw [hout]
      exact h.yield rfl (congrArg Option.toList hnone.1).symm rfl trivial
    · show FlattenUnordered.Items _ _ (carriedItems s.inner_streams.owner.carrying)
      rw [hout]
      exact h.yield rfl (congrArg Option.toList hnone.1).symm rfl trivial

/-- **Every move keeps the items**: nothing is in the slot when a poll unwinds. -/
theorem items_move {a : Act B I T W} (hinv : s.Inv) (h : s.Items)
    (hstream : ∀ t fut, (s.inner_streams.tasks t).future = some fut → ∃ st, fut.stream = some st)
    (hm : Move next_step s a s') : s'.Items := by
  have hitems := h
  unfold State.Items at h
  cases hm with
  | poll_next w hpc =>
      rw [hpc] at h
      exact h.advance rfl trivial
  | spin i hpc hw => exact hitems
  | claim i hpc hw =>
      rw [hpc] at h
      exact h.advance rfl rfl
  | replace i hpc hp => exact hitems
  | replaced i hpc hp =>
      rw [hpc] at h
      exact h.advance rfl h.free
  | baseSkip i hpc hneed hpush =>
      rw [hpc] at h
      exact h.advance rfl (Or.inl h.free)
  | baseDone i hpc hdone hpush =>
      rw [hpc] at h
      exact h.advance rfl (Or.inl h.free)
  | baseLimit i hpc hlimit hdone hpush =>
      rw [hpc] at h
      exact h.advance rfl (Or.inl h.free)
  | baseReturn hb hpush hstep => exact hitems.baseReturn hinv hb _
  | baseContinue hb hpush hstep hi ho =>
      rw [hb.pc] at h
      exact (h.record rfl rfl).advance rfl h.free
  | baseEnds hb hpush => exact h.record rfl rfl
  | basePending hb hpush =>
      rw [hb.pc] at h
      exact (h.record rfl rfl).advance rfl (Or.inl h.free)
  | @baseUnwinds l i r hb hr =>
      have hout := carrying_of_outside hinv (by rw [hb.pc]; intro l' hl'; cases hl')
      rw [hb.pc, hout] at h
      show FlattenUnordered.Items (s.hist.events ++ [.result .unwound]) _
        (carriedItems s.inner_streams.owner.carrying)
      rw [hout]
      exact h.yield rfl (congrArg Option.toList h.free).symm rfl trivial
  | innerSkip i hpc hneed =>
      rw [hpc] at h
      exact h.advance rfl trivial
  | @innerPoll l i hpc hneed ho hpush =>
      have hout := carrying_of_outside hinv (by rw [hpc]; nofun)
      rw [hpc, hout] at h
      -- the bucket is polled only where no item has been returned by the base
      refine h.advance rfl ?_
      rcases h.free with hnone | hclear
      · exact hnone
      · rw [hneed] at hclear
        cases hclear
  | @innerItem l lv i x fut hb hi =>
      rw [hb.pc, hb.owner] at h
      refine ⟨?_, trivial⟩
      have hbalance := h.balance
      have hnone : l.next_item = none := h.free
      rw [show (Pc.innerPoll l).slot = [] from congrArg Option.toList hnone] at hbalance
      exact hbalance
  | innerEnd i hb =>
      rw [hb.pc, hb.owner] at h
      exact h.advance rfl trivial
  | innerNone i hb hr =>
      rw [hb.pc, hb.owner] at h
      rcases hr with rfl | rfl
      · exact h.advance rfl trivial
      · exact h.advance rfl trivial
  | innerUnwinds i hb =>
      rw [hb.pc, hb.owner] at h
      exact h.yield rfl (congrArg Option.toList h.free).symm rfl trivial
  | @stream lv t fut r ho hf =>
      obtain ⟨st, hst⟩ := hstream t fut hf
      exact hitems.answered hinv ho hst r
  | owner hq => exact items_wakes _ (items_inner hitems rfl hq)
  | stop i hpc hpush => exact hitems.stop hinv hpc
  | wake i hpc =>
      rw [hpc] at h
      exact h.advance rfl trivial
  | ret hpc =>
      rw [hpc] at h
      exact h.advance rfl trivial
  | wakeTask hcalls hq => exact items_inner hitems rfl hq
  | thread hcalls hq => exact items_inner hitems rfl hq
  | call hcalls hi => exact hitems
  | wake_by_ref k hi => exact hitems
  | waker hs => exact hitems

/-! ## The streams taken from the base -/

section Streams

variable {q q' : FuturesUnordered.State (PollStreamFut I) (Option (T × PollStreamFut I))
  WrappedWaker A}

/-- The streams that have been taken. -/
structure Streams (P : I → Prop) (events : List (Event T)) (sources : ℕ)
    (q : FuturesUnordered.State (PollStreamFut I) (Option (T × PollStreamFut I)) WrappedWaker A) :
    Prop where
  tasks : ∀ t fut, (q.tasks t).future = some fut → fut.Live P sources
  carried : ∀ x fut, some (x, fut) ∈ q.owner.carrying → fut.Live P sources
  unwound : q.owner.result ≠ some .unwound
  taken : ∀ k, .taken k ∈ events ↔ k < sources
  produced : ∀ k x, .produced k x ∈ events → k < sources
  kept : ∀ k < sources, .ended k ∈ events ∨ Keeps q k

namespace Streams

variable {P : I → Prop} {events : List (Event T)} {sources : ℕ}

theorem new (P : I → Prop) : Streams P ([] : List (Event T)) 0 (FuturesUnordered.State.new (A := A) :
    FuturesUnordered.State (PollStreamFut I) (Option (T × PollStreamFut I)) WrappedWaker A) :=
  ⟨nofun, nofun, nofun, fun _ => ⟨nofun, nofun⟩, nofun, nofun⟩

/-- No stream is lost. -/
theorem none_lost (h : Streams P events sources q) : Taken P (fun _ => False) events sources q :=
  ⟨h.tasks, h.carried, h.taken, h.produced, fun k hk => (h.kept k hk).imp_right Or.inr⟩

theorem of_none_lost (h : Taken P (fun _ => False) events sources q)
    (hunwound : q.owner.result ≠ some .unwound) : Streams P events sources q :=
  ⟨h.tasks, h.carried, hunwound, h.taken, h.produced,
    fun k hk => (h.kept k hk).imp_right (Or.resolve_left · id)⟩

end Streams

end Streams

/-- The streams of a state. -/
def State.Streams (P : I → Prop) (s : State I T W A) : Prop :=
  FlattenUnordered.Streams P s.hist.events s.hist.sources s.inner_streams

variable {P : I → Prop}

/-- Where nothing unwinds, no poll of the bucket does. -/
theorem calm_move {a : Act B I T W} (h : s.inner_streams.owner.result ≠ some .unwound)
    (hstream : ∀ t fut, (s.inner_streams.tasks t).future = some fut → ∃ st, fut.stream = some st)
    (ha : a.unwinds next_step = false) (hm : Move next_step s a s') :
    s'.inner_streams.owner.result ≠ some .unwound := by
  cases hm with
  | innerPoll i hpc hneed ho hpush => exact nofun
  | innerItem hb hi => exact nofun
  | innerEnd i hb => exact nofun
  | innerNone i hb hr => exact nofun
  | innerUnwinds i hb => exact nofun
  | @stream lv t fut r ho hf =>
      obtain ⟨st₀, hst⟩ := hstream t fut hf
      rw [(answered_bucket _ _ _ _).1]
      unfold PollStreamFut.poll
      rw [hst]
      cases r with
      | unwind => cases ha
      | _ => exact nofun
  | owner hq =>
      rw [wakes_bucket]
      exact (FuturesUnordered.frame_move hq rfl).unwound h
  | stop i hpc hpush =>
      rw [(stop_polling_bucket s _).1]
      exact h
  | wakeTask hcalls hq => exact (FuturesUnordered.frame_move hq rfl).unwound h
  | thread hcalls hq => exact (FuturesUnordered.frame_move hq rfl).unwound h
  | _ => exact h

/-- **Every move keeps the streams**, if nothing unwinds. -/
theorem streams_move {a : Act B I T W} (hinv : s.Inv) (h : s.Streams P)
    (ha : a.unwinds next_step = false) (hP : a.Brings next_step P) (hm : Move next_step s a s') :
    s'.Streams P := by
  have hnone : ∀ k, s.Unwinds a k → False := by
    rintro k ⟨rfl, -⟩
    cases ha
  refine Streams.of_none_lost (taken_move hinv h.none_lost hnone hP hm) ?_
  exact calm_move h.unwound (fun t fut hf => (h.tasks t fut hf).stream.imp fun _ hst => hst.1) ha hm

/-! ## The end -/

/-- `Ready(None)` comes after the end of the base and of every stream taken, and
only `Ready(None)` comes after it. -/
def Settled (events : List (Event T)) : Prop :=
  ∀ pre post, events = pre ++ .result (.ready none) :: post →
    .base_done ∈ pre ∧ (∀ k, .taken k ∈ pre → .ended k ∈ pre) ∧
      ∀ e ∈ post, e = .result (.ready none)

namespace Settled

variable {events : List (Event T)}

/-- Before the end there is nothing to show. -/
theorem of_not_mem (h : .result (.ready none) ∉ events) : Settled events := by
  rintro pre post rfl
  exact absurd (List.mem_append_right pre List.mem_cons_self) h

/-- One more `Ready(None)`, when everything has ended. -/
theorem concat (h : Settled events) (hdone : .base_done ∈ events)
    (hended : ∀ k, .taken k ∈ events → .ended k ∈ events) :
    Settled (events ++ [.result (.ready none)]) := by
  intro pre post heq
  rcases List.eq_nil_or_concat post with rfl | ⟨post, e, rfl⟩
  · obtain ⟨rfl, -⟩ := List.append_inj' heq rfl
    exact ⟨hdone, hended, nofun⟩
  · rw [List.concat_eq_append, ← List.cons_append, ← List.append_assoc] at heq
    obtain ⟨hevents, hlast⟩ := List.append_inj' heq rfl
    obtain ⟨hbase, htaken, hpost⟩ := h pre post hevents
    refine ⟨hbase, htaken, fun x hx => ?_⟩
    rw [List.concat_eq_append, List.mem_append, List.mem_singleton] at hx
    rcases hx with hx | rfl
    · exact hpost x hx
    · exact (List.singleton_inj.mp hlast).symm

end Settled

/-- Once the end has been announced, nothing is left. -/
structure Ends (events : List (Event T)) (pc : Pc T W) (done : Bool)
    (q : FuturesUnordered.State (PollStreamFut I) (Option (T × PollStreamFut I)) WrappedWaker A) :
    Prop where
  base : done = true → .base_done ∈ events
  finished : .result (.ready none) ∈ events →
    done = true ∧ q.unfinished = 0 ∧ q.owner.carrying = [] ∧ pc.slot = []
  settled : Settled events

namespace Ends

variable {events : List (Event T)} {pc pc' : Pc T W} {done done' : Bool}
  {q q' : FuturesUnordered.State (PollStreamFut I) (Option (T × PollStreamFut I)) WrappedWaker A}

/-- `poll_next` moves on, and the bucket with it. -/
theorem advance (h : Ends events pc done q) (hslot : pc.slot = [] → pc'.slot = [])
    (hq : q.unfinished = 0 → q.owner.carrying = [] → q'.unfinished = 0 ∧ q'.owner.carrying = []) :
    Ends events pc' done q' := by
  refine ⟨h.base, fun hover => ?_, h.settled⟩
  obtain ⟨hdone, hunfinished, hcarrying, hempty⟩ := h.finished hover
  obtain ⟨hunfinished', hcarrying'⟩ := hq hunfinished hcarrying
  exact ⟨hdone, hunfinished', hcarrying', hslot hempty⟩

/-- Something happens before the end has been announced. -/
theorem record (h : Ends events pc done q) (hno : .result (.ready none) ∉ events) {e : Event T}
    (he : e ≠ .result (.ready none)) (hdone : done' = true → done = true ∨ e = .base_done) :
    Ends (events ++ [e]) pc' done' q' := by
  have hno' : .result (.ready none) ∉ events ++ [e] := by
    rw [List.mem_append, List.mem_singleton, not_or]
    exact ⟨hno, he.symm⟩
  refine ⟨fun hd => ?_, fun hover => absurd hover hno', Settled.of_not_mem hno'⟩
  rcases hdone hd with hd | rfl
  · exact List.mem_append_left _ (h.base hd)
  · exact List.mem_append_right _ (List.mem_singleton_self _)

end Ends

/-- The end of a state. -/
def State.Ends (s : State I T W A) : Prop :=
  FlattenUnordered.Ends s.hist.events s.pc s.is_stream_done s.inner_streams

/-- Calls of wrapped wakers are no matter of the end. -/
theorem ends_wakes (ks : List WrappedWaker) : ∀ {s : State I T W A}, s.Ends →
    (ks.foldl (fun s' k => s'.wake_by_ref .poll k) s).Ends := by
  induction ks with
  | nil => exact fun h => h
  | cons k ks ih => exact fun h => ih (s := _) h

/-- The machinery of the bucket moves. -/
theorem ends_inner (h : s.Ends) {a : InnerAct I T} (ha : a.inner = true)
    {q : FuturesUnordered.State (PollStreamFut I) (Option (T × PollStreamFut I)) WrappedWaker A}
    (hq : FuturesUnordered.Move s.inner_streams a q) :
    State.Ends { s with inner_streams := q } := by
  have hframe := FuturesUnordered.frame_move hq ha
  refine Ends.advance h (fun hslot => hslot) ?_
  rw [hframe.unfinished, hframe.carrying]
  exact And.intro

/-- `stop_polling` announces the end if nothing is left. -/
theorem ends_stop_polling (hinv : s.Inv) (h : s.Ends) (hstreams : s.Streams P) {l : Locals T W}
    (hpc : s.pc = .finish l) : (s.stop_polling l).Ends := by
  have hidle : s.inner_streams.owner = .idle := hinv.bucket.idle (by rw [hpc]; nofun)
  have hempty : s.inner_streams.is_empty = true ↔ s.inner_streams.unfinished = 0 := by
    rw [hinv.bucket.sound.is_empty_iff, hinv.bucket.sound.len_eq hidle]
  have hslot : s.pc.slot = l.next_item.toList := by rw [hpc]; rfl
  unfold State.Ends at h
  by_cases hleft : s.is_stream_done = true ∧ s.inner_streams.is_empty = true ∧ l.next_item = none
  · -- nothing is left, so this is `Ready(None)`, perhaps not for the first time
    obtain ⟨hdone, hnone, hitem⟩ := hleft
    have hended : ∀ k, .taken k ∈ s.hist.events → .ended k ∈ s.hist.events := by
      intro k hk
      rcases hstreams.kept k ((hstreams.taken k).mp hk) with hended | ⟨t, fut, hholds, -⟩ |
        ⟨x, fut, hmem, -⟩
      · exact hended
      · rw [hholds.not_empty hinv.bucket.sound hidle] at hnone
        cases hnone
      · rw [hidle] at hmem
        cases hmem
    have hover := h.settled.concat (h.base hdone) hended
    unfold State.stop_polling
    dsimp only
    rw [hdone, hnone, hitem]
    refine ⟨fun _ => List.mem_append_left _ (h.base hdone), fun _ => ⟨rfl, ?_, ?_, rfl⟩, hover⟩
    · exact hempty.mp hnone
    · show s.inner_streams.owner.carrying = []
      rw [hidle]
      rfl
  · -- something is left, so the end has not been announced, and is not now
    have hno : .result (.ready none) ∉ s.hist.events := by
      intro hover
      obtain ⟨hdone, hunfinished, -, hnil⟩ := h.finished hover
      rw [hslot, Option.toList_eq_nil_iff] at hnil
      exact hleft ⟨hdone, hempty.mpr hunfinished, hnil⟩
    unfold State.stop_polling
    dsimp only
    split
    · rename_i hready
      refine h.record hno ?_ Or.inl
      intro he
      have hitem : l.next_item = none := by injection he with he; injection he
      rw [hitem, Option.isSome_none, Bool.false_or, Bool.and_eq_true] at hready
      exact hleft ⟨hready.1, hready.2, hitem⟩
    · split
      · exact h.record hno nofun Or.inl
      · exact h.record hno nofun Or.inl

/-- **Every move keeps the end.** -/
theorem ends_move {a : Act B I T W} (hinv : s.Inv) (h : s.Ends) (hstreams : s.Streams P)
    (hm : Move next_step s a s') : s'.Ends := by
  have hsound := hinv.bucket.sound
  have hends := h
  unfold State.Ends at h
  have hrunning : s.is_stream_done = false → .result (.ready none) ∉ s.hist.events := by
    intro hrun hover
    rw [(h.finished hover).1] at hrun
    cases hrun
  have hkeep : s.inner_streams.unfinished = 0 → s.inner_streams.owner.carrying = [] →
      s.inner_streams.unfinished = 0 ∧ s.inner_streams.owner.carrying = [] := And.intro
  cases hm with
  | poll_next w hpc => exact h.advance (fun _ => rfl) hkeep
  | claim i hpc hw => exact h.advance (fun _ => rfl) hkeep
  | replaced i hpc hp => rw [hpc] at h; exact h.advance (fun hslot => hslot) hkeep
  | baseSkip i hpc hneed hpush => rw [hpc] at h; exact h.advance (fun hslot => hslot) hkeep
  | baseDone i hpc hdone hpush => rw [hpc] at h; exact h.advance (fun hslot => hslot) hkeep
  | baseLimit i hpc hlimit hdone hpush => rw [hpc] at h; exact h.advance (fun hslot => hslot) hkeep
  | baseReturn hb hpush hstep => exact h.record (hrunning hb.running) nofun Or.inl
  | baseContinue hb hpush hstep hi ho => exact h.record (hrunning hb.running) nofun Or.inl
  | baseEnds hb hpush => exact h.record (hrunning hb.running) nofun fun _ => Or.inr rfl
  | basePending hb hpush => exact h.record (hrunning hb.running) nofun Or.inl
  | baseUnwinds hb hr => exact h.record (hrunning hb.running) nofun Or.inl
  | innerSkip i hpc hneed => rw [hpc] at h; exact h.advance (fun hslot => hslot) hkeep
  | innerPoll i hpc hneed ho hpush =>
      rw [hpc] at h
      exact h.advance (fun hslot => hslot) fun hunfinished _ => ⟨hunfinished, rfl⟩
  | innerItem hb hi =>
      refine ⟨h.base, fun hover => ?_, h.settled⟩
      obtain ⟨-, -, hcarrying, -⟩ := h.finished hover
      rw [hb.owner] at hcarrying
      cases hcarrying
  | innerEnd i hb =>
      refine ⟨h.base, fun hover => ?_, h.settled⟩
      obtain ⟨-, -, hcarrying, -⟩ := h.finished hover
      rw [hb.owner] at hcarrying
      cases hcarrying
  | innerNone i hb hr =>
      rw [hb.pc] at h
      exact h.advance (fun hslot => hslot) fun hunfinished _ => ⟨hunfinished, rfl⟩
  | innerUnwinds i hb =>
      have hunwound := hstreams.unwound
      rw [hb.owner] at hunwound
      exact absurd rfl hunwound
  | @stream lv t fut r ho hf =>
      have hafter := FuturesUnordered.unfinished_polled hsound ho (fut.poll r)
      obtain ⟨st, hst, -⟩ := (hstreams.tasks t fut hf).stream
      unfold PollStreamFut.poll at hafter ⊢
      unfold State.answered
      rw [hst] at hafter ⊢
      -- a task that finishes had an unfinished future, so the end is not announced
      have hno : 1 ≤ s.inner_streams.unfinished → .result (.ready none) ∉ s.hist.events := by
        intro hsome hover
        rw [(h.finished hover).2.1] at hsome
        cases hsome
      cases r with
      | pending st' => exact h.advance (fun hslot => hslot) fun hunfinished _ => ⟨hunfinished, rfl⟩
      | item x st' => exact h.record (hno (Nat.le_of_add_left_le hafter)) nofun Or.inl
      | ended => exact h.record (hno (Nat.le_of_add_left_le hafter)) nofun Or.inl
      | unwind =>
          refine h.advance (fun hslot => hslot) fun hunfinished _ => ⟨?_, rfl⟩
          rw [hunfinished] at hafter
          exact Nat.le_zero.mp hafter
  | owner hq => exact ends_wakes _ (ends_inner hends rfl hq)
  | stop i hpc hpush => exact ends_stop_polling hinv hends hstreams hpc
  | wake i hpc => exact h.advance (fun _ => rfl) hkeep
  | ret hpc => exact h.advance (fun _ => rfl) hkeep
  | wakeTask hcalls hq => exact ends_inner hends rfl hq
  | thread hcalls hq => exact ends_inner hends rfl hq
  | _ => exact hends

/-! ## What the labels and the results say -/

/-- Calls of wrapped wakers leave the history and the place of `poll_next` alone. -/
theorem wakes_frame (ks : List WrappedWaker) : ∀ (s : State I T W A),
    (ks.foldl (fun s' k => s'.wake_by_ref .poll k) s).hist.events = s.hist.events ∧
      (ks.foldl (fun s' k => s'.wake_by_ref .poll k) s).pc = s.pc ∧
      (ks.foldl (fun s' k => s'.wake_by_ref .poll k) s).is_stream_done = s.is_stream_done := by
  induction ks with
  | nil => exact fun _ => ⟨rfl, rfl, rfl⟩
  | cons k ks ih => exact fun s => ih _

/-- What the base makes the flow controller return, in a step. -/
def Act.returns (next_step : B → Option (FlowStep I T)) : Act B I T W → List T
  | .base _ (.ready (some item)) =>
      match next_step item with
      | some (.Return x) => [x]
      | _ => []
  | _ => []

/-- The stream that the bucket polls, by its number. A future that holds no stream asks
nobody. -/
def State.asked (s : State I T W A) : List ℕ :=
  match s.inner_streams.owner with
  | .poll _ (.poll t) =>
      match (s.inner_streams.tasks t).future with
      | some ⟨some _, source⟩ => [source]
      | _ => []
  | _ => []

/-- What the base or an inner stream says in the step `a`, read off its answer alone.
The inner streams of the state may be wrapped. -/
def State.says {J : Type} (next_step : B → Option (FlowStep J T)) (s : State I T W A) :
    Act B J T W → List (Event T)
  | .base _ .pending => [.pending]
  | .base _ (.ready none) => [.base_done]
  | .base _ (.ready (some item)) =>
      match next_step item with
      | some (.Return x) => [.returned x]
      | some (.Continue _) => [.taken s.hist.sources]
      | none => []
  | .inner (.item x _) => s.asked.map (Event.produced · x)
  | .inner .ended => s.asked.map Event.ended
  | _ => []

/-- What `poll_next` came to is no answer of the base or of a stream. -/
def Event.isAnswer : Event T → Bool
  | .result _ => false
  | _ => true

/-- The answers in the history. -/
def answers (events : List (Event T)) : List (Event T) := events.filter Event.isAnswer

theorem answers_concat (events : List (Event T)) (e : Event T) :
    answers (events ++ [e]) = answers events ++ answers [e] := List.filter_append _ _

/-- A result is none of them. -/
theorem answers_stop_polling (s : State I T W A) (l : Locals T W) :
    answers (s.stop_polling l).hist.events = answers s.hist.events := by
  have hresult : ∀ r : PollNext (Item T),
      answers (s.hist.events ++ [.result r]) = answers s.hist.events := by
    intro r
    rw [answers_concat]
    exact List.append_nil _
  unfold State.stop_polling
  dsimp only
  split
  · exact hresult _
  · split
    · exact hresult _
    · exact hresult _

/-- The answer of the stream that is polled is written down, as it is. -/
theorem answers_answered {lv : FuturesUnordered.Locals WrappedWaker} {t : ℕ}
    {fut : PollStreamFut I} (ho : s.inner_streams.owner = .poll lv (.poll t))
    (hf : (s.inner_streams.tasks t).future = some fut) (r : StreamPolled I T)
    (q : FuturesUnordered.State (PollStreamFut I) (Option (T × PollStreamFut I)) WrappedWaker A) :
    answers ({ s with inner_streams := q }.answered t fut r).hist.events =
      answers s.hist.events ++ s.says next_step (.inner r) := by
  have hasked : s.asked = fut.stream.elim [] fun _ => [fut.source] := by
    unfold State.asked
    rw [ho]
    dsimp only
    rw [hf]
    rcases fut with ⟨_ | st, source⟩ <;> rfl
  unfold State.says State.answered
  rw [hasked]
  cases fut.stream with
  | none => cases r <;> exact (List.append_nil _).symm
  | some st =>
      cases r with
      | pending st' => exact (List.append_nil _).symm
      | item x st' => exact answers_concat _ _
      | ended => exact answers_concat _ _
      | unwind => exact (List.append_nil _).symm

/-- **The history is what the environment says**: every step adds the answer that its
label brings, and no other. -/
theorem answers_move {a : Act B I T W} (hm : Move next_step s a s') :
    answers s'.hist.events = answers s.hist.events ++ s.says next_step a := by
  cases hm with
  | baseReturn hb hpush hstep =>
      unfold State.says
      dsimp only
      rw [hstep]
      exact answers_concat _ _
  | baseContinue hb hpush hstep hi ho =>
      unfold State.says
      dsimp only
      rw [hstep]
      exact answers_concat _ _
  | baseEnds hb hpush => exact answers_concat _ _
  | basePending hb hpush => exact answers_concat _ _
  | baseUnwinds hb hr =>
      rcases hr with rfl | ⟨item, rfl, hstep⟩
      · exact answers_concat _ _
      · unfold State.says
        dsimp only
        rw [hstep]
        exact answers_concat _ _
  | innerUnwinds i hb => exact answers_concat _ _
  | stream r ho hf => exact answers_answered ho hf r _
  | owner hq =>
      rw [(wakes_frame _ _).1]
      exact (List.append_nil _).symm
  | stop i hpc hpush =>
      rw [answers_stop_polling]
      exact (List.append_nil _).symm
  | _ => exact (List.append_nil _).symm

theorem gave_concat (o : Origin) (events : List (Event T)) (e : Event T) :
    o.gave (events ++ [e]) = o.gave events ++ o.gave [e] := by
  exact List.filterMap_append

/-- The history has the items that the base made the flow controller return. -/
theorem gave_base_move {a : Act B I T W} (hm : Move next_step s a s') :
    Origin.base.gave s'.hist.events = Origin.base.gave s.hist.events ++ a.returns next_step := by
  cases hm with
  | @baseReturn l i item x hb hpush hstep =>
      show Origin.base.gave (s.hist.events ++ [.returned x]) = _
      rw [gave_concat]
      unfold Act.returns
      dsimp only
      rw [hstep]
      rfl
  | baseContinue hb hpush hstep hi ho =>
      show Origin.base.gave (s.hist.events ++ [_]) = _
      rw [gave_concat]
      unfold Act.returns
      dsimp only
      rw [hstep]
      rfl
  | baseEnds hb hpush => exact gave_concat _ _ _
  | basePending hb hpush => exact gave_concat _ _ _
  | baseUnwinds hb hr =>
      rcases hr with rfl | ⟨item, rfl, hstep⟩
      · exact gave_concat _ _ _
      · show Origin.base.gave (s.hist.events ++ [_]) = _
        rw [gave_concat]
        unfold Act.returns
        dsimp only
        rw [hstep]
        rfl
  | innerUnwinds i hb => exact gave_concat _ _ _
  | stream r ho hf =>
      unfold State.answered
      split
      · exact (List.append_nil _).symm
      · exact gave_concat _ _ _
      · exact gave_concat _ _ _
      · exact (List.append_nil _).symm
      · exact (List.append_nil _).symm
  | owner hq =>
      rw [(wakes_frame _ _).1]
      exact (List.append_nil _).symm
  | stop i hpc hpush =>
      unfold State.stop_polling
      dsimp only
      split
      · exact gave_concat _ _ _
      · split
        · exact gave_concat _ _ _
        · exact gave_concat _ _ _
  | _ => exact (List.append_nil _).symm

/-- The result that `poll_next` comes to in an event. -/
def Event.outcome : Event T → Option (PollNext T)
  | .result .pending => some .pending
  | .result (.ready item) => some (.ready (item.map Item.value))
  | .result .unwound => some .unwound
  | _ => none

/-- The result that `poll_next` is about to return. -/
def Pc.outcome : Pc T W → Option (PollNext T)
  | .wake _ => some .pending
  | .done _ r => some r
  | _ => none

/-- What `poll_next` is about to return is what happened last. -/
def State.Told (s : State I T W A) : Prop :=
  ∀ r, s.pc.outcome = some r → s.hist.events.getLast?.bind Event.outcome = some r

theorem told_move {a : Act B I T W} (hinv : s.Inv) (h : s.Told) (hm : Move next_step s a s') :
    s'.Told := by
  have htold := h
  have hconcat : ∀ (events : List (Event T)) (e : Event T),
      (events ++ [e]).getLast?.bind Event.outcome = e.outcome := by
    intro events e
    rw [List.getLast?_concat]
    rfl
  have hinside : s.inner_streams.owner.isIdle = false → s.pc.outcome = none := by
    intro hbusy
    obtain ⟨l, hl⟩ := hinv.bucket.innerPoll_of_not_idle hbusy
    rw [hl]
    rfl
  cases hm with
  | baseEnds hb hpush =>
      intro r hr
      change s.pc.outcome = some r at hr
      rw [hb.pc] at hr
      cases hr
  | baseUnwinds hb hr =>
      rintro r ⟨⟩
      exact hconcat _ _
  | innerUnwinds i hb =>
      rintro r ⟨⟩
      exact hconcat _ _
  | stream r ho hf =>
      have hnone := hinside (by rw [ho]; rfl)
      intro res hres
      unfold State.answered at hres
      split at hres
      all_goals
        change s.pc.outcome = some res at hres
        rw [hnone] at hres
        cases hres
  | owner hq =>
      have hnone := hinside (FuturesUnordered.owner_not_idle hq)
      intro res hres
      rw [(wakes_frame _ _).2.1] at hres
      change s.pc.outcome = some res at hres
      rw [hnone] at hres
      cases hres
  | stop i hpc hpush =>
      unfold State.stop_polling
      dsimp only
      split
      · rintro r ⟨⟩
        exact hconcat _ _
      · split
        · rintro r ⟨⟩
          exact hconcat _ _
        · rintro r ⟨⟩
          exact hconcat _ _
  | wake i hpc =>
      rintro r ⟨⟩
      exact h .pending (by rw [hpc]; rfl)
  | wakeTask hcalls hq => exact htold
  | thread hcalls hq => exact htold
  | call hcalls hi => exact htold
  | wake_by_ref k hi => exact htold
  | waker hs => exact htold
  | spin i hpc hw => exact htold
  | replace i hpc hp => exact htold
  | _ => exact nofun

/-- The end of the base is remembered. -/
theorem done_move {a : Act B I T W} (h : s.is_stream_done = true) (hm : Move next_step s a s') :
    s'.is_stream_done = true := by
  cases hm with
  | baseEnds hb hpush => rfl
  | stream r ho hf => unfold State.answered; split <;> exact h
  | owner hq => exact (wakes_frame _ _).2.2.trans h
  | stop i hpc hpush =>
      unfold State.stop_polling
      dsimp only
      split
      · exact h
      · split
        · exact h
        · exact h
  | _ => exact h

/-! ## The books, and what they give the consumer -/

/-- Everything together. -/
structure State.Books (P : I → Prop) (s : State I T W A) : Prop where
  inv : s.Inv
  items : s.Items
  streams : s.Streams P
  ends : s.Ends
  told : s.Told

theorem books_new (P : I → Prop) (limit : Option ℕ) : (State.new I T W A limit).Books P :=
  ⟨State.Inv.new limit, Items.new, Streams.new P, ⟨nofun, nofun, Settled.of_not_mem nofun⟩, nofun⟩

/-- Every move keeps the books, if nothing unwinds. -/
theorem books_move {a : Act B I T W} (h : s.Books P) (ha : a.unwinds next_step = false)
    (hP : a.Brings next_step P) (hm : Move next_step s a s') : s'.Books P where
  inv := inv_move h.inv hm
  items := items_move h.inv h.items
    (fun t fut hf => (h.streams.tasks t fut hf).stream.imp fun _ hst => hst.1) hm
  streams := streams_move h.inv h.streams ha hP hm
  ends := ends_move h.inv h.ends h.streams hm
  told := told_move h.inv h.told hm

/-- What the consumer of the stream may rely on. -/
structure State.Delivers (s : State I T W A) : Prop where
  /-- Between calls, what has been yielded from `o` is what `o` has given, in its order. -/
  items : s.pc = .idle → ∀ o, itemsOf o (yielded s.hist.events) = o.gave s.hist.events
  /-- Nothing is yielded from elsewhere. -/
  origins : ∀ item ∈ yielded s.hist.events,
    item.origin = .base ∨ ∃ k, item.origin = .inner k ∧ .taken k ∈ s.hist.events
  /-- Between calls, a stream that has been taken and has not ended is in the bucket. -/
  kept : s.pc = .idle → ∀ k, .taken k ∈ s.hist.events → .ended k ∉ s.hist.events →
    ∃ t fut, s.inner_streams.Holds t fut ∧ fut.source = k ∧ fut.stream.isSome = true
  /-- The end comes after the end of everything, and stays. -/
  settled : Settled s.hist.events
  /-- What `poll_next` returns is what the history says. -/
  told : ∀ w r, s.pc = .done w r → s.hist.events.getLast?.bind Event.outcome = some r

theorem State.Books.delivers (h : s.Books P) : s.Delivers where
  items := by
    intro hpc o
    have hbalance := h.items.balance
    have hout := carrying_of_outside h.inv (by rw [hpc]; nofun)
    rw [hout, hpc] at hbalance
    rw [← itemsOf_given, hbalance]
    exact congrArg (itemsOf o) (List.append_nil _).symm
  origins := by
    intro item hitem
    have hgiven : item ∈ given s.hist.events := by
      rw [h.items.balance]
      exact List.mem_append_left _ hitem
    obtain ⟨e, he, hgive⟩ := List.mem_filterMap.mp hgiven
    cases e with
    | returned x =>
        cases hgive
        exact Or.inl rfl
    | produced k x =>
        cases hgive
        exact Or.inr ⟨k, rfl, (h.streams.taken k).mpr (h.streams.produced k x he)⟩
    | _ => cases hgive
  kept := by
    intro hpc k htaken hrunning
    rcases h.streams.kept k ((h.streams.taken k).mp htaken) with hended | ⟨t, fut, hholds, hsource⟩ |
      ⟨x, fut, hmem, -⟩
    · exact absurd hended hrunning
    · obtain ⟨st, hst, -⟩ := (h.streams.tasks t fut hholds.future).stream
      exact ⟨t, fut, hholds, hsource, by rw [hst]; rfl⟩
    · rw [carrying_of_outside h.inv (by rw [hpc]; nofun)] at hmem
      cases hmem
  settled := h.ends.settled
  told := fun w r hpc => h.told r (by rw [hpc]; rfl)

end TokioStreamUtil.FlattenUnordered
