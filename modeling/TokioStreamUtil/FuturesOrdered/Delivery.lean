/-
What a `FuturesOrdered` delivers, when futures are pushed at the back only.

A deque that is filled at one end is a queue: what has left it, followed by what it
holds, is what was pushed. Over the refinement this gives the outputs of the futures
in the order in which they were given to the queue.
-/
import TokioStreamUtil.FuturesOrdered.Refinement
import TokioStreamUtil.FuturesUnordered.Delivery

set_option autoImplicit false

namespace TokioStreamUtil.FuturesOrdered

open FuturesUnordered (Polled PollNext)

variable {F O W : Type} {A : AtomicWaker W}

/-! ## A deque that is filled at the back -/

namespace Deque

/-- The futures pushed at the back, in order. -/
def pushed (events : List (Event O)) : List ℕ :=
  events.filterMap fun
    | .push_back t => some t
    | _ => none

/-- The outputs yielded, in order. -/
def yields (events : List (Event O)) : List O :=
  events.filterMap fun
    | .result (.ready item) => item
    | _ => none

theorem pushed_append (es es' : List (Event O)) : pushed (es ++ es') = pushed es ++ pushed es' :=
  List.filterMap_append

theorem yields_append (es es' : List (Event O)) : yields (es ++ es') = yields es ++ yields es' :=
  List.filterMap_append

theorem yields_result (es : List (Event O)) (r : PollNext O) :
    yields (es ++ [.result r]) = yields es ++ FuturesUnordered.State.outputOf r := by
  rw [yields_append]
  rcases r with _ | (_ | o) | _ <;> rfl

namespace Run

variable {es : List (Event O)} {d : Deque O}

/-- **First in, first out.** -/
theorem fifo (h : Run es d) (hback : ∀ t, .push_front t ∉ es) :
    ∃ ts, pushed es = ts ++ d.futures ∧
      List.Forall₂ (fun t o => d.output t = some o) ts (yields es) := by
  induction h with
  | nil => exact ⟨[], rfl, .nil⟩
  | @snoc es e d d' h hs ih =>
      obtain ⟨ts, hts, hall⟩ := ih fun t ht => hback t (List.mem_append_left _ ht)
      rw [pushed_append, yields_append, hts]
      cases hs with
      | push_back ht ho =>
          refine ⟨ts, List.append_assoc _ _ _, ?_⟩
          rwa [show yields [Event.push_back _] = ([] : List O) from rfl, List.append_nil]
      | @push_front t ht ho => exact absurd (List.mem_append_right _ List.mem_cons_self) (hback t)
      | @completed t o ht ho =>
          refine ⟨ts, List.append_nil _, ?_⟩
          rw [show yields [Event.completed t o] = ([] : List O) from rfl, List.append_nil]
          refine hall.imp fun u x hu => ?_
          have hut : u ≠ t := by
            rintro rfl
            rw [ho] at hu
            cases hu
          show Function.update d.output t (some o) u = some x
          rw [Function.update_of_ne hut, hu]
      | @yielded t rest o ht ho =>
          refine ⟨ts ++ [t], ?_, List.rel_append hall (.cons ho .nil)⟩
          rw [ht, List.append_assoc, List.append_assoc]
          exact congrArg (ts ++ ·) (List.append_nil _)
      | none hd => exact ⟨ts, List.append_nil _, by simpa [yields] using hall⟩
      | pending hd => exact ⟨ts, List.append_nil _, by simpa [yields] using hall⟩

/-- An output is there because its future has completed. -/
theorem completed_of_output (h : Run es d) {t : ℕ} {o : O} (ho : d.output t = some o) :
    .completed t o ∈ es := by
  induction h with
  | nil => cases ho
  | @snoc es e d d' h hs ih =>
      cases hs with
      | @completed u x hu hx =>
          by_cases htu : t = u
          · have hsome : Function.update d.output u (some x) t = some o := ho
            rw [htu, Function.update_self, Option.some.injEq] at hsome
            rw [htu, hsome]
            exact List.mem_append_right _ List.mem_cons_self
          · have hsome : Function.update d.output u (some x) t = some o := ho
            rw [Function.update_of_ne htu] at hsome
            exact List.mem_append_left _ (ih hsome)
      | _ => exact List.mem_append_left _ (ih ho)

/-- The step that came last. -/
theorem last {e : Event O} (h : Run es d) (he : es.getLast? = some e) :
    ∃ d₀, Step d₀ e d := by
  cases h with
  | nil => cases he
  | @snoc es e' d₀ d h hs =>
      rw [List.getLast?_concat, Option.some.injEq] at he
      exact ⟨d₀, he ▸ hs⟩

end Run

end Deque

/-! ## Pushes in progress -/

section

variable {s s' : State F O W A}

/-- `poll_next` is called while no push is in progress. -/
theorem quiet_of_poll_next {w : W} (hs : step s (.poll_next w) = some s') :
    s'.in_progress_queue.pushing = ∅ := by
  simp only [step, Option.ite_none_right_eq_some, Option.some.injEq] at hs
  obtain ⟨⟨-, hpush⟩, rfl⟩ := hs
  exact hpush

/-- Only a push starts a push. -/
theorem quiet_step {a : Act F O W} (hs : step s a = some s') (ha : a.isPush = false)
    (hquiet : s.in_progress_queue.pushing = ∅) : s'.in_progress_queue.pushing = ∅ := by
  have hset : ∀ b : FuturesUnordered.Act (Ordered F) (Ordered O) W, b.inner = true →
      stepSet s b = some s' → s'.in_progress_queue.pushing = ∅ := by
    intro b hb hstep
    obtain ⟨p, hp, rfl⟩ := Option.map_eq_some_iff.mp hstep
    exact (FuturesUnordered.frame_move (FuturesUnordered.move_of_step hp) hb).pushing hquiet
  cases a with
  | poll_next w => exact quiet_of_poll_next hs
  | own =>
      simp only [step, stepOwn] at hs
      split at hs
      · cases hs
      · cases hs
        unfold State.peekQueued
        split
        · split <;> exact hquiet
        · exact hquiet
      · split at hs
        · cases hs
          unfold State.loopBody
          split
          · split <;> exact hquiet
          · exact hquiet
          · exact hquiet
          · exact hquiet
        · cases hs
      · cases hs
  | wake i t => exact hset _ rfl hs
  | thread i => exact hset _ rfl hs
  | owner => exact hset _ rfl hs
  | polled r =>
      simp only [step, stepPolled] at hs
      split at hs
      · split at hs
        · cases hs
          cases r <;> exact hquiet
        · cases hs
      · cases hs
  | ret =>
      simp only [step] at hs
      split at hs
      · cases hs
        exact hquiet
      · cases hs
  | _ => cases ha

end

/-! ## What the queue delivers -/

/-- `next_incoming_index += 1` overflows. With overflow checks it unwinds. -/
def State.Overflows (s : State F O W A) : Prop :=
  i64 (s.next_incoming_index + 1) ≠ s.next_incoming_index + 1

/-- The output that `poll_next` is about to return. -/
def Pc.item : Pc O W → List O
  | .done r => FuturesUnordered.State.outputOf r
  | _ => []

variable {Agrees : F → O → Prop} {futs : List F} {outs : List O} {s s' : State F O W A}

/-- The queue was given the futures `futs`, and has handed out `outs`. -/
structure State.Delivery (Agrees : F → O → Prop) (futs : List F) (outs : List O)
    (s : State F O W A) : Prop where
  deque : ∃ d, Deque.Run s.events d ∧ Rel s d
  fresh : s.in_progress_queue.fresh = futs.length
  few : futs.length < 2 ^ 63
  incoming : s.next_incoming_index = futs.length
  back : ∀ t, .push_front t ∉ s.events
  pushed : Deque.pushed s.events = List.range futs.length
  yields : outs ++ s.pc.item = Deque.yields s.events
  last : ∀ r, s.pc = .done r → s.events.getLast? = some (.result r)
  waiting : ∀ t fut, (s.in_progress_queue.tasks t).future = some fut →
    ∃ fut₀, futs[t]? = some fut₀ ∧ ∀ o, Agrees fut.data o → Agrees fut₀ o
  completed : ∀ t o, .completed t o ∈ s.events → ∃ fut₀, futs[t]? = some fut₀ ∧ Agrees fut₀ o

/-- What is not part of the call: the futures in the set, and how many were pushed. -/
structure SameFutures (s s' : State F O W A) : Prop where
  fresh : s'.in_progress_queue.fresh = s.in_progress_queue.fresh
  incoming : s'.next_incoming_index = s.next_incoming_index
  future : ∀ t x, (s'.in_progress_queue.tasks t).future = some x →
    (s.in_progress_queue.tasks t).future = some x

/-- What a step of `poll_next` itself does: it goes on, or comes to a result. -/
theorem own_cases (hs : stepOwn s = some s') :
    SameFutures s s' ∧ s.pc.item = [] ∧
      ((s'.events = s.events ∧ ∃ w, s'.pc = .loop w) ∨
        ∃ r, s'.events = s.events ++ [.result r] ∧ s'.pc = .done r) := by
  unfold stepOwn at hs
  split at hs
  · cases hs
  · rename_i w hpc
    cases hs
    rw [hpc]
    unfold State.peekQueued
    split
    · split
      · exact ⟨⟨rfl, rfl, fun _ _ h => h⟩, rfl, Or.inr ⟨_, rfl, rfl⟩⟩
      · exact ⟨⟨rfl, rfl, fun _ _ h => h⟩, rfl, Or.inl ⟨rfl, w, rfl⟩⟩
    · exact ⟨⟨rfl, rfl, fun _ _ h => h⟩, rfl, Or.inl ⟨rfl, w, rfl⟩⟩
  · rename_i w hpc
    split at hs
    · cases hs
      rw [hpc]
      unfold State.loopBody
      split
      · split
        · exact ⟨⟨rfl, rfl, fun _ _ h => h⟩, rfl, Or.inr ⟨_, rfl, rfl⟩⟩
        · exact ⟨⟨rfl, rfl, fun _ _ h => h⟩, rfl, Or.inl ⟨rfl, w, rfl⟩⟩
      · exact ⟨⟨rfl, rfl, fun _ _ h => h⟩, rfl, Or.inr ⟨_, rfl, rfl⟩⟩
      · exact ⟨⟨rfl, rfl, fun _ _ h => h⟩, rfl, Or.inr ⟨_, rfl, rfl⟩⟩
      · exact ⟨⟨rfl, rfl, fun _ _ h => h⟩, rfl, Or.inr ⟨_, rfl, rfl⟩⟩
    · cases hs
  · cases hs

namespace State.Delivery

theorem new : (State.new : State F O W A).Delivery Agrees [] [] where
  deque := ⟨Deque.new, .nil, .new⟩
  fresh := rfl
  few := by norm_num
  incoming := rfl
  back := nofun
  pushed := rfl
  yields := rfl
  last := nofun
  waiting := nofun
  completed := nofun

/-- A step that pushes nothing, and adds `es` to what happened. -/
theorem stay (h : s.Delivery Agrees futs outs) {outs' : List O} {es : List (Event O)}
    (hdeque : ∃ d, Deque.Run s'.events d ∧ Rel s' d) (hsame : SameFutures s s')
    (hevents : s'.events = s.events ++ es) (hes : ∀ e ∈ es, ∃ r, e = .result r)
    (hyields : outs' ++ s'.pc.item = Deque.yields s'.events)
    (hlast : ∀ r, s'.pc = .done r → s'.events.getLast? = some (.result r)) :
    s'.Delivery Agrees futs outs' := by
  have hnone : Deque.pushed es = [] := by
    rw [Deque.pushed, List.filterMap_eq_nil_iff]
    intro e he
    obtain ⟨r, rfl⟩ := hes e he
    rfl
  refine ⟨hdeque, hsame.fresh.trans h.fresh, h.few, hsame.incoming.trans h.incoming, ?_, ?_, hyields,
    hlast, fun t x hx => h.waiting t x (hsame.future t x hx), ?_⟩
  · intro t ht
    rw [hevents] at ht
    rcases List.mem_append.mp ht with hold | hnew
    · exact h.back t hold
    · obtain ⟨r, hr⟩ := hes _ hnew
      cases hr
  · rw [hevents, Deque.pushed_append, hnone, List.append_nil]
    exact h.pushed
  · intro t o ht
    rw [hevents] at ht
    rcases List.mem_append.mp ht with hold | hnew
    · exact h.completed t o hold
    · obtain ⟨r, hr⟩ := hes _ hnew
      cases hr

/-- The deque takes the step too. -/
theorem deque_step (h : s.Delivery Agrees futs outs) {a : Act F O W} (hs : step s a = some s')
    (ha : a.isPush = false) (hunwind : a ≠ .polled .unwind) :
    ∃ d, Deque.Run s'.events d ∧ Rel s' d := by
  obtain ⟨d, hd, hrel⟩ := h.deque
  refine rel_step hd hrel hs hunwind ?_
  rw [fresh_step hs, ha, h.fresh]
  exact h.few

theorem push_back (h : s.Delivery Agrees futs outs) {i : ℕ} {fut : F} (hover : ¬ s.Overflows)
    (hs : step s (.push_back i fut) = some s') :
    s'.Delivery Agrees (futs ++ [fut]) outs ∧ s'.pc = .idle := by
  obtain ⟨d, hd, hrel⟩ := h.deque
  have hfits : i64 (s.next_incoming_index + 1) = s.next_incoming_index + 1 := not_not.mp hover
  have hfew : futs.length + 1 < 2 ^ 63 := by
    have hlt : i64 (s.next_incoming_index + 1) < 2 ^ 63 := by
      unfold i64
      have hbmod := @Int.bmod_lt (s.next_incoming_index + 1) Int64.size (by norm_num)
      norm_num at hbmod ⊢
      exact hbmod
    rw [hfits, h.incoming] at hlt
    omega
  have hdeque := rel_step hd hrel hs nofun (by
    rw [fresh_step hs, h.fresh]
    exact hfew)
  have hmore : ∀ {t : ℕ} {fut₀ : F}, futs[t]? = some fut₀ → (futs ++ [fut])[t]? = some fut₀ := by
    intro t fut₀ ht
    rw [List.getElem?_append_left (List.getElem?_eq_some_iff.mp ht).1]
    exact ht
  simp only [step, Option.ite_none_right_eq_some, Option.some.injEq] at hs
  obtain ⟨⟨hpc, -, -⟩, rfl⟩ := hs
  have hidle : s.pc = .idle := Pc.eq_idle hpc
  refine ⟨⟨hdeque, ?_, ?_, ?_, ?_, ?_, ?_, ?_, ?_, ?_⟩, hidle⟩
  · rw [List.length_append, List.length_singleton, ← h.fresh]
    rfl
  · rw [List.length_append, List.length_singleton]
    exact hfew
  · show i64 (s.next_incoming_index + 1) = _
    rw [hfits, h.incoming, List.length_append, List.length_singleton]
    push_cast
    rfl
  · intro t ht
    rcases List.mem_append.mp ht with hold | hnew
    · exact h.back t hold
    · cases List.mem_singleton.mp hnew
  · show Deque.pushed (s.events ++ [.push_back s.in_progress_queue.fresh]) = _
    rw [Deque.pushed_append, h.pushed, List.length_append, List.length_singleton, List.range_succ,
      h.fresh]
    rfl
  · show outs ++ s.pc.item = Deque.yields (s.events ++ [.push_back s.in_progress_queue.fresh])
    rw [Deque.yields_append, h.yields]
    exact (List.append_nil _).symm
  · intro r hr
    have hdone : s.pc = .done r := hr
    rw [hidle] at hdone
    cases hdone
  · intro t x hx
    by_cases htf : t = s.in_progress_queue.fresh
    · have hxf : (⟨fut, s.next_incoming_index⟩ : Ordered F) = x := by
        simpa [State.push_back, State.push, FuturesUnordered.State.push, htf] using hx
      refine ⟨fut, ?_, fun o ho => by rwa [← hxf] at ho⟩
      rw [htf, h.fresh, List.getElem?_concat_length]
    · have hold : (s.in_progress_queue.tasks t).future = some x := by
        simpa [State.push_back, State.push, FuturesUnordered.State.push, htf] using hx
      exact (h.waiting t x hold).imp fun _ h₀ => ⟨hmore h₀.1, h₀.2⟩
  · intro t o ht
    rcases List.mem_append.mp ht with hold | hnew
    · exact (h.completed t o hold).imp fun _ h₀ => ⟨hmore h₀.1, h₀.2⟩
    · cases List.mem_singleton.mp hnew

theorem poll_next (h : s.Delivery Agrees futs outs) {w : W} (hs : step s (.poll_next w) = some s') :
    s'.Delivery Agrees futs outs ∧ s'.pc = .peek w := by
  have hdeque := h.deque_step hs rfl (by rintro ⟨⟩)
  simp only [step, Option.ite_none_right_eq_some, Option.some.injEq] at hs
  obtain ⟨⟨hpc, -⟩, rfl⟩ := hs
  have hyields := h.yields
  rw [Pc.eq_idle hpc] at hyields
  exact ⟨h.stay hdeque ⟨rfl, rfl, fun _ _ hx => hx⟩ (List.append_nil _).symm (by rintro e ⟨⟩) hyields
    (by rintro r ⟨⟩), rfl⟩

/-- A step of `poll_next` itself. -/
theorem own (h : s.Delivery Agrees futs outs) (hs : stepOwn s = some s') :
    s'.Delivery Agrees futs outs ∧ s'.pc ≠ .idle := by
  have hdeque := h.deque_step (a := .own) hs rfl nofun
  obtain ⟨hsame, hitem, hcases⟩ := own_cases hs
  have hyields := h.yields
  rw [hitem, List.append_nil] at hyields
  rcases hcases with ⟨hevents, w, hpc⟩ | ⟨r, hevents, hpc⟩
  · have hnothing : s'.events = s.events ++ [] := by rw [hevents, List.append_nil]
    refine ⟨h.stay hdeque hsame hnothing nofun ?_ ?_, by
      rw [hpc]; nofun⟩
    · rw [hpc, hevents, ← hyields]
      exact List.append_nil _
    · rw [hpc]
      nofun
  · refine ⟨h.stay hdeque hsame hevents (fun e he => ⟨r, List.mem_singleton.mp he⟩) ?_ ?_, by
      rw [hpc]; nofun⟩
    · rw [hpc, hevents, Deque.yields_result, ← hyields]
      rfl
    · intro r' hr'
      rw [hpc] at hr'
      cases hr'
      rw [hevents, List.getLast?_concat]

/-- The machinery of the set delivers nothing. -/
theorem inner (h : s.Delivery Agrees futs outs)
    {a : FuturesUnordered.Act (Ordered F) (Ordered O) W} (ha : a.inner = true)
    (hs : stepSet s a = some s') : s'.Delivery Agrees futs outs ∧ s'.pc = s.pc := by
  obtain ⟨d, hd, hrel⟩ := h.deque
  obtain ⟨q, hq, rfl⟩ := Option.map_eq_some_iff.mp hs
  have hframe := FuturesUnordered.frame_move (FuturesUnordered.move_of_step hq) ha
  exact ⟨h.stay ⟨d, hd, hrel.inner ha hq⟩ ⟨hframe.fresh, rfl, hframe.future⟩
    (List.append_nil _).symm nofun h.yields h.last, rfl⟩

/-- The future that is polled answers. -/
theorem polled (h : s.Delivery Agrees futs outs) {r : Polled F O} {lv : FuturesUnordered.Locals W}
    {t : ℕ} {fut : Ordered F} (ho : s.in_progress_queue.owner = .poll lv (.poll t))
    (hf : (s.in_progress_queue.tasks t).future = some fut) (hr : r.Honest Agrees fut.data)
    (hs : step s (.polled r) = some s') : s'.Delivery Agrees futs outs ∧ s'.pc = s.pc := by
  have hunwind : (.polled r : Act F O W) ≠ .polled .unwind := by
    intro heq
    cases heq
    exact hr
  have hdeque := h.deque_step hs rfl hunwind
  obtain ⟨fut₀, hfut₀, hagrees⟩ := h.waiting t fut hf
  have hloop : ∀ r', s.pc ≠ .done r' := by
    intro r' hpc
    obtain ⟨d, -, hrel⟩ := h.deque
    have hidle := hrel.notLoop (by rw [hpc]; nofun)
    rw [ho] at hidle
    cases hidle
  simp only [step, stepPolled, ho, hf, Option.some.injEq] at hs
  subst hs
  cases r with
  | pending fut' =>
      refine ⟨⟨hdeque, h.fresh, h.few, h.incoming, h.back, h.pushed, h.yields, h.last, ?_,
        h.completed⟩, rfl⟩
      intro u x hx
      by_cases hut : u = t
      · have hxf : (⟨fut', fut.index⟩ : Ordered F) = x := by
          simpa [Ordered.poll, FuturesUnordered.State.polled, FuturesUnordered.State.setTask,
            FuturesUnordered.State.setOwner, hut] using hx
        refine ⟨fut₀, by rw [hut, hfut₀], fun o ho => hagrees o (hr o ?_)⟩
        rwa [← hxf] at ho
      · refine h.waiting u x ?_
        simpa [Ordered.poll, FuturesUnordered.State.polled, FuturesUnordered.State.setTask,
          FuturesUnordered.State.setOwner, hut] using hx
  | ready o =>
      refine ⟨⟨hdeque, h.fresh, h.few, h.incoming, ?_, ?_, ?_, ?_, h.waiting, ?_⟩, rfl⟩
      · intro u hu
        rcases List.mem_append.mp hu with hold | hnew
        · exact h.back u hold
        · cases List.mem_singleton.mp hnew
      · show Deque.pushed (s.events ++ [.completed t o]) = _
        rw [Deque.pushed_append, h.pushed]
        exact List.append_nil _
      · show outs ++ s.pc.item = Deque.yields (s.events ++ [.completed t o])
        rw [Deque.yields_append, h.yields]
        exact (List.append_nil _).symm
      · exact fun r' hpc => absurd hpc (hloop r')
      · intro u x hu
        rcases List.mem_append.mp hu with hold | hnew
        · exact h.completed u x hold
        · cases List.mem_singleton.mp hnew
          exact ⟨fut₀, hfut₀, hagrees o hr⟩
  | unwind => exact hr.elim

/-- `poll_next` returns. -/
theorem ret (h : s.Delivery Agrees futs outs) {r : PollNext O} (hpc : s.pc = .done r)
    (hs : step s .ret = some s') :
    s'.Delivery Agrees futs (outs ++ FuturesUnordered.State.outputOf r) ∧ s'.pc = .idle := by
  have hdeque := h.deque_step hs rfl (by rintro ⟨⟩)
  have hyields := h.yields
  simp only [step, hpc, Option.some.injEq] at hs
  subst hs
  rw [hpc] at hyields
  refine ⟨h.stay hdeque ⟨rfl, rfl, fun _ _ hx => hx⟩ (List.append_nil _).symm (by rintro e ⟨⟩) ?_
    (by rintro r ⟨⟩), rfl⟩
  exact (List.append_nil _).trans hyields

theorem not_unwound (h : s.Delivery Agrees futs outs) {r : PollNext O} (hpc : s.pc = .done r) :
    r ≠ .unwound := by
  rintro rfl
  obtain ⟨d, hd, -⟩ := h.deque
  obtain ⟨d₀, hstep⟩ := hd.last (h.last _ hpc)
  cases hstep

/-- What has left the queue, and what it still holds. -/
theorem fifo (h : s.Delivery Agrees futs outs) : ∃ d ts, Deque.Run s.events d ∧ Rel s d ∧
    List.range futs.length = ts ++ d.futures ∧
      List.Forall₂ (fun t o => d.output t = some o) ts (outs ++ s.pc.item) := by
  obtain ⟨d, hd, hrel⟩ := h.deque
  obtain ⟨ts, hts, hall⟩ := hd.fifo h.back
  rw [h.pushed] at hts
  rw [← h.yields] at hall
  exact ⟨d, ts, hd, hrel, hts, hall⟩

/-- Between calls the queue holds the futures that it has not handed an output out of. -/
theorem len_eq (h : s.Delivery Agrees futs outs) (hpc : s.pc = .idle) :
    s.len + outs.length = futs.length := by
  obtain ⟨d, ts, -, hrel, hts, hall⟩ := h.fifo
  have hidle : s.in_progress_queue.owner = .idle :=
    FuturesUnordered.Owner.eq_idle (hrel.notLoop (by rw [hpc]; nofun))
  have hlen := congrArg List.length hts
  have heq := hall.length_eq
  rw [hpc, show (Pc.idle : Pc O W).item = [] from rfl, List.append_nil] at heq
  rw [List.length_range, List.length_append] at hlen
  rw [hrel.len_eq hidle]
  omega

/-- `Ready(None)` comes when everything has been handed out. -/
theorem of_none (h : s.Delivery Agrees futs outs) (hpc : s.pc = .done (.ready none)) :
    outs.length = futs.length := by
  obtain ⟨d, ts, hd, -, hts, hall⟩ := h.fifo
  obtain ⟨d₀, hstep⟩ := hd.last (h.last _ hpc)
  have hnil : d.futures = [] := by
    cases hstep with
    | none hnil => exact hnil
  have hlen := congrArg List.length hts
  have heq := hall.length_eq
  rw [hpc, show (Pc.done (.ready none) : Pc O W).item = [] from rfl, List.append_nil] at heq
  rw [List.length_range, hnil, List.append_nil] at hlen
  omega

/-- **The outputs come in the order of the futures.** -/
theorem delivered (h : s.Delivery Agrees futs outs) :
    List.Forall₂ Agrees (futs.take outs.length) outs := by
  obtain ⟨d, ts, hd, -, hts, hall⟩ := h.fifo
  rw [List.forall₂_iff_get]
  have hlen := congrArg List.length hts
  have heq := hall.length_eq
  rw [List.length_range, List.length_append] at hlen
  rw [List.length_append] at heq
  refine ⟨by rw [List.length_take]; omega, fun i hi hi' => ?_⟩
  -- output `i` is that of the task that left as number `i`, which is task `i`
  have hits : i < ts.length := by omega
  have htask : ts[i] = i := by
    have hget := congrArg (fun l => l[i]?) hts
    simp only [List.getElem?_append_left hits] at hget
    rw [List.getElem?_range (by omega), List.getElem?_eq_getElem hits, Option.some.injEq] at hget
    exact hget.symm
  have hout := hall.get hits (by rw [List.length_append]; omega)
  simp only [List.get_eq_getElem, htask, List.getElem_append_left hi'] at hout
  obtain ⟨fut₀, hfut₀, hagrees⟩ := h.completed i _ (hd.completed_of_output hout)
  simp only [List.get_eq_getElem, List.getElem_take]
  rw [(List.getElem?_eq_some_iff.mp hfut₀).2]
  exact hagrees

end State.Delivery

end TokioStreamUtil.FuturesOrdered
