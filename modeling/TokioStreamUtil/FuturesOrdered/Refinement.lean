/-
`FuturesOrdered` refines the deque.

`Rel s d` is `Tracks s d` for a queue in which no future has unwound. Then the deque
has no places without a future, and each move of the queue is matched by the events it
adds to the history.
-/
import TokioStreamUtil.FuturesOrdered.Tracking

set_option autoImplicit false

namespace TokioStreamUtil.FuturesOrdered

open FuturesUnordered (Polled PollNext move_of_step)

variable {F O W : Type} {A : AtomicWaker W} {s s' : State F O W A} {d : Deque O}

/-- The state of the queue and the deque it stands for. -/
structure Rel (s : State F O W A) (d : Deque O) : Prop where
  inv : ∃ l, s.in_progress_queue.Inv l
  ledger : s.in_progress_queue.Ledger
  quiet : s.pc.isIdle = false → s.in_progress_queue.pushing = ∅
  inLoop : ∀ w, s.pc = .loop w → s.in_progress_queue.owner.isIdle = false
  notLoop : (∀ w, s.pc ≠ .loop w) → s.in_progress_queue.owner.isIdle = true
  low : -(s.in_progress_queue.fresh : ℤ) ≤ s.next_outgoing_index
  high : s.next_incoming_index ≤ s.in_progress_queue.fresh
  incoming : s.next_incoming_index = s.next_outgoing_index + d.futures.length
  numbered : Numbered s.index s.next_outgoing_index d.futures
  known : ∀ t ∈ d.futures, t < s.in_progress_queue.fresh
  discarded : s.in_progress_queue.hist.discarded = []
  calm : s.in_progress_queue.owner.result ≠ some .unwound
  finished : ∀ t, d.output t ≠ none ↔ t ∈ s.in_progress_queue.yielded
  running : ∀ t < s.in_progress_queue.fresh, d.output t = none → t ∈ d.futures
  wrapped : ∀ t < s.in_progress_queue.fresh, ∀ fut,
    (s.in_progress_queue.tasks t).future = some fut → fut.index = s.index t
  waiting : ∀ x, x ∈ s.waiting ↔
    ∃ t ∈ d.futures, d.output t = some x.data ∧ s.index t = x.index
  distinct : (s.waiting.map Ordered.index).Nodup
  front : ∀ w, s.pc = .loop w → ∀ x ∈ s.queued_outputs.elems, x.index ≠ s.next_outgoing_index

theorem Tracks.rel (h : Tracks s d) (hdiscarded : s.in_progress_queue.hist.discarded = [])
    (hcalm : s.in_progress_queue.owner.result ≠ some .unwound) : Rel s d where
  inv := h.inv
  ledger := h.ledger
  quiet := h.quiet
  inLoop := h.inLoop
  notLoop := h.notLoop
  low := h.low
  high := h.high
  incoming := h.incoming
  numbered := h.numbered
  known := h.known
  discarded := hdiscarded
  calm := hcalm
  finished := h.finished
  running := h.running
  wrapped := h.wrapped
  waiting := h.waiting
  distinct := h.distinct
  front := h.front

/-! ## Nothing unwinds -/

theorem calm_stepSet {a : FuturesUnordered.Act (Ordered F) (Ordered O) W} (ha : a.inner = true)
    (hs : stepSet s a = some s') (hcalm : s.in_progress_queue.owner.result ≠ some .unwound) :
    s'.in_progress_queue.owner.result ≠ some .unwound ∧ s'.events = s.events := by
  obtain ⟨q, hq, rfl⟩ := Option.map_eq_some_iff.mp hs
  exact ⟨(FuturesUnordered.frame_move (move_of_step hq) ha).unwound hcalm, rfl⟩

/-- Where no future unwinds, no call does. -/
theorem calm_step {a : Act F O W} (hs : step s a = some s') (hunwind : a ≠ .polled .unwind)
    (hcalm : s.in_progress_queue.owner.result ≠ some .unwound) :
    s'.in_progress_queue.owner.result ≠ some .unwound ∧
      s'.events ≠ s.events ++ [.result .unwound] := by
  have hstay : ∀ {es : List (Event O)}, es = s.events → es ≠ s.events ++ [.result .unwound] := by
    rintro es rfl
    simp
  have hnew : ∀ {e : Event O}, e ≠ .result .unwound →
      s.events ++ [e] ≠ s.events ++ [.result .unwound] := by
    intro e he
    simpa using he
  cases a with
  | push_back i future =>
      simp only [step, Option.ite_none_right_eq_some, Option.some.injEq] at hs
      obtain ⟨-, rfl⟩ := hs
      exact ⟨hcalm, hnew (by rintro ⟨⟩)⟩
  | push_front i future =>
      simp only [step, Option.ite_none_right_eq_some, Option.some.injEq] at hs
      obtain ⟨-, rfl⟩ := hs
      exact ⟨hcalm, hnew (by rintro ⟨⟩)⟩
  | poll_next w =>
      simp only [step, Option.ite_none_right_eq_some, Option.some.injEq] at hs
      obtain ⟨-, rfl⟩ := hs
      exact ⟨hcalm, hstay rfl⟩
  | own =>
      simp only [step, stepOwn] at hs
      split at hs
      · cases hs
      · cases hs
        unfold State.peekQueued
        split
        · split
          · exact ⟨hcalm, hnew (by rintro ⟨⟩)⟩
          · exact ⟨by rintro ⟨⟩, hstay rfl⟩
        · exact ⟨by rintro ⟨⟩, hstay rfl⟩
      · split at hs
        · rename_i lv r ho
          cases hs
          have hr : r ≠ .unwound := by
            rintro rfl
            rw [ho] at hcalm
            exact hcalm rfl
          cases r with
          | unwound => exact absurd rfl hr
          | pending => exact ⟨by rintro ⟨⟩, hnew (by rintro ⟨⟩)⟩
          | ready out =>
              cases out with
              | none => exact ⟨by rintro ⟨⟩, hnew (by rintro ⟨⟩)⟩
              | some x =>
                  unfold State.loopBody
                  dsimp only
                  split
                  · exact ⟨by rintro ⟨⟩, hnew (by rintro ⟨⟩)⟩
                  · exact ⟨by rintro ⟨⟩, hstay rfl⟩
        · cases hs
      · cases hs
  | wake i t =>
      obtain ⟨hc, he⟩ := calm_stepSet rfl hs hcalm
      exact ⟨hc, hstay he⟩
  | thread i =>
      obtain ⟨hc, he⟩ := calm_stepSet rfl hs hcalm
      exact ⟨hc, hstay he⟩
  | owner =>
      obtain ⟨hc, he⟩ := calm_stepSet rfl hs hcalm
      exact ⟨hc, hstay he⟩
  | polled r =>
      simp only [step, stepPolled] at hs
      split at hs
      · split at hs
        · cases hs
          cases r with
          | pending fut => exact ⟨by rintro ⟨⟩, hstay rfl⟩
          | ready o => exact ⟨by rintro ⟨⟩, hnew (by rintro ⟨⟩)⟩
          | unwind => exact absurd rfl hunwind
        · cases hs
      · cases hs
  | ret =>
      simp only [step] at hs
      split at hs
      · cases hs
        exact ⟨hcalm, hstay rfl⟩
      · cases hs

namespace Rel

theorem tracks (h : Rel s d) : Tracks s d where
  inv := h.inv
  ledger := h.ledger
  quiet := h.quiet
  inLoop := h.inLoop
  notLoop := h.notLoop
  low := h.low
  high := h.high
  incoming := h.incoming
  numbered := h.numbered
  known := h.known
  finished := h.finished
  running := h.running
  wrapped := h.wrapped
  waiting := h.waiting
  distinct := h.distinct
  front := h.front

theorem new : Rel (State.new : State F O W A) Deque.new := Tracks.new.rel rfl nofun

/-- A step of the machinery of the set. -/
theorem inner (h : Rel s d) {a : FuturesUnordered.Act (Ordered F) (Ordered O) W}
    {q : FuturesUnordered.State (Ordered F) (Ordered O) W A} (ha : a.inner = true)
    (hs : FuturesUnordered.step s.in_progress_queue a = some q) :
    Rel { s with in_progress_queue := q } d := by
  have hframe := FuturesUnordered.frame_move (move_of_step hs) ha
  exact (h.tracks.inner ha hs).rel (hframe.discarded.trans h.discarded) (hframe.unwound h.calm)

/-! ## Between calls -/

/-- The linked tasks are the futures that have not completed. -/
theorem linked_perm (h : Rel s d) {l : List ℕ} (hl : s.in_progress_queue.Inv l)
    (ho : s.in_progress_queue.owner = .idle) :
    l.Perm (d.futures.filter fun t => (d.output t).isNone) := by
  have hperm := h.tracks.linked_perm hl ho
  rw [h.discarded] at hperm
  simpa using hperm

/-- The numbers in the set and in the heap are those from `next_outgoing_index` to
`next_incoming_index`, each once. -/
theorem numbers (h : Rel s d) {l : List ℕ} (hl : s.in_progress_queue.Inv l)
    (ho : s.in_progress_queue.owner = .idle) :
    ((l.filterMap fun t => (s.in_progress_queue.tasks t).future.map Ordered.index) ++
      s.queued_outputs.elems.map Ordered.index).Perm
        ((List.range d.futures.length).map fun k : ℕ => s.next_outgoing_index + (k : ℤ)) := by
  rw [h.tracks.linked_index hl, ← h.numbered.map_eq]
  have hparts := ((h.linked_perm hl ho).map s.index).append (h.tracks.heap_perm ho)
  rw [← List.map_append] at hparts
  exact hparts.trans ((List.filter_append_perm _ d.futures).map s.index)

theorem len_eq (h : Rel s d) (ho : s.in_progress_queue.owner = .idle) :
    s.len = d.futures.length := by
  have hlen := h.tracks.len_eq ho
  rw [h.discarded] at hlen
  simpa using hlen

end Rel

/-! ## One step, one run -/

/-- **Every step of the queue is a step of the deque, or none.** -/
theorem rel_step {a : Act F O W} (hd : Deque.Run s.events d) (h : Rel s d)
    (hs : step s a = some s') (hunwind : a ≠ .polled .unwind)
    (hfew : s'.in_progress_queue.fresh < 2 ^ 63) :
    ∃ d', Deque.Run s'.events d' ∧ Rel s' d' := by
  have hdiscarded := discarded_step hs hunwind
  obtain ⟨hcalm, hevents⟩ := calm_step hs hunwind h.calm
  obtain ⟨d', hshows, h'⟩ := tracks_step h.tracks hs hfew
  rw [h.discarded] at hshows
  exact ⟨d', hd.shows hshows hevents, h'.rel (hdiscarded.trans h.discarded) hcalm⟩

/-- A run without unwinding futures and with fewer than `2 ^ 63` pushes stays
related to a run of the deque. -/
theorem rel_of_run : ∀ (ls : List (Act F O W)) (s s' : State F O W A) (d : Deque O),
    Deque.Run s.events d → Rel s d → .polled .unwind ∉ ls →
    s.in_progress_queue.fresh + ls.countP Act.isPush < 2 ^ 63 →
    Transition.run step s ls = some s' → ∃ d', Deque.Run s'.events d' ∧ Rel s' d' := by
  intro ls
  induction ls with
  | nil =>
      intro s s' d hd h _ _ hrun
      rw [Transition.run_nil, Option.some.injEq] at hrun
      exact ⟨d, hrun ▸ hd, hrun ▸ h⟩
  | cons a ls ih =>
      intro s s'' d hd h hunwind hfew hrun
      rw [Transition.run_cons, Option.bind_eq_some_iff] at hrun
      obtain ⟨s', hs, hrun⟩ := hrun
      have hfresh := fresh_step hs
      rw [List.countP_cons] at hfew
      have ha : a ≠ .polled .unwind := by rintro rfl; exact hunwind List.mem_cons_self
      obtain ⟨d', hd', h'⟩ := rel_step hd h hs ha (by omega)
      exact ih s' s'' d' hd' h' (fun hmem => hunwind (List.mem_cons_of_mem a hmem)) (by omega) hrun

/-- **`FuturesOrdered` is a deque of futures.** In every run of `push_back`,
`push_front`, `poll_next` and wakes in which no future unwinds and fewer than
`2 ^ 63` futures are pushed, whatever order the futures complete in, the history
is one of the deque: outputs leave from the front and only once the front future
has completed, and `Ready(None)` comes only from an empty deque. Between calls `len`
is the length of the deque, and the numbers in the set and in the heap are those
from `next_outgoing_index` to `next_incoming_index`, each once. -/
theorem refines_deque (ls : List (Act F O W)) (s : State F O W A)
    (hunwind : .polled .unwind ∉ ls) (hfew : ls.countP Act.isPush < 2 ^ 63)
    (hrun : Transition.run step State.new ls = some s) :
    ∃ d : Deque O, Deque.Run s.events d ∧
      (s.pc = .idle →
        s.len = d.futures.length ∧
        s.next_incoming_index = s.next_outgoing_index + d.futures.length ∧
        ∃ l, s.in_progress_queue.all.Rep l ∧
          ((l.filterMap fun t => (s.in_progress_queue.tasks t).future.map Ordered.index) ++
            s.queued_outputs.elems.map Ordered.index).Perm
              ((List.range d.futures.length).map fun k : ℕ => s.next_outgoing_index + (k : ℤ))) := by
  have hfew' : (State.new : State F O W A).in_progress_queue.fresh + ls.countP Act.isPush < 2 ^ 63 := by
    simpa [State.new, FuturesUnordered.State.new] using hfew
  obtain ⟨d, hd, h⟩ := rel_of_run ls State.new s Deque.new .nil Rel.new hunwind hfew' hrun
  refine ⟨d, hd, ?_⟩
  intro hpc
  have ho : s.in_progress_queue.owner = .idle := by
    apply FuturesUnordered.Owner.eq_idle
    apply h.notLoop
    intro w hw
    rw [hpc] at hw
    cases hw
  obtain ⟨l, hl⟩ := h.inv
  exact ⟨h.len_eq ho, h.incoming, l, hl.places.all, h.numbers hl ho⟩

/-- Future 0 is pushed at the back and future 1 in front of it; 0 completes first. -/
def overtaken : List (Act Unit ℕ Unit) :=
  List.flatten [
    [.push_back 0 (), .thread 0, .thread 0, .thread 0, .thread 0, .push_front 0 (), .thread 0,
      .thread 0, .thread 0, .thread 0, .poll_next (), .own],
    List.replicate 7 .owner,
    [.polled (.ready 7), .owner, .owner, .own],
    List.replicate 11 .owner,
    [.polled (.ready 8), .owner, .owner, .own, .ret, .poll_next (), .own, .ret]]

theorem refines_deque_overtaken :
    ∃ s : State Unit ℕ Unit (AtomicWaker.cell Unit),
      Transition.run step State.new overtaken = some s ∧
      s.events = [.push_back 0, .push_front 1, .completed 0 7, .completed 1 8,
        .result (.ready (some 8)), .result (.ready (some 7))] ∧
      ∃ d, Deque.Run s.events d ∧ s.len = d.futures.length := by
  have hrun : (Transition.run step (State.new : State Unit ℕ Unit (AtomicWaker.cell Unit))
      overtaken).map (fun s => (s.events, s.pc.isIdle)) =
        some ([.push_back 0, .push_front 1, .completed 0 7, .completed 1 8,
          .result (.ready (some 8)), .result (.ready (some 7))], true) := by
    decide +kernel
  obtain ⟨s, hs, hev⟩ := Option.map_eq_some_iff.mp hrun
  obtain ⟨hevents, hidle⟩ := Prod.mk.inj hev
  obtain ⟨d, hd, h⟩ := refines_deque overtaken s (by simp [overtaken]) (by decide) hs
  exact ⟨s, hs, hevents, d, hd, (h (Pc.eq_idle hidle)).1⟩

end TokioStreamUtil.FuturesOrdered
