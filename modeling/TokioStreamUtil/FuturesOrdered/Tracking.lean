/-
The deque that a `FuturesOrdered` stands for.

`Tracks s d` relates a state to a deque: the futures of the deque are numbered from
`next_outgoing_index` to `next_incoming_index` without a gap, those that have not
completed are in the set under their number, and the outputs of those that have
are in the heap, or on their way out of the set. A future whose poll has unwound is
in neither and never will be, but its number is still in use: it keeps its place in
this deque. There is one lemma for each move of the queue.
-/
import TokioStreamUtil.FuturesOrdered.Deque
import TokioStreamUtil.FuturesUnordered.Frame
import TokioStreamUtil.FuturesUnordered.ExactlyOnce

set_option autoImplicit false

namespace TokioStreamUtil.FuturesOrdered

open FuturesUnordered (Polled PollNext move_of_step inv_move ledger_move Move)

variable {F O W : Type} {A : AtomicWaker W}

/-- A number that fits is not wrapped. -/
theorem i64_of_bounds {x : ℤ} (hlo : -2 ^ 63 ≤ x) (hhi : x < 2 ^ 63) : i64 x = x := by
  unfold i64
  rw [Int.bmod_eq_iff (by norm_num)]
  refine ⟨?_, ?_, ?_⟩
  · norm_num
    omega
  · norm_num
    omega
  · simp

/-- The outputs that are in the heap or on their way out of the set. -/
def State.waiting (s : State F O W A) : List (Ordered O) :=
  s.queued_outputs.elems ++ s.in_progress_queue.owner.carrying

/-- The state of the queue and the deque it stands for. -/
structure Tracks (s : State F O W A) (d : Deque O) : Prop where
  inv : ∃ l, s.in_progress_queue.Inv l
  ledger : s.in_progress_queue.Ledger
  quiet : s.pc.isIdle = false → s.in_progress_queue.pushing = ∅
  inLoop : ∀ w, s.pc = .loop w → s.in_progress_queue.owner.isIdle = false
  notLoop : (∀ w, s.pc ≠ .loop w) → s.in_progress_queue.owner.isIdle = true
  low : -(s.in_progress_queue.fresh : ℤ) ≤ s.next_outgoing_index
  high : s.next_incoming_index ≤ s.in_progress_queue.fresh
  incoming : s.next_incoming_index = s.next_outgoing_index + d.futures.length
  numbered : Numbered s.index s.next_outgoing_index d.futures
  known : ∀ t ∈ d.futures, t < s.in_progress_queue.fresh
  finished : ∀ t, d.output t ≠ none ↔ t ∈ s.in_progress_queue.yielded
  running : ∀ t < s.in_progress_queue.fresh, d.output t = none → t ∈ d.futures
  wrapped : ∀ t < s.in_progress_queue.fresh, ∀ fut,
    (s.in_progress_queue.tasks t).future = some fut → fut.index = s.index t
  waiting : ∀ x, x ∈ s.waiting ↔
    ∃ t ∈ d.futures, d.output t = some x.data ∧ s.index t = x.index
  distinct : (s.waiting.map Ordered.index).Nodup
  front : ∀ w, s.pc = .loop w → ∀ x ∈ s.queued_outputs.elems, x.index ≠ s.next_outgoing_index

/-! ## Calls of the set

What the beginning and the end of a `poll_next` call of the set keep. -/

/-- `q` is the set `p`, but for the call in progress. -/
structure Kept (p q : FuturesUnordered.State (Ordered F) (Ordered O) W A) : Prop where
  inv : ∃ l, q.Inv l
  ledger : q.Ledger
  fresh : q.fresh = p.fresh
  completed : q.hist.completed = p.hist.completed
  discarded : q.hist.discarded = p.hist.discarded
  tasks : q.tasks = p.tasks
  pushing : p.pushing = ∅ → q.pushing = ∅
  calm : q.owner.result ≠ some .unwound

namespace Kept

variable {p q : FuturesUnordered.State (Ordered F) (Ordered O) W A}

theorem ret (hinv : ∃ l, p.Inv l) (hledger : p.Ledger) {lv : FuturesUnordered.Locals W}
    {r : PollNext (Ordered O)} (ho : p.owner = .poll lv (.done r)) : Kept p (p.ret lv r) := by
  obtain ⟨l, hl⟩ := hinv
  have hm : Move p .ret (p.ret lv r) := .ret ho
  exact ⟨inv_move hl hm, ledger_move hl hledger hm (by simp), rfl, rfl, rfl, rfl, fun h => h,
    nofun⟩

/-- The set is polled, after `p` has been left as it was or returned a result. -/
theorem poll_next (h : Kept p q) (w : W) (ho : q.owner = .idle) (hp : q.pushing = ∅) :
    Kept p (q.poll_next w) := by
  obtain ⟨l, hl⟩ := h.inv
  have hm : Move q (.poll_next w) (q.poll_next w) := .poll_next w ho hp
  exact ⟨inv_move hl hm, ledger_move hl h.ledger hm (by simp), h.fresh, h.completed, h.discarded,
    h.tasks, h.pushing, nofun⟩

end Kept

namespace Tracks

variable {s : State F O W A} {d : Deque O}

theorem kept (h : Tracks s d) (hidle : s.in_progress_queue.owner.isIdle = true) :
    Kept s.in_progress_queue s.in_progress_queue :=
  ⟨h.inv, h.ledger, rfl, rfl, rfl, rfl, fun hp => hp, by
    rw [FuturesUnordered.Owner.eq_idle hidle]
    nofun⟩

theorem new : Tracks (State.new : State F O W A) Deque.new where
  inv := ⟨[], FuturesUnordered.State.inv_new⟩
  ledger := FuturesUnordered.ledger_new
  quiet := nofun
  inLoop := nofun
  notLoop := fun _ => rfl
  low := by simp [State.new, FuturesUnordered.State.new]
  high := by simp [State.new, FuturesUnordered.State.new]
  incoming := by simp [State.new, Deque.new]
  numbered := trivial
  known := nofun
  finished := by simp [Deque.new, State.new, FuturesUnordered.State.new,
    FuturesUnordered.State.yielded]
  running := nofun
  wrapped := nofun
  waiting := by
    intro x
    simp [State.waiting, State.new, FuturesUnordered.State.new, MaxHeap.empty, Deque.new,
      FuturesUnordered.Owner.carrying, FuturesUnordered.Owner.result]
  distinct := List.nodup_nil
  front := nofun

/-- The task that is allocated next is no part of the deque. -/
theorem fresh_new (h : Tracks s d) :
    s.in_progress_queue.fresh ∉ d.futures ∧ d.output s.in_progress_queue.fresh = none := by
  refine ⟨?_, ?_⟩
  · intro hmem
    have hlt := h.known _ hmem
    omega
  · by_contra hne
    have hfin := (h.finished _).mp hne
    obtain ⟨l, hl⟩ := h.inv
    rcases (h.ledger.finished _).mp (List.mem_append_left _ hfin) with hr | hrel
    · have hlt := hl.places.retired_lt _ hr
      omega
    · have hheld := FuturesUnordered.releasing_held hrel
      have hlt := (hl.places.held_live _ hheld).1
      omega

/-- A push leaves what is waiting and what has finished alone. -/
theorem push (h : Tracks s d) {i : ℕ} {fut : Ordered F} {futures : List ℕ} {inc out : ℤ}
    {events : List (Event O)} (hpc : s.pc = .idle) (hi : s.in_progress_queue.threads i = .idle)
    (hlow : -((s.in_progress_queue.fresh + 1 : ℕ) : ℤ) ≤ out)
    (hhigh : inc ≤ ((s.in_progress_queue.fresh + 1 : ℕ) : ℤ))
    (hinc : inc = out + futures.length)
    (hnum : Numbered (Function.update s.index s.in_progress_queue.fresh fut.index) out futures)
    (hmem : ∀ t, t ∈ futures ↔ t = s.in_progress_queue.fresh ∨ t ∈ d.futures) :
    Tracks { s.push i fut with
      next_incoming_index := inc, next_outgoing_index := out, events := events }
      { d with futures := futures } := by
  obtain ⟨l, hl⟩ := h.inv
  obtain ⟨hnew, hnone⟩ := h.fresh_new
  have ho : s.in_progress_queue.owner = .idle := by
    apply FuturesUnordered.Owner.eq_idle
    apply h.notLoop
    intro w hw
    rw [hpc] at hw
    cases hw
  have hm := Move.push (A := A) fut hi ho
  refine
    { inv := inv_move hl hm
      ledger := ledger_move hl h.ledger hm (by simp)
      quiet := ?_
      inLoop := ?_
      notLoop := fun _ => by
        show s.in_progress_queue.owner.isIdle = true
        rw [ho]
        rfl
      low := hlow
      high := hhigh
      incoming := hinc
      numbered := hnum
      known := ?_
      finished := h.finished
      running := ?_
      wrapped := ?_
      waiting := ?_
      distinct := h.distinct
      front := ?_ }
  · intro hne
    have hidle : s.pc.isIdle = false := hne
    rw [hpc] at hidle
    cases hidle
  · intro w hw
    have hloop : s.pc = .loop w := hw
    rw [hpc] at hloop
    cases hloop
  · intro t ht
    show t < s.in_progress_queue.fresh + 1
    rcases (hmem t).mp ht with rfl | hold
    · exact Nat.lt_succ_self _
    · exact Nat.lt_succ_of_lt (h.known t hold)
  · intro t ht hout
    have hlt : t < s.in_progress_queue.fresh + 1 := ht
    refine (hmem t).mpr ?_
    by_cases htf : t = s.in_progress_queue.fresh
    · exact Or.inl htf
    · exact Or.inr (h.running t (by omega) hout)
  · intro t ht x hx
    have hlt : t < s.in_progress_queue.fresh + 1 := ht
    show x.index = Function.update s.index s.in_progress_queue.fresh fut.index t
    by_cases htf : t = s.in_progress_queue.fresh
    · have hxfut : fut = x := by
        simpa [State.push, FuturesUnordered.State.push, htf] using hx
      rw [htf, Function.update_self, hxfut]
    · have hx' : (s.in_progress_queue.tasks t).future = some x := by
        simpa [State.push, FuturesUnordered.State.push, htf] using hx
      rw [Function.update_of_ne htf]
      exact h.wrapped t (by omega) x hx'
  -- the new future has no output, so it matches none that waits
  · intro x
    have hold := h.waiting x
    refine hold.trans ?_
    constructor
    · rintro ⟨t, ht, hout, hidx⟩
      have htf : t ≠ s.in_progress_queue.fresh := by rintro rfl; exact hnew ht
      exact ⟨t, (hmem t).mpr (Or.inr ht), hout, by
        show Function.update s.index s.in_progress_queue.fresh fut.index t = x.index
        rw [Function.update_of_ne htf, hidx]⟩
    · rintro ⟨t, ht, hout, hidx⟩
      rcases (hmem t).mp ht with rfl | hin
      · have hsome : d.output s.in_progress_queue.fresh = some x.data := hout
        rw [hnone] at hsome
        cases hsome
      · have htf : t ≠ s.in_progress_queue.fresh := by rintro rfl; exact hnew hin
        refine ⟨t, hin, hout, ?_⟩
        have hidx' : Function.update s.index s.in_progress_queue.fresh fut.index t = x.index := hidx
        rwa [Function.update_of_ne htf] at hidx'
  · intro w hw
    have hloop : s.pc = .loop w := hw
    rw [hpc] at hloop
    cases hloop

theorem push_back (h : Tracks s d) {i : ℕ} (future : F) (hpc : s.pc = .idle)
    (hi : s.in_progress_queue.threads i = .idle)
    (hfew : s.in_progress_queue.fresh + 1 < 2 ^ 63) :
    Tracks (s.push_back i future)
      { d with futures := d.futures ++ [s.in_progress_queue.fresh] } := by
  have hlow := h.low
  have hhigh := h.high
  have hinc := h.incoming
  have hnew := h.fresh_new.1
  have hwrap : i64 (s.next_incoming_index + 1) = s.next_incoming_index + 1 := by
    apply i64_of_bounds
    · omega
    · omega
  unfold State.push_back
  rw [hwrap]
  refine h.push hpc hi ?_ ?_ ?_ ?_ ?_
  · show -((s.in_progress_queue.fresh + 1 : ℕ) : ℤ) ≤ s.next_outgoing_index
    push_cast
    omega
  · push_cast
    omega
  · show s.next_incoming_index + 1 = s.next_outgoing_index + _
    rw [List.length_append, List.length_singleton]
    push_cast
    omega
  · refine Numbered.push_back (h.numbered.congr ?_) ?_
    · intro t ht
      have htf : t ≠ s.in_progress_queue.fresh := by rintro rfl; exact hnew ht
      rw [Function.update_of_ne htf]
    · rw [Function.update_self]
      exact hinc
  · intro t
    rw [List.mem_append, List.mem_singleton]
    exact or_comm

theorem push_front (h : Tracks s d) {i : ℕ} (future : F) (hpc : s.pc = .idle)
    (hi : s.in_progress_queue.threads i = .idle)
    (hfew : s.in_progress_queue.fresh + 1 < 2 ^ 63) :
    Tracks (s.push_front i future)
      { d with futures := s.in_progress_queue.fresh :: d.futures } := by
  have hlow := h.low
  have hhigh := h.high
  have hinc := h.incoming
  have hnew := h.fresh_new.1
  have hwrap : i64 (s.next_outgoing_index - 1) = s.next_outgoing_index - 1 := by
    apply i64_of_bounds
    · omega
    · omega
  unfold State.push_front
  rw [hwrap]
  refine h.push hpc hi ?_ ?_ ?_ ?_ ?_
  · push_cast
    omega
  · push_cast
    exact le_trans hhigh (by omega)
  · show s.next_incoming_index = _
    rw [List.length_cons]
    push_cast
    omega
  · refine ⟨by rw [Function.update_self], ?_⟩
    have heq : s.next_outgoing_index - 1 + 1 = s.next_outgoing_index := by omega
    rw [heq]
    apply h.numbered.congr
    intro t ht
    have htf : t ≠ s.in_progress_queue.fresh := by rintro rfl; exact hnew ht
    rw [Function.update_of_ne htf]
  · intro t
    exact List.mem_cons

/-- A step of the machinery of the set. -/
theorem inner (h : Tracks s d) {a : FuturesUnordered.Act (Ordered F) (Ordered O) W}
    {q : FuturesUnordered.State (Ordered F) (Ordered O) W A} (ha : a.inner = true)
    (hs : FuturesUnordered.step s.in_progress_queue a = some q) :
    Tracks { s with in_progress_queue := q } d := by
  obtain ⟨l, hl⟩ := h.inv
  have hm := move_of_step hs
  have hframe := FuturesUnordered.frame_move hm ha
  have hdrop : a ≠ .drop := by rintro rfl; cases ha
  have hwaiting : State.waiting { s with in_progress_queue := q } = s.waiting := by
    show s.queued_outputs.elems ++ q.owner.carrying = _
    rw [hframe.carrying]
    rfl
  refine
    { inv := inv_move hl hm
      ledger := ledger_move hl h.ledger hm hdrop
      quiet := fun hpc => hframe.pushing (h.quiet hpc)
      inLoop := fun w hw => by show q.owner.isIdle = false; rw [hframe.idle]; exact h.inLoop w hw
      notLoop := fun hw => by show q.owner.isIdle = true; rw [hframe.idle]; exact h.notLoop hw
      low := by show -(q.fresh : ℤ) ≤ _; rw [hframe.fresh]; exact h.low
      high := by show _ ≤ (q.fresh : ℤ); rw [hframe.fresh]; exact h.high
      incoming := h.incoming
      numbered := h.numbered
      known := fun t ht => by show t < q.fresh; rw [hframe.fresh]; exact h.known t ht
      finished := ?_
      running := fun t ht => h.running t (hframe.fresh ▸ ht)
      wrapped := ?_
      waiting := fun x => by rw [hwaiting]; exact h.waiting x
      distinct := by rw [hwaiting]; exact h.distinct
      front := h.front }
  · intro t
    show _ ↔ t ∈ q.hist.completed.map Prod.fst
    rw [hframe.completed]
    exact h.finished t
  · intro t ht fut hfut
    exact h.wrapped t (hframe.fresh ▸ ht) fut (hframe.future t fut hfut)

/-- The future being polled is unfinished and part of the deque. -/
theorem of_polling (h : Tracks s d) {lv : FuturesUnordered.Locals W} {t : ℕ}
    (ho : s.in_progress_queue.owner = .poll lv (.poll t)) :
    t < s.in_progress_queue.fresh ∧ d.output t = none ∧ t ∈ d.futures := by
  obtain ⟨l, hl⟩ := h.inv
  obtain ⟨hlt, hlive⟩ := hl.places.held_live t (by rw [ho]; rfl)
  have hnone : d.output t = none := by
    by_contra hne
    have hfin := (h.finished t).mp hne
    rcases (h.ledger.finished t).mp (List.mem_append_left _ hfin) with hr | hrel
    · rw [hlive] at hr
      cases hr
    · rw [ho] at hrel
      cases hrel
  exact ⟨hlt, hnone, h.running t hlt hnone⟩

/-- The future being polled stays pending. -/
theorem polled_pending (h : Tracks s d) {lv : FuturesUnordered.Locals W} {t : ℕ} {fut : Ordered F}
    (ho : s.in_progress_queue.owner = .poll lv (.poll t))
    (hfut : (s.in_progress_queue.tasks t).future = some fut) (fut' : F) :
    Tracks { s with
      in_progress_queue := s.in_progress_queue.polled lv t (.pending ⟨fut', fut.index⟩) } d := by
  obtain ⟨l, hl⟩ := h.inv
  obtain ⟨hlt, -, -⟩ := h.of_polling ho
  have hm : Move s.in_progress_queue (.polled (.pending ⟨fut', fut.index⟩)) _ := .polled _ ho
  have hwaiting : State.waiting { s with
      in_progress_queue := s.in_progress_queue.polled lv t (.pending ⟨fut', fut.index⟩) } =
      s.waiting := by
    show _ ++ FuturesUnordered.Owner.carrying _ = _ ++ FuturesUnordered.Owner.carrying _
    rw [ho]
    rfl
  refine
    { inv := inv_move hl hm
      ledger := ledger_move hl h.ledger hm (by simp)
      quiet := h.quiet
      inLoop := fun _ _ => rfl
      notLoop := fun hw => by
        have hidle := h.notLoop hw
        rw [ho] at hidle
        cases hidle
      low := h.low
      high := h.high
      incoming := h.incoming
      numbered := h.numbered
      known := h.known
      finished := h.finished
      running := h.running
      wrapped := ?_
      waiting := fun x => by rw [hwaiting]; exact h.waiting x
      distinct := by rw [hwaiting]; exact h.distinct
      front := h.front }
  intro u hu x hx
  by_cases hut : u = t
  · have hxfut : (⟨fut', fut.index⟩ : Ordered F) = x := by
      simpa [FuturesUnordered.State.polled, FuturesUnordered.State.setTask,
        FuturesUnordered.State.setOwner, hut] using hx
    rw [← hxfut, hut]
    exact h.wrapped t hlt fut hfut
  · refine h.wrapped u hu x ?_
    simpa [FuturesUnordered.State.polled, FuturesUnordered.State.setTask,
      FuturesUnordered.State.setOwner, hut] using hx

/-- The future being polled unwinds: it is discarded, and its number with it. -/
theorem polled_unwind (h : Tracks s d) {lv : FuturesUnordered.Locals W} {t : ℕ}
    (ho : s.in_progress_queue.owner = .poll lv (.poll t)) :
    Tracks { s with in_progress_queue := s.in_progress_queue.polled lv t .unwind } d := by
  obtain ⟨l, hl⟩ := h.inv
  have hm : Move s.in_progress_queue (.polled .unwind) _ := .polled _ ho
  have hwaiting : State.waiting { s with
      in_progress_queue := s.in_progress_queue.polled lv t .unwind } = s.waiting := by
    show _ ++ FuturesUnordered.Owner.carrying _ = _ ++ FuturesUnordered.Owner.carrying _
    rw [ho]
    rfl
  exact
    { inv := inv_move hl hm
      ledger := ledger_move hl h.ledger hm (by simp)
      quiet := h.quiet
      inLoop := fun _ _ => rfl
      notLoop := fun hw => by
        have hidle := h.notLoop hw
        rw [ho] at hidle
        cases hidle
      low := h.low
      high := h.high
      incoming := h.incoming
      numbered := h.numbered
      known := h.known
      finished := h.finished
      running := h.running
      wrapped := h.wrapped
      waiting := fun x => by rw [hwaiting]; exact h.waiting x
      distinct := by rw [hwaiting]; exact h.distinct
      front := h.front }

/-- The future being polled completes: its output is on its way under its number. -/
theorem polled_ready (h : Tracks s d) {lv : FuturesUnordered.Locals W} {t : ℕ} {fut : Ordered F}
    (ho : s.in_progress_queue.owner = .poll lv (.poll t))
    (hfut : (s.in_progress_queue.tasks t).future = some fut) (o : O) (events : List (Event O)) :
    Tracks { s with
      in_progress_queue := s.in_progress_queue.polled lv t (.ready ⟨o, fut.index⟩)
      events := events } { d with output := Function.update d.output t (some o) } := by
  obtain ⟨l, hl⟩ := h.inv
  obtain ⟨hlt, hnone, hmem⟩ := h.of_polling ho
  have hm : Move s.in_progress_queue (.polled (.ready ⟨o, fut.index⟩)) _ := .polled _ ho
  have hidx : fut.index = s.index t := h.wrapped t hlt fut hfut
  have hold : s.waiting = s.queued_outputs.elems := by
    show _ ++ FuturesUnordered.Owner.carrying _ = _
    rw [ho]
    exact List.append_nil _
  have hnew : State.waiting { s with
      in_progress_queue := s.in_progress_queue.polled lv t (.ready ⟨o, fut.index⟩)
      events := events } = s.queued_outputs.elems ++ [⟨o, fut.index⟩] := rfl
  have hwaiting := h.waiting
  have hdistinct := h.distinct
  rw [hold] at hwaiting hdistinct
  -- an output that is already there belongs to another future
  have hother : ∀ u, d.output u ≠ none → u ≠ t := by
    rintro u hu rfl
    exact hu hnone
  refine
    { inv := inv_move hl hm
      ledger := ledger_move hl h.ledger hm (by simp)
      quiet := h.quiet
      inLoop := fun _ _ => rfl
      notLoop := fun hw => by
        have hidle := h.notLoop hw
        rw [ho] at hidle
        cases hidle
      low := h.low
      high := h.high
      incoming := h.incoming
      numbered := h.numbered
      known := h.known
      finished := ?_
      running := ?_
      wrapped := h.wrapped
      waiting := ?_
      distinct := ?_
      front := h.front }
  · intro u
    show Function.update d.output t (some o) u ≠ none ↔
      u ∈ (s.in_progress_queue.hist.completed ++
        [(t, (⟨o, fut.index⟩ : Ordered O))]).map Prod.fst
    rw [List.map_append, List.mem_append, List.map_singleton, List.mem_singleton]
    by_cases hut : u = t
    · simp [hut]
    · rw [Function.update_of_ne hut]
      simp only [hut, or_false]
      exact h.finished u
  · intro u hu hout
    have hout' : Function.update d.output t (some o) u = none := hout
    by_cases hut : u = t
    · rw [hut, Function.update_self] at hout'
      cases hout'
    · rw [Function.update_of_ne hut] at hout'
      exact h.running u hu hout'
  · intro x
    rw [hnew, List.mem_append, List.mem_singleton, hwaiting x]
    constructor
    · rintro (⟨u, hu, hout, hux⟩ | rfl)
      · have hut := hother u (by rw [hout]; simp)
        exact ⟨u, hu, by simpa [hut] using hout, hux⟩
      · exact ⟨t, hmem, by simp, hidx.symm⟩
    · rintro ⟨u, hu, hout, hux⟩
      have hout' : Function.update d.output t (some o) u = some x.data := hout
      by_cases hut : u = t
      · refine Or.inr ?_
        rw [hut, Function.update_self, Option.some.injEq] at hout'
        obtain ⟨data, index⟩ := x
        simp only at hout' hux
        rw [hout', hidx, ← hut, hux]
      · rw [Function.update_of_ne hut] at hout'
        exact Or.inl ⟨u, hu, hout', hux⟩
  -- two futures have different numbers, so the new output does not collide
  · rw [hnew, List.map_append, List.map_singleton, List.nodup_append]
    refine ⟨hdistinct, List.nodup_singleton _, ?_⟩
    intro i hi j hj
    rw [List.mem_singleton] at hj
    obtain ⟨x, hx, rfl⟩ := List.mem_map.mp hi
    obtain ⟨u, hu, hout, hux⟩ := (hwaiting x).mp hx
    have hut := hother u (by rw [hout]; simp)
    rintro heq
    rw [hj, ← hux, hidx] at heq
    exact hut (h.numbered.injective hu hmem heq)

/-- The calls move, and the outputs that wait are still the same. -/
theorem regroup (h : Tracks s d) {q : FuturesUnordered.State (Ordered F) (Ordered O) W A}
    {heap : MaxHeap (Ordered O) Ordered.Ge} {pc : Pc O W} {events : List (Event O)}
    (hk : Kept s.in_progress_queue q)
    (hperm : (heap.elems ++ q.owner.carrying).Perm s.waiting)
    (hquiet : pc.isIdle = false → s.in_progress_queue.pushing = ∅)
    (hin : ∀ w, pc = .loop w → q.owner.isIdle = false)
    (hnot : (∀ w, pc ≠ .loop w) → q.owner.isIdle = true)
    (hfront : ∀ w, pc = .loop w → ∀ x ∈ heap.elems, x.index ≠ s.next_outgoing_index) :
    Tracks { s with in_progress_queue := q, queued_outputs := heap, pc := pc, events := events } d where
  inv := hk.inv
  ledger := hk.ledger
  quiet hpc := hk.pushing (hquiet hpc)
  inLoop := hin
  notLoop := hnot
  low := by show -(q.fresh : ℤ) ≤ _; rw [hk.fresh]; exact h.low
  high := by show _ ≤ (q.fresh : ℤ); rw [hk.fresh]; exact h.high
  incoming := h.incoming
  numbered := h.numbered
  known t ht := by show t < q.fresh; rw [hk.fresh]; exact h.known t ht
  finished t := by
    show _ ↔ t ∈ q.hist.completed.map Prod.fst
    rw [hk.completed]
    exact h.finished t
  running t ht := h.running t (hk.fresh ▸ ht)
  wrapped t ht fut hfut := h.wrapped t (hk.fresh ▸ ht) fut (by
    have hfut' : (q.tasks t).future = some fut := hfut
    rwa [hk.tasks] at hfut')
  waiting x := by
    show x ∈ heap.elems ++ q.owner.carrying ↔ _
    rw [hperm.mem_iff]
    exact h.waiting x
  distinct := by
    show ((heap.elems ++ q.owner.carrying).map Ordered.index).Nodup
    rw [(hperm.map Ordered.index).nodup_iff]
    exact h.distinct
  front := hfront

/-- An output with the first number leaves: it is that of the front future. -/
theorem yield (h : Tracks s d) {q : FuturesUnordered.State (Ordered F) (Ordered O) W A}
    {heap : MaxHeap (Ordered O) Ordered.Ge} {x : Ordered O} (events : List (Event O))
    (hk : Kept s.in_progress_queue q) (hidle : q.owner.isIdle = true)
    (hquiet : s.in_progress_queue.pushing = ∅)
    (hperm : s.waiting.Perm (x :: (heap.elems ++ q.owner.carrying)))
    (hx : x.index = s.next_outgoing_index) (hfew : s.in_progress_queue.fresh < 2 ^ 63) :
    ∃ t rest, d.futures = t :: rest ∧ d.output t = some x.data ∧
      Tracks { s with
        in_progress_queue := q
        queued_outputs := heap
        next_outgoing_index := i64 (s.next_outgoing_index + 1)
        pc := .done (.ready (some x.data))
        events := events } { d with futures := rest } := by
  obtain ⟨t, ht, hout, htx⟩ := (h.waiting x).mp (hperm.mem_iff.mpr List.mem_cons_self)
  obtain ⟨rest, hfutures⟩ := h.numbered.head ht (htx.trans hx)
  refine ⟨t, rest, hfutures, hout, ?_⟩
  have hnumbered := h.numbered
  have hincoming := h.incoming
  rw [hfutures] at hnumbered hincoming
  rw [List.length_cons] at hincoming
  push_cast at hincoming
  have hlow := h.low
  have hhigh := h.high
  have hwrap : i64 (s.next_outgoing_index + 1) = s.next_outgoing_index + 1 := by
    apply i64_of_bounds
    · omega
    · omega
  have hdistinct := h.distinct
  rw [(hperm.map Ordered.index).nodup_iff, List.map_cons, List.nodup_cons] at hdistinct
  have hmem : ∀ u, u ∈ rest → u ∈ d.futures := by
    intro u hu
    rw [hfutures]
    exact List.mem_cons_of_mem t hu
  -- the front future is not among the others
  have htrest : t ∉ rest := by
    intro hin
    have hnodup := hnumbered.nodup
    rw [List.map_cons, List.nodup_cons] at hnodup
    exact hnodup.1 (List.mem_map_of_mem hin)
  rw [hwrap]
  exact
    { inv := hk.inv
      ledger := hk.ledger
      quiet := fun _ => hk.pushing hquiet
      inLoop := nofun
      notLoop := fun _ => hidle
      low := by show -(q.fresh : ℤ) ≤ s.next_outgoing_index + 1; rw [hk.fresh]; omega
      high := by show _ ≤ (q.fresh : ℤ); rw [hk.fresh]; exact hhigh
      incoming := by
        show s.next_incoming_index = s.next_outgoing_index + 1 + (rest.length : ℤ)
        omega
      numbered := hnumbered.2
      known := fun u hu => by show u < q.fresh; rw [hk.fresh]; exact h.known u (hmem u hu)
      finished := fun u => by
        show _ ↔ u ∈ q.hist.completed.map Prod.fst
        rw [hk.completed]
        exact h.finished u
      running := fun u hu hnone => by
        have hin := h.running u (hk.fresh ▸ hu) hnone
        rw [hfutures] at hin
        rcases List.mem_cons.mp hin with rfl | hrest
        · have hnone' : d.output u = none := hnone
          rw [hout] at hnone'
          cases hnone'
        · exact hrest
      wrapped := fun u hu fut hfut => h.wrapped u (hk.fresh ▸ hu) fut (by
        have hfut' : (q.tasks u).future = some fut := hfut
        rwa [hk.tasks] at hfut')
      waiting := fun y => by
        show y ∈ heap.elems ++ q.owner.carrying ↔ _
        have hy := h.waiting y
        rw [hperm.mem_iff, List.mem_cons] at hy
        constructor
        · intro hin
          obtain ⟨u, hu, hou, huy⟩ := hy.mp (Or.inr hin)
          rw [hfutures] at hu
          rcases List.mem_cons.mp hu with rfl | hrest
          -- `y` would have the number of the output that leaves
          · have hyx : y.index = x.index := by rw [← huy, htx]
            exact absurd (hyx ▸ List.mem_map_of_mem hin) hdistinct.1
          · exact ⟨u, hrest, hou, huy⟩
        · rintro ⟨u, hu, hou, huy⟩
          rcases hy.mpr ⟨u, hmem u hu, hou, huy⟩ with rfl | hin
          · have hut := h.numbered.injective (hmem u hu) ht (huy.trans htx.symm)
            exact absurd (hut ▸ hu) htrest
          · exact hin
      distinct := hdistinct.2
      front := nofun }

/-- `poll_next` turns to the set when the heap does not hold the first number. -/
theorem pollSet (h : Tracks s d) {w : W} {q : FuturesUnordered.State (Ordered F) (Ordered O) W A}
    {heap : MaxHeap (Ordered O) Ordered.Ge} (hpc : s.pc.isIdle = false)
    (hk : Kept s.in_progress_queue q) (hidle : q.owner.isIdle = true)
    (hperm : heap.elems.Perm s.waiting)
    (hfront : ∀ x ∈ heap.elems, x.index ≠ s.next_outgoing_index) :
    Tracks (State.pollSet { s with in_progress_queue := q, queued_outputs := heap } w) d := by
  have hquiet := h.quiet hpc
  have ho := FuturesUnordered.Owner.eq_idle hidle
  refine h.regroup (hk.poll_next w ho (hk.pushing hquiet)) ?_ (fun _ => hquiet) (fun _ _ => rfl) ?_
    fun _ _ => hfront
  · show (heap.elems ++ FuturesUnordered.Owner.carrying _).Perm s.waiting
    rw [show (FuturesUnordered.State.poll_next q w).owner.carrying = [] from rfl, List.append_nil]
    exact hperm
  · intro hne
    exact absurd rfl (hne w)

/-- When the greatest element of the heap does not have the first number, none has. -/
theorem front_of_peek (h : Tracks s d) {x : Ordered O} (hx : s.queued_outputs.peek = some x)
    (hne : x.index ≠ s.next_outgoing_index) :
    ∀ y ∈ s.queued_outputs.elems, y.index ≠ s.next_outgoing_index := by
  have hmem : x ∈ s.waiting := by
    unfold State.waiting
    rw [MaxHeap.elems_of_peek hx]
    simp
  obtain ⟨t, ht, -, htx⟩ := (h.waiting x).mp hmem
  have hlow := (h.numbered.bounds ht).1
  intro y hy
  rw [MaxHeap.elems_of_peek hx] at hy
  rcases List.mem_cons.mp hy with rfl | hrest
  · exact hne
  · have hle := Ordered.ge_iff.mp (MaxHeap.ge_of_peek hx hrest)
    omega

/-- The look at the heap: the front output leaves, or the set is polled. -/
theorem peekQueued (h : Tracks s d) {w : W} (hpc : s.pc = .peek w)
    (hfew : s.in_progress_queue.fresh < 2 ^ 63) :
    ∃ d', Deque.Shows s.in_progress_queue.hist.discarded s.events d (s.peekQueued w).events d' ∧
      Tracks (s.peekQueued w) d' := by
  have hidle : s.in_progress_queue.owner.isIdle = true := by
    apply h.notLoop
    intro w' hw'
    rw [hpc] at hw'
    cases hw'
  have hcarry := FuturesUnordered.Owner.carrying_of_idle hidle
  have hwaiting : s.waiting = s.queued_outputs.elems := by
    unfold State.waiting
    rw [hcarry, List.append_nil]
  have hbusy : s.pc.isIdle = false := by rw [hpc]; rfl
  unfold State.peekQueued
  cases hx : s.queued_outputs.peek with
  | some x =>
      dsimp only
      split
      · rename_i hidx
        have hperm : s.waiting.Perm
            (x :: (s.queued_outputs.pop.elems ++ s.in_progress_queue.owner.carrying)) := by
          rw [hwaiting, MaxHeap.elems_of_peek hx, hcarry, List.append_nil]
        obtain ⟨t, rest, hfut, hout, hrel⟩ :=
          h.yield (s.events ++ [.result (.ready (some x.data))]) (h.kept hidle) hidle (h.quiet hbusy)
            hperm hidx hfew
        exact ⟨_, .event (.step (.yielded hfut hout)), hrel⟩
      · rename_i hne
        refine ⟨d, .nothing, h.pollSet hbusy (h.kept hidle) hidle ?_ (h.front_of_peek hx hne)⟩
        rw [hwaiting]
  | none =>
      refine ⟨d, .nothing, h.pollSet hbusy (h.kept hidle) hidle ?_ ?_⟩
      · rw [hwaiting]
      · rw [MaxHeap.elems_of_peek_none hx]
        nofun

/-- In the loop, the output of a completed front future can only be on its way. -/
theorem front_output (h : Tracks s d) {w : W} (hpc : s.pc = .loop w)
    (hcarry : s.in_progress_queue.owner.carrying = []) :
    ∀ t, d.futures.head? = some t → d.output t = none := by
  intro t ht
  by_contra hne
  obtain ⟨o, ho⟩ := Option.ne_none_iff_exists'.mp hne
  obtain ⟨rest, hfut⟩ : ∃ rest, d.futures = t :: rest := by
    cases hf : d.futures with
    | nil => rw [hf] at ht; cases ht
    | cons u rest => rw [hf] at ht; cases ht; exact ⟨rest, rfl⟩
  have hnumbered := h.numbered
  rw [hfut] at hnumbered
  have hmem : (⟨o, s.index t⟩ : Ordered O) ∈ s.waiting :=
    (h.waiting ⟨o, s.index t⟩).mpr ⟨t, by rw [hfut]; exact List.mem_cons_self, ho, rfl⟩
  unfold State.waiting at hmem
  rw [hcarry, List.append_nil] at hmem
  exact h.front w hpc _ hmem hnumbered.1

/-- The body of the loop, on the answer of the set. -/
theorem loopBody (h : Tracks s d) {w : W} {lv : FuturesUnordered.Locals W} {r : PollNext (Ordered O)}
    (hpc : s.pc = .loop w) (ho : s.in_progress_queue.owner = .poll lv (.done r))
    (hfew : s.in_progress_queue.fresh < 2 ^ 63) :
    ∃ d', Deque.Shows s.in_progress_queue.hist.discarded s.events d
        ({ s with in_progress_queue := s.in_progress_queue.ret lv r }.loopBody w r).events d' ∧
      Tracks ({ s with in_progress_queue := s.in_progress_queue.ret lv r }.loopBody w r) d' := by
  have hk := Kept.ret h.inv h.ledger ho
  have hbusy : s.pc.isIdle = false := by rw [hpc]; rfl
  have hquiet := h.quiet hbusy
  have hcarrying : s.in_progress_queue.owner.carrying = FuturesUnordered.State.outputOf r := by
    rw [ho]
    rfl
  have hafter : (s.in_progress_queue.ret lv r).owner.carrying = [] := rfl
  -- the call returns without an output
  have hsettle : ∀ {pc : Pc O W} {events : List (Event O)},
      s.in_progress_queue.owner.carrying = [] → (∀ w, pc ≠ .loop w) →
      Tracks { s with in_progress_queue := s.in_progress_queue.ret lv r, pc := pc, events := events }
        d := by
    intro pc events hnil hpc
    refine h.regroup hk ?_ (fun _ => hquiet) (fun w hw => absurd hw (hpc w)) (fun _ => rfl)
      (fun w hw => absurd hw (hpc w))
    rw [hafter, ← hnil]
    exact List.Perm.refl _
  unfold State.loopBody
  cases r with
  | pending =>
      exact ⟨d, .event (.step (.pending (h.front_output hpc hcarrying))), hsettle hcarrying nofun⟩
  | unwound => exact ⟨d, .event .unwound, hsettle hcarrying nofun⟩
  | ready out =>
      cases out with
      | none =>
          -- the set is empty, so every future has finished; an output of the front would be here
          refine ⟨d, .event ?_, hsettle hcarrying nofun⟩
          cases hf : d.futures with
          | nil => exact .step (.none hf)
          | cons t rest =>
              have ht : t ∈ d.futures := by rw [hf]; exact List.mem_cons_self
              have hnone := h.front_output hpc hcarrying t (by rw [hf]; rfl)
              obtain ⟨l, hl⟩ := h.inv
              have hempty := h.ledger.ended (by rw [ho]; rfl)
              have hlnil : l = [] := hl.places.all.is_empty_iff.mp hempty
              subst hlnil
              have hr := hl.retired_of_nil (by rw [ho]; rfl) (h.known t ht)
              have hfin := (h.ledger.finished t).mpr (Or.inl hr)
              rcases List.mem_append.mp hfin with hdone | hdead
              · exact absurd hnone ((h.finished t).mpr hdone)
              · exact .none (by rw [hf]; rfl) hdead
      | some x =>
          dsimp only
          split
          · rename_i hidx
            have hperm : s.waiting.Perm
                (x :: (s.queued_outputs.elems ++
                  (s.in_progress_queue.ret lv (.ready (some x))).owner.carrying)) := by
              unfold State.waiting
              rw [hcarrying, hafter, List.append_nil]
              exact List.perm_append_singleton x s.queued_outputs.elems
            obtain ⟨t, rest, hfut, hout, hrel⟩ :=
              h.yield (s.events ++ [.result (.ready (some x.data))]) hk rfl hquiet hperm hidx hfew
            exact ⟨_, .event (.step (.yielded hfut hout)), hrel⟩
          · rename_i hne
            refine ⟨d, .nothing, h.pollSet hbusy hk rfl ?_ ?_⟩
            · unfold State.waiting
              rw [hcarrying]
              exact (s.queued_outputs.push_perm x).trans
                (List.perm_append_singleton x s.queued_outputs.elems).symm
            · intro y hy
              rcases MaxHeap.mem_push.mp hy with rfl | hold
              · exact hne
              · exact h.front w hpc y hold

/-! ## Between calls -/

/-- A future that has completed has not unwound. -/
theorem not_discarded (h : Tracks s d) {t : ℕ} (ht : d.output t ≠ none) :
    t ∉ s.in_progress_queue.hist.discarded := by
  obtain ⟨-, -, hdisjoint⟩ := List.nodup_append.mp h.ledger.nodup
  exact fun hdead => hdisjoint t ((h.finished t).mp ht) t hdead rfl

/-- The linked tasks are the futures that have neither completed nor unwound. -/
theorem linked_perm (h : Tracks s d) {l : List ℕ} (hl : s.in_progress_queue.Inv l)
    (ho : s.in_progress_queue.owner = .idle) :
    l.Perm (d.futures.filter fun t =>
      (d.output t).isNone && decide (t ∉ s.in_progress_queue.hist.discarded)) := by
  rw [List.perm_ext_iff_of_nodup hl.places.nodup]
  · intro t
    rw [List.mem_filter, hl.places.mem t, Bool.and_eq_true, Option.isNone_iff_eq_none,
      decide_eq_true_eq]
    have hfin := h.ledger.finished t
    rw [List.mem_append, ho] at hfin
    have hyield := h.finished t
    constructor
    · rintro ⟨hlt, hr, -⟩
      have hnot : ¬(t ∈ s.in_progress_queue.yielded ∨ t ∈ s.in_progress_queue.hist.discarded) := by
        intro hor
        rcases hfin.mp hor with hr' | hrel
        · rw [hr] at hr'; cases hr'
        · cases hrel
      have hnone : d.output t = none := by
        by_contra hne
        exact hnot (Or.inl (hyield.mp hne))
      exact ⟨h.running t hlt hnone, hnone, fun hdead => hnot (Or.inr hdead)⟩
    · rintro ⟨hmem, hnone, hdead⟩
      refine ⟨h.known t hmem, ?_, by rw [ho]; simp [FuturesUnordered.Owner.held]⟩
      by_contra hr
      rcases hfin.mpr (Or.inl (by simpa using hr)) with hdone | hdead'
      · exact hyield.mpr hdone hnone
      · exact hdead hdead'
  · exact List.Nodup.filter _ (List.Nodup.of_map s.index h.numbered.nodup)

/-- The heap holds the outputs of those that have. -/
theorem heap_perm (h : Tracks s d) (ho : s.in_progress_queue.owner = .idle) :
    (s.queued_outputs.elems.map Ordered.index).Perm
      ((d.futures.filter fun t => !(d.output t).isNone).map s.index) := by
  have hcarry : s.in_progress_queue.owner.carrying = [] := by rw [ho]; rfl
  have hwaiting := h.waiting
  have hdistinct := h.distinct
  unfold State.waiting at hwaiting hdistinct
  rw [hcarry] at hwaiting hdistinct
  simp only [List.append_nil] at hwaiting hdistinct
  rw [List.perm_ext_iff_of_nodup hdistinct]
  · intro k
    rw [List.mem_map, List.mem_map]
    constructor
    · rintro ⟨x, hx, rfl⟩
      obtain ⟨t, ht, hout, htx⟩ := (hwaiting x).mp hx
      exact ⟨t, List.mem_filter.mpr ⟨ht, by simp [hout]⟩, htx⟩
    · rintro ⟨t, ht, rfl⟩
      obtain ⟨hmem, hsome⟩ := List.mem_filter.mp ht
      have hne : d.output t ≠ none := by
        intro hnone
        simp [hnone] at hsome
      obtain ⟨o, hout⟩ := Option.ne_none_iff_exists'.mp hne
      exact ⟨⟨o, s.index t⟩, (hwaiting _).mpr ⟨t, hmem, hout, rfl⟩, rfl⟩
  · have hsub : ((d.futures.filter fun t => !(d.output t).isNone).map s.index).Sublist
        (d.futures.map s.index) := List.filter_sublist.map s.index
    exact hsub.nodup h.numbered.nodup

/-- The numbers in the set: those of the linked tasks. -/
theorem linked_index (h : Tracks s d) {l : List ℕ} (hl : s.in_progress_queue.Inv l) :
    (l.filterMap fun t => (s.in_progress_queue.tasks t).future.map Ordered.index) =
      l.map s.index := by
  rw [← List.filterMap_eq_map]
  apply List.filterMap_congr
  intro t ht
  obtain ⟨hlt, hr, -⟩ := (hl.places.mem t).mp ht
  cases hfut : (s.in_progress_queue.tasks t).future with
  | some fut => simp [h.wrapped t hlt fut hfut]
  | none =>
      have hret := ((hl.places.vacant t hlt).mp (by simp [hfut])).1
      rw [hr] at hret
      cases hret

/-- The length of the queue: the futures of the deque that have not unwound. -/
theorem len_eq (h : Tracks s d) (ho : s.in_progress_queue.owner = .idle) :
    s.len = (d.futures.filter fun t =>
      decide (t ∉ s.in_progress_queue.hist.discarded)).length := by
  obtain ⟨l, hl⟩ := h.inv
  have hset : s.in_progress_queue.len = l.length := hl.places.all.len_eq
  have hlinked := (h.linked_perm hl ho).length_eq
  have hheap := (h.heap_perm ho).length_eq
  rw [List.length_map, List.length_map] at hheap
  have hparts := (List.filter_append_perm (fun t => (d.output t).isNone)
    (d.futures.filter fun t => decide (t ∉ s.in_progress_queue.hist.discarded))).length_eq
  rw [List.filter_filter, List.filter_filter, List.length_append] at hparts
  -- what has completed has not unwound
  have hdone : (d.futures.filter fun t => !(d.output t).isNone &&
      decide (t ∉ s.in_progress_queue.hist.discarded)) =
      d.futures.filter fun t => !(d.output t).isNone := by
    apply List.filter_congr
    intro t _
    cases ho : d.output t with
    | none => rfl
    | some o => simp [h.not_discarded (t := t) (by rw [ho]; simp)]
  rw [hdone] at hparts
  unfold State.len MaxHeap.len
  omega

end Tracks

/-! ## One step -/

/-- The label is a push. -/
def Act.isPush : Act F O W → Bool
  | .push_back _ _ => true
  | .push_front _ _ => true
  | _ => false

variable {s s' : State F O W A} {d : Deque O}

theorem fresh_peekQueued (w : W) :
    (s.peekQueued w).in_progress_queue.fresh = s.in_progress_queue.fresh := by
  unfold State.peekQueued
  split
  · split <;> rfl
  · rfl

theorem fresh_loopBody (w : W) (r : PollNext (Ordered O)) :
    (s.loopBody w r).in_progress_queue.fresh = s.in_progress_queue.fresh := by
  unfold State.loopBody
  split
  · split <;> rfl
  · rfl
  · rfl
  · rfl

theorem fresh_stepSet {a : FuturesUnordered.Act (Ordered F) (Ordered O) W} (ha : a.inner = true)
    (hs : stepSet s a = some s') : s'.in_progress_queue.fresh = s.in_progress_queue.fresh := by
  obtain ⟨q, hq, rfl⟩ := Option.map_eq_some_iff.mp hs
  exact (FuturesUnordered.frame_move (move_of_step hq) ha).fresh

/-- A push allocates one task, and nothing else does. -/
theorem fresh_step {a : Act F O W} (hs : step s a = some s') :
    s'.in_progress_queue.fresh = s.in_progress_queue.fresh + if a.isPush then 1 else 0 := by
  cases a with
  | push_back i future =>
      simp only [step, Option.ite_none_right_eq_some, Option.some.injEq] at hs
      obtain ⟨-, rfl⟩ := hs
      rfl
  | push_front i future =>
      simp only [step, Option.ite_none_right_eq_some, Option.some.injEq] at hs
      obtain ⟨-, rfl⟩ := hs
      rfl
  | poll_next w =>
      simp only [step, Option.ite_none_right_eq_some, Option.some.injEq] at hs
      obtain ⟨-, rfl⟩ := hs
      rfl
  | own =>
      simp only [step, stepOwn] at hs
      split at hs
      · cases hs
      · cases hs
        exact fresh_peekQueued _
      · split at hs
        · cases hs
          exact fresh_loopBody _ _
        · cases hs
      · cases hs
  | wake i t => exact fresh_stepSet rfl hs
  | thread i => exact fresh_stepSet rfl hs
  | owner => exact fresh_stepSet rfl hs
  | polled r =>
      simp only [step, stepPolled] at hs
      split at hs
      · split at hs
        · cases hs
          cases r <;> rfl
        · cases hs
      · cases hs
  | ret =>
      simp only [step] at hs
      split at hs
      · cases hs
        rfl
      · cases hs

theorem discarded_stepSet {a : FuturesUnordered.Act (Ordered F) (Ordered O) W}
    (ha : a.inner = true) (hs : stepSet s a = some s') :
    s'.in_progress_queue.hist.discarded = s.in_progress_queue.hist.discarded := by
  obtain ⟨q, hq, rfl⟩ := Option.map_eq_some_iff.mp hs
  exact (FuturesUnordered.frame_move (move_of_step hq) ha).discarded

/-- Only a future that unwinds is discarded. -/
theorem discarded_step {a : Act F O W} (hs : step s a = some s') (hunwind : a ≠ .polled .unwind) :
    s'.in_progress_queue.hist.discarded = s.in_progress_queue.hist.discarded := by
  cases a with
  | push_back i future =>
      simp only [step, Option.ite_none_right_eq_some, Option.some.injEq] at hs
      obtain ⟨-, rfl⟩ := hs
      rfl
  | push_front i future =>
      simp only [step, Option.ite_none_right_eq_some, Option.some.injEq] at hs
      obtain ⟨-, rfl⟩ := hs
      rfl
  | poll_next w =>
      simp only [step, Option.ite_none_right_eq_some, Option.some.injEq] at hs
      obtain ⟨-, rfl⟩ := hs
      rfl
  | own =>
      simp only [step, stepOwn] at hs
      split at hs
      · cases hs
      · cases hs
        unfold State.peekQueued
        split
        · split <;> rfl
        · rfl
      · split at hs
        · cases hs
          unfold State.loopBody
          split
          · split <;> rfl
          · rfl
          · rfl
          · rfl
        · cases hs
      · cases hs
  | wake i t => exact discarded_stepSet rfl hs
  | thread i => exact discarded_stepSet rfl hs
  | owner => exact discarded_stepSet rfl hs
  | polled r =>
      simp only [step, stepPolled] at hs
      split at hs
      · split at hs
        · cases hs
          cases r with
          | unwind => exact absurd rfl hunwind
          | _ => rfl
        · cases hs
      · cases hs
  | ret =>
      simp only [step] at hs
      split at hs
      · cases hs
        rfl
      · cases hs

/-- **Every step of the queue shows a step of its deque, or nothing.** -/
theorem tracks_step {a : Act F O W} (h : Tracks s d) (hs : step s a = some s')
    (hfew : s'.in_progress_queue.fresh < 2 ^ 63) :
    ∃ d', Deque.Shows s.in_progress_queue.hist.discarded s.events d s'.events d' ∧
      Tracks s' d' := by
  have hfresh := fresh_step hs
  cases a with
  | push_back i future =>
      simp only [step, Option.ite_none_right_eq_some, Option.some.injEq] at hs
      obtain ⟨⟨hpc, -, hi⟩, rfl⟩ := hs
      have hidle : s.pc = .idle := Pc.eq_idle hpc
      obtain ⟨hnew, hnone⟩ := h.fresh_new
      exact ⟨_, .event (.step (.push_back hnew hnone)), h.push_back future hidle hi hfew⟩
  | push_front i future =>
      simp only [step, Option.ite_none_right_eq_some, Option.some.injEq] at hs
      obtain ⟨⟨hpc, -, hi⟩, rfl⟩ := hs
      have hidle : s.pc = .idle := Pc.eq_idle hpc
      obtain ⟨hnew, hnone⟩ := h.fresh_new
      exact ⟨_, .event (.step (.push_front hnew hnone)), h.push_front future hidle hi hfew⟩
  | poll_next w =>
      simp only [step, Option.ite_none_right_eq_some, Option.some.injEq] at hs
      obtain ⟨⟨hpc, hpush⟩, rfl⟩ := hs
      have howner : s.in_progress_queue.owner.isIdle = true := by
        apply h.notLoop
        intro w' hw'
        rw [hw'] at hpc
        cases hpc
      exact ⟨d, .nothing, h.regroup (h.kept howner) (List.Perm.refl _) (fun _ => hpush) nofun
        (fun _ => howner) nofun⟩
  | own =>
      have hfew' : s.in_progress_queue.fresh < 2 ^ 63 := by
        rw [hfresh] at hfew
        exact hfew
      simp only [step, stepOwn] at hs
      split at hs
      · cases hs
      · rename_i w hpc
        cases hs
        exact h.peekQueued hpc hfew'
      · rename_i w hpc
        split at hs
        · rename_i lv r ho
          cases hs
          exact h.loopBody hpc ho hfew'
        · cases hs
      · cases hs
  | wake i t =>
      obtain ⟨q, hq, rfl⟩ := Option.map_eq_some_iff.mp hs
      exact ⟨d, .nothing, h.inner rfl hq⟩
  | thread i =>
      obtain ⟨q, hq, rfl⟩ := Option.map_eq_some_iff.mp hs
      exact ⟨d, .nothing, h.inner rfl hq⟩
  | owner =>
      obtain ⟨q, hq, rfl⟩ := Option.map_eq_some_iff.mp hs
      exact ⟨d, .nothing, h.inner rfl hq⟩
  | polled r =>
      simp only [step, stepPolled] at hs
      split at hs
      · rename_i lv t ho
        split at hs
        · rename_i fut hfut
          cases hs
          cases r with
          | pending fut' => exact ⟨d, .nothing, h.polled_pending ho hfut fut'⟩
          | ready o =>
              obtain ⟨-, hnone, hmem⟩ := h.of_polling ho
              exact ⟨_, .event (.step (.completed o hmem hnone)), h.polled_ready ho hfut o _⟩
          | unwind => exact ⟨d, .nothing, h.polled_unwind ho⟩
        · cases hs
      · cases hs
  | ret =>
      simp only [step] at hs
      split at hs
      · rename_i r hpc
        cases hs
        have howner : s.in_progress_queue.owner.isIdle = true := by
          apply h.notLoop
          intro w hw
          rw [hpc] at hw
          cases hw
        exact ⟨d, .nothing, h.regroup (h.kept howner) (List.Perm.refl _) nofun nofun (fun _ => howner)
          nofun⟩
      · cases hs

end TokioStreamUtil.FuturesOrdered
