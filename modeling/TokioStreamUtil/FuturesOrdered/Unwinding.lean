/-
`FuturesOrdered` and futures whose poll unwinds.

`FuturesUnordered` discards such a future and lives on, but the number of the future
stays behind: `next_outgoing_index` waits for an output that never comes. What stands
behind the gap is never yielded, and once the set is empty the queue answers
`Ready(None)` over a heap that is not. This file says when that does not happen: as
long as nothing stands behind a future that unwinds, and nothing is pushed behind it.
-/
import TokioStreamUtil.FuturesOrdered.Delivery

set_option autoImplicit false

namespace TokioStreamUtil.FuturesOrdered

open FuturesUnordered (Polled PollNext)

variable {F O W : Type} {A : AtomicWaker W}

/-! ## What survives a future that unwinds -/

/-- The histories of a deque that discards the futures `ts`, in this order: a discarded
future leaves from wherever it stands, and the call that polled it unwinds. -/
inductive Deque.Discarding : List (Event O) → List ℕ → Deque O → Prop where
  | nil : Discarding [] [] Deque.new
  | snoc {es : List (Event O)} {ts : List ℕ} {e : Event O} {d d' : Deque O}
      (h : Discarding es ts d) (hs : Deque.Step d e d') : Discarding (es ++ [e]) ts d'
  | discard {es : List (Event O)} {ts : List ℕ} {d : Deque O} {t : ℕ} (h : Discarding es ts d)
      (ht : t ∈ d.futures) (ho : d.output t = none) :
      Discarding es (ts ++ [t]) { d with futures := d.futures.erase t }
  | unwound {es : List (Event O)} {ts : List ℕ} {d : Deque O} (h : Discarding es ts d) :
      Discarding (es ++ [.result .unwound]) ts d

/-- What the queue owes its caller when futures may unwind: `Ready(None)` is for the
queue that manages nothing, and the others are yielded as from a deque without them. -/
structure State.Recovers (s : State F O W A) : Prop where
  ended : s.pc = .done (.ready none) → s.len = 0
  ordered : ∃ d, Deque.Discarding s.events s.in_progress_queue.hist.discarded d ∧
    (s.pc = .idle → s.len = d.futures.length)

/-- Nothing that the queue manages has a number beyond `index`. -/
def State.lastInLine (s : State F O W A) (index : ℤ) : Bool :=
  ((List.range s.in_progress_queue.fresh).all fun t =>
      match (s.in_progress_queue.tasks t).future with
      | some fut => decide (fut.index ≤ index)
      | none => true) &&
    s.queued_outputs.elems.all fun x => decide (x.index ≤ index)

/-- The step leaves nothing behind a gap: a future that unwinds is the last in line, and
nothing is pushed behind one that has unwound. -/
def State.noneBehind (s : State F O W A) : Act F O W → Bool
  | .push_back _ _ => s.in_progress_queue.hist.discarded.isEmpty
  | .polled .unwind =>
      match s.in_progress_queue.owner with
      | .poll _ (.poll t) =>
          match (s.in_progress_queue.tasks t).future with
          | some fut => s.lastInLine fut.index
          | none => true
      | _ => true
  | _ => true

/-! ## Numbers -/

namespace Numbered

variable {index : ℕ → ℤ}

theorem append_left : ∀ {a : ℤ} {ts us : List ℕ}, Numbered index a (ts ++ us) →
    Numbered index a ts := by
  intro a ts us
  induction ts generalizing a with
  | nil => exact fun _ => trivial
  | cons t ts ih => exact fun h => ⟨h.1, ih h.2⟩

/-- The future with the greatest number is the last one. -/
theorem last : ∀ {a : ℤ} {ts : List ℕ} {t : ℕ}, Numbered index a ts → t ∈ ts →
    (∀ u ∈ ts, index u ≤ index t) → ∃ rest, ts = rest ++ [t] := by
  intro a ts t
  induction ts generalizing a with
  | nil => exact fun _ ht => absurd ht List.not_mem_nil
  | cons u ts ih =>
      rintro ⟨hu, hts⟩ ht hle
      by_cases hmem : t ∈ ts
      · obtain ⟨rest, rfl⟩ := ih hts hmem fun v hv => hle v (List.mem_cons_of_mem u hv)
        exact ⟨u :: rest, rfl⟩
      · have htu : t = u := (List.mem_cons.mp ht).resolve_right hmem
        cases ts with
        | nil => exact ⟨[], by rw [htu]; rfl⟩
        | cons v ts =>
            -- the next one has a greater number
            have hv := hle v (List.mem_cons_of_mem u List.mem_cons_self)
            rw [hts.1, htu, hu] at hv
            omega

end Numbered

/-! ## The gaps -/

section

variable {s s' : State F O W A} {d : Deque O}

namespace Tracks

/-- A future that has unwound keeps its place. -/
theorem mem_of_discarded (h : Tracks s d) {t : ℕ}
    (ht : t ∈ s.in_progress_queue.hist.discarded) : t ∈ d.futures := by
  have hlt : t < s.in_progress_queue.fresh := by
    obtain ⟨l, hl⟩ := h.inv
    rcases (h.ledger.finished t).mp (List.mem_append_right _ ht) with hr | hrel
    · exact hl.places.retired_lt t hr
    · exact (hl.places.held_live t (FuturesUnordered.releasing_held hrel)).1
  refine h.running t hlt ?_
  by_contra hne
  exact h.not_discarded hne ht

/-- **A gap is never passed.** -/
theorem outgoing_le (h : Tracks s d) {t : ℕ} (ht : t ∈ s.in_progress_queue.hist.discarded) :
    s.next_outgoing_index ≤ s.index t :=
  (h.numbered.bounds (h.mem_of_discarded ht)).1

/-- The future being polled has not unwound. -/
theorem polled_kept (h : Tracks s d) {lv : FuturesUnordered.Locals W} {t : ℕ}
    (ho : s.in_progress_queue.owner = .poll lv (.poll t)) :
    t ∉ s.in_progress_queue.hist.discarded := by
  intro hdead
  obtain ⟨l, hl⟩ := h.inv
  rcases (h.ledger.finished t).mp (List.mem_append_right _ hdead) with hr | hrel
  · rw [(hl.places.held_live t (by rw [ho]; rfl)).2] at hr
    cases hr
  · rw [ho] at hrel
    cases hrel

/-- Everything in line has a number up to that of the last in line. -/
theorem index_le (h : Tracks s d) {lv : FuturesUnordered.Locals W} {t : ℕ} {i : ℤ}
    (ho : s.in_progress_queue.owner = .poll lv (.poll t)) (hlast : s.lastInLine i = true) {u : ℕ}
    (hu : u ∈ d.futures) (hkept : u ∉ s.in_progress_queue.hist.discarded) : s.index u ≤ i := by
  obtain ⟨l, hl⟩ := h.inv
  unfold State.lastInLine at hlast
  rw [Bool.and_eq_true, List.all_eq_true, List.all_eq_true] at hlast
  obtain ⟨hset, hheap⟩ := hlast
  have hlt := h.known u hu
  cases hout : d.output u with
  | none =>
      -- it has not finished, so the set holds it
      cases hfut : (s.in_progress_queue.tasks u).future with
      | none =>
          have hr := ((hl.places.vacant u hlt).mp (by rw [hfut]; rfl)).1
          rcases List.mem_append.mp ((h.ledger.finished u).mpr (Or.inl hr)) with hdone | hdead
          · exact absurd hout ((h.finished u).mpr hdone)
          · exact absurd hdead hkept
      | some fut =>
          have hle := hset u (List.mem_range.mpr hlt)
          rw [hfut] at hle
          rw [← h.wrapped u hlt fut hfut]
          exact of_decide_eq_true hle
  | some o =>
      -- it has completed, so its output is in the heap
      have hmem : (⟨o, s.index u⟩ : Ordered O) ∈ s.waiting :=
        (h.waiting ⟨o, s.index u⟩).mpr ⟨u, hu, hout, rfl⟩
      unfold State.waiting at hmem
      rw [ho, show (FuturesUnordered.Owner.poll lv (FuturesUnordered.PollPc.poll t)).carrying =
        ([] : List (Ordered O)) from rfl, List.append_nil] at hmem
      exact of_decide_eq_true (hheap _ hmem)

end Tracks

/-- A push at the back is seen as one. -/
theorem push_back_of_event {a : Act F O W} {t : ℕ} (hs : step s a = some s')
    (he : s'.events = s.events ++ [.push_back t]) : ∃ i future, a = .push_back i future := by
  have hstay : ∀ {es : List (Event O)}, es = s.events → es ≠ s.events ++ [.push_back t] := by
    rintro es rfl
    simp
  have hother : ∀ {e : Event O}, e ≠ .push_back t → s.events ++ [e] ≠ s.events ++ [.push_back t] := by
    intro e he
    simpa using he
  have hinner : ∀ {a : FuturesUnordered.Act (Ordered F) (Ordered O) W}, stepSet s a = some s' →
      s'.events = s.events := by
    intro a hs
    obtain ⟨q, -, rfl⟩ := Option.map_eq_some_iff.mp hs
    rfl
  cases a with
  | push_back i future => exact ⟨i, future, rfl⟩
  | push_front i future =>
      simp only [step, Option.ite_none_right_eq_some, Option.some.injEq] at hs
      obtain ⟨-, rfl⟩ := hs
      exact absurd he (hother (by rintro ⟨⟩))
  | poll_next w =>
      simp only [step, Option.ite_none_right_eq_some, Option.some.injEq] at hs
      obtain ⟨-, rfl⟩ := hs
      exact absurd he (hstay rfl)
  | own =>
      rcases (own_cases hs).2.2 with ⟨hes, -⟩ | ⟨r, hes, -⟩
      · exact absurd he (hstay hes)
      · rw [hes] at he
        exact absurd he (hother (by rintro ⟨⟩))
  | wake i t => exact absurd he (hstay (hinner hs))
  | thread i => exact absurd he (hstay (hinner hs))
  | owner => exact absurd he (hstay (hinner hs))
  | polled r =>
      simp only [step, stepPolled] at hs
      split at hs
      · split at hs
        · cases hs
          cases r with
          | ready o => exact absurd he (hother (by rintro ⟨⟩))
          | pending fut => exact absurd he (hstay rfl)
          | unwind => exact absurd he (hstay rfl)
        · cases hs
      · cases hs
  | ret =>
      simp only [step] at hs
      split at hs
      · cases hs
        exact absurd he (hstay rfl)
      · cases hs

/-- A call that has come to its result has told it, then or before. -/
theorem done_step (h : Tracks s d) {a : Act F O W} {r : PollNext O} (hs : step s a = some s')
    (hpc : s'.pc = .done r) :
    s.pc = .done r ∧ s'.events = s.events ∨ s'.events = s.events ++ [.result r] := by
  have hinner : ∀ {a : FuturesUnordered.Act (Ordered F) (Ordered O) W}, stepSet s a = some s' →
      s.pc = .done r ∧ s'.events = s.events := by
    intro a hs
    obtain ⟨q, -, rfl⟩ := Option.map_eq_some_iff.mp hs
    exact ⟨hpc, rfl⟩
  cases a with
  | push_back i future =>
      simp only [step, Option.ite_none_right_eq_some, Option.some.injEq] at hs
      obtain ⟨⟨hidle, -⟩, rfl⟩ := hs
      have hpc' : s.pc = .done r := hpc
      rw [hpc'] at hidle
      cases hidle
  | push_front i future =>
      simp only [step, Option.ite_none_right_eq_some, Option.some.injEq] at hs
      obtain ⟨⟨hidle, -⟩, rfl⟩ := hs
      have hpc' : s.pc = .done r := hpc
      rw [hpc'] at hidle
      cases hidle
  | poll_next w =>
      simp only [step, Option.ite_none_right_eq_some, Option.some.injEq] at hs
      obtain ⟨-, rfl⟩ := hs
      cases hpc
  | own =>
      rcases (own_cases hs).2.2 with ⟨-, w, hloop⟩ | ⟨r', he, hdone⟩
      · rw [hloop] at hpc
        cases hpc
      · rw [hdone] at hpc
        cases hpc
        exact Or.inr he
  | wake i t => exact Or.inl (hinner hs)
  | thread i => exact Or.inl (hinner hs)
  | owner => exact Or.inl (hinner hs)
  | polled r' =>
      simp only [step, stepPolled] at hs
      split at hs
      · rename_i lv t ho
        split at hs
        · cases hs
          have hpc' : s.pc = .done r := hpc
          have hidle := h.notLoop fun w hw => by rw [hpc'] at hw; cases hw
          rw [ho] at hidle
          cases hidle
        · cases hs
      · cases hs
  | ret =>
      simp only [step] at hs
      split at hs
      · cases hs
        cases hpc
      · cases hs

/-! ## The deque without the gaps -/

/-- `d'` is the deque `d` without the futures that have unwound, which are the last. -/
structure Trimmed (s : State F O W A) (d : Deque O) (rest : List ℕ) (d' : Deque O) : Prop where
  history : Deque.Discarding s.events s.in_progress_queue.hist.discarded d'
  output : d'.output = d.output
  split : d.futures = d'.futures ++ rest
  gone : ∀ t ∈ rest, t ∈ s.in_progress_queue.hist.discarded
  kept : ∀ t ∈ d'.futures, t ∉ s.in_progress_queue.hist.discarded
  ended : s.pc = .done (.ready none) → d'.futures = []

namespace Trimmed

variable {rest : List ℕ} {e d' : Deque O}

theorem new : Trimmed (State.new : State F O W A) Deque.new [] Deque.new where
  history := .nil
  output := rfl
  split := rfl
  gone := nofun
  kept := nofun
  ended := nofun

/-- A future that is not gone is in the deque without the gaps. -/
theorem mem (ht : Trimmed s d rest e) {t : ℕ} (hmem : t ∈ d.futures)
    (hkept : t ∉ s.in_progress_queue.hist.discarded) : t ∈ e.futures := by
  rw [ht.split, List.mem_append] at hmem
  exact hmem.resolve_right fun hrest => hkept (ht.gone t hrest)

theorem not_mem (ht : Trimmed s d rest e) {t : ℕ} (hout : t ∉ d.futures) : t ∉ e.futures := by
  rw [ht.split, List.mem_append, not_or] at hout
  exact hout.1

/-- The deque is the same, and what is seen fits the one without the gaps. -/
theorem same (ht : Trimmed s d rest e)
    (hdead : s'.in_progress_queue.hist.discarded = s.in_progress_queue.hist.discarded)
    (hhistory : Deque.Discarding s'.events s.in_progress_queue.hist.discarded e)
    (hended : s'.pc = .done (.ready none) → e.futures = []) : Trimmed s' d rest e where
  history := by rw [hdead]; exact hhistory
  output := ht.output
  split := ht.split
  gone := by rw [hdead]; exact ht.gone
  kept := by rw [hdead]; exact ht.kept
  ended := hended

section

variable {t : ℕ} (hdead : s'.in_progress_queue.hist.discarded = s.in_progress_queue.hist.discarded)
  (hended : s'.pc ≠ .done (.ready none))

include hdead hended

/-- Behind a future only where there are no gaps. -/
theorem push_back (ht : Trimmed s d rest e) (hnew : t ∉ d.futures) (hout : d.output t = none)
    (hnone : s.in_progress_queue.hist.discarded = [])
    (hevents : s'.events = s.events ++ [.push_back t]) :
    Trimmed s' { d with futures := d.futures ++ [t] } rest
      { e with futures := e.futures ++ [t] } := by
  have hrest : rest = [] := List.eq_nil_iff_forall_not_mem.mpr fun u hu => by
    have hmem := ht.gone u hu
    rw [hnone] at hmem
    cases hmem
  subst hrest
  refine ⟨?_, ht.output, ?_, nofun, ?_, fun hpc => absurd hpc hended⟩
  · rw [hevents, hdead]
    exact ht.history.snoc (.push_back (ht.not_mem hnew) (by rw [ht.output]; exact hout))
  · have hsplit := ht.split
    rw [List.append_nil] at hsplit ⊢
    rw [hsplit]
  · intro u _ hmem
    rw [hdead, hnone] at hmem
    cases hmem

theorem push_front (ht : Trimmed s d rest e) (h : Tracks s d) (hnew : t ∉ d.futures)
    (hout : d.output t = none) (hevents : s'.events = s.events ++ [.push_front t]) :
    Trimmed s' { d with futures := t :: d.futures } rest { e with futures := t :: e.futures } := by
  refine ⟨?_, ht.output, ?_, ?_, ?_, fun hpc => absurd hpc hended⟩
  · rw [hevents, hdead]
    exact ht.history.snoc (.push_front (ht.not_mem hnew) (by rw [ht.output]; exact hout))
  · show t :: d.futures = t :: e.futures ++ rest
    rw [ht.split]
    rfl
  · rw [hdead]
    exact ht.gone
  · intro u hu hmem
    rw [hdead] at hmem
    rcases List.mem_cons.mp hu with rfl | hold
    · exact hnew (h.mem_of_discarded hmem)
    · exact ht.kept u hold hmem

theorem completed (ht : Trimmed s d rest e) {o : O} (hmem : t ∈ d.futures)
    (hkept : t ∉ s.in_progress_queue.hist.discarded) (hout : d.output t = none)
    (hevents : s'.events = s.events ++ [.completed t o]) :
    Trimmed s' { d with output := Function.update d.output t (some o) } rest
      { e with output := Function.update e.output t (some o) } := by
  refine ⟨?_, ?_, ht.split, ?_, ?_, fun hpc => absurd hpc hended⟩
  · rw [hevents, hdead]
    exact ht.history.snoc (.completed o (ht.mem hmem hkept) (by rw [ht.output]; exact hout))
  · show Function.update e.output t (some o) = Function.update d.output t (some o)
    rw [ht.output]
  · rw [hdead]
    exact ht.gone
  · rw [hdead]
    exact ht.kept

/-- The future at the head is yielded; it is not gone, so it is the head of both. -/
theorem yielded (ht : Trimmed s d rest e) (h : Tracks s d) {us : List ℕ} {o : O}
    (hfutures : d.futures = t :: us) (hout : d.output t = some o)
    (hevents : s'.events = s.events ++ [.result (.ready (some o))]) :
    ∃ e', Trimmed s' { d with futures := us } rest e' := by
  have hkept := h.not_discarded (t := t) (by rw [hout]; nofun)
  have hin : t ∈ e.futures := ht.mem (by rw [hfutures]; exact List.mem_cons_self) hkept
  have hsplit := ht.split
  obtain ⟨vs, hvs⟩ : ∃ vs, e.futures = t :: vs := by
    cases hf : e.futures with
    | nil => rw [hf] at hin; cases hin
    | cons u vs =>
        rw [hfutures, hf, List.cons_append, List.cons.injEq] at hsplit
        exact ⟨vs, by rw [← hsplit.1]⟩
  rw [hfutures, hvs, List.cons_append, List.cons.injEq] at hsplit
  refine ⟨{ e with futures := vs }, ?_, ht.output, hsplit.2, ?_, ?_, fun hpc => absurd hpc hended⟩
  · rw [hevents, hdead]
    exact ht.history.snoc (.yielded hvs (by rw [ht.output]; exact hout))
  · rw [hdead]
    exact ht.gone
  · intro u hu
    rw [hdead]
    exact ht.kept u (by rw [hvs]; exact List.mem_cons_of_mem t hu)

end

/-- Where the future at the head is gone, all that follow are. -/
theorem nil_of_head (ht : Trimmed s d rest e) {t : ℕ} (hhead : d.futures.head? = some t)
    (hgone : t ∈ s.in_progress_queue.hist.discarded) : e.futures = [] := by
  cases hf : e.futures with
  | nil => rfl
  | cons u us =>
      have hut : u = t := by
        rw [ht.split, hf] at hhead
        exact Option.some.inj hhead
      exact absurd (hut ▸ hgone) (ht.kept u (by rw [hf]; exact List.mem_cons_self))

/-- A step in which no future unwinds. -/
theorem shows (ht : Trimmed s d rest e) (h : Tracks s d) {a : Act F O W}
    (hs : step s a = some s') (hunwind : a ≠ .polled .unwind) (hok : s.noneBehind a = true)
    (h' : Tracks s' d')
    (hshows : Deque.Shows s.in_progress_queue.hist.discarded s.events d s'.events d') :
    ∃ e', Trimmed s' d' rest e' := by
  have hdead := discarded_step hs hunwind
  generalize hes : s'.events = es at hshows
  cases hshows with
  | nothing =>
      refine ⟨e, ht.same hdead (by rw [hes]; exact ht.history) fun hpc => ?_⟩
      rcases done_step h hs hpc with ⟨hpc', -⟩ | he
      · exact ht.ended hpc'
      · rw [hes] at he
        simp at he
  | @event ev d' hheld =>
      -- a call that is over has told its result with this event
      have hended : ev ≠ .result (.ready none) → s'.pc ≠ .done (.ready none) := by
        intro hev hpc
        rcases done_step h hs hpc with ⟨-, he⟩ | he
        · rw [hes] at he
          simp at he
        · rw [hes] at he
          exact hev (by simpa using he)
      have hsame : ∀ {es' : List (Event O)}, s'.events = es' →
          Deque.Discarding es' s.in_progress_queue.hist.discarded e →
          (s'.pc = .done (.ready none) → e.futures = []) → ∃ e', Trimmed s' d rest e' := by
        rintro _ rfl hhistory hnone
        exact ⟨e, ht.same hdead hhistory hnone⟩
      cases hheld with
      | unwound => exact hsame hes ht.history.unwound fun hpc => absurd hpc (hended nofun)
      | @none t hhead hgone =>
          have hnil := ht.nil_of_head hhead hgone
          exact hsame hes (ht.history.snoc (.none hnil)) fun _ => hnil
      | step hstep =>
          cases hstep with
          | none hd =>
              have hnil : e.futures = [] := by
                rw [ht.split] at hd
                exact (List.append_eq_nil_iff.mp hd).1
              exact hsame hes (ht.history.snoc (.none hnil)) fun _ => hnil
          | pending hd =>
              refine hsame hes (ht.history.snoc (.pending ?_)) fun hpc => absurd hpc (hended nofun)
              intro t hhead
              rw [ht.output]
              refine hd t ?_
              rw [ht.split, List.head?_append, hhead]
              rfl
          | @push_back t hnew hout =>
              obtain ⟨i, future, rfl⟩ := push_back_of_event hs hes
              have hnone : s.in_progress_queue.hist.discarded = [] := List.isEmpty_iff.mp hok
              exact ⟨_, ht.push_back hdead (hended nofun) hnew hout hnone hes⟩
          | @push_front t hnew hout =>
              exact ⟨_, ht.push_front hdead (hended nofun) h hnew hout hes⟩
          | @completed t o hmem hout =>
              have hkept : t ∉ s.in_progress_queue.hist.discarded := by
                rw [← hdead]
                refine h'.not_discarded ?_
                show Function.update d.output t (some o) t ≠ none
                rw [Function.update_self]
                nofun
              exact ⟨_, ht.completed hdead (hended nofun) hmem hkept hout hes⟩
          | @yielded t us o hfutures hout =>
              exact ht.yielded hdead (hended nofun) h hfutures hout hes

/-- The future being polled unwinds. It is the last in line, so the gap is at the end. -/
theorem unwind (ht : Trimmed s d rest e) (h : Tracks s d) {lv : FuturesUnordered.Locals W} {t : ℕ}
    {fut : Ordered F} (ho : s.in_progress_queue.owner = .poll lv (.poll t))
    (hfut : (s.in_progress_queue.tasks t).future = some fut)
    (hlast : s.lastInLine fut.index = true) :
    ∃ e', Trimmed { s with in_progress_queue := s.in_progress_queue.polled lv t .unwind } d
      (t :: rest) e' := by
  obtain ⟨hlt, hnone, hmem⟩ := h.of_polling ho
  have hkept := h.polled_kept ho
  have hin : t ∈ e.futures := by
    rw [ht.split, List.mem_append] at hmem
    exact hmem.resolve_right fun hrest => hkept (ht.gone t hrest)
  have hidx : fut.index = s.index t := h.wrapped t hlt fut hfut
  have hnumbered := h.numbered
  rw [ht.split] at hnumbered
  have hfront := Numbered.append_left hnumbered
  obtain ⟨init, hinit⟩ := hfront.last hin fun u hu => by
    rw [← hidx]
    refine h.index_le ho hlast ?_ (ht.kept u hu)
    rw [ht.split]
    exact List.mem_append_left rest hu
  have hnodup : e.futures.Nodup := List.Nodup.of_map s.index hfront.nodup
  rw [hinit] at hnodup
  have hout : t ∉ init := by
    intro hti
    exact (List.nodup_append.mp hnodup).2.2 t hti t List.mem_cons_self rfl
  have herase : e.futures.erase t = init := by
    rw [hinit, List.erase_append_right _ hout, List.erase_cons_head, List.append_nil]
  refine ⟨{ e with futures := e.futures.erase t }, ?_, ht.output, ?_, ?_, ?_, ?_⟩
  · exact ht.history.discard hin (by rw [ht.output]; exact hnone)
  · rw [ht.split, herase, hinit, List.append_assoc]
    rfl
  · intro u hu
    rcases List.mem_cons.mp hu with rfl | hrest
    · exact List.mem_append_right _ List.mem_cons_self
    · exact List.mem_append_left _ (ht.gone u hrest)
  · intro u hu hdead
    rw [herase] at hu
    rcases List.mem_append.mp hdead with hold | hnew
    · exact ht.kept u (by rw [hinit]; exact List.mem_append_left _ hu) hold
    · rw [List.mem_singleton] at hnew
      exact hout (hnew ▸ hu)
  · intro hpc
    have hnot := h.notLoop (by
      intro w hw
      have hpc' : s.pc = .done (.ready none) := hpc
      rw [hpc'] at hw
      cases hw)
    rw [ho] at hnot
    cases hnot

end Trimmed

/-! ## One step, one run -/

/-- **Every step that leaves nothing behind a gap keeps the deque without the gaps.** -/
theorem trimmed_step {rest : List ℕ} {e : Deque O} (h : Tracks s d) (ht : Trimmed s d rest e)
    {a : Act F O W} (hs : step s a = some s') (hok : s.noneBehind a = true)
    (hfew : s'.in_progress_queue.fresh < 2 ^ 63) :
    ∃ d' rest' e', Tracks s' d' ∧ Trimmed s' d' rest' e' := by
  by_cases hunwind : a = .polled .unwind
  · subst hunwind
    simp only [step, stepPolled] at hs
    split at hs
    · rename_i lv t ho
      split at hs
      · rename_i fut hfut
        cases hs
        have hlast : s.lastInLine fut.index = true := by
          unfold State.noneBehind at hok
          rw [ho] at hok
          dsimp only at hok
          rw [hfut] at hok
          exact hok
        obtain ⟨e', he'⟩ := ht.unwind h ho hfut hlast
        exact ⟨d, t :: rest, e', h.polled_unwind ho, he'⟩
      · cases hs
    · cases hs
  · obtain ⟨d', hshows, h'⟩ := tracks_step h hs hfew
    obtain ⟨e', he'⟩ := ht.shows h hs hunwind hok h' hshows
    exact ⟨d', rest, e', h', he'⟩

/-- A run whose steps leave nothing behind a gap. -/
theorem trimmed_of_run : ∀ (ls : List (Act F O W)) (s s' : State F O W A) (d e : Deque O)
    (rest : List ℕ), Tracks s d → Trimmed s d rest e →
    Transition.Along step (fun s a => s.noneBehind a = true) s ls →
    s.in_progress_queue.fresh + ls.countP Act.isPush < 2 ^ 63 →
    Transition.run step s ls = some s' →
    ∃ d' rest' e', Tracks s' d' ∧ Trimmed s' d' rest' e' := by
  intro ls
  induction ls with
  | nil =>
      intro s s' d e rest h ht _ _ hrun
      rw [Transition.run_nil, Option.some.injEq] at hrun
      exact ⟨d, rest, e, hrun ▸ h, hrun ▸ ht⟩
  | cons a ls ih =>
      intro s s'' d e rest h ht halong hfew hrun
      rw [Transition.run_cons, Option.bind_eq_some_iff] at hrun
      obtain ⟨s', hs, hrun⟩ := hrun
      have hfresh := fresh_step hs
      rw [List.countP_cons] at hfew
      obtain ⟨d', rest', e', h', ht'⟩ := trimmed_step h ht hs halong.1 (by omega)
      exact ih s' s'' d' e' rest' h' ht' (halong.2 s' hs) (by omega) hrun

/-- Every run has a deque in which the futures that have unwound keep their places. -/
theorem tracks_of_run : ∀ (ls : List (Act F O W)) (s s' : State F O W A) (d : Deque O),
    Tracks s d → s.in_progress_queue.fresh + ls.countP Act.isPush < 2 ^ 63 →
    Transition.run step s ls = some s' → ∃ d', Tracks s' d' := by
  intro ls
  induction ls with
  | nil =>
      intro s s' d h _ hrun
      rw [Transition.run_nil, Option.some.injEq] at hrun
      exact ⟨d, hrun ▸ h⟩
  | cons a ls ih =>
      intro s s'' d h hfew hrun
      rw [Transition.run_cons, Option.bind_eq_some_iff] at hrun
      obtain ⟨s', hs, hrun⟩ := hrun
      have hfresh := fresh_step hs
      rw [List.countP_cons] at hfew
      obtain ⟨d', -, h'⟩ := tracks_step h hs (by omega)
      exact ih s' s'' d' h' (by omega) hrun

/-- The queue and the deque without the gaps are equally long. -/
theorem Trimmed.len_eq {rest : List ℕ} {e : Deque O} (ht : Trimmed s d rest e) (h : Tracks s d)
    (hpc : ∀ w, s.pc ≠ .loop w) : s.len = e.futures.length := by
  have ho := FuturesUnordered.Owner.eq_idle (h.notLoop hpc)
  have hfront : (e.futures.filter fun t =>
      decide (t ∉ s.in_progress_queue.hist.discarded)) = e.futures :=
    List.filter_eq_self.mpr fun t hmem => decide_eq_true (ht.kept t hmem)
  have hrest : (rest.filter fun t => decide (t ∉ s.in_progress_queue.hist.discarded)) = [] :=
    List.filter_eq_nil_iff.mpr fun t hmem => by simp [ht.gone t hmem]
  rw [h.len_eq ho, ht.split, List.filter_append, hfront, hrest, List.append_nil]

theorem Trimmed.recovers {rest : List ℕ} {e : Deque O} (ht : Trimmed s d rest e)
    (h : Tracks s d) : s.Recovers where
  ended := by
    intro hpc
    rw [ht.len_eq h (by rw [hpc]; nofun), ht.ended hpc]
    rfl
  ordered := ⟨e, ht.history, fun hpc => ht.len_eq h (by rw [hpc]; nofun)⟩

/-- **A queue recovers from futures that unwind if they leave nothing behind a gap.** In
every run of fewer than `2 ^ 63` pushes in which each future that unwinds is the last in
line, and after which nothing is pushed at the back, `Ready(None)` comes only from a queue
that manages nothing, and the futures that did not unwind are yielded as from a deque. And
in every such run, whatever unwinds, `next_outgoing_index` stays at or before the number of
each future that has unwound, so that nothing behind it is ever yielded. -/
theorem recovers_if_none_behind (ls : List (Act F O W)) (s : State F O W A)
    (hfew : ls.countP Act.isPush < 2 ^ 63) (hrun : Transition.run step State.new ls = some s) :
    (Transition.Along step (fun s a => State.noneBehind s a = true) (State.new : State F O W A) ls →
      s.Recovers) ∧
    ∀ t ∈ s.in_progress_queue.hist.discarded, s.next_outgoing_index ≤ s.index t := by
  have hfew' : (State.new : State F O W A).in_progress_queue.fresh + ls.countP Act.isPush < 2 ^ 63 := by
    simpa [State.new, FuturesUnordered.State.new] using hfew
  constructor
  · intro halong
    obtain ⟨d, rest, e, h, ht⟩ :=
      trimmed_of_run ls State.new s Deque.new Deque.new [] .new .new halong hfew' hrun
    exact ht.recovers h
  · obtain ⟨d, h⟩ := tracks_of_run ls State.new s Deque.new .new hfew' hrun
    exact fun t ht => h.outgoing_le ht

/-- Two futures; the first one is yielded, the second one unwinds. -/
def lastUnwinds : List (Act Unit ℕ Unit) :=
  List.flatten [
    [.push_back 0 (), .thread 0, .thread 0, .thread 0, .thread 0, .push_back 0 (), .thread 0,
      .thread 0, .thread 0, .thread 0, .poll_next (), .own],
    List.replicate 7 .owner,
    [.polled (.ready 7), .owner, .owner, .own, .ret, .poll_next (), .own],
    List.replicate 11 .owner,
    [.polled .unwind, .owner, .owner, .own, .ret, .poll_next (), .own, .owner, .owner, .owner,
      .own]]

theorem recovers_if_none_behind_last_unwinds :
    ∃ s : State Unit ℕ Unit (AtomicWaker.cell Unit),
      Transition.run step State.new lastUnwinds = some s ∧ s.pc = .done (.ready none) ∧
        s.in_progress_queue.hist.discarded = [1] ∧ s.Recovers :=
  ⟨_, rfl, rfl, rfl,
    (recovers_if_none_behind lastUnwinds _ (by decide) rfl).1
      (Transition.along_of_isSome (P := fun s a => State.noneBehind s a = true) rfl)⟩

/-- Two futures; the first one unwinds, and the second one completes behind the gap. -/
def firstUnwinds : List (Act Unit ℕ Unit) :=
  List.flatten [
    [.push_back 0 (), .thread 0, .thread 0, .thread 0, .thread 0, .push_back 0 (), .thread 0,
      .thread 0, .thread 0, .thread 0, .poll_next (), .own],
    List.replicate 7 .owner,
    [.polled .unwind, .owner, .owner, .own, .ret, .poll_next (), .own],
    List.replicate 11 .owner,
    [.polled (.ready 8), .owner, .owner, .own, .owner, .owner, .owner, .own]]

theorem none_over_a_full_heap :
    ∃ s : State Unit ℕ Unit (AtomicWaker.cell Unit),
      Transition.run step State.new firstUnwinds = some s ∧ s.pc = .done (.ready none) ∧
        s.queued_outputs.elems = [⟨8, 1⟩] ∧ s.len = 1 ∧ ¬s.Recovers := by
  refine ⟨_, rfl, rfl, rfl, rfl, ?_⟩
  intro h
  exact absurd (h.ended rfl) (by decide)

end

end TokioStreamUtil.FuturesOrdered
