/-
What `FuturesOrdered` is for: a double-ended queue of futures.

A deque holds futures in order; a future may complete wherever it stands, and
outputs leave from the front. This file states that machine on its own, and what
it means for a list of futures to be numbered without gaps; `Refinement.lean`
shows that every run of `FuturesOrdered` is a run of it.
-/
import TokioStreamUtil.FuturesOrdered.Model
import Mathlib.Tactic.Linarith

set_option autoImplicit false

namespace TokioStreamUtil.FuturesOrdered

variable {O : Type}

/-! ## The deque -/

/-- A deque of futures, and the outputs of those that have completed. -/
structure Deque (O : Type) where
  futures : List ℕ
  output : ℕ → Option O

namespace Deque

def new : Deque O := { futures := [], output := fun _ => none }

/-- What may happen to a deque. A future joins at either end; a future inside
completes once; the output of the front future is yielded, once it is there;
`Ready(None)` is for the empty deque; and `Pending` is for one whose front
future, if any, has not completed. -/
inductive Step : Deque O → Event O → Deque O → Prop where
  | push_back {d : Deque O} {t : ℕ} (ht : t ∉ d.futures) (ho : d.output t = none) :
      Step d (.push_back t) { d with futures := d.futures ++ [t] }
  | push_front {d : Deque O} {t : ℕ} (ht : t ∉ d.futures) (ho : d.output t = none) :
      Step d (.push_front t) { d with futures := t :: d.futures }
  | completed {d : Deque O} {t : ℕ} (o : O) (ht : t ∈ d.futures) (ho : d.output t = none) :
      Step d (.completed t o) { d with output := Function.update d.output t (some o) }
  | yielded {d : Deque O} {t : ℕ} {rest : List ℕ} {o : O} (ht : d.futures = t :: rest)
      (ho : d.output t = some o) :
      Step d (.result (.ready (some o))) { d with futures := rest }
  | none {d : Deque O} (hd : d.futures = []) : Step d (.result (.ready none)) d
  | pending {d : Deque O} (hd : ∀ t, d.futures.head? = some t → d.output t = none) :
      Step d (.result .pending) d

/-- The deque after a history that starts with the empty one. -/
inductive Run : List (Event O) → Deque O → Prop where
  | nil : Run [] new
  | snoc {es : List (Event O)} {e : Event O} {d d' : Deque O} (h : Run es d) (hs : Step d e d') :
      Run (es ++ [e]) d'

end Deque

/-! ## Futures that never complete -/

namespace Deque

/-- What may happen to a deque in which the futures of `dead` keep their places, although
they will never complete: `Ready(None)` also comes when one of them is in front, and a call
may unwind. -/
inductive Held (dead : List ℕ) : Deque O → Event O → Deque O → Prop where
  | step {d d' : Deque O} {e : Event O} (hs : Step d e d') : Held dead d e d'
  | none {d : Deque O} {t : ℕ} (ht : d.futures.head? = some t) (hdead : t ∈ dead) :
      Held dead d (.result (.ready none)) d
  | unwound {d : Deque O} : Held dead d (.result .unwound) d

/-- The history goes from `es` to `es'` while the deque goes from `d` to `d'`: nothing is
seen, or one event. -/
inductive Shows (dead : List ℕ) (es : List (Event O)) (d : Deque O) :
    List (Event O) → Deque O → Prop where
  | nothing : Shows dead es d es d
  | event {e : Event O} {d' : Deque O} (h : Held dead d e d') : Shows dead es d (es ++ [e]) d'

/-- Without dead futures the deque is the deque. -/
theorem Run.shows {es es' : List (Event O)} {d d' : Deque O} (h : Run es d)
    (hs : Shows [] es d es' d') (hcalm : es' ≠ es ++ [.result .unwound]) : Run es' d' := by
  cases hs with
  | nothing => exact h
  | event hheld =>
      cases hheld with
      | step hstep => exact h.snoc hstep
      | none ht hdead => cases hdead
      | unwound => exact absurd rfl hcalm

end Deque

/-! ## Consecutive numbers -/

/-- The futures of the list have the numbers `a`, `a + 1`, and so on. -/
def Numbered (index : ℕ → ℤ) : ℤ → List ℕ → Prop
  | _, [] => True
  | a, t :: ts => index t = a ∧ Numbered index (a + 1) ts

namespace Numbered

variable {index : ℕ → ℤ}

theorem push_back {t : ℕ} : ∀ {a : ℤ} {ts : List ℕ}, Numbered index a ts →
    index t = a + ts.length → Numbered index a (ts ++ [t]) := by
  intro a ts
  induction ts generalizing a with
  | nil =>
      intro _ ht
      exact ⟨by simpa using ht, trivial⟩
  | cons u ts ih =>
      rintro ⟨hu, hts⟩ ht
      refine ⟨hu, ih hts ?_⟩
      rw [ht, List.length_cons]
      push_cast
      omega

theorem congr {index' : ℕ → ℤ} : ∀ {a : ℤ} {ts : List ℕ}, Numbered index a ts →
    (∀ t ∈ ts, index' t = index t) → Numbered index' a ts := by
  intro a ts
  induction ts generalizing a with
  | nil => exact fun _ _ => trivial
  | cons u ts ih =>
      rintro ⟨hu, hts⟩ heq
      refine ⟨by rw [heq u List.mem_cons_self, hu], ih hts ?_⟩
      exact fun t ht => heq t (List.mem_cons_of_mem u ht)

/-- The numbers, as a list. -/
theorem map_eq : ∀ {a : ℤ} {ts : List ℕ}, Numbered index a ts →
    ts.map index = (List.range ts.length).map fun k : ℕ => a + (k : ℤ) := by
  intro a ts
  induction ts generalizing a with
  | nil => exact fun _ => rfl
  | cons u ts ih =>
      rintro ⟨hu, hts⟩
      rw [List.map_cons, ih hts, List.length_cons, List.range_succ_eq_map, List.map_cons,
        List.map_map, hu]
      congr 1
      · simp
      · apply List.map_congr_left
        intro k _
        simp only [Function.comp_apply, Nat.cast_succ]
        omega

/-- No two futures have the same number. -/
theorem nodup {a : ℤ} {ts : List ℕ} (h : Numbered index a ts) : (ts.map index).Nodup := by
  rw [h.map_eq]
  apply List.Nodup.map
  · intro j k hjk
    have hjk' : a + (j : ℤ) = a + (k : ℤ) := hjk
    omega
  · exact List.nodup_range

theorem bounds {a : ℤ} {ts : List ℕ} (h : Numbered index a ts) {t : ℕ} (ht : t ∈ ts) :
    a ≤ index t ∧ index t < a + ts.length := by
  have hmem : index t ∈ ts.map index := List.mem_map_of_mem ht
  rw [h.map_eq, List.mem_map] at hmem
  obtain ⟨k, hk, heq⟩ := hmem
  rw [List.mem_range] at hk
  omega

theorem injective {a : ℤ} {ts : List ℕ} (h : Numbered index a ts) {t u : ℕ} (ht : t ∈ ts)
    (hu : u ∈ ts) (heq : index t = index u) : t = u :=
  List.inj_on_of_nodup_map h.nodup ht hu heq

/-- The future with the first number is the first one. -/
theorem head {a : ℤ} {ts : List ℕ} (h : Numbered index a ts) {t : ℕ} (ht : t ∈ ts)
    (heq : index t = a) : ∃ rest, ts = t :: rest := by
  cases ts with
  | nil => cases ht
  | cons u rest =>
      have hut : u = t := h.injective List.mem_cons_self ht (by rw [h.1, heq])
      exact ⟨rest, by rw [hut]⟩

end Numbered

end TokioStreamUtil.FuturesOrdered
