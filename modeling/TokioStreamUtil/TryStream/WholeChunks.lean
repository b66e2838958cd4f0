/-
When the chunks of `TryChunks` do not depend on where the base was pending.

A chunk is cut by a `Pending` that is followed by an item: `TryChunks` returns what it
has so far, though the chunk is not full and neither an error nor the end cuts it
short. Where no `Pending` does that, the chunks are those of the items alone.
-/
import TokioStreamUtil.TryStream.Chunks

set_option autoImplicit false

namespace TokioStreamUtil

open PollLoop

namespace Chunks

variable {T E : Type}

/-! ## The chunks of a list of items -/

/-- The chunks of `items`, with `buffer` taken already: each is full, is cut short by an
error, or is the last. -/
def chunked (cap : ℕ) : List T → List (Except E T) → List (Except (TryChunksError T E) (List T))
  | buffer, [] => if buffer.isEmpty then [] else [.ok buffer]
  | buffer, .ok item :: items =>
      if (buffer ++ [item]).length ≥ cap then .ok (buffer ++ [item]) :: chunked cap [] items
      else chunked cap (buffer ++ [item]) items
  | buffer, .error e :: items =>
      (if buffer.isEmpty then [] else [.ok buffer]) ++ .error ⟨[], e⟩ :: chunked cap [] items

/-- A chunk that is not full is followed by an error only. -/
def FullUnlessCut (cap : ℕ) (y next : Except (TryChunksError T E) (List T)) : Prop :=
  ∀ v w, y = .ok v → next = .ok w → v.length = cap

/-- Every chunk has exactly `cap` items, except one directly followed by an error and
the last. -/
def Whole (cap : ℕ) (ys : List (Except (TryChunksError T E) (List T))) : Prop :=
  ys.IsChain (FullUnlessCut cap)

/-- The chunk at the end, if there is one, is not full. -/
def EndsShort (cap : ℕ) (ys : List (Except (TryChunksError T E) (List T))) : Prop :=
  ∃ v, ys.getLast? = some (.ok v) ∧ v.length ≠ cap

theorem whole_concat_ok {cap : ℕ} {ys : List (Except (TryChunksError T E) (List T))} {w : List T} :
    Whole cap (ys ++ [.ok w]) ↔ Whole cap ys ∧ ¬ EndsShort cap ys := by
  unfold Whole EndsShort
  rw [List.isChain_append]
  constructor
  · rintro ⟨hys, -, hlast⟩
    refine ⟨hys, fun ⟨v, hv, hne⟩ => hne ?_⟩
    exact hlast (.ok v) hv (.ok w) rfl v w rfl rfl
  · rintro ⟨hys, hshort⟩
    refine ⟨hys, List.isChain_singleton _, ?_⟩
    intro y hy next _ v w' hv _
    by_contra hne
    exact hshort ⟨v, hv ▸ hy, hne⟩

theorem whole_concat_error {cap : ℕ} {ys : List (Except (TryChunksError T E) (List T))}
    {err : TryChunksError T E} : Whole cap (ys ++ [.error err]) ↔ Whole cap ys := by
  unfold Whole
  rw [List.isChain_append]
  constructor
  · exact fun h => h.1
  · refine fun h => ⟨h, List.isChain_singleton _, ?_⟩
    intro y _ next hnext v w _ hw
    rw [List.head?_cons, Option.mem_some_iff] at hnext
    rw [← hnext] at hw
    cases hw

theorem not_endsShort_error {cap : ℕ} {ys : List (Except (TryChunksError T E) (List T))}
    {err : TryChunksError T E} : ¬ EndsShort cap (ys ++ [.error err]) := by
  rintro ⟨v, hv, -⟩
  rw [List.getLast?_concat] at hv
  cases hv

theorem endsShort_ok {cap : ℕ} {ys : List (Except (TryChunksError T E) (List T))} {v : List T} :
    EndsShort cap (ys ++ [.ok v]) ↔ v.length ≠ cap := by
  unfold EndsShort
  rw [List.getLast?_concat]
  constructor
  · rintro ⟨w, hw, hne⟩
    cases hw
    exact hne
  · exact fun h => ⟨v, rfl, h⟩

/-! ## Where the base is pending -/

/-- The `Ok` items of the base since its last error. -/
def okSinceError (answers : List (TryPoll T E)) : ℕ :=
  answers.foldl
    (fun n r =>
      match r with
      | .ready (some (.ok _)) => n + 1
      | .ready (some (.error _)) => 0
      | _ => n)
    0

/-- No `Pending` that is directly followed by an `Ok` item falls inside a chunk: the
number of `Ok` items since the last error is then a multiple of `cap`. -/
def Uncut (cap : ℕ) (answers : List (TryPoll T E)) : Prop :=
  ∀ before item after, answers = before ++ .pending :: .ready (some (.ok item)) :: after →
    cap ∣ okSinceError before

theorem okSinceError_concat (answers : List (TryPoll T E)) (r : TryPoll T E) :
    okSinceError (answers ++ [r]) =
      match r with
      | .ready (some (.ok _)) => okSinceError answers + 1
      | .ready (some (.error _)) => 0
      | _ => okSinceError answers := by
  unfold okSinceError
  rw [List.foldl_append]
  rfl

/-- An answer more cuts no chunk but by being an item after a `Pending`. -/
theorem uncut_concat {cap : ℕ} {answers : List (TryPoll T E)} {r : TryPoll T E} :
    Uncut cap (answers ++ [r]) ↔ Uncut cap answers ∧
      ∀ item, r = .ready (some (.ok item)) → answers.getLast? = some .pending →
        cap ∣ okSinceError answers := by
  constructor
  · intro h
    refine ⟨fun before item after heq => ?_, ?_⟩
    · apply h before item (after ++ [r])
      rw [heq, List.append_assoc]
      rfl
    · rintro item rfl hlast
      obtain ⟨before, rfl⟩ := List.getLast?_eq_some_iff.mp hlast
      have hdvd := h before item [] (by rw [List.append_assoc]; rfl)
      rw [okSinceError_concat]
      exact hdvd
  · rintro ⟨h, hlast⟩ before item after heq
    rcases List.eq_nil_or_concat' after with rfl | ⟨after, x, rfl⟩
    · -- the item is the new answer
      have hsplit : answers ++ [r] = (before ++ [.pending]) ++ [.ready (some (.ok item))] := by
        rw [heq, List.append_assoc]
        rfl
      obtain ⟨rfl, hr⟩ := List.append_inj' hsplit rfl
      have hdvd := hlast item (List.cons.inj hr).1 (List.getLast?_concat ..)
      rw [okSinceError_concat] at hdvd
      exact hdvd
    · have hsplit : answers ++ [r] =
          (before ++ .pending :: .ready (some (.ok item)) :: after) ++ [x] := by
        rw [heq, List.append_assoc]
        rfl
      obtain ⟨rfl, -⟩ := List.append_inj' hsplit rfl
      exact h before item after rfl

/-! ## The run -/

/-- The chunks and errors that the calls have returned. -/
def yields (calls : Calls T E) : List (Except (TryChunksError T E) (List T)) := given (results calls)

theorem yields_concat (calls : Calls T E) (c : Call Unit Unit (TryPoll T E) (ChunkPoll T E)) :
    yields (calls ++ [c]) = yields calls ++ given [c.result] := by
  unfold yields
  rw [results_concat, given_append]

/-- Whether the next item would be cut off the last chunk: that chunk is not full just
where the last answer is a `Pending` inside a chunk. -/
structure Boundary (cap : ℕ) (answers : List (TryPoll T E))
    (ys : List (Except (TryChunksError T E) (List T))) : Prop where
  short : EndsShort cap ys → answers.getLast? = some .pending ∧ ¬ cap ∣ okSinceError answers
  full : ¬ EndsShort cap ys → cap ∣ okSinceError answers

/-- Between calls: every chunk is whole just if no `Pending` has cut one. -/
structure BetweenCuts (cap : ℕ) (cs : Chunks T E) (calls : Calls T E) : Prop where
  between : cs.Between cap calls
  whole_iff : Whole cap (yields calls) ↔ Uncut cap (answered calls)
  stashed : Uncut cap (answered calls) → cs.pending_error ≠ none →
    okSinceError (answered calls) = 0
  boundary : Uncut cap (answered calls) → cs.stream.is_terminated = false →
    cs.pending_error = none → Boundary cap (answered calls) (yields calls)

/-- At the head of the loop: items in the buffer follow a full chunk, if none was cut. -/
structure WithinCuts (cap : ℕ) (cs : Chunks T E) (calls : Calls T E) (k : Unit)
    (asked : List (Unit × TryPoll T E)) : Prop where
  within : cs.Within cap calls k asked
  whole_iff : Whole cap (yields calls) ∧ (cs.items ≠ [] → ¬ EndsShort cap (yields calls)) ↔
    Uncut cap (answered calls ++ asked.map Prod.snd)
  boundary : Uncut cap (answered calls ++ asked.map Prod.snd) → cs.items = [] →
    Boundary cap (answered calls) (yields calls)
  filled : Uncut cap (answered calls ++ asked.map Prod.snd) → cs.items ≠ [] →
    ∃ m, okSinceError (answered calls ++ asked.map Prod.snd) = m * cap + cs.items.length

variable {cap : ℕ} {cs : Chunks T E} {calls : Calls T E} {k : Unit}
  {asked : List (Unit × TryPoll T E)}

/-- Nothing has been asked while the buffer is empty. -/
theorem Within.asked_nil (h : cs.Within cap calls k asked) (hitems : cs.items = []) :
    asked.map Prod.snd = [] := by
  rw [h.taken, hitems, List.map_nil]

/-- The last answer is an item while the buffer is not empty. -/
theorem Within.getLast_ne_pending (h : cs.Within cap calls k asked) (hitems : cs.items ≠ []) :
    (answered calls ++ asked.map Prod.snd).getLast? ≠ some .pending := by
  obtain ⟨items, x, hx⟩ := (List.eq_nil_or_concat' cs.items).resolve_left hitems
  rw [h.taken, hx, List.map_append, List.map_singleton, ← List.append_assoc, List.getLast?_concat]
  nofun

/-- An item that comes leaves the last chunk as it is, if it did not cut it. -/
theorem WithinCuts.item_iff (h : cs.WithinCuts cap calls k asked) (item : T) :
    Whole cap (yields calls) ∧ ¬ EndsShort cap (yields calls) ↔
      Uncut cap (answered calls ++ asked.map Prod.snd ++ [.ready (some (.ok item))]) := by
  rw [uncut_concat, ← h.whole_iff]
  by_cases hitems : cs.items = []
  · constructor
    · rintro ⟨hwhole, hshort⟩
      have huncut := h.whole_iff.mp ⟨hwhole, fun _ => hshort⟩
      refine ⟨⟨hwhole, fun _ => hshort⟩, fun _ _ _ => ?_⟩
      rw [h.within.asked_nil hitems, List.append_nil]
      exact (h.boundary huncut hitems).full hshort
    · rintro ⟨hboth, hdvd⟩
      refine ⟨hboth.1, fun hshort => ?_⟩
      obtain ⟨hlast, hndvd⟩ := (h.boundary (h.whole_iff.mp hboth) hitems).short hshort
      rw [h.within.asked_nil hitems, List.append_nil] at hdvd
      exact hndvd (hdvd item rfl hlast)
  · constructor
    · rintro ⟨hwhole, hshort⟩
      exact ⟨⟨hwhole, fun _ => hshort⟩, fun _ _ hlast =>
        absurd hlast (h.within.getLast_ne_pending hitems)⟩
    · rintro ⟨⟨hwhole, hshort⟩, -⟩
      exact ⟨hwhole, hshort hitems⟩

/-- A call that returns a chunk: what is buffered follows a full chunk. -/
theorem flush_keeps_cuts (hbetween : cs.flush.Keeps (Between cap) (Within cap) calls k asked)
    (hwhole : Whole cap (yields calls) ∧ ¬ EndsShort cap (yields calls) ↔
      Uncut cap (answered calls ++ asked.map Prod.snd))
    (hstashed : cs.pending_error ≠ none → okSinceError (answered calls ++ asked.map Prod.snd) = 0)
    (hboundary : Uncut cap (answered calls ++ asked.map Prod.snd) →
      cs.stream.is_terminated = false → cs.pending_error = none →
      (cs.items.length ≠ cap → (answered calls ++ asked.map Prod.snd).getLast? = some .pending ∧
        ¬ cap ∣ okSinceError (answered calls ++ asked.map Prod.snd)) ∧
      (cs.items.length = cap → cap ∣ okSinceError (answered calls ++ asked.map Prod.snd))) :
    cs.flush.Keeps (BetweenCuts cap) (WithinCuts cap) calls k asked := by
  have hyields : yields (calls ++ [⟨k, asked, .ready (some (.ok cs.items))⟩]) =
      yields calls ++ [.ok cs.items] := yields_concat calls _
  refine ⟨hbetween, ?_, ?_, ?_⟩
  · rw [hyields, answered_concat, whole_concat_ok]
    exact hwhole
  · rw [answered_concat]
    exact fun _ => hstashed
  · rw [hyields, answered_concat]
    intro huncut hrunning hnone
    obtain ⟨hne, heq⟩ := hboundary huncut hrunning hnone
    refine ⟨fun hshort => hne (endsShort_ok.mp hshort), fun hfull => heq ?_⟩
    by_contra hlen
    exact hfull (endsShort_ok.mpr hlen)

/-- An answer that is no item cuts nothing. -/
theorem uncut_concat_other {answers : List (TryPoll T E)} {r : TryPoll T E}
    (hr : ∀ item, r ≠ .ready (some (.ok item))) : Uncut cap (answers ++ [r]) ↔ Uncut cap answers :=
  uncut_concat.trans (and_iff_left fun item heq => absurd heq (hr item))

/-- The answer of the round is the last one so far. -/
theorem answered_round (calls : Calls T E) (asked : List (Unit × TryPoll T E)) (r : TryPoll T E) :
    answered calls ++ (asked ++ [((), r)]).map Prod.snd =
      answered calls ++ asked.map Prod.snd ++ [r] := by
  rw [List.map_append, ← List.append_assoc]
  rfl

theorem WithinCuts.whole_of_nil (h : cs.WithinCuts cap calls k asked) (hnil : cs.items = []) :
    Whole cap (yields calls) ↔ Uncut cap (answered calls ++ asked.map Prod.snd) := by
  rw [← h.whole_iff]
  exact (and_iff_left fun hne => absurd hnil hne).symm

theorem WithinCuts.whole_of_ne (h : cs.WithinCuts cap calls k asked) (hne : cs.items ≠ []) :
    Whole cap (yields calls) ∧ ¬ EndsShort cap (yields calls) ↔
      Uncut cap (answered calls ++ asked.map Prod.snd) := by
  rw [← h.whole_iff]
  exact ⟨fun hboth => ⟨hboth.1, fun _ => hboth.2⟩, fun hboth => ⟨hboth.1, hboth.2 hne⟩⟩

/-- The base is pending: the buffer is returned, or the call. -/
theorem WithinCuts.round_pending (h : cs.WithinCuts cap calls k asked) :
    (cs.round .pending).Keeps (BetweenCuts cap) (WithinCuts cap) calls k
      (asked ++ [((), .pending)]) := by
  have hkeeps := h.within.round_keeps .pending
  have hroom := h.within.room
  unfold round at hkeeps ⊢
  have huncut : Uncut cap (answered calls ++ asked.map Prod.snd ++ [.pending]) ↔
      Uncut cap (answered calls ++ asked.map Prod.snd) :=
    uncut_concat_other (by rintro item ⟨⟩)
  have hsame := okSinceError_concat (answered calls ++ asked.map Prod.snd) .pending
  rw [IntoFuseStream.poll_pending h.within.running] at hkeeps ⊢
  unfold body at hkeeps ⊢
  dsimp only at hkeeps ⊢
  split at hkeeps
  · rename_i hempty
    have hnil : cs.items = [] := List.isEmpty_iff.mp hempty
    rw [if_pos hempty]
    refine ⟨hkeeps, ?_, fun _ hne => absurd h.within.none_stashed hne, ?_⟩
    · rw [yields_concat, answered_concat, answered_round, huncut, given_pending, List.append_nil]
      exact h.whole_of_nil hnil
    · rw [yields_concat, answered_concat, answered_round, huncut, given_pending, List.append_nil]
      intro hcap _ _
      obtain ⟨hshort, hfull⟩ := h.boundary hcap hnil
      rw [h.within.asked_nil hnil, List.append_nil] at hsame ⊢
      refine ⟨fun hends => ⟨List.getLast?_concat .., ?_⟩, fun hends => ?_⟩
      · rw [hsame]
        exact (hshort hends).2
      · rw [hsame]
        exact hfull hends
  · rename_i hne
    have hitems : cs.items ≠ [] := fun hnil => hne (List.isEmpty_iff.mpr hnil)
    rw [if_neg hne]
    refine flush_keeps_cuts hkeeps ?_ (fun hs => absurd h.within.none_stashed hs) ?_
    · rw [answered_round, huncut]
      exact h.whole_of_ne hitems
    · rw [answered_round, huncut, hsame]
      intro hcap _ _
      obtain ⟨m, hm⟩ := h.filled hcap hitems
      refine ⟨fun _ => ⟨List.getLast?_concat .., fun hdvd => ?_⟩, fun hlen => ?_⟩
      · -- fewer than `cap` items are buffered, and at least one
        rw [hm, Nat.dvd_add_right ⟨m, Nat.mul_comm m cap⟩] at hdvd
        have hle := Nat.le_of_dvd (List.length_pos_iff.mpr hitems) hdvd
        omega
      · exact absurd hlen hroom.ne

/-- The base has ended. -/
theorem WithinCuts.round_end (h : cs.WithinCuts cap calls k asked) :
    (cs.round (.ready none)).Keeps (BetweenCuts cap) (WithinCuts cap) calls k
      (asked ++ [((), .ready none)]) := by
  have hkeeps := h.within.round_keeps (.ready none)
  unfold round at hkeeps ⊢
  have huncut : Uncut cap (answered calls ++ asked.map Prod.snd ++ [.ready none]) ↔
      Uncut cap (answered calls ++ asked.map Prod.snd) :=
    uncut_concat_other (by rintro item ⟨⟩)
  rw [IntoFuseStream.poll_end h.within.running] at hkeeps ⊢
  unfold body at hkeeps ⊢
  dsimp only at hkeeps ⊢
  split at hkeeps
  · rename_i hempty
    have hnil : cs.items = [] := List.isEmpty_iff.mp hempty
    rw [if_pos hempty]
    refine ⟨hkeeps, ?_, fun _ hne => absurd h.within.none_stashed hne, fun _ => by rintro ⟨⟩⟩
    rw [yields_concat, answered_concat, answered_round, huncut, given_end, List.append_nil]
    exact h.whole_of_nil hnil
  · rename_i hne
    rw [if_neg hne]
    refine flush_keeps_cuts hkeeps ?_ (fun hs => absurd h.within.none_stashed hs) (fun _ => by rintro ⟨⟩)
    rw [answered_round, huncut]
    exact h.whole_of_ne fun hnil => hne (List.isEmpty_iff.mpr hnil)

/-- The base has failed: what is buffered comes first. -/
theorem WithinCuts.round_error (h : cs.WithinCuts cap calls k asked) (e : E) :
    (cs.round (.ready (some (.error e)))).Keeps (BetweenCuts cap) (WithinCuts cap) calls k
      (asked ++ [((), .ready (some (.error e)))]) := by
  have hkeeps := h.within.round_keeps (.ready (some (.error e)))
  unfold round at hkeeps ⊢
  have huncut : Uncut cap (answered calls ++ asked.map Prod.snd ++ [.ready (some (.error e))]) ↔
      Uncut cap (answered calls ++ asked.map Prod.snd) :=
    uncut_concat_other (by rintro item ⟨⟩)
  have hzero := okSinceError_concat (answered calls ++ asked.map Prod.snd) (.ready (some (.error e)))
  rw [IntoFuseStream.poll_item h.within.running] at hkeeps ⊢
  unfold body at hkeeps ⊢
  dsimp only at hkeeps ⊢
  split at hkeeps
  · rename_i hempty
    have hnil : cs.items = [] := List.isEmpty_iff.mp hempty
    rw [if_pos hempty]
    refine ⟨hkeeps, ?_, fun _ hne => absurd h.within.none_stashed hne, fun _ _ _ => ?_⟩
    · rw [yields_concat, answered_concat, answered_round, huncut, given_ready, whole_concat_error]
      exact h.whole_of_nil hnil
    · rw [yields_concat, answered_concat, answered_round, given_ready]
      refine ⟨fun hends => absurd hends not_endsShort_error, fun _ => ?_⟩
      rw [hzero]
      exact ⟨0, (Nat.mul_zero cap).symm⟩
  · rename_i hne
    rw [if_neg hne]
    refine flush_keeps_cuts hkeeps ?_ (fun _ => ?_) (fun _ _ => by rintro ⟨⟩)
    · rw [answered_round, huncut]
      exact h.whole_of_ne fun hnil => hne (List.isEmpty_iff.mpr hnil)
    · rw [answered_round, hzero]

/-- The base has an item: it fills the chunk, or the loop goes on. -/
theorem WithinCuts.round_item (h : cs.WithinCuts cap calls k asked) (item : T) :
    (cs.round (.ready (some (.ok item)))).Keeps (BetweenCuts cap) (WithinCuts cap) calls k
      (asked ++ [((), .ready (some (.ok item)))]) := by
  have hkeeps := h.within.round_keeps (.ready (some (.ok item)))
  have hroom := h.within.room
  unfold round at hkeeps ⊢
  have hsucc := okSinceError_concat (answered calls ++ asked.map Prod.snd) (.ready (some (.ok item)))
  have hlen : (cs.items ++ [item]).length = cs.items.length + 1 := by
    rw [List.length_append, List.length_singleton]
  -- the item continues a chunk, or begins one at a boundary
  have hfilled : Uncut cap (answered calls ++ asked.map Prod.snd ++ [.ready (some (.ok item))]) →
      ∃ m, okSinceError (answered calls ++ asked.map Prod.snd ++ [.ready (some (.ok item))]) =
        m * cap + (cs.items ++ [item]).length := by
    intro hcap
    have hbefore := (uncut_concat.mp hcap).1
    rw [hsucc, hlen]
    by_cases hitems : cs.items = []
    · obtain ⟨m, hm⟩ := (h.boundary hbefore hitems).full ((h.item_iff item).mpr hcap).2
      refine ⟨m, ?_⟩
      rw [h.within.asked_nil hitems, List.append_nil, hm, hitems, Nat.mul_comm]
      rfl
    · obtain ⟨m, hm⟩ := h.filled hbefore hitems
      exact ⟨m, by rw [hm, Nat.add_assoc]⟩
  rw [IntoFuseStream.poll_item h.within.running] at hkeeps ⊢
  unfold body at hkeeps ⊢
  dsimp only at hkeeps ⊢
  split at hkeeps
  · rename_i hfull
    rw [if_pos hfull]
    rw [h.within.cap_eq] at hfull
    refine flush_keeps_cuts hkeeps ?_ (fun hs => absurd h.within.none_stashed hs) ?_
    · rw [answered_round]
      exact h.item_iff item
    · rw [answered_round]
      intro hcap _ _
      have hitems : (cs.items ++ [item]).length = cap := by omega
      refine ⟨fun hne => absurd hitems hne, fun _ => ?_⟩
      obtain ⟨m, hm⟩ := hfilled hcap
      rw [hm, hitems]
      exact ⟨m + 1, by rw [Nat.mul_succ, Nat.mul_comm]⟩
  · rename_i hfull
    rw [if_neg hfull]
    have hne : cs.items ++ [item] ≠ [] := List.append_ne_nil_of_right_ne_nil _ (List.cons_ne_nil _ _)
    refine ⟨hkeeps, ?_, fun _ hnil => absurd hnil hne, fun hcap _ => ?_⟩
    · rw [answered_round, ← h.item_iff item]
      exact ⟨fun hboth => ⟨hboth.1, hboth.2 hne⟩, fun hboth => ⟨hboth.1, fun _ => hboth.2⟩⟩
    · rw [answered_round] at hcap ⊢
      exact hfilled hcap

/-- **One round.** -/
theorem WithinCuts.round_keeps (h : cs.WithinCuts cap calls k asked) (r : TryPoll T E) :
    (cs.round r).Keeps (BetweenCuts cap) (WithinCuts cap) calls k (asked ++ [((), r)]) := by
  rcases r with _ | _ | e | item
  · exact h.round_pending
  · exact h.round_end
  · exact h.round_error e
  · exact h.round_item item

/-- The beginning of a call. -/
theorem BetweenCuts.start_keeps (h : cs.BetweenCuts cap calls) :
    cs.start.Keeps (BetweenCuts cap) (WithinCuts cap) calls k [] := by
  have hkeeps := h.between.start_keeps (k := k)
  unfold start at hkeeps ⊢
  split at hkeeps
  · rename_i err herr
    have hstashed : cs.pending_error ≠ none := by
      rw [herr]
      nofun
    refine ⟨hkeeps, ?_, fun _ hne => absurd rfl hne, fun hcap _ _ => ?_⟩
    · rw [yields_concat, answered_concat, given_ready, whole_concat_error, List.map_nil,
        List.append_nil]
      exact h.whole_iff
    · rw [answered_concat, List.map_nil, List.append_nil] at hcap
      rw [yields_concat, answered_concat, given_ready, List.map_nil, List.append_nil]
      refine ⟨fun hends => absurd hends not_endsShort_error, fun _ => ?_⟩
      rw [h.stashed hcap hstashed]
      exact ⟨0, (Nat.mul_zero cap).symm⟩
  · rename_i hnone
    split at hkeeps
    · rename_i hterminated
      rw [if_pos hterminated]
      unfold body at hkeeps ⊢
      dsimp only at hkeeps ⊢
      have hempty : cs.items.isEmpty = true := List.isEmpty_iff.mpr h.between.items
      rw [if_pos hempty] at hkeeps ⊢
      refine ⟨hkeeps, ?_, fun _ hne => absurd hnone hne, fun _ hrunning => ?_⟩
      · rw [yields_concat, answered_concat, given_end, List.map_nil, List.append_nil,
          List.append_nil]
        exact h.whole_iff
      · rw [hterminated] at hrunning
        cases hrunning
    · rename_i hrunning
      rw [if_neg hrunning]
      refine ⟨hkeeps, ?_, fun hcap _ => ?_, fun _ hne => absurd h.between.items hne⟩
      · rw [List.map_nil, List.append_nil, ← h.whole_iff]
        exact and_iff_left fun hne => absurd h.between.items hne
      · rw [List.map_nil, List.append_nil] at hcap
        exact h.boundary hcap (Bool.not_eq_true _ ▸ hrunning) hnone

theorem betweenCuts_new (h : 0 < cap) : (new T E cap h).BetweenCuts cap [] := by
  refine ⟨between_new h, ?_, fun _ hne => absurd rfl hne, fun _ _ _ => ?_⟩
  · refine ⟨fun _ before item after heq => ?_, fun _ => List.isChain_nil⟩
    exact absurd heq.symm (List.append_ne_nil_of_right_ne_nil _ (List.cons_ne_nil _ _))
  · exact ⟨fun ⟨v, hv, _⟩ => (nomatch hv), fun _ => ⟨0, (Nat.mul_zero cap).symm⟩⟩

theorem tryChunks_holds_cuts (h : 0 < cap) {ls : List (Act Unit (TryPoll T E))} {s : Run T E}
    (hrun : (TryChunks.machine T E).run (new T E cap h) ls = some s) :
    s.Holds (BetweenCuts cap) (WithinCuts cap) := by
  refine run_keeps (betweenCuts_new h) (fun cs calls k hcs => hcs.start_keeps) ?_ hrun
  intro cs calls k asked r f hcs hf
  cases hf
  exact hcs.round_keeps r

/-! ## Whole chunks are the chunks of the items -/

/-- Items that fill the buffer up make one chunk. -/
theorem chunked_fill {cap : ℕ} (v buffer : List T) (items : List (Except E T)) (hv : v ≠ [])
    (hlen : buffer.length + v.length = cap) :
    chunked cap buffer (v.map .ok ++ items) = .ok (buffer ++ v) :: chunked cap [] items := by
  induction v generalizing buffer with
  | nil => exact absurd rfl hv
  | cons x v ih =>
      have hbuffer : (buffer ++ [x]).length = buffer.length + 1 := by
        rw [List.length_append, List.length_singleton]
      rw [List.length_cons] at hlen
      rw [List.map_cons, List.cons_append, chunked]
      by_cases hnil : v = []
      · subst hnil
        rw [List.length_nil] at hlen
        rw [if_pos (by omega)]
        rfl
      · have hpos := List.length_pos_iff.mpr hnil
        rw [if_neg (by omega), ih (buffer ++ [x]) hnil (by omega), List.append_assoc]
        rfl

/-- Items that do not fill the buffer stay in it. -/
theorem chunked_stay {cap : ℕ} (v buffer : List T) (items : List (Except E T))
    (hlen : buffer.length + v.length < cap) :
    chunked cap buffer (v.map .ok ++ items) = chunked cap (buffer ++ v) items := by
  induction v generalizing buffer with
  | nil => rw [List.map_nil, List.nil_append, List.append_nil]
  | cons x v ih =>
      have hbuffer : (buffer ++ [x]).length = buffer.length + 1 := by
        rw [List.length_append, List.length_singleton]
      rw [List.length_cons] at hlen
      rw [List.map_cons, List.cons_append, chunked, if_neg (by omega), ih (buffer ++ [x]) (by omega),
        List.append_assoc]
      rfl

/-- What a result of `poll_next` may be: a chunk of 1 to `cap` items, or a bare error. -/
def YieldOk (cap : ℕ) : Except (TryChunksError T E) (List T) → Prop
  | .ok v => v ≠ [] ∧ v.length ≤ cap
  | .error err => err.items = []

/-- **Whole chunks are those of their items.** -/
theorem chunked_of_whole {cap : ℕ} {ys : List (Except (TryChunksError T E) (List T))}
    (hok : ∀ y ∈ ys, YieldOk cap y) (hwhole : Whole cap ys) :
    chunked cap [] (ys.flatMap fun y => contents (.ready (some y))) = ys := by
  induction ys with
  | nil => rfl
  | cons y ys ih =>
      have hrest := ih (fun y' hy' => hok y' (List.mem_cons_of_mem _ hy')) (List.IsChain.tail hwhole)
      have hy := hok y List.mem_cons_self
      rw [List.flatMap_cons]
      cases y with
      | error err =>
          obtain ⟨items, e⟩ := err
          cases (hy : items = [])
          show chunked cap [] (.error e :: _) = _
          exact congrArg (.error ⟨[], e⟩ :: ·) hrest
      | ok v =>
          show chunked cap [] (v.map .ok ++ _) = _
          obtain ⟨hne, hle⟩ := hy
          rcases hle.lt_or_eq with hlt | heq
          · -- a short chunk: an error follows, or nothing
            rw [chunked_stay v [] _ (by rwa [List.length_nil, Nat.zero_add]), List.nil_append]
            have hempty : v.isEmpty = false := by
              rw [List.isEmpty_eq_false_iff]
              exact hne
            cases ys with
            | nil =>
                show chunked cap v [] = _
                rw [chunked, hempty]
                rfl
            | cons next ys =>
                cases next with
                | ok w =>
                    have hfull := (List.isChain_cons_cons.mp hwhole).1 v w rfl rfl
                    omega
                | error err =>
                    obtain ⟨items, e⟩ := err
                    cases (hok _ (List.mem_cons_of_mem _ List.mem_cons_self) : items = [])
                    show chunked cap v (.error e :: _) = _
                    rw [chunked, hempty]
                    exact congrArg (.ok v :: ·) hrest
          · rw [chunked_fill v [] _ hne (by rwa [List.length_nil, Nat.zero_add]), hrest]
            rfl

/-- Every result is such a chunk or error. -/
theorem Between.yieldOk (h : cs.Between cap calls) : ∀ y ∈ yields calls, YieldOk cap y := by
  intro y hy
  obtain ⟨r, hr, hitem⟩ := List.mem_filterMap.mp hy
  obtain ⟨c, hc, rfl⟩ := List.mem_map.mp hr
  have hok := h.calls c hc
  have hresult : c.result = .ready (some y) := by
    generalize c.result = r at hitem
    cases r with
    | pending => cases hitem
    | ready item => exact congrArg Poll.ready hitem
  cases y with
  | ok v =>
      obtain ⟨hpos, hle⟩ := hok.chunk v hresult
      exact ⟨List.length_pos_iff.mp hpos, hle⟩
  | error err => exact hok.error err hresult

/-- What the results stand for is what the chunks and errors among them stand for. -/
theorem yielded_eq (calls : Calls T E) :
    yielded calls = (yields calls).flatMap fun y => contents (.ready (some y)) := by
  unfold yielded yields given
  generalize results calls = rs
  induction rs with
  | nil => rfl
  | cons r rs ih =>
      rw [List.flatMap_cons, ih]
      rcases r with _ | _ | y <;> rfl

/-- The chunks of a list of items are whole. -/
theorem whole_chunked (hcap : 0 < cap) (items : List (Except E T)) (buffer : List T)
    (hlen : buffer.length < cap) : Whole cap (chunked cap buffer items) := by
  induction items generalizing buffer with
  | nil =>
      rw [chunked]
      split
      · exact List.isChain_nil
      · exact List.isChain_singleton _
  | cons item items ih =>
      have hrest := ih [] hcap
      cases item with
      | ok x =>
          have hbuffer : (buffer ++ [x]).length = buffer.length + 1 := by
            rw [List.length_append, List.length_singleton]
          rw [chunked]
          split
          · unfold Whole
            rw [List.isChain_cons]
            refine ⟨fun next _ v w hv _ => ?_, hrest⟩
            cases hv
            omega
          · exact ih (buffer ++ [x]) (by omega)
      | error e =>
          have herror : Whole cap (.error ⟨[], e⟩ :: chunked cap [] items) := by
            unfold Whole
            rw [List.isChain_cons]
            exact ⟨fun next _ v w hv _ => (nomatch hv), hrest⟩
          rw [chunked]
          split
          · exact herror
          · unfold Whole
            rw [List.singleton_append, List.isChain_cons_cons]
            exact ⟨fun v w _ hw => (nomatch hw), herror⟩

end Chunks

open Chunks (Whole Uncut yields chunked)

/-- **When the chunks of `TryChunks` are those of the items.** With any capacity, after
every call: every chunk has exactly `cap` items, except one directly followed by an
error and the last, just if no `Pending` of the base that is directly followed by an
`Ok` item fell inside a chunk. At the end of the stream the chunks are then those of
the items of the base, and only then. -/
theorem chunks_whole_iff_uncut (T E : Type) (cap : ℕ) (h : 0 < cap) (ls : List (Act Unit (TryPoll T E)))
    (s : Chunks.Run T E) (hrun : (TryChunks.machine T E).run (Chunks.new T E cap h) ls = some s)
    (hidle : s.current = none) :
    (Whole cap (yields s.calls) ↔ Uncut cap (answered s.calls)) ∧
      (.ready none ∈ results s.calls →
        (yields s.calls = chunked cap [] (given (answered s.calls)) ↔
          Uncut cap (answered s.calls))) := by
  have hcuts := (Chunks.tryChunks_holds_cuts h hrun).idle hidle
  refine ⟨hcuts.whole_iff, fun hended => ⟨fun heq => ?_, fun huncut => ?_⟩⟩
  · rw [← hcuts.whole_iff, heq]
    exact Chunks.whole_chunked h _ [] h
  · rw [← hcuts.between.yielded_of_ended hended, Chunks.yielded_eq]
    exact (Chunks.chunked_of_whole hcuts.between.yieldOk (hcuts.whole_iff.mpr huncut)).symm

/-- The base with the items 1 and 2, when it is ready throughout and when it is pending
between them. -/
def readyBase : List (Act Unit (TryPoll ℕ ℕ)) :=
  [.call (), .answer (.ready (some (.ok 1))), .answer (.ready (some (.ok 2))),
    .call (), .answer (.ready none)]

def pendingBase : List (Act Unit (TryPoll ℕ ℕ)) :=
  [.call (), .answer (.ready (some (.ok 1))), .answer .pending,
    .call (), .answer (.ready (some (.ok 2))), .answer (.ready none), .call ()]

theorem chunks_whole_iff_uncut_ready :
    ∃ s, (TryChunks.machine ℕ ℕ).run (Chunks.new ℕ ℕ 2 (by decide)) readyBase = some s ∧
      (Whole 2 (yields s.calls) ↔ Uncut 2 (answered s.calls)) ∧ yields s.calls = [.ok [1, 2]] := by
  have hrun : ((TryChunks.machine ℕ ℕ).run (Chunks.new ℕ ℕ 2 (by decide)) readyBase).map
      (fun s => (s.current, yields s.calls)) = some (none, [.ok [1, 2]]) := rfl
  obtain ⟨s, hs, hseen⟩ := Option.map_eq_some_iff.mp hrun
  obtain ⟨hidle, hyields⟩ := Prod.mk.inj hseen
  exact ⟨s, hs, (chunks_whole_iff_uncut ℕ ℕ 2 (by decide) readyBase s hs hidle).1, hyields⟩

/-- The base is pending behind its first item: a chunk of one item is returned, and
the chunks are not those that the same items give from a ready base. -/
theorem chunks_cut_by_pending :
    (¬ ∀ (cap : ℕ) (h : 0 < cap) (ls : List (Act Unit (TryPoll ℕ ℕ))) (s : Chunks.Run ℕ ℕ),
      (TryChunks.machine ℕ ℕ).run (Chunks.new ℕ ℕ cap h) ls = some s → s.current = none →
        Whole cap (yields s.calls)) ∧
    (¬ ∀ (cap : ℕ) (h : 0 < cap) (ls ls' : List (Act Unit (TryPoll ℕ ℕ))) (s s' : Chunks.Run ℕ ℕ),
      (TryChunks.machine ℕ ℕ).run (Chunks.new ℕ ℕ cap h) ls = some s →
      (TryChunks.machine ℕ ℕ).run (Chunks.new ℕ ℕ cap h) ls' = some s' →
      .ready none ∈ results s.calls → .ready none ∈ results s'.calls →
      given (answered s.calls) = given (answered s'.calls) → yields s.calls = yields s'.calls) := by
  have hpending : ((TryChunks.machine ℕ ℕ).run (Chunks.new ℕ ℕ 2 (by decide)) pendingBase).map
      (fun s => (s.current, results s.calls, given (answered s.calls))) =
      some (none, [.ready (some (.ok [1])), .ready (some (.ok [2])), .ready none],
        [.ok 1, .ok 2]) := rfl
  have hready : ((TryChunks.machine ℕ ℕ).run (Chunks.new ℕ ℕ 2 (by decide)) readyBase).map
      (fun s => (s.current, results s.calls, given (answered s.calls))) =
      some (none, [.ready (some (.ok [1, 2])), .ready none], [.ok 1, .ok 2]) := rfl
  obtain ⟨s, hs, hseen⟩ := Option.map_eq_some_iff.mp hpending
  obtain ⟨s', hs', hseen'⟩ := Option.map_eq_some_iff.mp hready
  obtain ⟨hidle, hrest⟩ := Prod.mk.inj hseen
  obtain ⟨hresults, hgiven⟩ := Prod.mk.inj hrest
  obtain ⟨-, hrest'⟩ := Prod.mk.inj hseen'
  obtain ⟨hresults', hgiven'⟩ := Prod.mk.inj hrest'
  have hyields : yields s.calls = [.ok [1], .ok [2]] := by
    unfold yields
    rw [hresults]
    rfl
  have hyields' : yields s'.calls = [.ok [1, 2]] := by
    unfold yields
    rw [hresults']
    rfl
  constructor
  · intro hclaim
    have hwhole := hclaim 2 (by decide) pendingBase s hs hidle
    rw [hyields] at hwhole
    have hlen := (List.isChain_cons_cons.mp hwhole).1 [1] [2] rfl rfl
    exact absurd hlen (by decide)
  · intro hclaim
    have heq := hclaim 2 (by decide) pendingBase readyBase s s' hs hs'
      (by rw [hresults]; decide) (by rw [hresults']; decide) (hgiven.trans hgiven'.symm)
    rw [hyields, hyields'] at heq
    cases heq

end TokioStreamUtil
