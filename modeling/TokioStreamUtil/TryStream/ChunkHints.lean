/-
`size_hint` of `TryChunks` and `TryReadyChunks`.

Both divide the lower bound of the base by the capacity and keep its upper bound. An
error that is stashed beside a chunk has left the base and is still to be yielded, and
neither function counts it.
-/
import TokioStreamUtil.TryStream.Chunks
import TokioStreamUtil.Lib.SizeHint

set_option autoImplicit false

namespace TokioStreamUtil

open PollLoop

variable {T E : Type} {MAX : ℕ}

/-- `TryChunks::size_hint`, over that of the base. -/
def TryChunks.size_hint (self : Chunks T E) (stream_size_hint : SizeHint MAX) : SizeHint MAX :=
  ((stream_size_hint.1.div self.cap).saturating_add (!self.items.isEmpty).toNat,
    stream_size_hint.2.bind fun x => x.checked_add (!self.items.isEmpty).toNat)

/-- `TryReadyChunks::size_hint`, over that of the base. -/
def TryReadyChunks.size_hint (self : Chunks T E) (stream_size_hint : SizeHint MAX) :
    SizeHint MAX :=
  (stream_size_hint.1.div self.cap, stream_size_hint.2)

/-- With nothing buffered the two are the same. -/
theorem TryChunks.size_hint_of_empty {self : Chunks T E} (h : self.items = [])
    (hint : SizeHint MAX) : TryChunks.size_hint self hint = TryReadyChunks.size_hint self hint := by
  obtain ⟨lower, upper⟩ := hint
  have hlower : (lower.div self.cap).saturating_add 0 = lower.div self.cap :=
    Subtype.ext (Nat.min_eq_left (lower.div self.cap).property)
  have hupper : (upper.bind fun x => x.checked_add 0) = upper := by
    cases upper with
    | none => rfl
    | some x => exact x.checked_add_zero
  unfold TryChunks.size_hint
  rw [h]
  exact Prod.ext hlower hupper

/-! ## The end of the base -/

/-- Nothing comes after the end. -/
def Settled {α : Type} (rs : List (Poll (Option α))) : Prop :=
  ∀ l₁ l₂, rs = l₁ ++ .ready none :: l₂ → given l₂ = []

namespace Settled

variable {α : Type} {rs : List (Poll (Option α))}

theorem of_not_mem (h : .ready none ∉ rs) : Settled rs := by
  rintro l₁ l₂ rfl
  exact absurd (List.mem_append_right l₁ List.mem_cons_self) h

/-- One more result: the end again, or the first. -/
theorem concat (h : Settled rs) {r : Poll (Option α)} (hr : .ready none ∈ rs → r = .ready none) :
    Settled (rs ++ [r]) := by
  intro l₁ l₂ heq
  rcases List.append_eq_append_iff.mp heq with ⟨as, rfl, hsplit⟩ | ⟨as, hrs, hsplit⟩
  · -- the end is the last result
    cases as with
    | nil =>
        obtain ⟨-, rfl⟩ := List.cons.inj hsplit
        rfl
    | cons a as =>
        obtain ⟨-, hnil⟩ := List.cons.inj hsplit
        exact absurd hnil.symm (List.append_ne_nil_of_right_ne_nil _ (List.cons_ne_nil _ _))
  · cases as with
    | nil =>
        obtain ⟨-, rfl⟩ := List.cons.inj hsplit
        rfl
    | cons a as =>
        obtain ⟨rfl, rfl⟩ := List.cons.inj hsplit
        have hlast := hr (hrs ▸ List.mem_append_right l₁ List.mem_cons_self)
        show given (as ++ [r]) = []
        rw [given_append, h l₁ as hrs, hlast]
        rfl

theorem of_append {rs' : List (Poll (Option α))} (h : Settled (rs ++ rs')) : Settled rs' := by
  rintro l₁ l₂ rfl
  exact h (rs ++ l₁) l₂ (List.append_assoc _ _ _).symm

/-- What comes before the end is all there is. -/
theorem untilEnd_eq (h : Settled rs) : untilEnd rs = given rs := by
  induction rs with
  | nil => rfl
  | cons r rs ih =>
      have htail : Settled rs := of_append (show Settled ([r] ++ rs) from h)
      rcases r with _ | _ | x
      · exact ih htail
      · exact (h [] rs rfl).symm
      · exact congrArg (x :: ·) (ih htail)

end Settled

namespace Chunks

variable {cap : ℕ} {cs : Chunks T E} {calls : Calls T E}

/-- The base has ended just when it has said so, and nothing is yielded after the end. -/
structure Followed (cs : Chunks T E) (calls : Calls T E) : Prop where
  terminated : cs.stream.is_terminated = true ↔ .ready none ∈ answered calls
  settled : Settled (results calls)

/-- In a call that still asks, the base has not ended before. -/
def NotEnded (_ : Chunks T E) (calls : Calls T E) (_ : Unit) (_ : List (Unit × TryPoll T E)) :
    Prop := .ready none ∉ answered calls

/-- The body of the loop leaves the base alone. -/
theorem body_stream (cs : Chunks T E) (r : TryPoll T E) : (cs.body r).self.stream = cs.stream := by
  unfold body flush
  rcases r with _ | _ | e | item
  all_goals
    dsimp only
    split <;> rfl

theorem start_stream (cs : Chunks T E) : cs.start.self.stream = cs.stream := by
  unfold start
  split
  · rfl
  · split
    · exact body_stream cs (.ready none)
    · rfl

/-- The base ends by its answer. -/
theorem round_terminated (hrunning : cs.stream.is_terminated = false) (r : TryPoll T E) :
    (cs.round r).self.stream.is_terminated = true ↔ r = .ready none := by
  unfold round
  rw [body_stream]
  dsimp only
  rcases r with _ | _ | x
  · rw [IntoFuseStream.poll_pending hrunning, hrunning]
    exact iff_of_false Bool.false_ne_true (by rintro ⟨⟩)
  · rw [IntoFuseStream.poll_end hrunning]
    exact iff_of_true rfl rfl
  · rw [IntoFuseStream.poll_item hrunning, hrunning]
    exact iff_of_false Bool.false_ne_true (by rintro ⟨⟩)

/-- A stretch in which the base ends just when it says so, and after the end of the
stream only the end is returned. -/
theorem stretch_keeps {f : Flow (Chunks T E) (ChunkPoll T E)} {k : Unit}
    {asked : List (Unit × TryPoll T E)} (hsettled : Settled (results calls))
    (hterminated : f.self.stream.is_terminated = true ↔
      .ready none ∈ answered calls ++ asked.map Prod.snd)
    (hresult : ∀ r s, f = .ret r s → .ready none ∈ results calls → r = .ready none)
    (hagain : ∀ s, f = .again s → .ready none ∉ answered calls) :
    f.Keeps Followed NotEnded calls k asked := by
  cases f with
  | again s => exact hagain s rfl
  | ret r s =>
      refine ⟨?_, ?_⟩
      · rw [answered_concat]
        exact hterminated
      · rw [results_concat]
        exact hsettled.concat (hresult r s rfl)

/-- The beginning of a call. -/
theorem Followed.start_keeps {k : Unit} (hb : cs.Between cap calls) (h : cs.Followed calls) :
    cs.start.Keeps Followed NotEnded calls k [] := by
  have hstop : cs.stream.is_terminated = true → cs.start = .ret (.ready none) cs := by
    intro hended
    unfold start
    rw [hb.fused hended]
    dsimp only
    rw [if_pos hended]
    unfold body
    dsimp only
    rw [hb.items]
    rfl
  refine stretch_keeps h.settled ?_ ?_ ?_
  · rw [start_stream, List.map_nil, List.append_nil]
    exact h.terminated
  · intro r s hret hmem
    rw [hstop (hb.ended hmem)] at hret
    cases hret
    rfl
  · intro s hagain hmem
    rw [hstop (h.terminated.mpr hmem)] at hagain
    cases hagain

/-- One round. -/
theorem NotEnded.round_keeps {k : Unit} {asked : List (Unit × TryPoll T E)}
    (hw : cs.Within cap calls k asked) (h : NotEnded cs calls k asked) (r : TryPoll T E) :
    (cs.round r).Keeps Followed NotEnded calls k (asked ++ [((), r)]) := by
  refine stretch_keeps (.of_not_mem hw.not_ended) ?_ ?_ ?_
  · rw [round_terminated hw.running, List.map_append, hw.taken, List.mem_append, List.mem_append]
    constructor
    · rintro rfl
      exact Or.inr (Or.inr List.mem_cons_self)
    · rintro (hmem | hmem | hmem)
      · exact absurd hmem h
      · obtain ⟨x, _, hx⟩ := List.mem_map.mp hmem
        cases hx
      · exact (List.mem_singleton.mp hmem).symm
  · intro r s _ hmem
    exact absurd hmem hw.not_ended
  · intro s _
    exact h

theorem followed_new (h : 0 < cap) : (new T E cap h).Followed [] :=
  ⟨iff_of_false Bool.false_ne_true List.not_mem_nil, .of_not_mem List.not_mem_nil⟩

/-- An empty buffer is the fresh one of a call. -/
theorem empty_eq (h : cs.items = []) : { cs with items := [] } = cs := by
  obtain ⟨stream, items, cap', pending_error, hcap⟩ := cs
  cases h
  rfl

/-- An error is stashed only while the base runs. -/
theorem Between.running_of_stashed (h : cs.Between cap calls) {e : E}
    (herr : cs.pending_error = some e) : cs.stream.is_terminated = false := by
  rw [Bool.eq_false_iff]
  intro hterm
  exact Option.some_ne_none e (herr.symm.trans (h.fused hterm))

/-- A call with no error stashed, while the base runs. -/
theorem start_of_running (herr : cs.pending_error = none)
    (hrunning : cs.stream.is_terminated = false) : cs.start = .again cs := by
  unfold start
  rw [herr, hrunning]
  rfl

/-- What holds between the calls of `TryChunks`. -/
theorem tryChunks_between (h : 0 < cap) {ls : List (Act Unit (TryPoll T E))} {s : Run T E}
    (hrun : (TryChunks.machine T E).run (new T E cap h) ls = some s) (hs : s.current = none) :
    s.self.Between cap s.calls ∧ s.self.Followed s.calls := by
  refine (run_keeps (I := fun cs calls => Between cap cs calls ∧ Followed cs calls)
    (J := fun cs calls k asked => Within cap cs calls k asked ∧ NotEnded cs calls k asked)
    ⟨between_new h, followed_new h⟩ ?_ ?_ hrun).idle hs
  · rintro cs calls k ⟨hb, hf⟩
    exact hb.start_keeps.and (Followed.start_keeps hb hf)
  · rintro cs calls k asked r f ⟨hw, hn⟩ hresume
    cases hresume
    exact (hw.round_keeps r).and (NotEnded.round_keeps hw hn r)

/-- What holds between the calls of `TryReadyChunks`. -/
theorem tryReadyChunks_between (h : 0 < cap) {ls : List (Act Unit (TryPoll T E))} {s : Run T E}
    (hrun : (TryReadyChunks.machine T E).run (new T E cap h) ls = some s) (hs : s.current = none) :
    s.self.Between cap s.calls ∧ s.self.Followed s.calls := by
  refine (run_keeps (I := fun cs calls => Between cap cs calls ∧ Followed cs calls)
    (J := fun cs calls k asked => Within cap cs calls k asked ∧ NotEnded cs calls k asked)
    ⟨between_new h, followed_new h⟩ ?_ ?_ hrun).idle hs
  · rintro cs calls k ⟨hb, hf⟩
    show (start { cs with items := [] }).Keeps _ _ _ _ _
    rw [empty_eq hb.items]
    exact hb.start_keeps.and (Followed.start_keeps hb hf)
  · rintro cs calls k asked r f ⟨hw, hn⟩ hresume
    cases hresume
    exact (hw.round_keeps r).and (NotEnded.round_keeps hw hn r)

/-! ## Counting -/

/-- A result stands for one item of the base at least, and for no more than `cap`. -/
theorem CallOk.contents_length {c : Call Unit Unit (TryPoll T E) (ChunkPoll T E)}
    (h : CallOk cap c) (hcap : 0 < cap) :
    (given [c.result]).length ≤ (contents c.result).length ∧
      (contents c.result).length ≤ cap * (given [c.result]).length := by
  cases hr : c.result with
  | pending => exact ⟨Nat.le_refl 0, Nat.zero_le _⟩
  | ready x =>
      rcases x with _ | err | v
      · exact ⟨Nat.le_refl 0, Nat.zero_le _⟩
      · have hlen : (contents (.ready (some (.error err)) : ChunkPoll T E)).length = 1 := by
          show (err.items.map (Except.ok (ε := E)) ++ [Except.error err.error]).length = 1
          rw [h.error err hr]
          rfl
        rw [hlen]
        exact ⟨Nat.le_refl 1, (Nat.mul_one cap).ge.trans' hcap⟩
      · have hlen : (contents (.ready (some (.ok v)) : ChunkPoll T E)).length = v.length :=
          List.length_map _
        rw [hlen]
        exact ⟨(h.chunk v hr).1, (Nat.mul_one cap).ge.trans' (h.chunk v hr).2⟩

/-- So do the results of several calls. -/
theorem yielded_length (hcap : 0 < cap) (hcalls : ∀ c ∈ calls, CallOk cap c) :
    (given (results calls)).length ≤ (yielded calls).length ∧
      (yielded calls).length ≤ cap * (given (results calls)).length := by
  induction calls with
  | nil => exact ⟨Nat.le_refl 0, Nat.zero_le _⟩
  | cons c calls ih =>
      obtain ⟨hge, hle⟩ := ih fun c' hc' => hcalls c' (List.mem_cons_of_mem c hc')
      obtain ⟨hge₁, hle₁⟩ := (hcalls c List.mem_cons_self).contents_length hcap
      have hgiven : given (results (c :: calls)) = given [c.result] ++ given (results calls) :=
        given_append [c.result] (results calls)
      have hyielded : yielded (c :: calls) = contents c.result ++ yielded calls := rfl
      rw [hgiven, hyielded, List.length_append, List.length_append, Nat.mul_add]
      exact ⟨Nat.add_le_add hge₁ hge, Nat.add_le_add hle₁ hle⟩

theorem stashed_length (cs : Chunks T E) : cs.stashed.length = cs.pending_error.isSome.toNat := by
  unfold stashed
  cases cs.pending_error <;> rfl

/-- Between two states, the items that come out are those that go in, and the stashed
error. -/
theorem Between.later {cs' : Chunks T E} {later : Calls T E} (h : cs.Between cap calls)
    (h' : cs'.Between cap (calls ++ later)) :
    cs.pending_error.isSome.toNat + (given (answered later)).length =
      (yielded later).length + cs'.pending_error.isSome.toNat := by
  have hbooks : yielded (calls ++ later) = yielded calls ++ yielded later := by
    unfold yielded results
    rw [List.map_append, List.flatMap_append]
  have hanswered : answered (calls ++ later) = answered calls ++ answered later :=
    List.flatMap_append
  have heq := h'.books
  rw [hbooks, hanswered, given_append, ← h.books, List.append_assoc, List.append_assoc] at heq
  have hlen := congrArg List.length (List.append_cancel_left heq)
  rw [List.length_append, List.length_append, stashed_length, stashed_length] at hlen
  exact hlen.symm

/-- The hint of a state, against what the calls that follow take from the base and what
they yield. -/
def HintOk (size_hint : Chunks T E → SizeHint MAX → SizeHint MAX) (s : Run T E)
    (hint : SizeHint MAX) (later : Calls T E) : Prop :=
  hint.Brackets (.ready none ∈ answered (s.calls ++ later)) (given (answered later)).length →
    (size_hint s.self hint).Brackets (.ready none ∈ results later) (untilEnd (results later)).length

/-- With no error stashed, the hint is right; and the lower bound always is. -/
theorem hintOk_of_between {s s' : Run T E} {later : Calls T E} (hcap : 0 < cap)
    (h : s.self.Between cap s.calls) (hcalls : s'.calls = s.calls ++ later)
    (h' : s'.self.Between cap s'.calls) (hf' : s'.self.Followed s'.calls) (hint : SizeHint MAX)
    (hwhen : s.self.pending_error = none ∨ hint.2 = none) :
    HintOk TryReadyChunks.size_hint s hint later := by
  intro hbase
  rw [hcalls] at h' hf'
  have hcount := h.later h'
  obtain ⟨hge, hle⟩ := yielded_length hcap fun c hc => h'.calls c (List.mem_append_right s.calls hc)
  have hsettled : Settled (results later) := by
    have hsplit : results (s.calls ++ later) = results s.calls ++ results later := List.map_append
    exact Settled.of_append (hsplit ▸ hf'.settled)
  rw [hsettled.untilEnd_eq]
  refine ⟨fun hended => ?_, fun u hu => ?_⟩
  · -- every item of the base is in some result by the end
    have hterm : s'.self.stream.is_terminated = true := by
      refine h'.ended ?_
      unfold results
      rw [List.map_append]
      exact List.mem_append_right _ hended
    have hstash : s'.self.pending_error.isSome.toNat = 0 := by
      rw [h'.fused hterm]
      rfl
    have hlower := hbase.lower (hf'.terminated.mp hterm)
    show hint.1.val / s.self.cap ≤ _
    rw [h.cap_eq]
    exact Nat.div_le_of_le_mul (by omega)
  · rcases hwhen with hnone | hnone
    · have hstash : s.self.pending_error.isSome.toNat = 0 := by
        rw [hnone]
        rfl
      have hupper := hbase.upper u hu
      omega
    · exact absurd (hnone.symm.trans hu) (by rintro ⟨⟩)

/-! ## The error that is not counted -/

/-- A call that takes an error from the base and returns it. -/
def failing (e : E) : Call Unit Unit (TryPoll T E) (ChunkPoll T E) :=
  ⟨(), [((), .ready (some (.error e)))], .ready (some (.error ⟨[], e⟩))⟩

/-- A call that returns a stashed error. -/
def returning (e : E) : Call Unit Unit (TryPoll T E) (ChunkPoll T E) :=
  ⟨(), [], .ready (some (.error ⟨[], e⟩))⟩

/-- The base fails `n` times in a row, once in each call. -/
theorem fails_continue {M : Machine Unit (Chunks T E) Unit (TryPoll T E) (ChunkPoll T E)} {e : E}
    {cs : Chunks T E} (henter : M.enter () cs = .again cs)
    (hresume : M.resume cs (.ready (some (.error e))) = some (.ret (.ready (some (.error ⟨[], e⟩))) cs))
    (n : ℕ) (earlier : Calls T E) :
    ∃ ls, Transition.run M.step { self := cs, calls := earlier, current := none } ls =
      some { self := cs, calls := earlier ++ List.replicate n (failing e), current := none } := by
  induction n generalizing earlier with
  | zero => exact ⟨[], by rw [List.replicate_zero, List.append_nil]; rfl⟩
  | succ n ih =>
      obtain ⟨ls, hls⟩ := ih (earlier ++ [failing e])
      refine ⟨.call () :: .answer (.ready (some (.error e))) :: ls, ?_⟩
      have hcall : M.step { self := cs, calls := earlier, current := none } (.call ()) =
          some { self := cs, calls := earlier, current := some ((), []) } := by
        unfold Machine.step
        dsimp only
        rw [henter]
        rfl
      have hanswer : M.step { self := cs, calls := earlier, current := some ((), []) }
          (.answer (.ready (some (.error e)))) =
          some { self := cs, calls := earlier ++ [failing e], current := none } := by
        unfold Machine.step
        dsimp only
        rw [hresume]
        rfl
      rw [Transition.run_cons, hcall, Option.bind_some, Transition.run_cons, hanswer,
        Option.bind_some, hls, List.replicate_succ, List.append_assoc]
      rfl

/-- With an error stashed and an upper bound `u`, the base may give `u` errors more, and
`u + 1` items come out. -/
theorem not_hintOk_of_stashed {M : Machine Unit (Chunks T E) Unit (TryPoll T E) (ChunkPoll T E)}
    {s : Run T E} (hs : s.current = none) {e : E} (herr : s.self.pending_error = some e)
    (h : s.self.Between cap s.calls) (hf : s.self.Followed s.calls)
    (hM : ∀ cs : Chunks T E, cs.items = [] →
      M.enter () cs = cs.start ∧ ∀ r, M.resume cs r = some (cs.round r))
    (hint : SizeHint MAX) {u : Usize MAX} (hu : hint.2 = some u) :
    ∃ later, M.Continues s later ∧ ¬HintOk TryReadyChunks.size_hint s hint later := by
  have hrunning := h.running_of_stashed herr
  have hfirst : M.enter () s.self =
      .ret (.ready (some (.error ⟨[], e⟩))) { s.self with pending_error := none } := by
    rw [(hM s.self h.items).1, start_of_stashed herr]
  have henter : M.enter () { s.self with pending_error := none } =
      .again { s.self with pending_error := none } := by
    rw [(hM { s.self with pending_error := none } h.items).1]
    exact start_of_running rfl hrunning
  have hfail : M.resume { s.self with pending_error := none } (.ready (some (.error e))) =
      some (.ret (.ready (some (.error ⟨[], e⟩))) { s.self with pending_error := none }) := by
    rw [(hM { s.self with pending_error := none } h.items).2]
    unfold round
    dsimp only
    rw [IntoFuseStream.poll_item hrunning]
    unfold body
    dsimp only
    rw [h.items]
    rfl
  obtain ⟨ls, hls⟩ := fails_continue henter hfail u.val
    (s.calls ++ [returning e])
  refine ⟨returning e :: List.replicate u.val (failing e), ⟨.call () :: ls,
    ⟨{ s.self with pending_error := none }, s.calls ++ [returning e] ++ List.replicate u.val (failing e), none⟩,
    ?_, rfl, ?_⟩, ?_⟩
  · rw [Transition.run_cons]
    unfold Machine.step
    dsimp only
    rw [hs, hfirst]
    exact hls
  · dsimp only
    rw [List.append_assoc]
    rfl
  · intro hok
    have hgiven : ∀ {α : Type} (n : ℕ) (x : α), (given (List.replicate n (.ready (some x)))).length = n := by
      intro α n x
      unfold given
      rw [List.filterMap_replicate_of_some (show Poll.item (.ready (some x)) = some x from rfl),
        List.length_replicate]
    have hanswered : answered (returning e :: List.replicate u.val (failing (T := T) e)) =
        List.replicate u.val (.ready (some (.error e))) := by
      show answered (List.replicate u.val (failing e)) = _
      unfold answered
      rw [List.flatMap_replicate]
      exact List.flatten_replicate_singleton
    have hresults : results (returning e :: List.replicate u.val (failing (T := T) e)) =
        List.replicate (u.val + 1) (.ready (some (.error ⟨[], e⟩))) := by
      unfold results
      rw [List.map_cons, List.map_replicate, List.replicate_succ]
      rfl
    have hended : .ready none ∉ answered (s.calls ++ returning e :: List.replicate u.val (failing e)) := by
      intro hmem
      unfold answered at hmem
      rw [List.flatMap_append, List.mem_append] at hmem
      rcases hmem with hmem | hmem
      · exact Bool.false_ne_true (hrunning ▸ hf.terminated.mpr hmem)
      · have hmem' : .ready none ∈ answered (returning e :: List.replicate u.val (failing e)) := hmem
        rw [hanswered] at hmem'
        cases (List.mem_replicate.mp hmem').2
    have hbrackets := hok ⟨fun hmem => absurd hmem hended, fun u' hu' => ?_⟩
    · have hle := hbrackets.upper u hu
      rw [hresults, (Settled.of_not_mem ?_).untilEnd_eq, hgiven] at hle
      · omega
      · intro hmem
        cases (List.mem_replicate.mp hmem).2
    · rw [hanswered, hgiven]
      exact (Option.some.inj (hu.symm.trans hu')).le

end Chunks

/-! ## When the hints are right -/

namespace Chunks

/-- With nothing buffered, what a hint of `TryChunks` has to show is the same. -/
theorem hintOk_tryChunks_iff {s : Run T E} (h : s.self.items = []) (hint : SizeHint MAX)
    (later : Calls T E) :
    HintOk TryChunks.size_hint s hint later ↔ HintOk TryReadyChunks.size_hint s hint later := by
  unfold HintOk
  rw [TryChunks.size_hint_of_empty h]

end Chunks

open Chunks

/-- **When the hints are right.** In a state of `TryChunks` or `TryReadyChunks` between
calls, the hint is right for all that may follow just when no error is stashed or the
base sets no upper bound. -/
theorem chunk_hints_right_iff_none_stashed (T E : Type) (MAX cap : ℕ) (h : 0 < cap) :
    (∀ ls s, (TryChunks.machine T E).run (Chunks.new T E cap h) ls = some s → s.current = none →
      ∀ hint : SizeHint MAX,
        (∀ later, (TryChunks.machine T E).Continues s later →
          HintOk TryChunks.size_hint s hint later) ↔
        s.self.pending_error = none ∨ hint.2 = none) ∧
    ∀ ls s, (TryReadyChunks.machine T E).run (Chunks.new T E cap h) ls = some s →
      s.current = none → ∀ hint : SizeHint MAX,
        (∀ later, (TryReadyChunks.machine T E).Continues s later →
          HintOk TryReadyChunks.size_hint s hint later) ↔
        s.self.pending_error = none ∨ hint.2 = none := by
  constructor
  · intro ls s hrun hs hint
    obtain ⟨hb, hf⟩ := tryChunks_between h hrun hs
    constructor
    · intro hall
      by_contra hnot
      obtain ⟨hstash, hupper⟩ := not_or.mp hnot
      obtain ⟨e, he⟩ := Option.ne_none_iff_exists'.mp hstash
      obtain ⟨u, hu⟩ := Option.ne_none_iff_exists'.mp hupper
      obtain ⟨later, hlater, hwrong⟩ := not_hintOk_of_stashed (M := TryChunks.machine T E) hs he
        hb hf (fun _ _ => ⟨rfl, fun _ => rfl⟩) hint hu
      exact hwrong ((hintOk_tryChunks_iff hb.items hint later).mp (hall later hlater))
    · rintro hwhen later ⟨ls', s', hrun', hs', hcalls⟩
      obtain ⟨hb', hf'⟩ := tryChunks_between h
        (Transition.run_append_eq_some.mpr ⟨s, hrun, hrun'⟩) hs'
      exact (hintOk_tryChunks_iff hb.items hint later).mpr
        (hintOk_of_between h hb hcalls hb' hf' hint hwhen)
  · intro ls s hrun hs hint
    obtain ⟨hb, hf⟩ := tryReadyChunks_between h hrun hs
    constructor
    · intro hall
      by_contra hnot
      obtain ⟨hstash, hupper⟩ := not_or.mp hnot
      obtain ⟨e, he⟩ := Option.ne_none_iff_exists'.mp hstash
      obtain ⟨u, hu⟩ := Option.ne_none_iff_exists'.mp hupper
      obtain ⟨later, hlater, hwrong⟩ := not_hintOk_of_stashed (M := TryReadyChunks.machine T E) hs
        he hb hf (fun cs hcs => ⟨congrArg start (empty_eq hcs), fun _ => rfl⟩) hint hu
      exact hwrong (hall later hlater)
    · rintro hwhen later ⟨ls', s', hrun', hs', hcalls⟩
      obtain ⟨hb', hf'⟩ := tryReadyChunks_between h
        (Transition.run_append_eq_some.mpr ⟨s, hrun, hrun'⟩) hs'
      exact hintOk_of_between h hb hcalls hb' hf' hint hwhen

/-- An item and an error come in one call of capacity two. -/
def stashedError : List (Act Unit (TryPoll ℕ ℕ)) :=
  [.call (), .answer (.ready (some (.ok 1))), .answer (.ready (some (.error 7)))]

/-- The error is returned, and the base ends. -/
def thenEnd : List (Act Unit (TryPoll ℕ ℕ)) := [.call (), .call (), .answer (.ready none)]

/-- The base has nothing more to give and says so, and one item still comes. -/
theorem stashed_error_not_counted :
    (∃ s s', (TryChunks.machine ℕ ℕ).run (Chunks.new ℕ ℕ 2 (by decide)) stashedError = some s ∧
      Transition.run (TryChunks.machine ℕ ℕ).step s thenEnd = some s' ∧
      results (s'.calls.drop s.calls.length) = [.ready (some (.error ⟨[], 7⟩)), .ready none] ∧
      answered (s'.calls.drop s.calls.length) = [.ready none] ∧
      ¬HintOk TryChunks.size_hint s ((Usize.zero, some Usize.zero) : SizeHint 9)
        (s'.calls.drop s.calls.length)) ∧
    ∃ s s', (TryReadyChunks.machine ℕ ℕ).run (Chunks.new ℕ ℕ 2 (by decide)) stashedError = some s ∧
      Transition.run (TryReadyChunks.machine ℕ ℕ).step s thenEnd = some s' ∧
      results (s'.calls.drop s.calls.length) = [.ready (some (.error ⟨[], 7⟩)), .ready none] ∧
      answered (s'.calls.drop s.calls.length) = [.ready none] ∧
      ¬HintOk TryReadyChunks.size_hint s ((Usize.zero, some Usize.zero) : SizeHint 9)
        (s'.calls.drop s.calls.length) := by
  refine ⟨⟨_, _, rfl, rfl, rfl, rfl, fun hok => ?_⟩, ⟨_, _, rfl, rfl, rfl, rfl, fun hok => ?_⟩⟩
  all_goals
    have hbrackets := hok ⟨fun _ => Nat.le_refl 0, fun _ _ => Nat.zero_le _⟩
    exact absurd (hbrackets.upper Usize.zero rfl) (by decide)

/-- The hint before the first call, with capacity two. -/
theorem chunk_hints_right_before_first_call :
    ∃ s, (TryChunks.machine ℕ ℕ).run (Chunks.new ℕ ℕ 2 (by decide)) stashedError = some s ∧
      HintOk TryChunks.size_hint (State.start (Chunks.new ℕ ℕ 2 (by decide)))
        ((⟨1, by decide⟩, some ⟨2, by decide⟩) : SizeHint 9) s.calls := by
  have hrun : ((TryChunks.machine ℕ ℕ).run (Chunks.new ℕ ℕ 2 (by decide)) stashedError).map
      (fun s => s.current) = some none := rfl
  obtain ⟨s, hs, hidle⟩ := Option.map_eq_some_iff.mp hrun
  refine ⟨s, hs, ?_⟩
  exact ((chunk_hints_right_iff_none_stashed ℕ ℕ 9 2 (by decide)).1 [] _ rfl rfl _).mpr (Or.inl rfl)
    s.calls ⟨stashedError, s, hs, hidle, rfl⟩

end TokioStreamUtil
