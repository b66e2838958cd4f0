/-
`TryChunks` and `TryReadyChunks`.

The two `poll_next` functions are the same text over a buffer that is a field in the
one and a local variable in the other. They turn out to do the same: `TryChunks`
returns what it has buffered when the base is pending, so its field is empty
between calls.
-/
import TokioStreamUtil.TryStream.Poll
import Mathlib.Data.List.Chain

set_option autoImplicit false

namespace TokioStreamUtil

open PollLoop

/-- `TryChunksError` and `TryReadyChunksError`. -/
structure TryChunksError (T E : Type) where
  items : List T
  error : E
  deriving DecidableEq

/-- What `poll_next` returns. -/
abbrev ChunkPoll (T E : Type) := Poll (Option (Except (TryChunksError T E) (List T)))

/-- The fields of `TryChunks`, and those of `TryReadyChunks` with the local variable
`items` of its `poll_next`. -/
structure Chunks (T E : Type) where
  stream : IntoFuseStream
  items : List T
  cap : ℕ
  pending_error : Option E
  /-- What `new` asserts. -/
  cap_pos : 0 < cap
  deriving DecidableEq

namespace Chunks

variable {T E : Type}

/-- `new(stream, capacity)`. -/
def new (T E : Type) (capacity : ℕ) (h : 0 < capacity) : Chunks T E where
  stream := IntoFuseStream.new
  items := []
  cap := capacity
  pending_error := none
  cap_pos := h

/-- The loop breaks with the buffered items, and an empty buffer is left. -/
def flush (self : Chunks T E) : Flow (Chunks T E) (ChunkPoll T E) :=
  .ret (.ready (some (.ok self.items))) { self with items := [] }

/-- The body of the loop, on what the fused base answers. -/
def body (self : Chunks T E) : TryPoll T E → Flow (Chunks T E) (ChunkPoll T E)
  | .ready (some (.ok item)) =>
      let self := { self with items := self.items ++ [item] }
      if self.items.length ≥ self.cap then self.flush else .again self
  | .ready (some (.error e)) =>
      if self.items.isEmpty then .ret (.ready (some (.error ⟨[], e⟩))) self
      else { self with pending_error := some e }.flush
  | .ready none => if self.items.isEmpty then .ret (.ready none) self else self.flush
  | .pending => if self.items.isEmpty then .ret .pending self else self.flush

/-- The call, up to the first poll of the base: a stashed error is returned at once.
A fused base that has ended is not asked again. -/
def start (self : Chunks T E) : Flow (Chunks T E) (ChunkPoll T E) :=
  match self.pending_error with
  | some err => .ret (.ready (some (.error ⟨[], err⟩))) { self with pending_error := none }
  | none => if self.stream.is_terminated then self.body (.ready none) else .again self

/-- One round of the loop, when the base answers `r`. -/
def round (self : Chunks T E) (r : TryPoll T E) : Flow (Chunks T E) (ChunkPoll T E) :=
  { self with stream := (self.stream.poll r).1 }.body (self.stream.poll r).2

end Chunks

/-- `TryChunks::poll_next`. Nobody but the base is asked. -/
def TryChunks.machine (T E : Type) :
    Machine Unit (Chunks T E) Unit (TryPoll T E) (ChunkPoll T E) where
  enter := fun _ self => self.start
  asks := fun _ => ()
  resume := fun self r => some (self.round r)

/-- `TryReadyChunks::poll_next`. The buffer is a fresh one in every call. -/
def TryReadyChunks.machine (T E : Type) :
    Machine Unit (Chunks T E) Unit (TryPoll T E) (ChunkPoll T E) where
  enter := fun _ self => { self with items := [] }.start
  asks := fun _ => ()
  resume := fun self r => some (self.round r)

/-- `FusedStream::is_terminated` of `TryChunks`. -/
def TryChunks.is_terminated {T E : Type} (self : Chunks T E) : Bool :=
  self.stream.is_terminated && self.items.isEmpty

/-- `FusedStream::is_terminated` of `TryReadyChunks`. -/
def TryReadyChunks.is_terminated {T E : Type} (self : Chunks T E) : Bool :=
  self.stream.is_terminated

/-! ## What the results stand for -/

namespace Chunks

variable {T E : Type}

/-- The items of the base that went into a result. -/
def contents : ChunkPoll T E → List (Except E T)
  | .ready (some (.ok v)) => v.map .ok
  | .ready (some (.error err)) => err.items.map .ok ++ [.error err.error]
  | .ready none => []
  | .pending => []

/-- The calls of `poll_next`. -/
abbrev Calls (T E : Type) := List (Call Unit Unit (TryPoll T E) (ChunkPoll T E))

/-- The items of the base that went into the results of the calls, in order. -/
def yielded (calls : Calls T E) : List (Except E T) := (results calls).flatMap contents

@[simp] theorem yielded_concat (calls : Calls T E) (c : Call Unit Unit (TryPoll T E) (ChunkPoll T E)) :
    yielded (calls ++ [c]) = yielded calls ++ contents c.result := by
  unfold yielded
  rw [results_concat, List.flatMap_append, List.flatMap_singleton]

/-- The error that waits to be returned. -/
def stashed (self : Chunks T E) : List (Except E T) := self.pending_error.toList.map .error

/-- What one call may do: a chunk is not empty and not larger than `cap`, it falls short
only where the base was pending, failed or ended in that call, an error comes without
items, and a call that returns `Pending` has taken nothing. -/
structure CallOk (cap : ℕ) (c : Call Unit Unit (TryPoll T E) (ChunkPoll T E)) : Prop where
  chunk : ∀ v, c.result = .ready (some (.ok v)) → 1 ≤ v.length ∧ v.length ≤ cap
  short : ∀ v, c.result = .ready (some (.ok v)) → v.length < cap →
    ∃ r ∈ c.asked.map Prod.snd, ∀ x, r ≠ .ready (some (.ok x))
  error : ∀ err, c.result = .ready (some (.error err)) → err.items = []
  pending : c.result = .pending → given (c.asked.map Prod.snd) = []

/-- Between calls: nothing is buffered, and what the base gave has been returned, up to
the error that waits. -/
structure Between (cap : ℕ) (cs : Chunks T E) (calls : Calls T E) : Prop where
  cap_eq : cs.cap = cap
  items : cs.items = []
  fused : cs.stream.is_terminated = true → cs.pending_error = none
  ended : .ready none ∈ results calls → cs.stream.is_terminated = true
  books : yielded calls ++ cs.stashed = given (answered calls)
  calls : ∀ c ∈ calls, CallOk cap c

/-- At the head of the loop: the buffer holds what this call has taken. -/
structure Within (cap : ℕ) (cs : Chunks T E) (calls : Calls T E) (k : Unit)
    (asked : List (Unit × TryPoll T E)) : Prop where
  cap_eq : cs.cap = cap
  running : cs.stream.is_terminated = false
  none_stashed : cs.pending_error = none
  taken : asked.map Prod.snd = cs.items.map fun x => .ready (some (.ok x))
  room : cs.items.length < cap
  not_ended : .ready none ∉ results calls
  books : yielded calls = given (answered calls)
  calls : ∀ c ∈ calls, CallOk cap c

variable {cap : ℕ} {cs : Chunks T E} {calls : Calls T E} {k : Unit}
  {asked : List (Unit × TryPoll T E)}

theorem given_map_ok (items : List T) :
    given (items.map fun x => (.ready (some (.ok x)) : TryPoll T E)) = items.map .ok := by
  unfold given
  rw [List.filterMap_map]
  exact congrFun List.filterMap_eq_map items

theorem Within.given_taken (h : cs.Within cap calls k asked) :
    given (asked.map Prod.snd) = cs.items.map .ok := by
  rw [h.taken, given_map_ok]

/-- A call that ends by returning what it has buffered. -/
theorem flush_keeps (hcap : cs.cap = cap) (hitems : cs.items ≠ []) (hle : cs.items.length ≤ cap)
    (hfused : cs.stream.is_terminated = true → cs.pending_error = none)
    (hended : .ready none ∉ results calls)
    (hbooks : yielded calls ++ (cs.items.map .ok ++ cs.stashed) =
      given (answered calls) ++ given (asked.map Prod.snd))
    (hshort : cs.items.length < cap → ∃ r ∈ asked.map Prod.snd, ∀ x, r ≠ .ready (some (.ok x)))
    (hcalls : ∀ c ∈ calls, CallOk cap c) :
    cs.flush.Keeps (Between cap) (Within cap) calls k asked := by
  refine ⟨hcap, rfl, hfused, ?_, ?_, ?_⟩
  · rw [results_concat, List.mem_append, List.mem_singleton]
    rintro (hmem | heq)
    · exact absurd hmem hended
    · cases heq
  · rw [yielded_concat, answered_concat, given_append, List.append_assoc]
    exact hbooks
  · intro c hc
    rcases List.mem_append.mp hc with hc | hc
    · exact hcalls c hc
    · rw [List.mem_singleton] at hc
      subst hc
      refine ⟨fun v hv => ?_, fun v hv => ?_, nofun, nofun⟩
      · cases hv
        exact ⟨List.length_pos_iff.mpr hitems, hle⟩
      · cases hv
        exact hshort

/-- A call that ends without a chunk and leaves the buffer empty. -/
theorem ret_keeps {r : ChunkPoll T E} (hcap : cs.cap = cap) (hitems : cs.items = [])
    (hstashed : cs.pending_error = none) (hr : ∀ v, r ≠ .ready (some (.ok v)))
    (herror : ∀ err, r = .ready (some (.error err)) → err.items = [])
    (hbooks : yielded calls ++ contents r = given (answered calls) ++ given (asked.map Prod.snd))
    (hended : .ready none ∈ results calls ∨ .ready none = r → cs.stream.is_terminated = true)
    (hpending : r = .pending → given (asked.map Prod.snd) = [])
    (hcalls : ∀ c ∈ calls, CallOk cap c) :
    (Flow.ret r cs).Keeps (Between cap) (Within cap) calls k asked := by
  refine ⟨hcap, hitems, fun _ => hstashed, ?_, ?_, ?_⟩
  · rwa [results_concat, List.mem_append, List.mem_singleton]
  · rw [yielded_concat, answered_concat, given_append, stashed, hstashed]
    exact (List.append_nil _).trans hbooks
  · intro c hc
    rcases List.mem_append.mp hc with hc | hc
    · exact hcalls c hc
    · rw [List.mem_singleton] at hc
      subst hc
      exact ⟨fun v hv => absurd hv (hr v), fun v hv => absurd hv (hr v), herror, hpending⟩

/-- **One round.** The item goes into the buffer or the call ends. -/
theorem Within.round_keeps (h : cs.Within cap calls k asked) (r : TryPoll T E) :
    (cs.round r).Keeps (Between cap) (Within cap) calls k (asked ++ [((), r)]) := by
  have hgiven : given ((asked ++ [((), r)]).map Prod.snd) = cs.items.map .ok ++ given [r] := by
    rw [List.map_append, given_append, h.given_taken]
    rfl
  have hshort : (∀ x, r ≠ .ready (some (.ok x))) → cs.items.length < cap →
      ∃ r' ∈ (asked ++ [((), r)]).map Prod.snd, ∀ x, r' ≠ .ready (some (.ok x)) := by
    intro hr _
    refine ⟨r, ?_, hr⟩
    rw [List.map_append]
    exact List.mem_append_right _ List.mem_cons_self
  unfold round
  rcases r with _ | _ | e | item
  · rw [IntoFuseStream.poll_pending h.running]
    unfold body
    dsimp only
    split
    · rename_i hempty
      have hnil : cs.items = [] := List.isEmpty_iff.mp hempty
      refine ret_keeps h.cap_eq hnil h.none_stashed nofun nofun ?_ ?_ ?_ h.calls
      · rw [hgiven, h.books, hnil]
        rfl
      · rintro (hmem | heq)
        · exact absurd hmem h.not_ended
        · cases heq
      · intro _
        rw [hgiven, hnil]
        rfl
    · rename_i hne
      refine flush_keeps h.cap_eq (fun hnil => hne (List.isEmpty_iff.mpr hnil)) h.room.le
        (fun _ => h.none_stashed) h.not_ended ?_ (hshort nofun) h.calls
      rw [hgiven, h.books, stashed, h.none_stashed]
      rfl
  · rw [IntoFuseStream.poll_end h.running]
    unfold body
    dsimp only
    split
    · rename_i hempty
      have hnil : cs.items = [] := List.isEmpty_iff.mp hempty
      refine ret_keeps h.cap_eq hnil h.none_stashed nofun nofun ?_ (fun _ => rfl) nofun h.calls
      rw [hgiven, h.books, hnil]
      rfl
    · rename_i hne
      refine flush_keeps h.cap_eq (fun hnil => hne (List.isEmpty_iff.mpr hnil)) h.room.le
        (fun _ => h.none_stashed) h.not_ended ?_ (hshort nofun) h.calls
      rw [hgiven, h.books, stashed]
      dsimp only
      rw [h.none_stashed]
      rfl
  · rw [IntoFuseStream.poll_item h.running]
    unfold body
    dsimp only
    split
    · rename_i hempty
      have hnil : cs.items = [] := List.isEmpty_iff.mp hempty
      refine ret_keeps h.cap_eq hnil h.none_stashed nofun (fun err herr => by cases herr; rfl) ?_ ?_ nofun h.calls
      · rw [hgiven, h.books, hnil]
        rfl
      · rintro (hmem | heq)
        · exact absurd hmem h.not_ended
        · cases heq
    · rename_i hne
      -- the base has failed and not ended, so the error may wait
      refine flush_keeps h.cap_eq (fun hnil => hne (List.isEmpty_iff.mpr hnil)) h.room.le
        (fun hterminated => absurd (h.running.symm.trans hterminated) nofun) h.not_ended ?_
        (hshort nofun) h.calls
      rw [hgiven, h.books]
      rfl
  · rw [IntoFuseStream.poll_item h.running]
    unfold body
    dsimp only
    have hlen : (cs.items ++ [item]).length = cs.items.length + 1 := by
      rw [List.length_append, List.length_singleton]
    have hroom := h.room
    split
    · rename_i hfull
      rw [h.cap_eq] at hfull
      refine flush_keeps h.cap_eq (List.append_ne_nil_of_right_ne_nil _ (List.cons_ne_nil _ _)) ?_
        (fun _ => h.none_stashed) h.not_ended ?_ ?_ h.calls
      · show (cs.items ++ [item]).length ≤ cap
        omega
      · rw [hgiven, h.books, stashed]
        dsimp only
        rw [h.none_stashed, List.map_append, List.append_assoc]
        rfl
      · intro hlt
        exact absurd hlt (not_lt.mpr hfull)
    · rename_i hfull
      rw [h.cap_eq] at hfull
      refine ⟨h.cap_eq, h.running, h.none_stashed, ?_, not_le.mp hfull, h.not_ended, h.books,
        h.calls⟩
      rw [List.map_append, h.taken, List.map_append]
      rfl

/-- The beginning of a call, with an empty buffer. -/
theorem Between.start_keeps (h : cs.Between cap calls) :
    cs.start.Keeps (Between cap) (Within cap) calls k [] := by
  unfold start
  split
  · rename_i err herr
    refine ret_keeps h.cap_eq h.items rfl nofun (fun err herr => by cases herr; rfl) ?_ ?_ nofun h.calls
    · have hbooks := h.books
      unfold stashed at hbooks
      rw [herr] at hbooks
      rw [← hbooks]
      exact (List.append_nil _).symm
    · rintro (hmem | heq)
      · exact h.ended hmem
      · cases heq
  · rename_i hstashed
    have hbooks : yielded calls = given (answered calls) := by
      rw [← h.books, stashed, hstashed]
      exact (List.append_nil _).symm
    split
    · unfold body
      dsimp only
      rw [if_pos (List.isEmpty_iff.mpr h.items)]
      refine ret_keeps h.cap_eq h.items hstashed nofun nofun ?_ (fun _ => ‹_›) nofun h.calls
      rw [hbooks]
      rfl
    · rename_i hrunning
      refine ⟨h.cap_eq, Bool.not_eq_true _ ▸ hrunning, hstashed, ?_, ?_,
        fun hmem => hrunning (h.ended hmem), hbooks, h.calls⟩
      · rw [h.items]
        rfl
      · rw [h.items, ← h.cap_eq]
        exact cs.cap_pos

/-! ## Reassembly -/

/-- The state of one of the two adaptors. -/
abbrev Run (T E : Type) := State Unit (Chunks T E) Unit (TryPoll T E) (ChunkPoll T E)

theorem between_new (h : 0 < cap) : (new T E cap h).Between cap [] :=
  ⟨rfl, rfl, fun _ => rfl, nofun, rfl, nofun⟩

theorem tryChunks_holds (h : 0 < cap) {ls : List (Act Unit (TryPoll T E))} {s : Run T E}
    (hrun : (TryChunks.machine T E).run (new T E cap h) ls = some s) :
    s.Holds (Between cap) (Within cap) := by
  refine run_keeps (between_new h) (fun cs calls k hcs => hcs.start_keeps) ?_ hrun
  intro cs calls k asked r f hcs hf
  cases hf
  exact hcs.round_keeps r

theorem tryReadyChunks_holds (h : 0 < cap) {ls : List (Act Unit (TryPoll T E))} {s : Run T E}
    (hrun : (TryReadyChunks.machine T E).run (new T E cap h) ls = some s) :
    s.Holds (Between cap) (Within cap) := by
  refine run_keeps (between_new h) (fun cs calls k hcs => ?_) ?_ hrun
  · have hsame : { cs with items := [] } = cs := by rw [← hcs.items]
    show ({ cs with items := [] } : Chunks T E).start.Keeps _ _ _ _ _
    rw [hsame]
    exact hcs.start_keeps
  · intro cs calls k asked r f hcs hf
    cases hf
    exact hcs.round_keeps r

/-- What the caller of `poll_next` sees, between two calls: `stashed` is the error that
the last chunk was cut short by. -/
structure Reassembles (M : Machine Unit (Chunks T E) Unit (TryPoll T E) (ChunkPoll T E))
    (is_terminated : Chunks T E → Bool) (cap : ℕ) (s : Run T E) : Prop where
  books : yielded s.calls ++ s.self.stashed = given (answered s.calls)
  ended : .ready none ∈ results s.calls → yielded s.calls = given (answered s.calls)
  calls : ∀ c ∈ s.calls, CallOk cap c
  next : ∀ err, s.self.pending_error = some err → ∀ s', M.step s (.call ()) = some s' →
    s'.current = none ∧ s'.calls = s.calls ++ [⟨(), [], .ready (some (.error ⟨[], err⟩))⟩]
  not_terminated : is_terminated s.self = true → s.self.pending_error = none

/-- At the end of the stream no error waits. -/
theorem Between.yielded_of_ended (h : cs.Between cap calls) (hended : .ready none ∈ results calls) :
    yielded calls = given (answered calls) := by
  have hbooks := h.books
  rw [stashed, h.fused (h.ended hended)] at hbooks
  exact (List.append_nil _).symm.trans hbooks

/-- A stashed error is returned at once. -/
theorem start_of_stashed {err : E} (herr : cs.pending_error = some err) :
    cs.start = .ret (.ready (some (.error ⟨[], err⟩))) { cs with pending_error := none } := by
  unfold start
  rw [herr]

theorem reassembles_of_between {M : Machine Unit (Chunks T E) Unit (TryPoll T E) (ChunkPoll T E)}
    {is_terminated : Chunks T E → Bool} {s : Run T E} (h : s.self.Between cap s.calls)
    (hidle : s.current = none)
    (hterminated : is_terminated s.self = true → s.self.stream.is_terminated = true)
    (henter : ∀ err, s.self.pending_error = some err →
      ∃ cs, M.enter () s.self = .ret (.ready (some (.error ⟨[], err⟩))) cs) :
    Reassembles M is_terminated cap s := by
  refine ⟨h.books, h.yielded_of_ended, h.calls, fun err herr s' hs' => ?_,
    fun ht => h.fused (hterminated ht)⟩
  obtain ⟨cs, hcs⟩ := henter err herr
  unfold Machine.step at hs'
  rw [hidle] at hs'
  dsimp only at hs'
  rw [hcs] at hs'
  cases hs'
  exact ⟨rfl, rfl⟩

end Chunks

open Chunks (Reassembles)

/-- **The chunks, put together, are the base.** For `TryChunks` and `TryReadyChunks`,
with any capacity, after every call: what was returned, followed by the error that
waits, is what the base has given, in its order. No chunk is empty or too large, and
none is short but for the base; the error that waits is returned by the next call,
which does not poll the base, and the stream is not terminated before. -/
theorem chunks_reassemble (T E : Type) (cap : ℕ) (h : 0 < cap) :
    (∀ ls s, (TryChunks.machine T E).run (Chunks.new T E cap h) ls = some s → s.current = none →
      Reassembles (TryChunks.machine T E) TryChunks.is_terminated cap s) ∧
    (∀ ls s, (TryReadyChunks.machine T E).run (Chunks.new T E cap h) ls = some s →
      s.current = none →
      Reassembles (TryReadyChunks.machine T E) TryReadyChunks.is_terminated cap s) := by
  constructor
  · intro ls s hrun hidle
    have hbetween := (Chunks.tryChunks_holds h hrun).idle hidle
    refine Chunks.reassembles_of_between hbetween hidle (fun ht => ?_) (fun err herr => ?_)
    · unfold TryChunks.is_terminated at ht
      exact (Bool.and_eq_true_iff.mp ht).1
    · exact ⟨_, Chunks.start_of_stashed herr⟩
  · intro ls s hrun hidle
    have hbetween := (Chunks.tryReadyChunks_holds h hrun).idle hidle
    refine Chunks.reassembles_of_between hbetween hidle id (fun err herr => ?_)
    exact ⟨_, Chunks.start_of_stashed (show ({ s.self with items := [] } : Chunks T E).pending_error = some err from herr)⟩

/-- Two items, an error, and one call more. -/
def cutShort : List (Act Unit (TryPoll ℕ ℕ)) :=
  [.call (), .answer (.ready (some (.ok 1))), .answer (.ready (some (.ok 2))),
    .answer (.ready (some (.error 7))), .call ()]

theorem chunks_reassemble_cut_short :
    (∃ s, (TryChunks.machine ℕ ℕ).run (Chunks.new ℕ ℕ 3 (by decide)) cutShort = some s ∧
      Reassembles (TryChunks.machine ℕ ℕ) TryChunks.is_terminated 3 s ∧
      results s.calls = [.ready (some (.ok [1, 2])), .ready (some (.error ⟨[], 7⟩))]) ∧
    ∃ s, (TryReadyChunks.machine ℕ ℕ).run (Chunks.new ℕ ℕ 3 (by decide)) cutShort = some s ∧
      Reassembles (TryReadyChunks.machine ℕ ℕ) TryReadyChunks.is_terminated 3 s ∧
      results s.calls = [.ready (some (.ok [1, 2])), .ready (some (.error ⟨[], 7⟩))] := by
  have hboth := chunks_reassemble ℕ ℕ 3 (by decide)
  constructor
  · have hrun : ((TryChunks.machine ℕ ℕ).run (Chunks.new ℕ ℕ 3 (by decide)) cutShort).map
        (fun s => (s.current, results s.calls)) =
        some (none, [.ready (some (.ok [1, 2])), .ready (some (.error ⟨[], 7⟩))]) :=
      rfl
    obtain ⟨s, hs, hseen⟩ := Option.map_eq_some_iff.mp hrun
    obtain ⟨hidle, hresults⟩ := Prod.mk.inj hseen
    exact ⟨s, hs, hboth.1 cutShort s hs hidle, hresults⟩
  · have hrun : ((TryReadyChunks.machine ℕ ℕ).run (Chunks.new ℕ ℕ 3 (by decide)) cutShort).map
        (fun s => (s.current, results s.calls)) =
        some (none, [.ready (some (.ok [1, 2])), .ready (some (.error ⟨[], 7⟩))]) :=
      rfl
    obtain ⟨s, hs, hseen⟩ := Option.map_eq_some_iff.mp hrun
    obtain ⟨hidle, hresults⟩ := Prod.mk.inj hseen
    exact ⟨s, hs, hboth.2 cutShort s hs hidle, hresults⟩

end TokioStreamUtil
