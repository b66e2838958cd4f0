/-
`IntoAsyncRead`: the chunks of the base, read as bytes.

`poll_read` and `poll_fill_buf` with `consume` move one cursor through the current
chunk. The next chunk is taken when the cursor has come to the end of the last.
-/
import TokioStreamUtil.TryStream.Poll

set_option autoImplicit false

namespace TokioStreamUtil

open PollLoop

namespace IntoAsyncRead

/-- `ReadState`. -/
inductive ReadState (T : Type) where
  | Ready (chunk : T) (chunk_start : ℕ)
  | PendingChunk
  | Eof

/-- The functions of the reader. `remaining` is the room in the buffer of the caller. -/
inductive Op where
  | poll_read (remaining : ℕ)
  | poll_fill_buf
  | consume (amount : ℕ)

/-- What they return. `read` says which bytes were put into the buffer. The last three
are panics: a slice index out of range, `unreachable!`, and `debug_assert!`. -/
inductive Reply (E : Type) where
  | read (r : Poll (Except E (List UInt8)))
  | filled (r : Poll (Except E (List UInt8)))
  | consumed
  | sliceFailed
  | unreachable
  | assertFailed

/-- `IntoAsyncRead`, without the base. `op` is the call in progress. `delivered` is
history: the bytes put into buffers and those consumed, in order. -/
structure Reader (T : Type) where
  state : ReadState T
  op : Op
  delivered : List UInt8

variable {T E : Type} (as_ref : T → List UInt8)

namespace Reader

/-- `IntoAsyncRead::new`. -/
def new (T : Type) : Reader T := { state := .PendingChunk, op := .poll_fill_buf, delivered := [] }

/-- `poll_read` at the head of its loop. -/
def readLoop (self : Reader T) (remaining : ℕ) : Flow (Reader T) (Reply E) :=
  match self.state with
  | .Ready chunk chunk_start =>
      if chunk_start ≤ (as_ref chunk).length then
        let available := (as_ref chunk).drop chunk_start
        let len := min remaining available.length
        let chunk_start := chunk_start + len
        .ret (.read (.ready (.ok (available.take len))))
          { self with
            state :=
              if (as_ref chunk).length = chunk_start then .PendingChunk else .Ready chunk chunk_start
            delivered := self.delivered ++ available.take len }
      else .ret .sliceFailed self
  | .PendingChunk => .again self
  | .Eof => .ret (.read (.ready (.ok []))) self

/-- `poll_fill_buf` behind its loop. -/
def slice (self : Reader T) : Flow (Reader T) (Reply E) :=
  match self.state with
  | .Ready chunk chunk_start =>
      if chunk_start ≤ (as_ref chunk).length then
        .ret (.filled (.ready (.ok ((as_ref chunk).drop chunk_start)))) self
      else .ret .sliceFailed self
  | .Eof => .ret (.filled (.ready (.ok []))) self
  | .PendingChunk => .ret .unreachable self

/-- `poll_fill_buf` at the head of its loop. -/
def fillLoop (self : Reader T) : Flow (Reader T) (Reply E) :=
  match self.state with
  | .PendingChunk => .again self
  | _ => self.slice as_ref

/-- `consume`. -/
def consume (self : Reader T) (amount : ℕ) : Flow (Reader T) (Reply E) :=
  if amount = 0 then .ret .consumed self
  else
    match self.state with
    | .Ready chunk chunk_start =>
        let bytes := ((as_ref chunk).drop chunk_start).take amount
        let chunk_start := chunk_start + amount
        if chunk_start ≤ (as_ref chunk).length then
          .ret .consumed
            { self with
              state :=
                if chunk_start ≥ (as_ref chunk).length then .PendingChunk
                else .Ready chunk chunk_start
              delivered := self.delivered ++ bytes }
        else .ret .assertFailed { self with state := .Ready chunk chunk_start }
    | _ => .ret .assertFailed self

/-- The call in progress, at the head of its loop. -/
def loop (self : Reader T) : Flow (Reader T) (Reply E) :=
  match self.op with
  | .poll_read remaining => self.readLoop as_ref remaining
  | .poll_fill_buf => self.fillLoop as_ref
  | .consume amount => self.consume as_ref amount

/-- What `r` is as a result of the call in progress. -/
def reply (self : Reader T) (r : Poll (Except E (List UInt8))) : Reply E :=
  match self.op with
  | .poll_read _ => .read r
  | _ => .filled r

/-- The base has answered. The two loops do the same with it, and skip an empty chunk. -/
def onBase (self : Reader T) : TryPoll T E → Flow (Reader T) (Reply E)
  | .pending => .ret (self.reply .pending) self
  | .ready (some (.ok chunk)) =>
      if (as_ref chunk).isEmpty then self.loop as_ref
      else { self with state := .Ready chunk 0 }.loop as_ref
  | .ready (some (.error err)) => .ret (self.reply (.ready (.error err))) { self with state := .Eof }
  | .ready none => .ret (self.reply (.ready (.ok []))) { self with state := .Eof }

/-- The slice that is available: what `poll_fill_buf` returns if it is called now, and does
not have to ask the base. -/
def available (self : Reader T) : List UInt8 :=
  match (self.fillLoop as_ref : Flow (Reader T) (Reply Empty)) with
  | .ret (.filled (.ready (.ok slice))) _ => slice
  | _ => []

end Reader

/-- The reader. It asks nobody but the base. -/
def machine (E : Type) : Machine Op (Reader T) Unit (TryPoll T E) (Reply E) where
  enter := fun op self => { self with op := op }.loop as_ref
  asks := fun _ => ()
  resume := fun self r => some (self.onBase as_ref r)

/-! ## What the caller sees -/

/-- The state of the reader between steps. -/
abbrev Run (T E : Type) := State Op (Reader T) Unit (TryPoll T E) (Reply E)

/-- The calls made. -/
abbrev Calls (T E : Type) := List (Call Op Unit (TryPoll T E) (Reply E))

/-- The bytes of an item of the base. -/
def bytes : Except E T → List UInt8
  | .ok chunk => as_ref chunk
  | .error _ => []

/-- All bytes of the chunks among the answers, in order. -/
def allBytes (answers : List (TryPoll T E)) : List UInt8 := (given answers).flatMap (bytes as_ref)

/-- The base has ended or failed. -/
def stops : TryPoll T E → Bool
  | .ready none => true
  | .ready (some (.error _)) => true
  | _ => false

/-- The error among an answer of the base. -/
def errorOf : TryPoll T E → Option E
  | .ready (some (.error e)) => some e
  | _ => none

/-- The error that a call reports. -/
def Reply.error : Reply E → Option E
  | .read (.ready (.error e)) => some e
  | .filled (.ready (.error e)) => some e
  | _ => none

/-- The call says that there are no more bytes: it had room for some, and no error. -/
def AtEnd (c : Call Op Unit (TryPoll T E) (Reply E)) : Prop :=
  (∃ remaining, c.arg = .poll_read remaining ∧ 0 < remaining ∧ c.result = .read (.ready (.ok []))) ∨
    c.result = .filled (.ready (.ok []))

/-- The call did not panic. -/
def Returned (c : Call Op Unit (TryPoll T E) (Reply E)) : Prop :=
  c.result ≠ .sliceFailed ∧ c.result ≠ .unreachable ∧ c.result ≠ .assertFailed

/-- The callers consume no more than what is available. -/
def Within (s : Run T E) : Act Op (TryPoll T E) → Prop
  | .call (.consume amount) => amount ≤ (s.self.available as_ref).length
  | _ => True

/-! ## The invariant -/

/-- `answers` are those of the base so far. What was delivered and what is available are
the bytes of all its chunks, and the reader is at `Eof` from its end or error on. -/
structure Sound (rd : Reader T) (calls : Calls T E) (answers : List (TryPoll T E)) : Prop where
  cursor : ∀ chunk chunk_start, rd.state = .Ready chunk chunk_start →
    chunk_start < (as_ref chunk).length
  books : rd.delivered ++ rd.available as_ref = allBytes as_ref answers
  running : rd.state ≠ .Eof → ∀ a ∈ answers, stops a = false
  stopped : rd.state = .Eof → ∃ before a, answers = before ++ [a] ∧ stops a = true ∧
    ∀ b ∈ before, stops b = false
  errors : calls.filterMap (fun c => c.result.error) = answers.filterMap errorOf
  returned : ∀ c ∈ calls, Returned c
  at_end : ∀ c ∈ calls, AtEnd c → rd.state = .Eof

/-- Between calls. -/
def Between (rd : Reader T) (calls : Calls T E) : Prop := Sound as_ref rd calls (answered calls)

/-- At the head of the loop a chunk is wanted. -/
structure InLoop (rd : Reader T) (calls : Calls T E) (op : Op) (asked : List (Unit × TryPoll T E)) :
    Prop where
  sound : Sound as_ref rd calls (answered calls ++ asked.map Prod.snd)
  state : rd.state = .PendingChunk
  op_eq : rd.op = op
  not_consume : ∀ amount, op ≠ .consume amount

variable {as_ref} {rd rd' : Reader T} {calls : Calls T E} {op : Op}
  {answers : List (TryPoll T E)} {asked : List (Unit × TryPoll T E)}

theorem allBytes_concat (answers : List (TryPoll T E)) (r : TryPoll T E) :
    allBytes as_ref (answers ++ [r]) = allBytes as_ref answers ++ (given [r]).flatMap (bytes as_ref) := by
  unfold allBytes
  rw [given_append, List.flatMap_append]

theorem Reader.available_of_ready {chunk : T} {chunk_start : ℕ}
    (h : rd.state = .Ready chunk chunk_start) :
    rd.available as_ref = (as_ref chunk).drop chunk_start := by
  by_cases hle : chunk_start ≤ (as_ref chunk).length
  · simp [available, fillLoop, slice, h, hle]
  · simp [available, fillLoop, slice, h, hle, List.drop_eq_nil_of_le (Nat.le_of_not_le hle)]

theorem Reader.available_of_pending (h : rd.state = .PendingChunk) : rd.available as_ref = [] := by
  simp [available, fillLoop, h]

theorem Reader.available_of_eof (h : rd.state = .Eof) : rd.available as_ref = [] := by
  simp [available, fillLoop, slice, h]

/-- What is available does not depend on what is called. -/
theorem Reader.available_op (rd : Reader T) (op : Op) :
    Reader.available as_ref { rd with op := op } = rd.available as_ref := by
  rcases rd with ⟨_ | _ | _, _, _⟩
  · rw [available_of_ready rfl, available_of_ready rfl]
  · rfl
  · rfl

theorem Reader.available_of_not_ready
    (h : ∀ chunk chunk_start, rd.state = .Ready chunk chunk_start → False) :
    rd.available as_ref = [] := by
  cases hs : rd.state with
  | Ready chunk chunk_start => exact (h chunk chunk_start hs).elim
  | PendingChunk => exact available_of_pending hs
  | Eof => exact available_of_eof hs

/-- A call that returns without an error. -/
theorem Sound.ret {r : Reply E} (h : Sound as_ref rd calls (answered calls ++ asked.map Prod.snd))
    (herror : r.error = none) (hreturned : Returned ⟨op, asked, r⟩)
    (hend : AtEnd ⟨op, asked, r⟩ → rd.state = .Eof) :
    (Flow.ret r rd).Keeps (Between as_ref) (InLoop as_ref) calls op asked := by
  show Sound as_ref rd (calls ++ [⟨op, asked, r⟩]) _
  rw [answered_concat]
  refine ⟨h.cursor, h.books, h.running, h.stopped, ?_, fun c hc => ?_, fun c hc => ?_⟩
  · have hlast : [(⟨op, asked, r⟩ : Call Op Unit (TryPoll T E) (Reply E))].filterMap
        (fun c => c.result.error) = [] := List.filterMap_cons_none herror
    rw [List.filterMap_append, h.errors, hlast, List.append_nil]
  · rcases List.mem_append.mp hc with hc | hc
    · exact h.returned c hc
    · rw [List.mem_singleton.mp hc]
      exact hreturned
  · rcases List.mem_append.mp hc with hc | hc
    · exact h.at_end c hc
    · rw [List.mem_singleton.mp hc]
      exact hend

/-- The cursor moves on by `n` bytes, which are delivered. -/
theorem Sound.advance {chunk : T} {chunk_start n : ℕ} (h : Sound as_ref rd calls answers)
    (hstate : rd.state = .Ready chunk chunk_start)
    (hdelivered : rd'.delivered = rd.delivered ++ ((as_ref chunk).drop chunk_start).take n)
    (hstate' : chunk_start + n < (as_ref chunk).length ∧ rd'.state = .Ready chunk (chunk_start + n) ∨
      (as_ref chunk).length = chunk_start + n ∧ rd'.state = .PendingChunk) :
    Sound as_ref rd' calls answers := by
  have hne : rd.state ≠ .Eof := by
    rw [hstate]
    nofun
  have hne' : rd'.state ≠ .Eof := by
    rcases hstate' with ⟨-, hs⟩ | ⟨-, hs⟩
    · rw [hs]
      nofun
    · rw [hs]
      nofun
  have hrest : rd'.available as_ref = ((as_ref chunk).drop chunk_start).drop n := by
    rw [List.drop_drop]
    rcases hstate' with ⟨-, hs⟩ | ⟨hlen, hs⟩
    · exact Reader.available_of_ready hs
    · rw [Reader.available_of_pending hs, ← hlen, List.drop_length]
  refine ⟨fun chunk' start' hs' => ?_, ?_, fun _ => h.running hne, fun heof => absurd heof hne',
    h.errors, h.returned, fun c hc hend => absurd (h.at_end c hc hend) hne⟩
  · rcases hstate' with ⟨hlt, hs⟩ | ⟨-, hs⟩
    · rw [hs] at hs'
      cases hs'
      exact hlt
    · rw [hs] at hs'
      cases hs'
  · rw [hdelivered, hrest, List.append_assoc, List.take_append_drop,
      ← Reader.available_of_ready hstate]
    exact h.books

/-- `poll_read` at the head of its loop. -/
theorem Sound.readLoop_keeps {remaining : ℕ}
    (h : Sound as_ref rd calls (answered calls ++ asked.map Prod.snd))
    (hop : rd.op = .poll_read remaining) :
    (rd.readLoop as_ref remaining).Keeps (Between as_ref) (InLoop as_ref) calls
      (.poll_read remaining) asked := by
  unfold Reader.readLoop
  split
  · rename_i chunk chunk_start hstate
    have hcursor := h.cursor chunk chunk_start hstate
    have hlen : ((as_ref chunk).drop chunk_start).length = (as_ref chunk).length - chunk_start :=
      List.length_drop ..
    rw [if_pos hcursor.le]
    refine Sound.ret (h.advance hstate rfl ?_) rfl ⟨nofun, nofun, nofun⟩ ?_
    · dsimp only
      split
      · rename_i hused
        exact Or.inr ⟨hused, rfl⟩
      · rename_i hused
        refine Or.inl ⟨?_, rfl⟩
        omega
    · -- there was a byte left, and room for it
      rintro (⟨remaining', hremaining, hpos, hempty⟩ | hfilled)
      · cases hremaining
        have hnil := Except.ok.inj (Poll.ready.inj (Reply.read.inj hempty))
        have hzero := congrArg List.length hnil
        rw [List.length_take, List.length_nil] at hzero
        omega
      · cases hfilled
  · rename_i hstate
    exact ⟨h, hstate, hop, nofun⟩
  · rename_i hstate
    exact Sound.ret h rfl ⟨nofun, nofun, nofun⟩ fun _ => hstate

/-- `poll_fill_buf` at the head of its loop. -/
theorem Sound.fillLoop_keeps (h : Sound as_ref rd calls (answered calls ++ asked.map Prod.snd))
    (hop : rd.op = .poll_fill_buf) :
    (rd.fillLoop as_ref).Keeps (Between as_ref) (InLoop as_ref) calls .poll_fill_buf asked := by
  unfold Reader.fillLoop Reader.slice
  split
  · rename_i hstate
    exact ⟨h, hstate, hop, nofun⟩
  · rename_i hpending
    split
    · rename_i chunk chunk_start hstate
      have hcursor := h.cursor chunk chunk_start hstate
      rw [if_pos hcursor.le]
      refine Sound.ret h rfl ⟨nofun, nofun, nofun⟩ ?_
      rintro (⟨_, hop', -⟩ | hempty)
      · cases hop'
      · have hnil := Except.ok.inj (Poll.ready.inj (Reply.filled.inj hempty))
        rw [List.drop_eq_nil_iff] at hnil
        omega
    · rename_i hstate
      exact Sound.ret h rfl ⟨nofun, nofun, nofun⟩ fun _ => hstate
    · rename_i hstate
      exact (hpending hstate).elim

/-- `consume`, of no more than what is available. -/
theorem Sound.consume_keeps {amount : ℕ}
    (h : Sound as_ref rd calls (answered calls ++ asked.map Prod.snd))
    (hle : amount ≤ (rd.available as_ref).length) :
    (rd.consume as_ref amount).Keeps (Between as_ref) (InLoop as_ref) calls (.consume amount)
      asked := by
  have hend (r : Reply E) (hr : r = .consumed) :
      AtEnd ⟨.consume amount, asked, r⟩ → rd.state = .Eof := by
    rintro (⟨_, hop, -⟩ | hfilled)
    · cases hop
    · rw [hr] at hfilled
      cases hfilled
  unfold Reader.consume
  split
  · exact Sound.ret h rfl ⟨nofun, nofun, nofun⟩ (hend _ rfl)
  · rename_i hzero
    split
    · rename_i chunk chunk_start hstate
      have hcursor := h.cursor chunk chunk_start hstate
      rw [Reader.available_of_ready hstate, List.length_drop] at hle
      dsimp only
      rw [if_pos (by omega)]
      refine Sound.ret (h.advance hstate rfl ?_) rfl ⟨nofun, nofun, nofun⟩ ?_
      · dsimp only
        split
        · exact Or.inr ⟨by omega, rfl⟩
        · exact Or.inl ⟨by omega, rfl⟩
      · rintro (⟨_, hop, -⟩ | hfilled)
        · cases hop
        · cases hfilled
    · -- without a chunk nothing is available
      rename_i hready
      have hnil : rd.available as_ref = [] := Reader.available_of_not_ready hready
      rw [hnil, List.length_nil] at hle
      omega

/-- The call at the head of its loop. -/
theorem Sound.loop_keeps (h : Sound as_ref rd calls (answered calls ++ asked.map Prod.snd))
    (hconsume : ∀ amount, rd.op = .consume amount → amount ≤ (rd.available as_ref).length) :
    (rd.loop as_ref).Keeps (Between as_ref) (InLoop as_ref) calls rd.op asked := by
  unfold Reader.loop
  split
  · rename_i remaining hop
    rw [hop]
    exact h.readLoop_keeps hop
  · rename_i hop
    rw [hop]
    exact h.fillLoop_keeps hop
  · rename_i amount hop
    rw [hop]
    exact h.consume_keeps (hconsume amount hop)

/-- An answer that does not stop the base. -/
theorem Sound.running_concat (h : Sound as_ref rd calls answers) (hstate : rd.state = .PendingChunk)
    {r : TryPoll T E} (hr : stops r = false) : ∀ a ∈ answers ++ [r], stops a = false := by
  intro a ha
  rcases List.mem_append.mp ha with ha | ha
  · exact h.running (by rw [hstate]; nofun) a ha
  · rw [List.mem_singleton.mp ha]
    exact hr

/-- The base stops, which the call reports: all that it gave has been delivered. -/
theorem Sound.stop (h : Sound as_ref rd calls answers) (hstate : rd.state = .PendingChunk)
    {r : TryPoll T E} (hr : stops r = true) (hgiven : (given [r]).flatMap (bytes as_ref) = [])
    {c : Call Op Unit (TryPoll T E) (Reply E)} (herror : c.result.error = errorOf r)
    (hreturned : Returned c) :
    Sound as_ref { rd with state := .Eof } (calls ++ [c]) (answers ++ [r]) := by
  have hrunning := h.running (by rw [hstate]; nofun)
  refine ⟨nofun, ?_, fun hs => absurd rfl hs, fun _ => ⟨_, r, rfl, hr, hrunning⟩, ?_,
    fun c' hc => ?_, fun _ _ _ => rfl⟩
  · rw [allBytes_concat, hgiven, List.append_nil, ← h.books, Reader.available_of_pending hstate]
    rfl
  · rw [List.filterMap_append, List.filterMap_append, h.errors]
    simp only [List.filterMap_cons, List.filterMap_nil, herror]
  · rcases List.mem_append.mp hc with hc | hc
    · exact h.returned c' hc
    · rw [List.mem_singleton.mp hc]
      exact hreturned

/-- The base answers without a byte and goes on. -/
theorem Sound.skip (h : Sound as_ref rd calls answers) (hstate : rd.state = .PendingChunk)
    {r : TryPoll T E} (hr : stops r = false) (hgiven : (given [r]).flatMap (bytes as_ref) = [])
    (herror : errorOf r = none) : Sound as_ref rd calls (answers ++ [r]) := by
  have hne : rd.state ≠ .Eof := by
    rw [hstate]
    nofun
  refine ⟨h.cursor, ?_, fun _ => h.running_concat hstate hr, fun heof => absurd heof hne, ?_,
    h.returned, h.at_end⟩
  · rw [allBytes_concat, hgiven, List.append_nil]
    exact h.books
  · rw [List.filterMap_append, h.errors, List.filterMap_cons_none herror]
    exact (List.append_nil _).symm

/-- The base gives a chunk that is not empty. -/
theorem Sound.take (h : Sound as_ref rd calls answers) (hstate : rd.state = .PendingChunk)
    {chunk : T} (hchunk : as_ref chunk ≠ []) :
    Sound as_ref { rd with state := .Ready chunk 0 } calls
      (answers ++ [.ready (some (.ok chunk))]) := by
  have hne : rd.state ≠ .Eof := by
    rw [hstate]
    nofun
  refine ⟨fun chunk' start hs => ?_, ?_, fun _ => h.running_concat hstate rfl, nofun, ?_, h.returned,
    fun c hc hend => absurd (h.at_end c hc hend) hne⟩
  · cases hs
    exact List.length_pos_iff.mpr hchunk
  · rw [allBytes_concat, ← h.books, Reader.available_of_pending hstate, List.append_nil]
    exact congrArg (rd.delivered ++ ·) (List.append_nil _).symm
  · rw [List.filterMap_append, h.errors]
    exact (List.append_nil _).symm

theorem returned_reply (r : Poll (Except E (List UInt8))) :
    Returned (⟨op, asked, rd.reply r⟩ : Call Op Unit (TryPoll T E) (Reply E)) := by
  unfold Reader.reply
  split
  · exact ⟨nofun, nofun, nofun⟩
  · exact ⟨nofun, nofun, nofun⟩

theorem error_reply (r : Poll (Except E (List UInt8))) :
    (rd.reply r).error = Reply.error (.read r) := by
  unfold Reader.reply
  split
  · rfl
  · rcases r with _ | _ | _ <;> rfl

/-- **The base answers**, and the call goes on or ends. -/
theorem InLoop.base_keeps (h : InLoop as_ref rd calls op asked) (r : TryPoll T E) :
    (rd.onBase as_ref r).Keeps (Between as_ref) (InLoop as_ref) calls op (asked ++ [((), r)]) := by
  have hanswers : answered calls ++ (asked ++ [((), r)]).map Prod.snd =
      answered calls ++ asked.map Prod.snd ++ [r] := by
    rw [List.map_append, ← List.append_assoc]
    rfl
  have hconsume : ∀ amount, rd.op ≠ .consume amount := by
    rw [h.op_eq]
    exact h.not_consume
  rcases r with _ | _ | e | chunk
  · refine Sound.ret ?_ (error_reply _) (returned_reply _) ?_
    · rw [hanswers]
      exact h.sound.skip h.state rfl rfl rfl
    · unfold Reader.reply
      rintro (⟨_, -, -, hr⟩ | hr)
      · split at hr <;> cases hr
      · split at hr <;> cases hr
  · show Sound as_ref _ _ _
    rw [answered_concat, hanswers]
    exact h.sound.stop h.state rfl rfl (error_reply _) (returned_reply _)
  · show Sound as_ref _ _ _
    rw [answered_concat, hanswers]
    exact h.sound.stop h.state rfl rfl (error_reply _) (returned_reply _)
  · rw [← h.op_eq]
    unfold Reader.onBase
    dsimp only
    split
    · rename_i hempty
      have hskip := h.sound.skip (r := .ready (some (.ok chunk))) h.state rfl
        ((List.append_nil _).trans (List.isEmpty_iff.mp hempty)) rfl
      rw [← hanswers] at hskip
      exact hskip.loop_keeps fun amount hop => absurd hop (hconsume amount)
    · rename_i hnonempty
      have htake := h.sound.take h.state fun hnil => hnonempty (List.isEmpty_iff.mpr hnil)
      rw [← hanswers] at htake
      exact htake.loop_keeps fun amount hop => absurd hop (hconsume amount)

theorem between_new (E : Type) : Between (E := E) as_ref (Reader.new T) [] := by
  refine ⟨nofun, rfl, fun _ => nofun, nofun, rfl, nofun, nofun⟩

theorem holds_of_run {ls : List (Act Op (TryPoll T E))} {s : Run T E}
    (hwithin : Transition.Along (machine as_ref E).step (Within as_ref) (.start (Reader.new T)) ls)
    (hrun : (machine as_ref E).run (Reader.new T) ls = some s) :
    s.Holds (Between as_ref) (InLoop as_ref) := by
  refine run_keeps_along (between_new E) (fun s op _ hop h => ?_) (fun s op asked r f _ _ h hf => ?_)
    hwithin hrun
  · have hcall : Sound as_ref { s.self with op := op } s.calls
        (answered s.calls ++ ([] : List (Unit × TryPoll T E)).map Prod.snd) := by
      rw [List.map_nil, List.append_nil]
      refine ⟨h.cursor, ?_, h.running, h.stopped, h.errors, h.returned, h.at_end⟩
      rw [Reader.available_op]
      exact h.books
    refine hcall.loop_keeps fun amount hamount => ?_
    cases (show op = .consume amount from hamount)
    rw [Reader.available_op]
    exact hop
  · cases hf
    exact h.base_keeps r

/-! ## What is handed over -/

/-- The bytes that a reply of `poll_read` brings. -/
def Reply.bytesRead : Reply E → List UInt8
  | .read (.ready (.ok bytes)) => bytes
  | _ => []

/-- The bytes that the step from `s` to `s'` hands over: those that `poll_read` replies
with, and those of the slice shown that are consumed. -/
def handedOver (as_ref : T → List UInt8) (s s' : Run T E) : Act Op (TryPoll T E) → List UInt8
  | .call (.consume amount) => (s.self.available as_ref).take amount
  | _ => (s'.calls.drop s.calls.length).flatMap fun c => c.result.bytesRead

/-- What the run `ls` from `s` hands over, in order. -/
def delivered (as_ref : T → List UInt8) : Run T E → List (Act Op (TryPoll T E)) → List UInt8
  | _, [] => []
  | s, a :: ls =>
      match (machine as_ref E).step s a with
      | some s' => handedOver as_ref s s' a ++ delivered as_ref s' ls
      | none => []

/-- Where the reader stands, its replies are the truth: what `poll_read` replies with is
what it counts as delivered, and what `poll_fill_buf` replies with is still there. -/
def Tells (as_ref : T → List UInt8) (rd : Reader T) : Flow (Reader T) (Reply E) → Prop
  | .again rd' => rd'.delivered = rd.delivered ∧ rd'.op = rd.op
  | .ret r rd' => rd'.delivered = rd.delivered ++ r.bytesRead ∧
      ∀ slice, r = .filled (.ready (.ok slice)) → rd'.available as_ref = slice

theorem readLoop_tells (remaining : ℕ) : Tells as_ref rd (rd.readLoop (E := E) as_ref remaining) := by
  unfold Reader.readLoop
  split
  · dsimp only
    split
    · exact ⟨rfl, by rintro slice ⟨⟩⟩
    · exact ⟨(List.append_nil _).symm, by rintro slice ⟨⟩⟩
  · exact ⟨rfl, rfl⟩
  · exact ⟨(List.append_nil _).symm, by rintro slice ⟨⟩⟩

theorem fillLoop_tells : Tells as_ref rd (rd.fillLoop (E := E) as_ref) := by
  unfold Reader.fillLoop Reader.slice
  split
  · exact ⟨rfl, rfl⟩
  · split
    · rename_i chunk chunk_start hstate
      split
      · refine ⟨(List.append_nil _).symm, ?_⟩
        rintro slice ⟨⟩
        exact Reader.available_of_ready hstate
      · exact ⟨(List.append_nil _).symm, by rintro slice ⟨⟩⟩
    · rename_i hstate
      refine ⟨(List.append_nil _).symm, ?_⟩
      rintro slice ⟨⟩
      exact Reader.available_of_eof hstate
    · exact ⟨(List.append_nil _).symm, by rintro slice ⟨⟩⟩

/-- A call of `poll_read` or `poll_fill_buf` at the head of its loop. -/
theorem loop_tells (hop : ∀ amount, rd.op ≠ .consume amount) :
    Tells as_ref rd (rd.loop (E := E) as_ref) := by
  unfold Reader.loop
  split
  · exact readLoop_tells _
  · exact fillLoop_tells
  · rename_i amount hconsume
    exact absurd hconsume (hop amount)

/-- The base answers such a call. -/
theorem onBase_tells (hop : ∀ amount, rd.op ≠ .consume amount) (r : TryPoll T E) :
    Tells as_ref rd (rd.onBase as_ref r) := by
  -- an answer that ends the call brings no byte
  have hreply : ∀ (p : Poll (Except E (List UInt8))) (rd' : Reader T),
      (∀ bytes, p = .ready (.ok bytes) → bytes = [] ∧ rd'.state = .Eof) →
      rd'.delivered = rd.delivered → Tells as_ref rd (.ret (rd.reply p) rd') := by
    intro p rd' hp hdelivered
    constructor
    · have hnone : (rd.reply p).bytesRead = [] := by
        unfold Reader.reply
        split
        · rcases p with _ | _ | bytes
          · rfl
          · rfl
          · exact (hp bytes rfl).1
        · rfl
      rw [hnone, List.append_nil]
      exact hdelivered
    · intro slice hslice
      unfold Reader.reply at hslice
      split at hslice
      · cases hslice
      · cases hslice
        obtain ⟨rfl, heof⟩ := hp slice rfl
        exact Reader.available_of_eof heof
  unfold Reader.onBase
  rcases r with _ | _ | e | chunk
  · exact hreply _ _ (by rintro bytes ⟨⟩) rfl
  · refine hreply _ _ ?_ rfl
    rintro bytes ⟨⟩
    exact ⟨rfl, rfl⟩
  · exact hreply _ _ (by rintro bytes ⟨⟩) rfl
  · dsimp only
    split
    · exact loop_tells hop
    · have hloop : Tells as_ref _ (Reader.loop (E := E) as_ref { rd with state := .Ready chunk 0 }) :=
        loop_tells hop
      exact hloop

/-- `consume` counts the part of the slice that it is called with. -/
theorem consume_tells {amount : ℕ} (hle : amount ≤ (rd.available as_ref).length) :
    ∃ r rd', rd.consume (E := E) as_ref amount = .ret r rd' ∧
      rd'.delivered = rd.delivered ++ (rd.available as_ref).take amount ∧
      ∀ slice, r ≠ .filled (.ready (.ok slice)) := by
  unfold Reader.consume
  split
  · rename_i hzero
    refine ⟨_, _, rfl, ?_, by rintro slice ⟨⟩⟩
    rw [hzero, List.take_zero, List.append_nil]
  · split
    · rename_i chunk chunk_start hstate
      have havailable : rd.available as_ref = _ := Reader.available_of_ready hstate
      rw [havailable, List.length_drop] at hle
      rw [if_pos (by omega), havailable]
      exact ⟨_, _, rfl, rfl, by rintro slice ⟨⟩⟩
    · rename_i hready
      refine ⟨_, _, rfl, ?_, by rintro slice ⟨⟩⟩
      rw [Reader.available_of_not_ready hready, List.take_nil, List.append_nil]

/-- Only `poll_read` and `poll_fill_buf` ask the base, and the slice that was shown last is
still available. -/
structure Shows (as_ref : T → List UInt8) (s : Run T E) : Prop where
  asks : s.current ≠ none → ∀ amount, s.self.op ≠ .consume amount
  shown : s.current = none → ∀ c, s.calls.getLast? = some c → ∀ slice,
    c.result = .filled (.ready (.ok slice)) → s.self.available as_ref = slice

/-- A stretch of `poll_read` or `poll_fill_buf` hands over what its reply says. -/
theorem Tells.state {f : Flow (Reader T) (Reply E)} (h : Tells as_ref rd f)
    (hop : ∀ amount, rd.op ≠ .consume amount) :
    (f.state calls op asked).self.delivered = rd.delivered ++
        ((f.state calls op asked).calls.drop calls.length).flatMap (fun c => c.result.bytesRead) ∧
      Shows as_ref (f.state calls op asked) := by
  cases f with
  | again rd' =>
      refine ⟨?_, fun _ amount => ?_, by rintro ⟨⟩⟩
      · show rd'.delivered = _ ++ (calls.drop calls.length).flatMap _
        rw [List.drop_length, List.flatMap_nil, List.append_nil]
        exact h.1
      · show rd'.op ≠ .consume amount
        rw [h.2]
        exact hop amount
  | ret r rd' =>
      refine ⟨?_, fun hcurrent => absurd rfl hcurrent, fun _ c hc => ?_⟩
      · show rd'.delivered = _ ++ ((calls ++ [_]).drop calls.length).flatMap _
        rw [List.drop_left, List.flatMap_singleton]
        exact h.1
      · have hlast : (calls ++ [(⟨op, asked, r⟩ : Call Op Unit (TryPoll T E) (Reply E))]).getLast? =
            some c := hc
        rw [List.getLast?_concat] at hlast
        cases hlast
        exact h.2

/-- **A step hands over what it counts as delivered.** -/
theorem shows_step {s s' : Run T E} (h : Shows as_ref s) {a : Act Op (TryPoll T E)}
    (ha : Within as_ref s a) (hs : (machine as_ref E).step s a = some s') :
    s'.self.delivered = s.self.delivered ++ handedOver as_ref s s' a ∧ Shows as_ref s' := by
  cases a with
  | call op =>
      unfold Machine.step at hs
      dsimp only at hs
      split at hs
      · cases hs
        cases op with
        | poll_read remaining =>
            have htells : Tells as_ref _ (Reader.readLoop (E := E) as_ref
                { s.self with op := .poll_read remaining } remaining) := readLoop_tells remaining
            exact htells.state (by rintro amount ⟨⟩)
        | poll_fill_buf =>
            have htells : Tells as_ref _ (Reader.fillLoop (E := E) as_ref
                { s.self with op := .poll_fill_buf }) := fillLoop_tells
            exact htells.state (by rintro amount ⟨⟩)
        | consume amount =>
            have hle : amount ≤
                (Reader.available as_ref { s.self with op := .consume amount }).length := by
              rw [Reader.available_op]
              exact ha
            obtain ⟨r, rd', hflow, hdelivered, hno⟩ := consume_tells (E := E) hle
            rw [Reader.available_op] at hdelivered
            have henter : (machine as_ref E).enter (.consume amount) s.self = .ret r rd' := hflow
            rw [henter]
            refine ⟨hdelivered, fun hcurrent => absurd rfl hcurrent, fun _ c hc slice hslice => ?_⟩
            have hlast : (s.calls ++ [(⟨.consume amount, [], r⟩ :
                Call Op Unit (TryPoll T E) (Reply E))]).getLast? = some c := hc
            rw [List.getLast?_concat] at hlast
            cases hlast
            exact absurd hslice (hno slice)
      · cases hs
  | answer r =>
      unfold Machine.step at hs
      dsimp only at hs
      split at hs
      · -- a `consume` asks nobody, so this is one of the other two
        rename_i op asked hcurrent
        cases hs
        have hop := h.asks (by rw [hcurrent]; rintro ⟨⟩)
        exact (onBase_tells hop r).state hop
      · cases hs

/-- **What a run hands over** is what it counts as delivered. -/
theorem delivered_of_run {ls : List (Act Op (TryPoll T E))} : ∀ {s s' : Run T E},
    Shows as_ref s → Transition.Along (machine as_ref E).step (Within as_ref) s ls →
    Transition.run (machine as_ref E).step s ls = some s' →
    s'.self.delivered = s.self.delivered ++ delivered as_ref s ls ∧ Shows as_ref s' := by
  induction ls with
  | nil =>
      intro s s' h _ hrun
      rw [Transition.run_nil, Option.some.injEq] at hrun
      subst hrun
      exact ⟨(List.append_nil _).symm, h⟩
  | cons a ls ih =>
      intro s s' h hwithin hrun
      rw [Transition.run_cons, Option.bind_eq_some_iff] at hrun
      obtain ⟨u, hu, hrun⟩ := hrun
      obtain ⟨ha, hrest⟩ := hwithin
      obtain ⟨hstep, hshows⟩ := shows_step h ha hu
      obtain ⟨hdelivered, hend⟩ := ih hshows (hrest u hu) hrun
      refine ⟨?_, hend⟩
      rw [hdelivered, hstep, delivered, hu, List.append_assoc]

/-- What the readers see, whatever they call in which order: `delivered` are the bytes
that the replies of `poll_read` bring and those that are consumed. -/
structure ReadsAll (as_ref : T → List UInt8) (delivered : List UInt8) (s : Run T E) : Prop where
  bytes_prefix : delivered <+: allBytes as_ref (answered s.calls)
  /-- `poll_fill_buf` shows what comes next. -/
  shown : ∀ c, s.calls.getLast? = some c → ∀ slice, c.result = .filled (.ready (.ok slice)) →
    delivered ++ slice = allBytes as_ref (answered s.calls)
  at_end : ∀ c ∈ s.calls, AtEnd c → (∃ a ∈ answered s.calls, stops a = true) ∧
    delivered = allBytes as_ref (answered s.calls)
  errors : s.calls.filterMap (fun c => c.result.error) = (answered s.calls).filterMap errorOf
  polled_once : ∀ before a after, answered s.calls = before ++ a :: after → stops a = true → after = []
  cursor : ∀ chunk chunk_start, s.self.state = .Ready chunk chunk_start →
    chunk_start < (as_ref chunk).length
  returned : ∀ c ∈ s.calls, Returned c

/-- The base is not polled after it has stopped. -/
theorem Sound.polled_once (h : Sound as_ref rd calls answers) {before after : List (TryPoll T E)}
    {a : TryPoll T E} (hsplit : answers = before ++ a :: after) (ha : stops a = true) : after = [] := by
  have hmem : a ∈ answers := by
    rw [hsplit]
    exact List.mem_append_right _ List.mem_cons_self
  cases hstate : rd.state with
  | Eof =>
      obtain ⟨others, last, heq, -, hrunning⟩ := h.stopped hstate
      rcases List.eq_nil_or_concat' after with hnil | ⟨after', x, rfl⟩
      · exact hnil
      · have hothers : others = before ++ a :: after' := by
          have hjoin : others ++ [last] = (before ++ a :: after') ++ [x] := by
            rw [← heq, hsplit, List.append_assoc]
            rfl
          exact (List.append_inj' hjoin rfl).1
        have hfalse := hrunning a (by
          rw [hothers]
          exact List.mem_append_right _ List.mem_cons_self)
        rw [ha] at hfalse
        cases hfalse
  | _ =>
      have hfalse := h.running (by rw [hstate]; nofun) a hmem
      rw [ha] at hfalse
      cases hfalse

end IntoAsyncRead

open IntoAsyncRead (Reader ReadsAll Within)

/-- **Every byte is read once, in order.** For all chunks and all answers of the base,
whatever is called in which order, where no more is consumed than is available: after
every call the bytes handed over, by the replies of `poll_read` and out of the slices that
`poll_fill_buf` shows, are a prefix of those of the chunks. A call with room for
a byte reports none only when the base has ended or failed and all bytes of its chunks
have been delivered. The error of the base is reported once, and the base is not polled
after its end or error. The cursor is inside the chunk, and no call panics. -/
theorem every_byte_read_once {T E : Type} (as_ref : T → List UInt8) (ls : List (Act _ (TryPoll T E)))
    (s : IntoAsyncRead.Run T E)
    (hwithin : Transition.Along (IntoAsyncRead.machine as_ref E).step (Within as_ref)
      (.start (Reader.new T)) ls)
    (hrun : (IntoAsyncRead.machine as_ref E).run (Reader.new T) ls = some s)
    (hidle : s.current = none) :
    ReadsAll as_ref (IntoAsyncRead.delivered as_ref (.start (Reader.new T)) ls) s := by
  have h := (IntoAsyncRead.holds_of_run hwithin hrun).idle hidle
  obtain ⟨hdelivered, hshows⟩ := IntoAsyncRead.delivered_of_run
    ⟨fun hcurrent => absurd rfl hcurrent, by rintro - c ⟨⟩⟩ hwithin hrun
  rw [show (State.start (Reader.new T) : IntoAsyncRead.Run T E).self.delivered = [] from rfl,
    List.nil_append] at hdelivered
  rw [← hdelivered]
  refine ⟨⟨_, h.books⟩, fun c hc slice hslice => ?_, fun c hc hend => ?_, h.errors,
    fun before a after => h.polled_once, h.cursor, h.returned⟩
  · rw [← hshows.shown hidle c hc slice hslice]
    exact h.books
  · have heof := h.at_end c hc hend
    obtain ⟨before, a, heq, ha, -⟩ := h.stopped heof
    refine ⟨⟨a, ?_, ha⟩, ?_⟩
    · rw [heq]
      exact List.mem_append_right _ (List.mem_singleton_self a)
    · rw [← h.books, IntoAsyncRead.Reader.available_of_eof heof, List.append_nil]

/-- A chunk that is read in part and consumed to its end, an empty chunk, and the end. -/
def mixedReads : List (Act IntoAsyncRead.Op (TryPoll (List UInt8) ℕ)) :=
  [.call (.poll_read 2), .answer (.ready (some (.ok [10, 20, 30]))), .call .poll_fill_buf,
    .call (.consume 1), .call (.poll_read 4), .answer (.ready (some (.ok []))),
    .answer (.ready none)]

theorem mixedReads_within :
    Transition.Along (IntoAsyncRead.machine id ℕ).step (Within id) (.start (Reader.new (List UInt8)))
      mixedReads := by
  refine ⟨trivial, fun s₁ h₁ => ⟨trivial, fun s₂ h₂ => ⟨trivial, fun s₃ h₃ => ⟨?_, fun _ _ =>
    ⟨trivial, fun _ _ => ⟨trivial, fun _ _ => ⟨trivial, fun _ _ => trivial⟩⟩⟩⟩⟩⟩⟩
  cases h₁
  cases h₂
  cases h₃
  show 1 ≤ List.length [30]
  exact le_refl 1

theorem every_byte_read_once_mixed :
    ∃ s, (IntoAsyncRead.machine id ℕ).run (Reader.new (List UInt8)) mixedReads = some s ∧
      IntoAsyncRead.delivered (E := ℕ) id (.start (Reader.new (List UInt8))) mixedReads =
        [10, 20, 30] ∧
      ReadsAll id [10, 20, 30] s := by
  have hrun : ((IntoAsyncRead.machine id ℕ).run (Reader.new (List UInt8)) mixedReads).map
      (fun s => s.current) = some none := rfl
  obtain ⟨s, hs, hidle⟩ := Option.map_eq_some_iff.mp hrun
  have hdelivered : IntoAsyncRead.delivered (E := ℕ) id (.start (Reader.new (List UInt8)))
      mixedReads = [10, 20, 30] := rfl
  have hreads := every_byte_read_once id mixedReads s mixedReads_within hs hidle
  rw [hdelivered] at hreads
  exact ⟨s, hs, hdelivered, hreads⟩

end TokioStreamUtil
