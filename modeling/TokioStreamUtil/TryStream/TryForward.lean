/-
`TryForward`: the items of the base, sent into a sink.

A poll goes round its loop: an item that is held is sent, then the base is polled. At
the end of the base the sink is closed, and while the base is pending it is flushed.
-/
import TokioStreamUtil.TryStream.Poll

set_option autoImplicit false

namespace TokioStreamUtil

open PollLoop

namespace TryForward

/-- What a poll asks: the base for an item, and the sink for the rest. -/
inductive Ask (T : Type) where
  | poll_ready
  | start_send (item : T)
  | poll_next
  | poll_flush
  | poll_close

/-- The base answers `base r`, `start_send` returns `sent r`, and the other functions of
the sink `poll r`. -/
inductive Answer (T E : Type) where
  | poll (r : Poll (Except E Unit))
  | sent (r : Except E Unit)
  | base (r : TryPoll T E)

/-- What a poll returns. `panicked` is the panic of a poll after completion, and of
`unwrap` on `None`. -/
inductive Reply (E : Type) where
  | poll (r : Poll (Except E Unit))
  | panicked

/-- `TryForward`. `sink` says whether the sink is still there, `ask` is where a poll
stands. -/
structure Forward (T : Type) where
  sink : Bool
  stream : IntoFuseStream
  buffered_item : Option T
  ask : Ask T

variable {T E : Type}

namespace Forward

/-- `TryForward::new`. -/
def new (T : Type) : Forward T where
  sink := true
  stream := IntoFuseStream.new
  buffered_item := none
  ask := .poll_next

/-- The base is polled. A fused base that has ended has ended again. -/
def pollStream (self : Forward T) : Flow (Forward T) (Reply E) :=
  if self.stream.is_terminated then .again { self with ask := .poll_close }
  else .again { self with ask := .poll_next }

/-- The head of the loop. -/
def head (self : Forward T) : Flow (Forward T) (Reply E) :=
  if self.sink then
    if self.buffered_item.isSome then .again { self with ask := .poll_ready }
    else self.pollStream
  else .ret .panicked self

/-- The sink is ready, or not. -/
def onReady (self : Forward T) : Poll (Except E Unit) → Flow (Forward T) (Reply E)
  | .ready (.ok _) =>
      match self.buffered_item with
      | some item => .again { self with buffered_item := none, ask := .start_send item }
      | none => .ret .panicked self
  | .ready (.error e) => .ret (.poll (.ready (.error e))) self
  | .pending => .ret (.poll .pending) self

/-- The sink has taken the item, or not. -/
def onSent (self : Forward T) : Except E Unit → Flow (Forward T) (Reply E)
  | .ok _ => self.pollStream
  | .error e => .ret (.poll (.ready (.error e))) self

/-- The fused base has answered. -/
def onStream (self : Forward T) : TryPoll T E → Flow (Forward T) (Reply E)
  | .ready (some (.ok item)) => { self with buffered_item := some item }.head
  | .ready (some (.error e)) => .ret (.poll (.ready (.error e))) self
  | .ready none => .again { self with ask := .poll_close }
  | .pending => .again { self with ask := .poll_flush }

/-- The sink is closed, or not. -/
def onClose (self : Forward T) : Poll (Except E Unit) → Flow (Forward T) (Reply E)
  | .ready (.ok _) => .ret (.poll (.ready (.ok ()))) { self with sink := false }
  | .ready (.error e) => .ret (.poll (.ready (.error e))) self
  | .pending => .ret (.poll .pending) self

/-- The sink is flushed, or not: the base is pending all the same. -/
def onFlush (self : Forward T) : Poll (Except E Unit) → Flow (Forward T) (Reply E)
  | .ready (.ok _) => .ret (.poll .pending) self
  | .ready (.error e) => .ret (.poll (.ready (.error e))) self
  | .pending => .ret (.poll .pending) self

end Forward

/-- `TryForward::poll`. -/
def machine (T E : Type) : Machine Unit (Forward T) (Ask T) (Answer T E) (Reply E) where
  enter := fun _ self => self.head
  asks := fun self => self.ask
  resume := fun self a =>
    match self.ask, a with
    | .poll_ready, .poll r => some (self.onReady r)
    | .start_send _, .sent r => some (self.onSent r)
    | .poll_next, .base r =>
        some ({ self with stream := (self.stream.poll r).1 }.onStream (self.stream.poll r).2)
    | .poll_close, .poll r => some (self.onClose r)
    | .poll_flush, .poll r => some (self.onFlush r)
    | _, _ => none

/-- `FusedFuture::is_terminated`. -/
def Forward.is_terminated (self : Forward T) : Bool := !self.sink

/-! ## What the base and the sink see -/

/-- The state between steps. -/
abbrev Run (T E : Type) := State Unit (Forward T) (Ask T) (Answer T E) (Reply E)

/-- The polls made. -/
abbrev Calls (T E : Type) := List (Call Unit (Ask T) (Answer T E) (Reply E))

/-- All that was asked, with the answers. -/
abbrev Log (T E : Type) := List (Ask T × Answer T E)

/-- The `Ok` item of an answer of the base. -/
def okItem : Ask T × Answer T E → Option T
  | (.poll_next, .base (.ready (some (.ok item)))) => some item
  | _ => none

/-- The item that is passed to `start_send`. -/
def passedItem : Ask T × Answer T E → Option T
  | (.start_send item, _) => some item
  | _ => none

/-- The `Ok` items of the base, in order. -/
def okItems (log : Log T E) : List T := log.filterMap okItem

/-- The items passed to `start_send`, in order. -/
def passed (log : Log T E) : List T := log.filterMap passedItem

/-- An error, of the base or of the sink. -/
def Answer.fails : Answer T E → Bool
  | .poll (.ready (.error _)) => true
  | .sent (.error _) => true
  | .base (.ready (some (.error _))) => true
  | _ => false

/-- What must have happened before a question. -/
def Fits (before : Log T E) : Ask T → Prop
  | .poll_ready => ∃ item, okItems before = passed before ++ [item]
  | .start_send item =>
      okItems before = passed before ++ [item] ∧
        before.getLast? = some (.poll_ready, .poll (.ready (.ok ())))
  | .poll_next => okItems before = passed before ∧ (.poll_next, .base (.ready none)) ∉ before
  | .poll_flush =>
      okItems before = passed before ∧ before.getLast? = some (.poll_next, .base .pending)
  | .poll_close => okItems before = passed before ∧ (.poll_next, .base (.ready none)) ∈ before

/-- Every question fits what was asked before, all of which had succeeded. -/
def Fitting (log : Log T E) : Prop :=
  ∀ before q a after, log = before ++ (q, a) :: after →
    Fits before q ∧ ∀ p ∈ before, p.2.fails = false

/-- A poll in which the base was pending flushes the sink then, and returns. -/
def Flushes (asked : Log T E) : Prop :=
  (.poll_next, .base .pending) ∈ asked →
    ∃ before r, asked = before ++ [(.poll_next, .base .pending), (.poll_flush, .poll r)]

/-- What holds when a poll has returned `Ready(r)`. -/
structure Resolution (log : Log T E) (r : Except E Unit) : Prop where
  ok_iff : r = .ok () ↔
    (.poll_next, .base (.ready none)) ∈ log ∧ ∀ p ∈ log, p.2.fails = false
  closed : r = .ok () → okItems log = passed log ∧
    log.getLast? = some (.poll_close, .poll (.ready (.ok ())))
  base_error : ∀ e, (.poll_next, .base (.ready (some (.error e)))) ∈ log →
    r = .error e ∧ okItems log = passed log ∧ ∀ a, (.poll_close, a) ∉ log

/-! ## The invariant -/

/-- No error has come, and the items in `owed` have been taken and not passed. -/
structure Open (fw : Forward T) (owed : List T) (log : Log T E) : Prop where
  sink : fw.sink = true
  items : okItems log = passed log ++ owed
  ended : fw.stream.is_terminated = true ↔ (.poll_next, .base (.ready none)) ∈ log
  clean : ∀ p ∈ log, p.2.fails = false
  fitting : Fitting log

/-- The item on its way to the sink. -/
def Forward.owed (fw : Forward T) : List T :=
  match fw.ask with
  | .start_send item => [item]
  | _ => fw.buffered_item.toList

/-- Where each question is asked. -/
def AtAsk (fw : Forward T) (log : Log T E) : Prop :=
  match fw.ask with
  | .poll_ready => fw.buffered_item ≠ none
  | .start_send _ =>
      fw.buffered_item = none ∧ log.getLast? = some (.poll_ready, .poll (.ready (.ok ())))
  | .poll_next => fw.buffered_item = none ∧ fw.stream.is_terminated = false
  | .poll_flush => fw.buffered_item = none ∧ log.getLast? = some (.poll_next, .base .pending)
  | .poll_close => fw.buffered_item = none ∧ fw.stream.is_terminated = true

/-- The base has been pending in this poll just before the flush. -/
def PendingOnce (fw : Forward T) (asked : Log T E) : Prop :=
  (.poll_next, .base .pending) ∈ asked →
    fw.ask = .poll_flush ∧ ∃ before, asked = before ++ [(.poll_next, .base .pending)]

/-- No poll has come to an end yet. -/
def Unresolved (calls : Calls T E) : Prop :=
  ∀ c ∈ calls, c.result = .poll .pending ∧ Flushes c.asked

/-- The first poll that returned `Ready`, and what holds then. -/
def Resolved (calls : Calls T E) : Prop :=
  ∃ before c after r, calls = before ++ c :: after ∧ Unresolved before ∧
    c.result = .poll (.ready r) ∧ Flushes c.asked ∧ Fitting (log before ++ c.asked) ∧
    passed (log before ++ c.asked) <+: okItems (log before ++ c.asked) ∧
    Resolution (log before ++ c.asked) r

/-- Between polls. -/
def Between (fw : Forward T) (calls : Calls T E) : Prop :=
  Unresolved calls ∧ Open fw fw.buffered_item.toList (log calls) ∨ Resolved calls

/-- At a question. -/
def Within (fw : Forward T) (calls : Calls T E) (_ : Unit) (asked : Log T E) : Prop :=
  Unresolved calls ∧ Open fw fw.owed (log calls ++ asked) ∧ AtAsk fw (log calls ++ asked) ∧
    PendingOnce fw asked ∨ Resolved calls

variable {fw fw' : Forward T} {calls : Calls T E} {k : Unit} {asked : Log T E} {log' : Log T E}
  {q : Ask T} {a : Answer T E} {owed : List T}

theorem Resolved.append (h : Resolved calls) (c : Call Unit (Ask T) (Answer T E) (Reply E)) :
    Resolved (calls ++ [c]) := by
  obtain ⟨before, c', after, r, rfl, hrest⟩ := h
  exact ⟨before, c', after ++ [c], r, by rw [List.append_assoc]; rfl, hrest⟩

theorem Resolved.keeps (h : Resolved calls) (f : Flow (Forward T) (Reply E)) :
    f.Keeps Between Within calls k asked := by
  cases f with
  | again fw => exact Or.inr h
  | ret r fw => exact Or.inr (h.append _)

theorem Open.of_eq (h : Open fw owed log') (hsink : fw'.sink = fw.sink)
    (hstream : fw'.stream = fw.stream) : Open fw' owed log' :=
  ⟨hsink.trans h.sink, h.items, hstream ▸ h.ended, h.clean, h.fitting⟩

/-- A question that fits may be added. -/
theorem fitting_concat (hfitting : Fitting log') (hclean : ∀ p ∈ log', p.2.fails = false)
    (hfits : Fits log' q) : Fitting (log' ++ [(q, a)]) := by
  intro before q' a' after heq
  rcases List.eq_nil_or_concat' after with rfl | ⟨after, x, rfl⟩
  · obtain ⟨rfl, hlast⟩ := List.append_inj' heq rfl
    cases hlast
    exact ⟨hfits, hclean⟩
  · have hsplit : log' ++ [(q, a)] = (before ++ (q', a') :: after) ++ [x] := by
      rw [heq, List.append_assoc]
      rfl
    obtain ⟨rfl, -⟩ := List.append_inj' hsplit rfl
    exact hfitting before q' a' after rfl

/-- What is asked fits. -/
theorem Open.fits (h : Open fw fw.owed log') (hat : AtAsk fw log') : Fits log' fw.ask := by
  have hitems := h.items
  unfold Forward.owed at hitems
  unfold AtAsk at hat
  cases hask : fw.ask with
  | poll_ready =>
      rw [hask] at hitems hat
      obtain ⟨item, hitem⟩ := Option.ne_none_iff_exists'.mp hat
      rw [hitem] at hitems
      exact ⟨item, hitems⟩
  | start_send item =>
      rw [hask] at hitems hat
      exact ⟨hitems, hat.2⟩
  | poll_next =>
      rw [hask] at hitems hat
      dsimp only at hitems hat
      rw [hat.1] at hitems
      refine ⟨hitems.trans (List.append_nil _), fun hmem => ?_⟩
      rw [h.ended.mpr hmem] at hat
      cases hat.2
  | poll_flush =>
      rw [hask] at hitems hat
      dsimp only at hitems hat
      rw [hat.1] at hitems
      exact ⟨hitems.trans (List.append_nil _), hat.2⟩
  | poll_close =>
      rw [hask] at hitems hat
      dsimp only at hitems hat
      rw [hat.1] at hitems
      exact ⟨hitems.trans (List.append_nil _), h.ended.mp hat.2⟩

/-- An answer that is no error, and what it leaves owed. -/
theorem Open.concat (h : Open fw owed log') (hfits : Fits log' q) (hok : a.fails = false)
    {owed' : List T}
    (hitems : okItems (log' ++ [(q, a)]) = passed (log' ++ [(q, a)]) ++ owed')
    (hsink : fw'.sink = fw.sink)
    (hended : fw'.stream.is_terminated = true ↔
      fw.stream.is_terminated = true ∨ (q, a) = (.poll_next, .base (.ready none))) :
    Open fw' owed' (log' ++ [(q, a)]) := by
  refine ⟨hsink.trans h.sink, hitems, ?_, fun p hp => ?_, fitting_concat h.fitting h.clean hfits⟩
  · rw [hended, h.ended, List.mem_append, List.mem_singleton]
    exact or_congr_right eq_comm
  · rcases List.mem_append.mp hp with hp | hp
    · exact h.clean p hp
    · rw [List.mem_singleton.mp hp]
      exact hok

/-! ## The stretches of a poll -/

/-- A poll that returns `Pending`. -/
theorem pending_keeps (hcalls : Unresolved calls)
    (h : Open fw fw.buffered_item.toList (log calls ++ asked)) (hflush : Flushes asked) :
    (Flow.ret (.poll .pending) fw).Keeps Between Within calls k asked := by
  refine Or.inl ⟨fun c hc => ?_, ?_⟩
  · rcases List.mem_append.mp hc with hc | hc
    · exact hcalls c hc
    · rw [List.mem_singleton.mp hc]
      exact ⟨rfl, hflush⟩
  · rw [log_concat]
    exact h

/-- The base is polled, or the sink closed. -/
theorem pollStream_keeps (hcalls : Unresolved calls) (h : Open fw [] (log calls ++ asked))
    (hitem : fw.buffered_item = none) (hpending : (.poll_next, .base .pending) ∉ asked) :
    (fw.pollStream).Keeps Between Within calls k asked := by
  unfold Forward.pollStream
  split
  · rename_i hterminated
    refine Or.inl ⟨hcalls, ?_, ⟨hitem, hterminated⟩, fun hmem => absurd hmem hpending⟩
    unfold Forward.owed
    dsimp only
    rw [hitem]
    exact h.of_eq rfl rfl
  · rename_i hrunning
    refine Or.inl ⟨hcalls, ?_, ⟨hitem, Bool.not_eq_true _ ▸ hrunning⟩,
      fun hmem => absurd hmem hpending⟩
    unfold Forward.owed
    dsimp only
    rw [hitem]
    exact h.of_eq rfl rfl

/-- The head of the loop. -/
theorem head_keeps (hcalls : Unresolved calls)
    (h : Open fw fw.buffered_item.toList (log calls ++ asked))
    (hpending : (.poll_next, .base .pending) ∉ asked) :
    (fw.head).Keeps Between Within calls k asked := by
  unfold Forward.head
  rw [if_pos h.sink]
  split
  · rename_i hsome
    refine Or.inl ⟨hcalls, h.of_eq rfl rfl, fun hnone => ?_, fun hmem => absurd hmem hpending⟩
    rw [show fw.buffered_item = none from hnone] at hsome
    cases hsome
  · rename_i hnone
    have hitem : fw.buffered_item = none := Option.not_isSome_iff_eq_none.mp hnone
    rw [hitem] at h
    exact pollStream_keeps hcalls h hitem hpending

/-- A poll that returns `Ready`. -/
theorem resolve_keeps {r : Except E Unit} (hcalls : Unresolved calls) (hflush : Flushes asked)
    (hfitting : Fitting (log calls ++ asked))
    (hinit : passed (log calls ++ asked) <+: okItems (log calls ++ asked))
    (hresolution : Resolution (log calls ++ asked) r) :
    (Flow.ret (.poll (.ready r)) fw).Keeps Between Within calls k asked :=
  Or.inr ⟨calls, ⟨k, asked, .poll (.ready r)⟩, [], r, rfl, hcalls, rfl, hflush, hfitting, hinit,
    hresolution⟩

theorem okItems_concat (log' : Log T E) (p : Ask T × Answer T E) :
    okItems (log' ++ [p]) = okItems log' ++ (okItem p).toList := by
  unfold okItems
  rw [List.filterMap_append, List.filterMap_cons, List.filterMap_nil]
  cases okItem p <;> rfl

theorem passed_concat (log' : Log T E) (p : Ask T × Answer T E) :
    passed (log' ++ [p]) = passed log' ++ (passedItem p).toList := by
  unfold passed
  rw [List.filterMap_append, List.filterMap_cons, List.filterMap_nil]
  cases passedItem p <;> rfl

/-- The base was not pending in this poll. -/
theorem PendingOnce.not_mem (h : PendingOnce fw asked) (hask : fw.ask ≠ .poll_flush)
    (hne : (q, a) ≠ (.poll_next, .base .pending)) :
    (.poll_next, .base .pending) ∉ asked ++ [(q, a)] := by
  intro hmem
  rcases List.mem_append.mp hmem with hmem | hmem
  · exact hask (h hmem).1
  · exact hne (List.mem_singleton.mp hmem).symm

theorem flushes_of_not_mem (h : (.poll_next, .base .pending) ∉ asked) : Flushes asked :=
  fun hmem => absurd hmem h

/-- The flush comes last. -/
theorem PendingOnce.flushes (h : PendingOnce fw asked) (r : Poll (Except E Unit)) :
    Flushes (asked ++ [(.poll_flush, .poll r)]) := by
  intro hmem
  rcases List.mem_append.mp hmem with hmem | hmem
  · obtain ⟨-, before, rfl⟩ := h hmem
    exact ⟨before, r, by rw [List.append_assoc]; rfl⟩
  · cases List.mem_singleton.mp hmem

/-- No error of the base comes before a question that follows no error. -/
theorem Open.base_error_eq (h : Open fw owed log') {e : E}
    (hmem : (.poll_next, .base (.ready (some (.error e)))) ∈ log' ++ [(q, a)]) :
    (q, a) = (.poll_next, .base (.ready (some (.error e)))) := by
  rcases List.mem_append.mp hmem with hmem | hmem
  · cases h.clean _ hmem
  · exact (List.mem_singleton.mp hmem).symm

/-- An error of the sink ends the poll with it. -/
theorem Open.sink_fails (h : Open fw owed log') (hfails : a.fails = true)
    (hq : q ≠ .poll_next) (e : E) : Resolution (log' ++ [(q, a)]) (.error e) := by
  refine ⟨⟨nofun, fun ⟨_, hclean⟩ => ?_⟩, nofun, fun e' hmem => ?_⟩
  · rw [hclean _ (List.mem_append_right _ List.mem_cons_self)] at hfails
    cases hfails
  · exact absurd (Prod.mk.inj (h.base_error_eq hmem)).1 hq

/-- An error of the base ends the poll with it: the items before it have been passed, and
the sink is not closed. -/
theorem Open.base_fails (h : Open fw owed log') (hfits : Fits log' .poll_next) (e : E) :
    Resolution (log' ++ [(.poll_next, .base (.ready (some (.error e))))]) (.error e) := by
  obtain ⟨hitems, hnone⟩ := hfits
  refine ⟨⟨nofun, fun ⟨_, hclean⟩ => ?_⟩, nofun, fun e' hmem => ⟨?_, ?_, fun a hclose => ?_⟩⟩
  · cases hclean _ (List.mem_append_right _ List.mem_cons_self)
  · cases h.base_error_eq hmem
    rfl
  · rw [okItems_concat, passed_concat, hitems]
    rfl
  · -- the sink is closed after the end only
    rcases List.mem_append.mp hclose with hclose | hclose
    · obtain ⟨before, after, rfl⟩ := List.append_of_mem hclose
      obtain ⟨⟨-, hended⟩, -⟩ := h.fitting before _ a after rfl
      exact hnone (List.mem_append_left _ hended)
    · cases List.mem_singleton.mp hclose

/-- The sink is closed: everything has been passed. -/
theorem Open.closes (h : Open fw owed log') (hfits : Fits log' .poll_close) :
    Resolution (log' ++ [(.poll_close, .poll (.ready (.ok ())))]) (.ok ()) := by
  obtain ⟨hitems, hended⟩ := hfits
  refine ⟨⟨fun _ => ⟨List.mem_append_left _ hended, fun p hp => ?_⟩, fun _ => rfl⟩,
    fun _ => ⟨?_, List.getLast?_concat ..⟩, fun e hmem => ?_⟩
  · rcases List.mem_append.mp hp with hp | hp
    · exact h.clean p hp
    · rw [List.mem_singleton.mp hp]
      rfl
  · rw [okItems_concat, passed_concat, hitems]
    rfl
  · cases h.base_error_eq hmem

/-- An answer about something else leaves the items as they are. -/
theorem items_concat (h : okItems log' = passed log' ++ owed) (hok : okItem (q, a) = none)
    (hpassed : passedItem (q, a) = none) :
    okItems (log' ++ [(q, a)]) = passed (log' ++ [(q, a)]) ++ owed := by
  rw [okItems_concat, passed_concat, hok, hpassed, h]
  simp only [Option.toList_none, List.append_nil]

/-- A poll that ends with an error of the sink. -/
theorem sink_fails_keeps {e : E} {owed' : List T} (hcalls : Unresolved calls)
    (h : Open fw owed (log calls ++ asked)) (hfits : Fits (log calls ++ asked) q)
    (hfails : a.fails = true) (hq : q ≠ .poll_next) (hflush : Flushes (asked ++ [(q, a)]))
    (hitems : okItems (log calls ++ asked ++ [(q, a)]) =
      passed (log calls ++ asked ++ [(q, a)]) ++ owed') :
    (Flow.ret (.poll (.ready (.error e))) fw).Keeps Between Within calls k (asked ++ [(q, a)]) := by
  refine resolve_keeps hcalls hflush ?_ ?_ ?_
  · rw [← List.append_assoc]
    exact fitting_concat h.fitting h.clean hfits
  · rw [← List.append_assoc]
    exact ⟨owed', hitems.symm⟩
  · rw [← List.append_assoc]
    exact h.sink_fails hfails hq e

/-- A poll that ends pending, on the sink. -/
theorem sink_pending_keeps (hcalls : Unresolved calls)
    (h : Open fw fw.buffered_item.toList (log calls ++ asked)) (hfits : Fits (log calls ++ asked) q)
    (hok : a.fails = false) (hq : q ≠ .poll_next) (hflush : Flushes (asked ++ [(q, a)]))
    (hitems : okItems (log calls ++ asked ++ [(q, a)]) =
      passed (log calls ++ asked ++ [(q, a)]) ++ fw.buffered_item.toList) :
    (Flow.ret (.poll .pending) fw).Keeps Between Within calls k (asked ++ [(q, a)]) := by
  refine pending_keeps hcalls ?_ hflush
  rw [← List.append_assoc]
  exact h.concat hfits hok hitems rfl (iff_self_or.mpr fun heq => absurd (Prod.mk.inj heq).1 hq)

/-- `poll_ready` answers. -/
theorem onReady_keeps (hcalls : Unresolved calls) (hopen : Open fw fw.owed (log calls ++ asked))
    (hat : AtAsk fw (log calls ++ asked)) (hpending : PendingOnce fw asked)
    (hask : fw.ask = .poll_ready) (r : Poll (Except E Unit)) :
    (fw.onReady r).Keeps Between Within calls k (asked ++ [(.poll_ready, .poll r)]) := by
  have hfits := hopen.fits hat
  have hnot : (.poll_next, .base .pending) ∉ asked ++ [(Ask.poll_ready, Answer.poll r)] :=
    hpending.not_mem (by rw [hask]; nofun) nofun
  have howed : fw.owed = fw.buffered_item.toList := by
    unfold Forward.owed
    rw [hask]
  unfold AtAsk at hat
  rw [hask] at hfits hat
  rw [howed] at hopen
  have hitems := items_concat (q := .poll_ready) (a := .poll r) hopen.items rfl rfl
  rcases r with _ | e | ⟨⟩
  · exact sink_pending_keeps hcalls hopen hfits rfl nofun (flushes_of_not_mem hnot) hitems
  · exact sink_fails_keeps hcalls hopen hfits rfl nofun (flushes_of_not_mem hnot) hitems
  · obtain ⟨item, hitem⟩ := Option.ne_none_iff_exists'.mp hat
    unfold Forward.onReady
    dsimp only
    rw [hitem] at hitems ⊢
    refine Or.inl ⟨hcalls, ?_, ⟨rfl, ?_⟩, fun hmem => absurd hmem hnot⟩
    · rw [← List.append_assoc]
      exact hopen.concat hfits rfl hitems rfl (iff_self_or.mpr nofun)
    · rw [← List.append_assoc, List.getLast?_concat]

/-- `start_send` returns. -/
theorem onSent_keeps {item : T} (hcalls : Unresolved calls)
    (hopen : Open fw fw.owed (log calls ++ asked)) (hat : AtAsk fw (log calls ++ asked))
    (hpending : PendingOnce fw asked) (hask : fw.ask = .start_send item) (r : Except E Unit) :
    (fw.onSent r).Keeps Between Within calls k (asked ++ [(.start_send item, .sent r)]) := by
  have hfits := hopen.fits hat
  have hnot : (.poll_next, .base .pending) ∉ asked ++ [(Ask.start_send item, Answer.sent r)] :=
    hpending.not_mem (by rw [hask]; nofun) nofun
  have howed : fw.owed = [item] := by
    unfold Forward.owed
    rw [hask]
  unfold AtAsk at hat
  rw [hask] at hfits hat
  rw [howed] at hopen
  have hitems : okItems (log calls ++ asked ++ [(.start_send item, .sent r)]) =
      passed (log calls ++ asked ++ [(.start_send item, .sent r)]) ++ [] := by
    rw [okItems_concat, passed_concat, hopen.items]
    exact (List.append_nil _).trans (List.append_nil _).symm
  rcases r with e | ⟨⟩
  · exact sink_fails_keeps hcalls hopen hfits rfl nofun (flushes_of_not_mem hnot) hitems
  · refine pollStream_keeps hcalls ?_ hat.1 hnot
    rw [← List.append_assoc]
    exact hopen.concat hfits rfl hitems rfl (iff_self_or.mpr nofun)

/-- `poll_close` answers. -/
theorem onClose_keeps (hcalls : Unresolved calls) (hopen : Open fw fw.owed (log calls ++ asked))
    (hat : AtAsk fw (log calls ++ asked)) (hpending : PendingOnce fw asked)
    (hask : fw.ask = .poll_close) (r : Poll (Except E Unit)) :
    (fw.onClose r).Keeps Between Within calls k (asked ++ [(.poll_close, .poll r)]) := by
  have hfits := hopen.fits hat
  have hnot : (.poll_next, .base .pending) ∉ asked ++ [(Ask.poll_close, Answer.poll r)] :=
    hpending.not_mem (by rw [hask]; nofun) nofun
  have howed : fw.owed = fw.buffered_item.toList := by
    unfold Forward.owed
    rw [hask]
  rw [hask] at hfits
  rw [howed] at hopen
  have hitems := items_concat (q := .poll_close) (a := .poll r) hopen.items rfl rfl
  rcases r with _ | e | ⟨⟩
  · exact sink_pending_keeps hcalls hopen hfits rfl nofun (flushes_of_not_mem hnot) hitems
  · exact sink_fails_keeps hcalls hopen hfits rfl nofun (flushes_of_not_mem hnot) hitems
  · refine resolve_keeps hcalls (flushes_of_not_mem hnot) ?_ ?_ ?_
    · rw [← List.append_assoc]
      exact fitting_concat hopen.fitting hopen.clean hfits
    · rw [← List.append_assoc]
      exact ⟨_, hitems.symm⟩
    · rw [← List.append_assoc]
      exact hopen.closes hfits

/-- `poll_flush` answers. -/
theorem onFlush_keeps (hcalls : Unresolved calls) (hopen : Open fw fw.owed (log calls ++ asked))
    (hat : AtAsk fw (log calls ++ asked)) (hpending : PendingOnce fw asked)
    (hask : fw.ask = .poll_flush) (r : Poll (Except E Unit)) :
    (fw.onFlush r).Keeps Between Within calls k (asked ++ [(.poll_flush, .poll r)]) := by
  have hfits := hopen.fits hat
  have hflushes := hpending.flushes r
  have howed : fw.owed = fw.buffered_item.toList := by
    unfold Forward.owed
    rw [hask]
  rw [hask] at hfits
  rw [howed] at hopen
  have hitems := items_concat (q := .poll_flush) (a := .poll r) hopen.items rfl rfl
  rcases r with _ | e | ⟨⟩
  · exact sink_pending_keeps hcalls hopen hfits rfl nofun hflushes hitems
  · exact sink_fails_keeps hcalls hopen hfits rfl nofun hflushes hitems
  · exact sink_pending_keeps hcalls hopen hfits rfl nofun hflushes hitems

/-- The base answers. -/
theorem onStream_keeps (hcalls : Unresolved calls) (hopen : Open fw fw.owed (log calls ++ asked))
    (hat : AtAsk fw (log calls ++ asked)) (hpending : PendingOnce fw asked)
    (hask : fw.ask = .poll_next) (r : TryPoll T E) :
    ({ fw with stream := (fw.stream.poll r).1 }.onStream (fw.stream.poll r).2).Keeps Between Within
      calls k (asked ++ [(Ask.poll_next, Answer.base r)]) := by
  have hfits := hopen.fits hat
  unfold AtAsk at hat
  rw [hask] at hfits hat
  obtain ⟨hitem, hrunning⟩ := hat
  have howed : fw.owed = [] := by
    unfold Forward.owed
    rw [hask]
    dsimp only
    rw [hitem]
    rfl
  rw [howed] at hopen
  have hfresh : (Ask.poll_next, Answer.base Poll.pending) ∉ asked := fun hmem => by
    have hflush := (hpending hmem).1
    rw [hask] at hflush
    cases hflush
  rcases r with _ | _ | e | item
  · rw [IntoFuseStream.poll_pending hrunning]
    refine Or.inl ⟨hcalls, ?_, ⟨hitem, ?_⟩, fun _ => ⟨rfl, asked, rfl⟩⟩
    · unfold Forward.owed
      dsimp only
      rw [← List.append_assoc, hitem]
      exact hopen.concat hfits rfl (items_concat hopen.items rfl rfl) rfl (iff_self_or.mpr nofun)
    · rw [← List.append_assoc, List.getLast?_concat]
  · rw [IntoFuseStream.poll_end hrunning]
    refine Or.inl ⟨hcalls, ?_, ⟨hitem, rfl⟩, fun hmem => ?_⟩
    · unfold Forward.owed
      dsimp only
      rw [← List.append_assoc, hitem]
      exact hopen.concat hfits rfl (items_concat hopen.items rfl rfl) rfl
        ⟨fun _ => Or.inr rfl, fun _ => rfl⟩
    · rcases List.mem_append.mp hmem with hmem | hmem
      · exact absurd hmem hfresh
      · cases List.mem_singleton.mp hmem
  · rw [IntoFuseStream.poll_item hrunning]
    have hitems := items_concat (q := .poll_next) (a := .base (.ready (some (.error e)))) hopen.items
      rfl rfl
    refine resolve_keeps hcalls (flushes_of_not_mem fun hmem => ?_) ?_ ?_ ?_
    · rcases List.mem_append.mp hmem with hmem | hmem
      · exact absurd hmem hfresh
      · cases List.mem_singleton.mp hmem
    · rw [← List.append_assoc]
      exact fitting_concat hopen.fitting hopen.clean hfits
    · rw [← List.append_assoc]
      exact ⟨_, hitems.symm⟩
    · rw [← List.append_assoc]
      exact hopen.base_fails hfits e
  · rw [IntoFuseStream.poll_item hrunning]
    refine head_keeps hcalls ?_ fun hmem => ?_
    · rw [← List.append_assoc]
      refine hopen.concat hfits rfl ?_ rfl (iff_self_or.mpr nofun)
      rw [okItems_concat, passed_concat, hopen.items]
      simp only [okItem, passedItem, Option.toList_none, Option.toList_some, List.append_nil]
    · rcases List.mem_append.mp hmem with hmem | hmem
      · exact absurd hmem hfresh
      · cases List.mem_singleton.mp hmem

/-! ## The run -/

theorem between_new : Between (Forward.new T) ([] : Calls T E) := by
  refine Or.inl ⟨nofun, rfl, rfl, ⟨nofun, nofun⟩, nofun, ?_⟩
  intro before q a after heq
  exact absurd heq.symm (List.append_ne_nil_of_right_ne_nil _ (List.cons_ne_nil _ _))

theorem holds_of_run {ls : List (Act Unit (Answer T E))} {s : Run T E}
    (hrun : (machine T E).run (Forward.new T) ls = some s) : s.Holds Between Within := by
  refine run_keeps between_new (fun fw calls k h => ?_) (fun fw calls k asked a f h hf => ?_) hrun
  · rcases h with ⟨hcalls, hopen⟩ | hresolved
    · refine head_keeps hcalls ?_ nofun
      rw [List.append_nil]
      exact hopen
    · exact hresolved.keeps _
  · rcases h with ⟨hcalls, hopen, hat, hpending⟩ | hresolved
    · unfold machine at hf
      dsimp only at hf
      show f.Keeps Between Within calls k (asked ++ [(fw.ask, a)])
      split at hf
      · rename_i r hask
        cases hf
        rw [hask]
        exact onReady_keeps hcalls hopen hat hpending hask r
      · rename_i item r hask
        cases hf
        rw [hask]
        exact onSent_keeps hcalls hopen hat hpending hask r
      · rename_i r hask
        cases hf
        have hstream := onStream_keeps (k := k) hcalls hopen hat hpending hask r
        rwa [← hask] at hstream
      · rename_i r hask
        cases hf
        rw [hask]
        exact onClose_keeps hcalls hopen hat hpending hask r
      · rename_i r hask
        cases hf
        rw [hask]
        exact onFlush_keeps hcalls hopen hat hpending hask r
      · cases hf
    · exact hresolved.keeps _

/-- No poll follows one that has returned `Ready`. -/
def UpToReady (s : Run T E) : Prop :=
  ∀ before c after, s.calls = before ++ c :: after → after ≠ [] ∨ s.current ≠ none →
    c.result = .poll .pending

/-- What the base and the sink see of a run up to its first `Ready`. -/
structure Forwards (s : Run T E) : Prop where
  in_order : passed s.log <+: okItems s.log
  fitting : Fitting s.log
  flushes : ∀ c ∈ s.calls, Flushes c.asked
  returned : ∀ c ∈ s.calls, c.result ≠ .panicked
  resolution : ∀ c r, s.calls.getLast? = some c → c.result = .poll (.ready r) → Resolution s.log r
  base_error : ∀ e, (.poll_next, .base (.ready (some (.error e)))) ∈ s.log →
    ∃ c, s.calls.getLast? = some c ∧ c.result = .poll (.ready (.error e))
  resolves : (.poll_close, .poll (.ready (.ok ()))) ∈ s.log →
    ∃ c, s.calls.getLast? = some c ∧ c.result = .poll (.ready (.ok ()))

/-- The poll in which the sink is closed returns `Ready(Ok(()))`. -/
def ResolvesAtClose (calls : Calls T E) : Prop :=
  ∀ c ∈ calls, (.poll_close, .poll (.ready (.ok ()))) ∈ c.asked →
    c.result = .poll (.ready (.ok ()))

theorem resolvesAtClose_of_run {ls : List (Act Unit (Answer T E))} {s : Run T E}
    (hrun : (machine T E).run (Forward.new T) ls = some s) :
    s.Holds (fun _ calls => ResolvesAtClose calls)
      (fun _ calls _ asked =>
        ResolvesAtClose calls ∧ (.poll_close, .poll (.ready (.ok ()))) ∉ asked) := by
  have hconcat : ∀ {calls : Calls T E} {c}, ResolvesAtClose calls →
      ((.poll_close, .poll (.ready (.ok ()))) ∈ c.asked → c.result = .poll (.ready (.ok ()))) →
      ResolvesAtClose (calls ++ [c]) := by
    intro calls c hcalls hc c' hmem
    rcases List.mem_append.mp hmem with hmem | hmem
    · exact hcalls c' hmem
    · rw [List.mem_singleton.mp hmem]
      exact hc
  refine run_keeps nofun (fun fw calls k h => ?_) (fun fw calls k asked a f h hf => ?_) hrun
  · cases hhead : (machine T E).enter k fw with
    | again fw' => exact ⟨h, List.not_mem_nil⟩
    | ret r fw' => exact hconcat h fun hmem => absurd hmem List.not_mem_nil
  · obtain ⟨hcalls, hasked⟩ := h
    -- the sink is closed now, which ends the poll, or else it has not been
    by_cases hclose : ((machine T E).asks fw, a) = (.poll_close, .poll (.ready (.ok ())))
    · obtain ⟨hask, rfl⟩ := Prod.mk.inj hclose
      have hask : fw.ask = .poll_close := hask
      simp only [machine, hask, Option.some.injEq] at hf
      subst hf
      exact hconcat hcalls fun _ => rfl
    · have hnot : (.poll_close, .poll (.ready (.ok ()))) ∉ asked ++ [((machine T E).asks fw, a)] := by
        intro hmem
        rcases List.mem_append.mp hmem with hmem | hmem
        · exact hasked hmem
        · exact hclose (List.mem_singleton.mp hmem).symm
      cases f with
      | again fw' => exact ⟨hcalls, hnot⟩
      | ret r fw' => exact hconcat hcalls fun hmem => absurd hmem hnot

/-- Up to the first `Ready`, it is the last poll. -/
theorem resolves_of_run {ls : List (Act Unit (Answer T E))} {s : Run T E}
    (hrun : (machine T E).run (Forward.new T) ls = some s) (hupto : UpToReady s)
    (hmem : (.poll_close, .poll (.ready (.ok ()))) ∈ s.log) :
    ∃ c, s.calls.getLast? = some c ∧ c.result = .poll (.ready (.ok ())) := by
  have hholds := resolvesAtClose_of_run hrun
  have hfinished : ResolvesAtClose s.calls ∧ (.poll_close, .poll (.ready (.ok ()))) ∈ log s.calls := by
    unfold State.Holds at hholds
    unfold State.log at hmem
    cases hcurrent : s.current with
    | none =>
        rw [hcurrent] at hholds hmem
        exact ⟨hholds, hmem⟩
    | some call =>
        rw [hcurrent] at hholds hmem
        exact ⟨hholds.1, (List.mem_append.mp hmem).resolve_right hholds.2⟩
  obtain ⟨c, hc, hasked⟩ := List.mem_flatMap.mp hfinished.2
  have hresult := hfinished.1 c hc hasked
  obtain ⟨before, after, hsplit⟩ := List.append_of_mem hc
  have hlast : after = [] := by
    by_contra hafter
    rw [hupto before c after hsplit (Or.inl hafter)] at hresult
    cases hresult
  rw [hsplit, hlast]
  exact ⟨c, List.getLast?_concat .., hresult⟩

theorem forwards_of_open {s : Run T E} (hcalls : Unresolved s.calls) (h : Open fw owed s.log)
    (hresolves : (.poll_close, .poll (.ready (.ok ()))) ∈ s.log →
      ∃ c, s.calls.getLast? = some c ∧ c.result = .poll (.ready (.ok ()))) : Forwards s := by
  refine ⟨⟨owed, h.items.symm⟩, h.fitting, fun c hc => (hcalls c hc).2, fun c hc hpanicked => ?_,
    fun c r hc hr => ?_, fun e hmem => (by cases h.clean _ hmem), hresolves⟩
  · rw [(hcalls c hc).1] at hpanicked
    cases hpanicked
  · rw [(hcalls c (List.mem_of_getLast? hc)).1] at hr
    cases hr

theorem forwards_of_resolved {s : Run T E} (hupto : UpToReady s) (h : Resolved s.calls)
    (hresolves : (.poll_close, .poll (.ready (.ok ()))) ∈ s.log →
      ∃ c, s.calls.getLast? = some c ∧ c.result = .poll (.ready (.ok ()))) : Forwards s := by
  obtain ⟨before, c, after, r, hsplit, hbefore, hr, hflush, hfitting, hinit, hresolution⟩ := h
  have hfirst : after = [] ∧ s.current = none := by
    by_contra hlater
    have hpending := hupto before c after hsplit (by
      rw [not_and_or] at hlater
      exact hlater)
    rw [hr] at hpending
    cases hpending
  obtain ⟨rfl, hidle⟩ := hfirst
  have hlog : s.log = log before ++ c.asked := by
    unfold State.log
    rw [hidle, hsplit]
    exact log_concat before c
  have hlast : s.calls.getLast? = some c := by
    rw [hsplit, List.getLast?_concat]
  rw [← hlog] at hfitting hinit hresolution
  refine ⟨hinit, hfitting, fun c' hc => ?_, fun c' hc hpanicked => ?_, fun c' r' hc hr' => ?_,
    fun e hmem => ⟨c, hlast, ?_⟩, hresolves⟩
  · rw [hsplit] at hc
    rcases List.mem_append.mp hc with hc | hc
    · exact (hbefore c' hc).2
    · rw [List.mem_singleton.mp hc]
      exact hflush
  · rw [hsplit] at hc
    rcases List.mem_append.mp hc with hc | hc
    · rw [(hbefore c' hc).1] at hpanicked
      cases hpanicked
    · rw [List.mem_singleton.mp hc, hr] at hpanicked
      cases hpanicked
  · rw [hlast, Option.some.injEq] at hc
    rw [← hc, hr] at hr'
    cases hr'
    exact hresolution
  · rw [hr, (hresolution.base_error e hmem).1]

end TryForward

open TryForward (Forward Forwards UpToReady)

/-- **The items of the base are forwarded, in order.** For every base and every sink, in
every run up to the first `Ready`: the items passed to `start_send` are a prefix of the
`Ok` items of the base, each right after a `poll_ready` that succeeded; the base is
polled when all its items have been passed, and the sink is closed only then and after
its end. A poll in which the base is pending flushes the sink before it returns. The
future resolves to `Ok(())` just if the base ended and nothing failed, when everything
has been passed and the sink closed, and the poll in which `poll_close` succeeds returns it;
an error of the base resolves it, the items before have been passed, and the sink is not
closed. -/
theorem forwards_in_order {T E : Type} (ls : List (Act Unit (TryForward.Answer T E)))
    (s : TryForward.Run T E)
    (hrun : (TryForward.machine T E).run (Forward.new T) ls = some s) (hupto : UpToReady s) :
    Forwards s := by
  have h := TryForward.holds_of_run hrun
  have hresolves := TryForward.resolves_of_run hrun hupto
  unfold State.Holds at h
  split at h
  · rename_i hidle
    have hlog : s.log = log s.calls := by
      unfold State.log
      rw [hidle]
    rcases h with ⟨hcalls, hopen⟩ | hresolved
    · rw [← hlog] at hopen
      exact TryForward.forwards_of_open hcalls hopen hresolves
    · exact TryForward.forwards_of_resolved hupto hresolved hresolves
  · rename_i k asked hcurrent
    have hlog : s.log = log s.calls ++ asked := by
      unfold State.log
      rw [hcurrent]
    rcases h with ⟨hcalls, hopen, -, -⟩ | hresolved
    · rw [← hlog] at hopen
      exact TryForward.forwards_of_open hcalls hopen hresolves
    · exact TryForward.forwards_of_resolved hupto hresolved hresolves

/-- An item, backpressure, a pending base, its end, and a slow close. -/
def slowSink : List (Act Unit (TryForward.Answer ℕ ℕ)) :=
  [.call (), .answer (.base (.ready (some (.ok 5)))), .answer (.poll .pending),
    .call (), .answer (.poll (.ready (.ok ()))), .answer (.sent (.ok ())), .answer (.base .pending),
      .answer (.poll (.ready (.ok ()))),
    .call (), .answer (.base (.ready none)), .answer (.poll .pending),
    .call (), .answer (.poll (.ready (.ok ())))]

theorem forwards_in_order_slow_sink :
    ∃ s, (TryForward.machine ℕ ℕ).run (Forward.new ℕ) slowSink = some s ∧ Forwards s ∧
      results s.calls =
        [.poll .pending, .poll .pending, .poll .pending, .poll (.ready (.ok ()))] := by
  have hrun : ((TryForward.machine ℕ ℕ).run (Forward.new ℕ) slowSink).map
      (fun s => (s.current, results s.calls)) =
      some (none, [.poll .pending, .poll .pending, .poll .pending, .poll (.ready (.ok ()))]) := rfl
  obtain ⟨s, hs, hseen⟩ := Option.map_eq_some_iff.mp hrun
  obtain ⟨hidle, hresults⟩ := Prod.mk.inj hseen
  refine ⟨s, hs, forwards_in_order slowSink s hs ?_, hresults⟩
  intro before c after hsplit hlater
  rcases hlater with hafter | hcurrent
  · -- all results but the last are `Pending`
    have hmem : c.result ∈ (results s.calls).dropLast := by
      rw [hsplit, results, ← List.map_dropLast, List.dropLast_append_of_ne_nil (List.cons_ne_nil c after),
        List.dropLast_cons_of_ne_nil hafter]
      exact List.mem_map_of_mem (List.mem_append_right _ List.mem_cons_self)
    rw [hresults] at hmem
    simpa using hmem
  · exact absurd hidle hcurrent

end TokioStreamUtil
