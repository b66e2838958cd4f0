/-
The adaptors that map what the base gives.

`MapOk`, `MapErr`, `InspectOk`, `InspectErr`, `ErrInto` and `IntoStream` poll the base once
in each call, and return its answer with the item changed, or only shown to the closure. So
the results stand in line with the answers of the base, the pending ones included.
-/
import TokioStreamUtil.TryStream.SizeHint
import TokioStreamUtil.Lib.OneByOne

set_option autoImplicit false

namespace TokioStreamUtil

open PollLoop OneAtATime OneByOne

variable {φ T U E E' : Type} {MAX : ℕ}

/-! ## The adaptors -/

/-- `MapOk`, `MapErr`, `InspectOk` and `InspectErr`, without the base. -/
structure Mapped (φ : Type) where
  f : φ

/-- What the adaptors share: one poll of the base, whose item goes through `onItem`. -/
def Mapped.poll_next (onItem : φ → Except E T → Except E' U × φ) :
    OneAtATime (Mapped φ) Empty T E Empty (Option (Except E' U)) where
  start := .again
  pending := fun _ => none
  onFuture := fun _ res => res.elim
  onBase := fun self item =>
    match item with
    | some item => .ret (.ready (some (onItem self.f item).1)) { f := (onItem self.f item).2 }
    | none => .ret (.ready none) self

/-- `size_hint` of `MapOk`, `MapErr`, `InspectOk`, `InspectErr` and `IntoStream`, over that of
the base. -/
def Mapped.size_hint (_ : Mapped φ) (stream_size_hint : SizeHint MAX) : SizeHint MAX :=
  stream_size_hint

/-- `FusedStream::is_terminated` of the same, over that of the base. -/
def Mapped.is_terminated (_ : Mapped φ) (stream_is_terminated : Bool) : Bool :=
  stream_is_terminated

/-- What `MapOk` does with an item. -/
def MapOk.onItem (call : φ → T → U × φ) (f : φ) : Except E T → Except E U × φ
  | .ok ok => (.ok (call f ok).1, (call f ok).2)
  | .error e => (.error e, f)

/-- `MapOk::poll_next`. -/
def MapOk.poll_next (call : φ → T → U × φ) :
    OneAtATime (Mapped φ) Empty T E Empty (Option (Except E U)) := Mapped.poll_next (onItem call)

/-- What `MapErr` does with an item. -/
def MapErr.onItem (call : φ → E → E' × φ) (f : φ) : Except E T → Except E' T × φ
  | .ok ok => (.ok ok, f)
  | .error err => (.error (call f err).1, (call f err).2)

/-- `MapErr::poll_next`. -/
def MapErr.poll_next (call : φ → E → E' × φ) :
    OneAtATime (Mapped φ) Empty T E Empty (Option (Except E' T)) := Mapped.poll_next (onItem call)

/-- What `InspectOk` does with an item: the closure sees it and returns nothing. -/
def InspectOk.onItem (call : φ → T → φ) (f : φ) : Except E T → Except E T × φ
  | .ok ok => (.ok ok, call f ok)
  | .error err => (.error err, f)

/-- `InspectOk::poll_next`. -/
def InspectOk.poll_next (call : φ → T → φ) :
    OneAtATime (Mapped φ) Empty T E Empty (Option (Except E T)) := Mapped.poll_next (onItem call)

/-- What `InspectErr` does with an item. -/
def InspectErr.onItem (call : φ → E → φ) (f : φ) : Except E T → Except E T × φ
  | .ok ok => (.ok ok, f)
  | .error err => (.error err, call f err)

/-- `InspectErr::poll_next`. -/
def InspectErr.poll_next (call : φ → E → φ) :
    OneAtATime (Mapped φ) Empty T E Empty (Option (Except E T)) := Mapped.poll_next (onItem call)

/-- What `ErrInto` does with an item. It has no closure. -/
def ErrInto.onItem (into : E → E') (f : Unit) : Except E T → Except E' T × Unit
  | .ok ok => (.ok ok, f)
  | .error err => (.error (into err), f)

/-- `ErrInto::poll_next`. -/
def ErrInto.poll_next (into : E → E') :
    OneAtATime (Mapped Unit) Empty T E Empty (Option (Except E' T)) := Mapped.poll_next (onItem into)

/-- `ErrInto` has no `size_hint` of its own: the one that `Stream` provides. -/
def ErrInto.size_hint (_ : Mapped Unit) (_ : SizeHint MAX) : SizeHint MAX := (Usize.zero, none)

/-- `IntoStream::poll_next`. -/
def IntoStream.poll_next (T E : Type) :
    OneAtATime (Mapped Unit) Empty T E Empty (Option (Except E T)) :=
  Mapped.poll_next fun f item => (item, f)

/-! ## What they compute -/

namespace Mapped

variable (onItem : φ → Except E T → Except E' U × φ)

/-- The result for one answer of the base. -/
def answer (f : φ) : TryPoll T E → TryPoll U E' × φ
  | .ready (some item) => (.ready (some (onItem f item).1), (onItem f item).2)
  | .ready none => (.ready none, f)
  | .pending => (.pending, f)

/-- What comes before the first end is mapped on its own. -/
theorem untilEnd_answers (f : φ) (bs : List (TryPoll T E)) :
    untilEnd (tasks (answer onItem) f bs) = tasks onItem f (untilEnd bs) := by
  induction bs generalizing f with
  | nil => rfl
  | cons b bs ih =>
      rcases b with _ | _ | item
      · exact ih f
      · rfl
      · exact congrArg _ (ih _)

/-- One result for each answer, in order. -/
structure InLine (f : φ) (m : Mapped φ) (rs : List (TryPoll U E')) (bs : List (TryPoll T E)) :
    Prop where
  results : rs = tasks (answer onItem) f bs
  closure : m.f = stateAfter (answer onItem) f bs

variable {onItem}

theorem InLine.concat {f : φ} {m : Mapped φ} {rs : List (TryPoll U E')} {bs : List (TryPoll T E)}
    (h : InLine onItem f m rs bs) (b : TryPoll T E) :
    InLine onItem f { f := (answer onItem m.f b).2 } (rs ++ [(answer onItem m.f b).1])
      (bs ++ [b]) where
  results := by rw [tasks_concat, h.closure, h.results]
  closure := by rw [stateAfter_concat, h.closure]

/-- A round is the whole call. -/
theorem resume_eq {self : Mapped φ} {a : Answer T E Empty}
    {fl : Flow (Mapped φ) (TryPoll U E')}
    (h : (poll_next onItem).machine.resume self a = some fl) :
    ∃ b, a = .base b ∧ fl = .ret (answer onItem self.f b).1 { f := (answer onItem self.f b).2 } := by
  rcases resume_of_none rfl h with ⟨rfl, rfl⟩ | ⟨item, rfl, rfl⟩
  · exact ⟨.pending, rfl, rfl⟩
  · cases item with
    | none => exact ⟨.ready none, rfl, rfl⟩
    | some item => exact ⟨.ready (some item), rfl, rfl⟩

/-- **The law of the six.** In every state of every run the results are those for the
answers of the base, one for one, and the closure has been through them in order. -/
theorem inLine_of_run {f : φ} {ls : List (Act Unit (Answer T E Empty))}
    {s : Run (Mapped φ) Empty T E Empty (Except E' U)}
    (hrun : (poll_next onItem).machine.run { f := f } ls = some s) :
    InLine onItem f s.self (results s.calls) (baseAnswers s.log) := by
  have hholds : s.Holds
      (fun self calls => InLine onItem f self (results calls) (baseAnswers (log calls)))
      (fun self calls _ asked =>
        asked = [] ∧ InLine onItem f self (results calls) (baseAnswers (log calls))) := by
    refine run_keeps ⟨rfl, rfl⟩ ?_ ?_ hrun
    · intro self calls k h
      exact ⟨rfl, h⟩
    · rintro self calls k asked a fl ⟨rfl, h⟩ hresume
      obtain ⟨b, rfl, rfl⟩ := resume_eq hresume
      show InLine onItem f _ (results (calls ++ [_])) (baseAnswers (log (calls ++ [_])))
      rw [results_concat, log_concat, baseAnswers_append]
      exact h.concat b
  unfold State.Holds at hholds
  unfold State.log
  split at hholds
  · rename_i hcurrent
    rw [hcurrent]
    exact hholds
  · rename_i hcurrent
    obtain ⟨rfl, h⟩ := hholds
    rw [hcurrent]
    simpa using h

/-- Nothing is held and nothing is lost. -/
theorem counts : (poll_next onItem).Counts (fun _ => 0) True fun _ => True where
  start := fun _ _ => ⟨Nat.le_refl _, fun _ => rfl⟩
  onFuture := fun _ _ _ hp => absurd rfl hp
  onItem := fun _ _ _ _ => ⟨Nat.le_refl _, fun _ => rfl⟩
  onEnd := fun _ _ _ => ⟨rfl, _, rfl⟩

theorem fuses : (poll_next onItem).Fuses is_terminated fun _ => True :=
  .of_plain (fun _ => rfl) (fun _ => rfl) (fun _ b => (Bool.true_and b).symm)
    (fun _ _ _ _ hp => absurd rfl hp) (fun s item b _ _ => ⟨trivial, by simp⟩)

/-- The hint of the base is right. -/
theorem estimates (f : φ) :
    (poll_next onItem).Estimates MAX { f := f } Mapped.size_hint := by
  intro ls s hrun hs later hlater hint hbase
  have hcounts : (poll_next onItem).Counts (fun _ => 0) True fun _ => True := counts
  obtain ⟨h, ht⟩ := hcounts.tally_later fuses trivial hrun hs hlater
  refine ⟨fun hended => ?_, fun u hu => (ht.le).trans (hbase.upper u hu)⟩
  obtain ⟨hend, heq⟩ := (ht.ended hended).2 trivial
  rw [heq]
  exact hbase.lower hend

end Mapped

/-- The hint that `Stream` provides promises nothing. -/
theorem ErrInto.estimates (into : E → E') :
    (ErrInto.poll_next (T := T) into).Estimates MAX { f := () } ErrInto.size_hint := by
  intro ls s hrun hs later hlater hint hbase
  exact ⟨fun _ => Nat.zero_le _, by simp [ErrInto.size_hint]⟩

end TokioStreamUtil
