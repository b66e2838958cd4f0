/-
`size_hint` of the adaptors that run one future at a time.

An adaptor corrects the hint of its base by the item in progress, which the base has
given and the adaptor has not yielded. The item is in progress exactly while its field
is set, so the correction is right in every state. What the predicate or the closure
rejects makes the lower bound of some adaptors zero.
-/
import TokioStreamUtil.TryStream.Fused
import TokioStreamUtil.Lib.SizeHint

set_option autoImplicit false

namespace TokioStreamUtil

open PollLoop OneAtATime

variable {φ Fut T U E E' : Type} {MAX : ℕ}

/-! ## The functions -/

/-- `TryFilter::size_hint`, over that of the base. -/
def TryFilter.size_hint (self : TryFilter φ Fut T) (stream_size_hint : SizeHint MAX) :
    SizeHint MAX :=
  (Usize.zero, stream_size_hint.2.bind fun x => x.checked_add self.pending_item.isSome.toNat)

/-- `TryFilterMap::size_hint`, over that of the base. -/
def TryFilterMap.size_hint (self : TryFilterMap φ Fut) (stream_size_hint : SizeHint MAX) :
    SizeHint MAX :=
  (Usize.zero, stream_size_hint.2.bind fun x => x.checked_add self.pending.isSome.toNat)

/-- `size_hint` of `AndThen` and `OrElse`, over that of the base. -/
def Chained.size_hint (self : Chained φ Fut) (stream_size_hint : SizeHint MAX) : SizeHint MAX :=
  (stream_size_hint.1.saturating_add self.future.isSome.toNat,
    stream_size_hint.2.bind fun x => x.checked_add self.future.isSome.toNat)

/-- `TryTakeWhile::size_hint`, over that of the base. -/
def TryTakeWhile.size_hint (self : TryTakeWhile φ Fut T) (stream_size_hint : SizeHint MAX) :
    SizeHint MAX :=
  if self.done_taking then (Usize.zero, some Usize.zero)
  else (Usize.zero, stream_size_hint.2.bind fun x => x.checked_add self.pending_item.isSome.toNat)

/-- `TrySkipWhile::size_hint`, over that of the base. -/
def TrySkipWhile.size_hint (self : TrySkipWhile φ Fut T) (stream_size_hint : SizeHint MAX) :
    SizeHint MAX :=
  (Usize.zero, stream_size_hint.2.bind fun x => x.checked_add self.pending_item.isSome.toNat)

/-! ## Counting -/

namespace OneAtATime

variable {σ R ρ : Type}

/-- In every state between calls, whatever calls follow: a hint that brackets what the
base gives in them makes one that brackets what they yield before the first `None`. -/
def Estimates (MAX : ℕ) (B : OneAtATime σ Fut T E R (Option ρ)) (new : σ)
    (size_hint : σ → SizeHint MAX → SizeHint MAX) : Prop :=
  ∀ ls s, B.machine.run new ls = some s → s.current = none →
    ∀ later, B.machine.Continues s later → ∀ hint : SizeHint MAX,
      hint.Brackets (.ready none ∈ baseAnswers (log later))
        (untilEnd (baseAnswers (log later))).length →
      (size_hint s.self hint).Brackets (.ready none ∈ results later)
        (untilEnd (results later)).length

/-- `a` is at most `b`, and no less where nothing is lost. -/
def UpTo (lossless : Prop) (a b : ℕ) : Prop := a ≤ b ∧ (lossless → a = b)

/-- A stretch that starts with `budget` items in hand keeps them or yields them. Where
nothing is lost, it does not end the stream. -/
def Spends (held : σ → ℕ) (lossless : Prop) (budget : ℕ) : Flow σ (Poll (Option ρ)) → Prop
  | .again s => UpTo lossless (held s) budget
  | .ret .pending s => UpTo lossless (held s) budget
  | .ret (.ready none) _ => ¬lossless
  | .ret (.ready (some _)) s => UpTo lossless (1 + held s) budget

/-- What an adaptor has to show: `held` counts what is in progress. -/
structure Counts (B : OneAtATime σ Fut T E R (Option ρ)) (held : σ → ℕ) (lossless : Prop)
    (Inv : σ → Prop) : Prop where
  start : ∀ s, Inv s → Spends held lossless (held s) (B.start s)
  onFuture : ∀ s res, Inv s → B.pending s ≠ none → Spends held lossless (held s) (B.onFuture s res)
  onItem : ∀ s item, Inv s → B.pending s = none →
    Spends held lossless (held s + 1) (B.onBase s (some item))
  onEnd : ∀ s, Inv s → B.pending s = none →
    held s = 0 ∧ ∃ s', B.onBase s none = .ret (.ready none) s'

/-- What was yielded, against what the base gave and the `held₀` items in progress at
first. -/
structure Tally (lossless : Prop) (held₀ held : ℕ) (rs : List (Poll (Option ρ)))
    (bs : List (TryPoll T E)) : Prop where
  running : .ready none ∉ rs → .ready none ∉ bs ∧
    UpTo lossless ((untilEnd rs).length + held) ((untilEnd bs).length + held₀)
  ended : .ready none ∈ rs → (untilEnd rs).length ≤ (untilEnd bs).length + held₀ ∧
    (lossless → .ready none ∈ bs ∧ (untilEnd rs).length = (untilEnd bs).length + held₀)

section

variable {lossless : Prop} {held₀ h h' : ℕ} {rs : List (Poll (Option ρ))} {bs : List (TryPoll T E)}

/-- Once the stream has ended, what else comes does not count. -/
theorem Tally.of_ended (ht : Tally lossless held₀ h rs bs) (hrs : .ready none ∈ rs) (h' : ℕ)
    (rs' : List (Poll (Option ρ))) (bs' : List (TryPoll T E)) :
    Tally lossless held₀ h' (rs ++ rs') (bs ++ bs') where
  running := fun hn => absurd (List.mem_append_left rs' hrs) hn
  ended := by
    intro _
    obtain ⟨hle, hexact⟩ := ht.ended hrs
    have hmono := untilEnd_length_le bs bs'
    rw [untilEnd_append_of_mem hrs]
    refine ⟨by omega, fun hl => ?_⟩
    obtain ⟨hend, heq⟩ := hexact hl
    exact ⟨List.mem_append_left bs' hend, by rw [untilEnd_append_of_mem hend, heq]⟩

/-- Answers and results that do not end the stream, and what is held after them. -/
theorem Tally.go_on (ht : Tally lossless held₀ h rs bs) {rs' : List (Poll (Option ρ))}
    {bs' : List (TryPoll T E)} (hrs' : .ready none ∉ rs') (hbs' : .ready none ∉ bs')
    (hw : UpTo lossless ((untilEnd rs').length + h') (h + (untilEnd bs').length)) :
    Tally lossless held₀ h' (rs ++ rs') (bs ++ bs') := by
  by_cases hrs : .ready none ∈ rs
  · exact ht.of_ended hrs h' rs' bs'
  · obtain ⟨hbs, hle, hexact⟩ := ht.running hrs
    obtain ⟨hle', hexact'⟩ := hw
    refine ⟨fun _ => ⟨?_, ?_⟩, fun hmem => ?_⟩
    · rw [List.mem_append, not_or]
      exact ⟨hbs, hbs'⟩
    · rw [untilEnd_append_of_not_mem hrs, untilEnd_append_of_not_mem hbs, List.length_append,
        List.length_append]
      refine ⟨by omega, fun hl => ?_⟩
      have h₁ := hexact hl
      have h₂ := hexact' hl
      omega
    · rw [List.mem_append] at hmem
      exact absurd hmem (not_or.mpr ⟨hrs, hrs'⟩)

/-- The call that ends the stream. -/
theorem Tally.finish (ht : Tally lossless held₀ h rs bs) {bs' : List (TryPoll T E)}
    (hl : lossless → .ready none ∈ bs' ∧ untilEnd bs' = [] ∧ h = 0) :
    Tally lossless held₀ h' (rs ++ [.ready none]) (bs ++ bs') := by
  by_cases hrs : .ready none ∈ rs
  · exact ht.of_ended hrs h' [.ready none] bs'
  · obtain ⟨hbs, hle, hexact⟩ := ht.running hrs
    have hmono := untilEnd_length_le bs bs'
    refine ⟨fun hn => absurd (List.mem_append_right rs List.mem_cons_self) hn, fun _ => ?_⟩
    rw [untilEnd_append_of_not_mem hrs, List.length_append]
    refine ⟨?_, fun hlossless => ?_⟩
    · show (untilEnd rs).length + 0 ≤ _
      omega
    · obtain ⟨hend, hnil, hzero⟩ := hl hlossless
      have heq := hexact hlossless
      refine ⟨List.mem_append_right bs hend, ?_⟩
      rw [untilEnd_append_of_not_mem hbs, hnil, List.append_nil]
      show (untilEnd rs).length + 0 = _
      omega

end

section

variable {B : OneAtATime σ Fut T E R (Option ρ)} {held : σ → ℕ} {lossless : Prop} {Inv : σ → Prop}
  {is_terminated : σ → Bool → Bool} {self₀ : σ} {held₀ : ℕ}

/-- A stretch that spends keeps the tally. -/
theorem Tally.stretch {f : Flow σ (Poll (Option ρ))} {h : ℕ}
    {calls : List (Call Unit (Option Fut) (Answer T E R) (Poll (Option ρ)))} {k : Unit}
    {asked asked' : List (Option Fut × Answer T E R)} {b : Bool}
    (ht : Tally lossless held₀ h (results calls) (baseAnswers (log calls ++ asked)))
    (hgain : .ready none ∉ baseAnswers asked')
    (hspends : Spends held lossless (h + (untilEnd (baseAnswers asked')).length) f)
    (hleaves : f.Leaves is_terminated (.ready none) Inv Inv b) :
    f.Keeps
      (fun s calls => Inv s ∧
        Tally lossless held₀ (held s) (results calls) (baseAnswers (log calls)))
      (fun s calls _ asked => Inv s ∧
        Tally lossless held₀ (held s) (results calls) (baseAnswers (log calls ++ asked)))
      calls k (asked ++ asked') := by
  have hlog : baseAnswers (log calls ++ (asked ++ asked')) =
      baseAnswers (log calls ++ asked) ++ baseAnswers asked' := by
    rw [← List.append_assoc, baseAnswers_append]
  -- a call that returns `r` without ending the stream
  have hret : ∀ (r : Poll (Option ρ)) s, r ≠ .ready none → Inv s →
      UpTo lossless ((untilEnd [r]).length + held s) (h + (untilEnd (baseAnswers asked')).length) →
      Inv s ∧ Tally lossless held₀ (held s) (results (calls ++ [⟨k, asked ++ asked', r⟩]))
        (baseAnswers (log (calls ++ [⟨k, asked ++ asked', r⟩]))) := by
    intro r s hr hs hw
    refine ⟨hs, ?_⟩
    rw [results_concat, log_concat, hlog]
    refine ht.go_on ?_ hgain hw
    rw [List.mem_singleton]
    exact fun heq => hr heq.symm
  rcases f with s | ⟨_ | _ | y, s⟩
  · refine ⟨hleaves, ?_⟩
    rw [hlog]
    have hw : UpTo lossless ((untilEnd ([] : List (Poll (Option ρ)))).length + held s)
        (h + (untilEnd (baseAnswers asked')).length) := by
      rw [show (untilEnd ([] : List (Poll (Option ρ)))).length + held s = held s from Nat.zero_add _]
      exact hspends
    have hgo := ht.go_on List.not_mem_nil hgain hw
    rwa [List.append_nil] at hgo
  · refine hret .pending s (by rintro ⟨⟩) hleaves.1 ?_
    show UpTo lossless (0 + held s) _
    rw [Nat.zero_add]
    exact hspends
  · refine ⟨hleaves.1, ?_⟩
    rw [results_concat, log_concat, hlog]
    exact ht.finish fun hl => absurd hl hspends
  · exact hret (.ready (some y)) s (by rintro ⟨⟩) hleaves.1 hspends

/-- **The rule.** In every run that starts where the invariant holds, what has been
yielded and what is held tally with what the base has given. -/
theorem Counts.tally (hf : B.Fuses is_terminated Inv) (hc : B.Counts held lossless Inv)
    (hself : Inv self₀) {ls : List (Act Unit (Answer T E R))} {s : Run σ Fut T E R ρ}
    (hrun : B.machine.run self₀ ls = some s) (hs : s.current = none) :
    Inv s.self ∧
      Tally lossless (held self₀) (held s.self) (results s.calls) (baseAnswers (log s.calls)) := by
  have hholds : s.Holds
      (fun s calls => Inv s ∧
        Tally lossless (held self₀) (held s) (results calls) (baseAnswers (log calls)))
      (fun s calls _ asked => Inv s ∧
        Tally lossless (held self₀) (held s) (results calls) (baseAnswers (log calls ++ asked))) := by
    refine run_keeps ⟨hself, ?_⟩ ?_ ?_ hrun
    · refine ⟨fun _ => ⟨List.not_mem_nil, ?_, fun _ => rfl⟩, fun hmem => ?_⟩
      · exact Nat.le_refl _
      · cases hmem
    · rintro s calls k ⟨hs, ht⟩
      have ht' : Tally lossless (held self₀) (held s) (results calls)
          (baseAnswers (log calls ++ [])) := by
        rw [List.append_nil]
        exact ht
      exact ht'.stretch List.not_mem_nil (hc.start s hs) (hf.start s false hs)
    · rintro s calls k asked a f ⟨hs, ht⟩ hresume
      have hpending : (Flow.ret .pending s : Flow σ (Poll (Option ρ))).Leaves is_terminated
          (.ready none) Inv Inv false := ⟨hs, by rintro ⟨⟩⟩
      cases hp : B.pending s with
      | some fut =>
          have hne : B.pending s ≠ none := by
            rw [hp]
            exact Option.some_ne_none fut
          rcases resume_of_some hp hresume with ⟨rfl, rfl⟩ | ⟨res, rfl, rfl⟩
          · exact Tally.stretch ht List.not_mem_nil ⟨Nat.le_refl _, fun _ => rfl⟩ hpending
          · exact Tally.stretch ht List.not_mem_nil (hc.onFuture s res hs hne) (hf.onFuture s res false hs hne)
      | none =>
          rcases resume_of_none hp hresume with ⟨rfl, rfl⟩ | ⟨_ | item, rfl, rfl⟩
          · refine Tally.stretch ht ?_ ⟨Nat.le_refl _, fun _ => rfl⟩ hpending
            rw [baseAnswers_base, List.mem_singleton]
            rintro ⟨⟩
          · obtain ⟨hzero, s', hend⟩ := hc.onEnd s hs hp
            have hleaves := hf.onEnd s false hs hp
            rw [hend] at hleaves ⊢
            refine ⟨hleaves.1, ?_⟩
            rw [results_concat, log_concat, ← List.append_assoc, baseAnswers_append]
            exact ht.finish fun _ => ⟨List.mem_cons_self, rfl, hzero⟩
          · refine Tally.stretch ht ?_ (hc.onItem s item hs hp) (hf.onItem s item false hs hp)
            rw [baseAnswers_base, List.mem_singleton]
            rintro ⟨⟩
  exact hholds.idle hs

/-- What is yielded is at most what the base gives and what was held. -/
theorem Tally.le {h : ℕ} {rs : List (Poll (Option ρ))} {bs : List (TryPoll T E)}
    (ht : Tally lossless held₀ h rs bs) : (untilEnd rs).length ≤ (untilEnd bs).length + held₀ := by
  by_cases hrs : .ready none ∈ rs
  · exact (ht.ended hrs).1
  · exact (Nat.le_add_right _ h).trans (ht.running hrs).2.1

/-- In a state between calls, the tally of the calls that follow. -/
theorem Counts.tally_later (hf : B.Fuses is_terminated Inv) (hc : B.Counts held lossless Inv)
    {new : σ} (hnew : Inv new) {ls : List (Act Unit (Answer T E R))} {s : Run σ Fut T E R ρ}
    (hrun : B.machine.run new ls = some s) (hs : s.current = none)
    {later : List (Call Unit (Option Fut) (Answer T E R) (Poll (Option ρ)))}
    (hlater : B.machine.Continues s later) :
    ∃ h, Tally lossless (held s.self) h (results later) (baseAnswers (log later)) := by
  obtain ⟨ls', s', hrun', hs', rfl⟩ := (Machine.continues_iff hs).mp hlater
  have hself := (hc.tally hf hnew hrun hs).1
  exact ⟨held s'.self, (hc.tally hf hself hrun' hs').2⟩

/-- Where something may be lost, the lower bound is zero. -/
theorem Counts.estimates_lossy {new : σ} (hf : B.Fuses is_terminated Inv)
    (hc : B.Counts held lossless Inv) (hnew : Inv new) :
    B.Estimates MAX new fun s hint => (Usize.zero, hint.2.bind fun x => x.checked_add (held s)) := by
  intro ls s hrun hs later hlater hint hbase
  obtain ⟨h, ht⟩ := hc.tally_later hf hnew hrun hs hlater
  exact hbase.lossy ht.le

/-- Where nothing is lost, both bounds are those of the base and what is held. -/
theorem Counts.estimates_exact {new : σ} (hf : B.Fuses is_terminated Inv)
    (hc : B.Counts held True Inv) (hnew : Inv new) :
    B.Estimates MAX new fun s hint =>
      (hint.1.saturating_add (held s), hint.2.bind fun x => x.checked_add (held s)) := by
  intro ls s hrun hs later hlater hint hbase
  obtain ⟨h, ht⟩ := hc.tally_later hf hnew hrun hs hlater
  exact hbase.exact (fun hended => (ht.ended hended).2 trivial) ht.le

end

end OneAtATime

/-! ## The adaptors -/

theorem TryFilter.counts (call : φ → T → Fut × φ) :
    (TryFilter.poll_next (E := E) call).Counts (fun s => s.pending_item.isSome.toNat) False
      fun s => s.pending_item.isSome = s.pending_fut.isSome where
  start := fun _ _ => ⟨Nat.le_refl _, fun _ => rfl⟩
  onFuture := by
    intro s res hs hp
    obtain ⟨item, hitem⟩ : ∃ item, s.pending_item = some item := by
      rw [← Option.isSome_iff_exists, hs, Option.isSome_iff_ne_none]
      exact hp
    unfold poll_next
    dsimp only
    rw [hitem]
    split
    · exact ⟨Nat.le_refl _, fun _ => rfl⟩
    · exact ⟨Nat.zero_le _, False.elim⟩
  onItem := by
    intro s item hs hp
    have hitem : s.pending_item.isSome = false := by
      rw [hs, show s.pending_fut = none from hp]
      rfl
    cases item with
    | ok item =>
        show UpTo False 1 (s.pending_item.isSome.toNat + 1)
        rw [hitem]
        exact ⟨Nat.le_refl _, fun _ => rfl⟩
    | error e => exact ⟨(Nat.add_comm 1 _).le, fun _ => Nat.add_comm 1 _⟩
  onEnd := by
    intro s hs hp
    refine ⟨?_, s, rfl⟩
    rw [hs, show s.pending_fut = none from hp]
    rfl

theorem TryFilterMap.counts (call : φ → T → Fut × φ) :
    (TryFilterMap.poll_next (E := E) (U := U) call).Counts (fun s => s.pending.isSome.toNat) False
      fun _ => True where
  start := fun _ _ => ⟨Nat.le_refl _, fun _ => rfl⟩
  onFuture := by
    intro s res _ hp
    obtain ⟨fut, hfut⟩ := Option.ne_none_iff_exists'.mp (show s.pending ≠ none from hp)
    rw [hfut]
    rcases res with e | _ | val
    · exact ⟨Nat.le_refl _, fun _ => rfl⟩
    · exact ⟨Nat.zero_le _, False.elim⟩
    · exact ⟨Nat.le_refl _, fun _ => rfl⟩
  onItem := by
    intro s item _ hp
    cases item with
    | ok item =>
        show UpTo False 1 (s.pending.isSome.toNat + 1)
        rw [show s.pending = none from hp]
        exact ⟨Nat.le_refl _, fun _ => rfl⟩
    | error e => exact ⟨(Nat.add_comm 1 _).le, fun _ => Nat.add_comm 1 _⟩
  onEnd := by
    intro s _ hp
    refine ⟨?_, s, rfl⟩
    rw [show s.pending = none from hp]
    rfl

theorem AndThen.counts (call : φ → T → Fut × φ) :
    (AndThen.poll_next (E := E) (U := U) call).Counts (fun s => s.future.isSome.toNat) True
      fun _ => True where
  start := fun _ _ => ⟨Nat.le_refl _, fun _ => rfl⟩
  onFuture := by
    intro s res _ hp
    obtain ⟨fut, hfut⟩ := Option.ne_none_iff_exists'.mp (show s.future ≠ none from hp)
    rw [hfut]
    exact ⟨Nat.le_refl _, fun _ => rfl⟩
  onItem := by
    intro s item _ hp
    cases item with
    | ok item =>
        show UpTo True 1 (s.future.isSome.toNat + 1)
        rw [show s.future = none from hp]
        exact ⟨Nat.le_refl _, fun _ => rfl⟩
    | error e => exact ⟨(Nat.add_comm 1 _).le, fun _ => Nat.add_comm 1 _⟩
  onEnd := by
    intro s _ hp
    refine ⟨?_, s, rfl⟩
    rw [show s.future = none from hp]
    rfl

theorem OrElse.counts (call : φ → E → Fut × φ) :
    (OrElse.poll_next call : OneAtATime _ Fut T E (Except E' T) _).Counts
      (fun s => s.future.isSome.toNat) True fun _ => True where
  start := fun _ _ => ⟨Nat.le_refl _, fun _ => rfl⟩
  onFuture := by
    intro s res _ hp
    obtain ⟨fut, hfut⟩ := Option.ne_none_iff_exists'.mp (show s.future ≠ none from hp)
    rw [hfut]
    exact ⟨Nat.le_refl _, fun _ => rfl⟩
  onItem := by
    intro s item _ hp
    cases item with
    | ok item => exact ⟨(Nat.add_comm 1 _).le, fun _ => Nat.add_comm 1 _⟩
    | error e =>
        show UpTo True 1 (s.future.isSome.toNat + 1)
        rw [show s.future = none from hp]
        exact ⟨Nat.le_refl _, fun _ => rfl⟩
  onEnd := by
    intro s _ hp
    refine ⟨?_, s, rfl⟩
    rw [show s.future = none from hp]
    rfl

theorem TryTakeWhile.counts (call : φ → T → Fut × φ) :
    (TryTakeWhile.poll_next (E := E) call).Counts (fun s => s.pending_item.isSome.toNat) False
      fun s => s.pending_item.isSome = s.pending_fut.isSome where
  start := by
    intro s _
    unfold poll_next
    dsimp only
    split
    · exact not_false
    · exact ⟨Nat.le_refl _, fun _ => rfl⟩
  onFuture := by
    intro s take hs hp
    obtain ⟨item, hitem⟩ : ∃ item, s.pending_item = some item := by
      rw [← Option.isSome_iff_exists, hs, Option.isSome_iff_ne_none]
      exact hp
    rw [hitem]
    rcases take with e | _ | _
    · exact ⟨Nat.le_refl _, fun _ => rfl⟩
    · exact not_false
    · show Spends _ False 1 (Flow.ret (.ready (s.pending_item.map (Except.ok (ε := E)))) _)
      rw [hitem]
      exact ⟨Nat.le_refl _, fun _ => rfl⟩
  onItem := by
    intro s item hs hp
    have hitem : s.pending_item.isSome = false := by
      rw [hs, show s.pending_fut = none from hp]
      rfl
    cases item with
    | ok item =>
        show UpTo False 1 (s.pending_item.isSome.toNat + 1)
        rw [hitem]
        exact ⟨Nat.le_refl _, fun _ => rfl⟩
    | error e => exact ⟨(Nat.add_comm 1 _).le, fun _ => Nat.add_comm 1 _⟩
  onEnd := by
    intro s hs hp
    refine ⟨?_, { s with done_taking := true }, rfl⟩
    rw [hs, show s.pending_fut = none from hp]
    rfl

theorem TrySkipWhile.counts (call : φ → T → Fut × φ) :
    (TrySkipWhile.poll_next (E := E) call).Counts (fun s => s.pending_item.isSome.toNat) False
      fun s => s.pending_item.isSome = s.pending_fut.isSome ∧
        (s.done_skipping = true → s.pending_item = none) where
  start := fun _ _ => ⟨Nat.le_refl _, fun _ => rfl⟩
  onFuture := by
    intro s skipped hs hp
    have hfut : s.pending_fut ≠ none := by
      unfold poll_next at hp
      dsimp only at hp
      split at hp
      · exact absurd rfl hp
      · exact hp
    obtain ⟨item, hitem⟩ : ∃ item, s.pending_item = some item := by
      rw [← Option.isSome_iff_exists, hs.1, Option.isSome_iff_ne_none]
      exact hfut
    rw [hitem]
    rcases skipped with e | _ | _
    · exact ⟨Nat.le_refl _, fun _ => rfl⟩
    · show Spends _ False 1 (Flow.ret (.ready (s.pending_item.map (Except.ok (ε := E)))) _)
      rw [hitem]
      exact ⟨Nat.le_refl _, fun _ => rfl⟩
    · exact ⟨Nat.zero_le _, False.elim⟩
  onItem := by
    intro s item hs hp
    have hreturn : ∀ d, Spends (fun s : TrySkipWhile φ Fut T => s.pending_item.isSome.toNat) False
        (s.pending_item.isSome.toNat + 1)
        (Flow.ret (.ready (some item)) { s with done_skipping := d }) :=
      fun _ => ⟨(Nat.add_comm 1 _).le, fun _ => Nat.add_comm 1 _⟩
    unfold poll_next at hp ⊢
    dsimp only at hp ⊢
    split
    · exact hreturn s.done_skipping
    · rename_i hdone
      rw [if_neg hdone] at hp
      cases item with
      | ok item =>
          show UpTo False 1 (s.pending_item.isSome.toNat + 1)
          rw [hs.1, hp]
          exact ⟨Nat.le_refl _, fun _ => rfl⟩
      | error e => exact hreturn true
  onEnd := by
    intro s hs hp
    have hitem : s.pending_item = none := by
      cases hdone : s.done_skipping with
      | true => exact hs.2 hdone
      | false =>
          unfold poll_next at hp
          dsimp only at hp
          rw [hdone] at hp
          rw [← Option.isNone_iff_eq_none, ← Option.not_isSome, hs.1, show s.pending_fut = none from hp]
          rfl
    refine ⟨?_, ?_⟩
    · rw [hitem]
      rfl
    · unfold poll_next
      dsimp only
      split
      · exact ⟨s, rfl⟩
      · exact ⟨{ s with done_skipping := true }, rfl⟩

/-- A `TryTakeWhile` that has stopped taking returns `None` from every call, and asks
nobody. -/
theorem TryTakeWhile.stays_ended (call : φ → T → Fut × φ) {self₀ : TryTakeWhile φ Fut T}
    (hdone : self₀.done_taking = true) {ls : List (Act Unit (Answer T E (Except E Bool)))}
    {s : Run (TryTakeWhile φ Fut T) Fut T E (Except E Bool) (Except E T)}
    (hrun : (TryTakeWhile.poll_next call).machine.run self₀ ls = some s) (hs : s.current = none) :
    ∀ c ∈ s.calls, c.result = .ready none ∧ c.asked = [] := by
  have hholds : s.Holds
      (fun self calls => self.done_taking = true ∧ ∀ c ∈ calls, c.result = .ready none ∧ c.asked = [])
      (fun _ _ _ _ => False) := by
    refine run_keeps ⟨hdone, fun c hc => by cases hc⟩ ?_ ?_ hrun
    · rintro self calls k ⟨hself, hall⟩
      have henter : (TryTakeWhile.poll_next (E := E) call).machine.enter k self =
          .ret (.ready none) self := if_pos hself
      rw [henter]
      refine ⟨hself, fun c hc => ?_⟩
      rcases List.mem_append.mp hc with hc | hc
      · exact hall c hc
      · obtain rfl := List.mem_singleton.mp hc
        exact ⟨rfl, rfl⟩
    · intro self calls k asked a f hfalse _
      exact hfalse.elim
  exact (hholds.idle hs).2

/-- Only ends, and nothing else. -/
theorem untilEnd_of_ended {α : Type} {rs : List (Poll (Option α))} (h : ∀ r ∈ rs, r = .ready none) :
    untilEnd rs = [] := by
  cases rs with
  | nil => rfl
  | cons r rs =>
      rw [h r List.mem_cons_self]
      rfl

theorem TryTakeWhile.estimates (call : φ → T → Fut × φ) (f : φ) :
    (TryTakeWhile.poll_next (E := E) call).Estimates MAX (TryTakeWhile.new f)
      TryTakeWhile.size_hint := by
  intro ls s hrun hs later hlater hint hbase
  show (TryTakeWhile.size_hint s.self hint).Brackets _ _
  unfold size_hint
  split
  · rename_i hdone
    obtain ⟨ls', s', hrun', hs', rfl⟩ := (Machine.continues_iff hs).mp hlater
    have hnothing : untilEnd (results s'.calls) = [] := by
      refine untilEnd_of_ended fun r hr => ?_
      obtain ⟨c, hc, rfl⟩ := List.mem_map.mp hr
      exact (stays_ended call hdone hrun' hs' c hc).1
    rw [hnothing]
    exact ⟨fun _ => Nat.le_refl 0, fun _ _ => Nat.zero_le _⟩
  · exact (counts call).estimates_lossy (fuses call) rfl ls s hrun hs later hlater hint hbase

/-- **The hints are right.** In every state between calls of the six adaptors, with an
item in progress or without, for every closure and every placement of the pending
answers: a hint of the base that is right about what the base gives from there on makes
a hint that is right about what the adaptor yields before its first `None`. -/
theorem size_hints_bracket (φ Fut T U E E' : Type) (MAX : ℕ) (f : φ) :
    (∀ call : φ → T → Fut × φ,
      (TryFilter.poll_next (E := E) call).Estimates MAX (TryFilter.new f) TryFilter.size_hint ∧
      (TryFilterMap.poll_next (E := E) (U := U) call).Estimates MAX (TryFilterMap.new f)
        TryFilterMap.size_hint ∧
      (AndThen.poll_next (E := E) (U := U) call).Estimates MAX (Chained.new f) Chained.size_hint ∧
      (TryTakeWhile.poll_next (E := E) call).Estimates MAX (TryTakeWhile.new f)
        TryTakeWhile.size_hint ∧
      (TrySkipWhile.poll_next (E := E) call).Estimates MAX (TrySkipWhile.new f)
        TrySkipWhile.size_hint) ∧
    ∀ call : φ → E → Fut × φ,
      (OrElse.poll_next call : OneAtATime _ Fut T E (Except E' T) _).Estimates MAX (Chained.new f)
        Chained.size_hint := by
  refine ⟨fun call => ⟨?_, ?_, ?_, ?_, ?_⟩, fun call => ?_⟩
  · exact (TryFilter.counts call).estimates_lossy (TryFilter.fuses call) rfl
  · exact (TryFilterMap.counts call).estimates_lossy (TryFilterMap.fuses call) trivial
  · exact (AndThen.counts call).estimates_exact (AndThen.fuses call) trivial
  · exact TryTakeWhile.estimates call f
  · exact (TrySkipWhile.counts call).estimates_lossy (TrySkipWhile.fuses call)
      ⟨rfl, fun hdone => absurd hdone Bool.false_ne_true⟩
  · exact (OrElse.counts call).estimates_exact (OrElse.fuses call) trivial

/-- `AndThen` over natural numbers, whose futures are the items. -/
def andThenId : OneAtATime (Chained Unit ℕ) ℕ ℕ ℕ (Except ℕ ℕ) (Option (Except ℕ ℕ)) :=
  AndThen.poll_next fun f item => (item, f)

/-- The first item is in progress. -/
def oneInProgress : List (Act Unit (Answer ℕ ℕ (Except ℕ ℕ))) :=
  [.call (), .answer (.base (.ready (some (.ok 1)))), .answer (.future .pending)]

/-- It is yielded, and the base gives one more and ends. -/
def twoMore : List (Act Unit (Answer ℕ ℕ (Except ℕ ℕ))) :=
  [.call (), .answer (.future (.ready (.ok 1))), .call (),
    .answer (.base (.ready (some (.error 2)))), .call (), .answer (.base (.ready none))]

/-- With words up to `1`, the hint of one item saturates below and gives up above. -/
theorem size_hints_bracket_at_limit :
    ∃ s later, andThenId.machine.run (Chained.new ()) oneInProgress = some s ∧
      andThenId.machine.Continues s later ∧
      Chained.size_hint s.self ((⟨1, Nat.le_refl 1⟩, some ⟨1, Nat.le_refl 1⟩) : SizeHint 1) =
        (⟨1, Nat.le_refl 1⟩, none) ∧
      (untilEnd (results later)).length = 2 ∧
      (Chained.size_hint s.self
        ((⟨1, Nat.le_refl 1⟩, some ⟨1, Nat.le_refl 1⟩) : SizeHint 1)).Brackets
        (.ready none ∈ results later) (untilEnd (results later)).length := by
  have hfirst : (andThenId.machine.run (Chained.new ()) oneInProgress).map
      (fun s => (s.self.future, s.self.f, s.current)) = some (some 1, (), none) := rfl
  have hthen : (andThenId.machine.run { future := some 1, f := () } twoMore).map
      (fun s => (s.current, untilEnd (results s.calls), untilEnd (baseAnswers (log s.calls)))) =
      some (none, [.ok 1, .error 2], [.error 2]) := rfl
  obtain ⟨⟨⟨future, f⟩, calls, current⟩, hrun, hseen⟩ := Option.map_eq_some_iff.mp hfirst
  cases hseen
  obtain ⟨s', hrun', hseen'⟩ := Option.map_eq_some_iff.mp hthen
  obtain ⟨hidle, hmore⟩ := Prod.mk.inj hseen'
  obtain ⟨hyielded, hgiven⟩ := Prod.mk.inj hmore
  have hlater := (Machine.continues_iff
    (show (State.mk (σ := Chained Unit ℕ) ⟨some 1, ()⟩ calls none).current = none from rfl)).mpr
    ⟨twoMore, s', hrun', hidle, rfl⟩
  refine ⟨_, s'.calls, hrun, hlater, rfl, congrArg List.length hyielded, ?_⟩
  refine ((size_hints_bracket Unit ℕ ℕ ℕ ℕ ℕ 1 ()).1 fun f item => (item, f)).2.2.1
    oneInProgress _ hrun rfl _ hlater _ ?_
  rw [hgiven]
  refine ⟨fun _ => Nat.le_refl 1, fun u hu => ?_⟩
  cases hu
  exact Nat.le_refl 1

end TokioStreamUtil
