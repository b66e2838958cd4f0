/-
`FusedStream` of the sequential adaptors.

Each adaptor reads its flag off other fields. What makes the flag right is how the
fields go together between calls: an item is held exactly while a future is, a stashed
error never outlives the base, a done flag comes with empty fields.
-/
import TokioStreamUtil.TryStream.OneAtATime
import TokioStreamUtil.TryStream.Chunks
import TokioStreamUtil.TryStream.TryFlatten

set_option autoImplicit false

namespace TokioStreamUtil

open PollLoop

variable {φ Fut S T U E E' I : Type}

/-! ## One future at a time -/

namespace OneAtATime

variable {σ R ρ : Type}

/-- The base. -/
def source (T E R : Type) : Source (Answer T E R) where
  asked := fun
    | .base _ => true
    | .future _ => false
  ended := fun
    | .base (.ready none) => true
    | _ => false

/-- What an adaptor has to show, part by part of the loop. -/
structure Fuses (B : OneAtATime σ Fut T E R (Option ρ)) (is_terminated : σ → Bool → Bool)
    (Inv : σ → Prop) : Prop where
  start : ∀ s b, Inv s → (B.start s).Leaves is_terminated (.ready none) Inv Inv b
  onFuture : ∀ s res b, Inv s → B.pending s ≠ none →
    (B.onFuture s res).Leaves is_terminated (.ready none) Inv Inv b
  onItem : ∀ s item b, Inv s → B.pending s = none →
    (B.onBase s (some item)).Leaves is_terminated (.ready none) Inv Inv b
  onEnd : ∀ s b, Inv s → B.pending s = none →
    (B.onBase s none).Leaves is_terminated (.ready none) Inv Inv (b || true)
  stops : ∀ s b, Inv s → is_terminated s b = true →
    (∃ s', B.start s = .ret (.ready none) s' ∧ is_terminated s' b = true) ∨
    (∃ s' s'', B.start s = .again s' ∧ B.pending s' = none ∧ b = true ∧
      B.onBase s' none = .ret (.ready none) s'' ∧ is_terminated s'' true = true)

section

variable {B : OneAtATime σ Fut T E R (Option ρ)} {is_terminated : σ → Bool → Bool} {Inv : σ → Prop}
  {s : σ} {a : Answer T E R} {f : Flow σ (Poll (Option ρ))}

/-- A round with a future in progress. -/
theorem resume_of_some {fut : Fut} (hp : B.pending s = some fut)
    (hf : B.machine.resume s a = some f) :
    (a = .future .pending ∧ f = .ret .pending s) ∨
      ∃ res, a = .future (.ready res) ∧ f = B.onFuture s res := by
  unfold machine at hf
  dsimp only at hf
  rw [hp] at hf
  rcases a with r | _ | res
  · cases hf
  · exact Or.inl ⟨rfl, (Option.some.inj hf).symm⟩
  · exact Or.inr ⟨res, rfl, (Option.some.inj hf).symm⟩

/-- A round without. -/
theorem resume_of_none (hp : B.pending s = none) (hf : B.machine.resume s a = some f) :
    (a = .base .pending ∧ f = .ret .pending s) ∨
      ∃ item, a = .base (.ready item) ∧ f = B.onBase s item := by
  unfold machine at hf
  dsimp only at hf
  rw [hp] at hf
  rcases a with (_ | item) | r
  · exact Or.inl ⟨rfl, (Option.some.inj hf).symm⟩
  · exact Or.inr ⟨item, rfl, (Option.some.inj hf).symm⟩
  · cases hf

theorem resume_base (hp : B.pending s = none) (item : Option (Except E T)) :
    B.machine.resume s (.base (.ready item)) = some (B.onBase s item) := by
  unfold machine
  dsimp only
  rw [hp]

/-- The machine shows it then. -/
theorem Fuses.machine (h : B.Fuses is_terminated Inv) :
    B.machine.Fuses (source T E R) is_terminated (.ready none) Inv Inv where
  enter := fun _ s b hs => h.start s b hs
  resume := by
    intro s a f b hs _ hf
    cases hp : B.pending s with
    | some fut =>
        rcases resume_of_some hp hf with ⟨rfl, rfl⟩ | ⟨res, rfl, rfl⟩
        · exact ⟨hs, nofun⟩
        · rw [show (source T E R).ended (.future (.ready res)) = false from rfl, Bool.or_false]
          exact h.onFuture s res b hs (by rw [hp]; exact Option.some_ne_none fut)
    | none =>
        rcases resume_of_none hp hf with ⟨rfl, rfl⟩ | ⟨_ | item, rfl, rfl⟩
        · exact ⟨hs, nofun⟩
        · exact h.onEnd s b hs hp
        · rw [show (source T E R).ended (.base (.ready (some item))) = false from rfl, Bool.or_false]
          exact h.onItem s item b hs hp
  stops := by
    intro k s b hs hterm
    show (B.start s).Stops _ _ _ _ _
    rcases h.stops s b hs hterm with ⟨s', hstart, hs'⟩ | ⟨s', s'', hstart, hp, rfl, hend, hs''⟩
    · rw [hstart]
      exact ⟨rfl, hs'⟩
    · rw [hstart]
      refine ⟨⟨.base (.ready none), B.onBase s' none, fun _ _ => rfl, resume_base hp none⟩, ?_⟩
      -- the base has ended, so it can only say so again
      intro a f hallow hf
      rcases resume_of_none hp hf with ⟨rfl, rfl⟩ | ⟨_ | item, rfl, rfl⟩
      · exact absurd (hallow rfl rfl) nofun
      · exact ⟨s'', hend, hs''⟩
      · exact absurd (hallow rfl rfl) nofun

/-- Where the loop comes at once, ends with the base, and the flag is up when the base
has ended and no future is in progress, only the other rounds are left to show. -/
theorem Fuses.of_plain (hstart : ∀ s, B.start s = .again s)
    (hend : ∀ s, B.onBase s none = .ret (.ready none) s)
    (hflag : ∀ s b, is_terminated s b = ((B.pending s).isNone && b))
    (onFuture : ∀ s res b, Inv s → B.pending s ≠ none →
      (B.onFuture s res).Leaves is_terminated (.ready none) Inv Inv b)
    (onItem : ∀ s item b, Inv s → B.pending s = none →
      (B.onBase s (some item)).Leaves is_terminated (.ready none) Inv Inv b) :
    B.Fuses is_terminated Inv where
  start := by
    intro s b hs
    rw [hstart]
    exact hs
  onFuture := onFuture
  onItem := onItem
  onEnd := by
    intro s b hs hp
    rw [hend]
    refine ⟨hs, fun _ => ?_⟩
    rw [hflag, hp, Bool.or_true]
    rfl
  stops := by
    intro s b _ hterm
    obtain ⟨hp, rfl⟩ := Bool.and_eq_true_iff.mp (hflag s b ▸ hterm)
    exact Or.inr ⟨s, s, hstart s, Option.isNone_iff_eq_none.mp hp, rfl, hend s, hterm⟩

end

end OneAtATime

/-! ## The adaptors over one future -/

/-- `TryFilter` holds an item just while it holds a future. -/
theorem TryFilter.fuses (call : φ → T → Fut × φ) :
    (TryFilter.poll_next (E := E) call).Fuses TryFilter.is_terminated
      fun s => s.pending_item.isSome = s.pending_fut.isSome := by
  refine .of_plain (fun _ => rfl) (fun _ => rfl) (fun _ _ => rfl) ?_ ?_
  · intro s res b hs hp
    obtain ⟨item, hitem⟩ : ∃ item, s.pending_item = some item := by
      rw [← Option.isSome_iff_exists, hs, Option.isSome_iff_ne_none]
      exact hp
    unfold poll_next
    dsimp only
    split
    · refine ⟨rfl, fun hdone => ?_⟩
      rw [hitem] at hdone
      cases hdone
    · exact rfl
  · intro s item b hs _
    cases item with
    | ok item => exact rfl
    | error e => exact ⟨hs, nofun⟩

theorem TryFilterMap.fuses (call : φ → T → Fut × φ) :
    (TryFilterMap.poll_next (E := E) (U := U) call).Fuses TryFilterMap.is_terminated
      fun _ => True := by
  refine .of_plain (fun _ => rfl) (fun _ => rfl) (fun _ _ => rfl) ?_ ?_
  · intro s res b _ _
    rcases res with e | _ | val
    · exact ⟨trivial, nofun⟩
    · exact trivial
    · exact ⟨trivial, nofun⟩
  · intro s item b _ _
    cases item with
    | ok item => exact trivial
    | error e => exact ⟨trivial, nofun⟩

theorem AndThen.fuses (call : φ → T → Fut × φ) :
    (AndThen.poll_next (E := E) (U := U) call).Fuses Chained.is_terminated fun _ => True := by
  refine .of_plain (fun _ => rfl) (fun _ => rfl) (fun _ _ => rfl) ?_ ?_
  · intro s res b _ _
    exact ⟨trivial, nofun⟩
  · intro s item b _ _
    cases item with
    | ok item => exact trivial
    | error e => exact ⟨trivial, nofun⟩

theorem OrElse.fuses (call : φ → E → Fut × φ) :
    (OrElse.poll_next call : OneAtATime _ Fut T E (Except E' T) _).Fuses Chained.is_terminated
      fun _ => True := by
  refine .of_plain (fun _ => rfl) (fun _ => rfl) (fun _ _ => rfl) ?_ ?_
  · intro s res b _ _
    exact ⟨trivial, nofun⟩
  · intro s item b _ _
    cases item with
    | ok item => exact ⟨trivial, nofun⟩
    | error e => exact trivial

/-- `TryTakeWhile` holds an item just while it holds a future. -/
theorem TryTakeWhile.fuses (call : φ → T → Fut × φ) :
    (TryTakeWhile.poll_next (E := E) call).Fuses TryTakeWhile.is_terminated
      fun s => s.pending_item.isSome = s.pending_fut.isSome where
  start := by
    intro s b hs
    unfold poll_next
    dsimp only
    split
    · rename_i hdone
      exact ⟨hs, fun _ => by unfold is_terminated; rw [hdone]; rfl⟩
    · exact hs
  onFuture := by
    intro s take b hs hp
    obtain ⟨item, hitem⟩ : ∃ item, s.pending_item = some item := by
      rw [← Option.isSome_iff_exists, hs, Option.isSome_iff_ne_none]
      exact hp
    rcases take with e | _ | _
    · exact ⟨rfl, nofun⟩
    · exact ⟨rfl, fun _ => rfl⟩
    · refine ⟨rfl, fun hdone => ?_⟩
      rw [hitem] at hdone
      cases hdone
  onItem := by
    intro s item b hs _
    cases item with
    | ok item => exact rfl
    | error e => exact ⟨hs, nofun⟩
  onEnd := fun _ _ hs _ => ⟨hs, fun _ => rfl⟩
  stops := by
    intro s b hs hterm
    cases hdone : s.done_taking with
    | true =>
        refine Or.inl ⟨s, ?_, hterm⟩
        unfold poll_next
        dsimp only
        rw [if_pos hdone]
    | false =>
        unfold is_terminated at hterm
        rw [hdone, Bool.false_or] at hterm
        obtain ⟨hitem, rfl⟩ := Bool.and_eq_true_iff.mp hterm
        have hp : s.pending_fut = none := by
          rw [← Option.isNone_iff_eq_none, ← Option.not_isSome, ← hs, Option.not_isSome]
          exact hitem
        refine Or.inr ⟨s, { s with done_taking := true }, ?_, hp, rfl, rfl, rfl⟩
        unfold poll_next
        dsimp only
        rw [hdone]
        rfl

/-- `TrySkipWhile` holds an item just while it holds a future, and neither after it has
stopped skipping. -/
theorem TrySkipWhile.fuses (call : φ → T → Fut × φ) :
    (TrySkipWhile.poll_next (E := E) call).Fuses TrySkipWhile.is_terminated
      fun s => s.pending_item.isSome = s.pending_fut.isSome ∧
        (s.done_skipping = true → s.pending_item = none) where
  start := fun _ _ hs => hs
  onFuture := by
    intro s skipped b hs hp
    have hfut : s.pending_fut ≠ none := by
      unfold poll_next at hp
      dsimp only at hp
      split at hp
      · exact absurd rfl hp
      · exact hp
    obtain ⟨item, hitem⟩ : ∃ item, s.pending_item = some item := by
      rw [← Option.isSome_iff_exists, hs.1, Option.isSome_iff_ne_none]
      exact hfut
    rcases skipped with e | _ | _
    · exact ⟨⟨rfl, fun _ => rfl⟩, nofun⟩
    · refine ⟨⟨rfl, fun _ => rfl⟩, fun hdone => ?_⟩
      rw [hitem] at hdone
      cases hdone
    · exact ⟨rfl, fun _ => rfl⟩
  onItem := by
    intro s item b hs hp
    unfold poll_next at hp ⊢
    dsimp only at hp ⊢
    split
    · exact ⟨hs, nofun⟩
    · rename_i hdone
      rw [if_neg hdone] at hp
      cases item with
      | ok item => exact ⟨rfl, fun h => absurd h hdone⟩
      | error e =>
          refine ⟨⟨hs.1, fun _ => ?_⟩, nofun⟩
          rw [← Option.isNone_iff_eq_none, ← Option.not_isSome, hs.1, hp]
          rfl
  onEnd := by
    intro s b hs hp
    have hitem : s.pending_item = none := by
      cases hdone : s.done_skipping with
      | true => exact hs.2 hdone
      | false =>
          unfold poll_next at hp
          dsimp only at hp
          rw [hdone] at hp
          rw [← Option.isNone_iff_eq_none, ← Option.not_isSome, hs.1, show s.pending_fut = none from hp]
          rfl
    have hterm : ∀ d, TrySkipWhile.is_terminated { s with done_skipping := d } (b || true) = true := by
      intro d
      unfold is_terminated
      rw [hitem, Bool.or_true]
      rfl
    unfold poll_next
    dsimp only
    split
    · exact ⟨hs, fun _ => hterm s.done_skipping⟩
    · exact ⟨⟨hs.1, fun _ => hitem⟩, fun _ => hterm true⟩
  stops := by
    intro s b hs hterm
    obtain ⟨hitem, rfl⟩ := Bool.and_eq_true_iff.mp hterm
    have hfut : s.pending_fut = none := by
      rw [← Option.isNone_iff_eq_none, ← Option.not_isSome, ← hs.1, Option.not_isSome]
      exact hitem
    have hp : (TrySkipWhile.poll_next (E := E) call).pending s = none := by
      unfold poll_next
      dsimp only
      rw [hfut, ite_self]
    cases hdone : s.done_skipping with
    | true =>
        refine Or.inr ⟨s, s, rfl, hp, rfl, ?_, hterm⟩
        unfold poll_next
        dsimp only
        rw [if_pos hdone]
    | false =>
        refine Or.inr ⟨s, { s with done_skipping := true }, rfl, hp, rfl, ?_, hterm⟩
        unfold poll_next
        dsimp only
        rw [hdone]
        rfl

/-! ## The other sequential adaptors -/

/-- The base of `TryFlatten`. -/
def TryFlatten.source (I T E E' : Type) : Source (Answer I T E E') where
  asked := fun
    | .base _ => true
    | .inner _ _ => false
  ended := fun
    | .base (.ready none) => true
    | _ => false

theorem TryFlatten.fuses (into : E → E') :
    (TryFlatten.machine T into).Fuses (source I T E E') TryFlatten.is_terminated (.ready none)
      (fun _ => True) fun _ => True where
  enter := fun _ _ _ _ => trivial
  resume := by
    intro s a f b _ _ hf
    unfold machine at hf
    dsimp only at hf
    cases hnext : s.next with
    | some st =>
        rw [hnext] at hf
        rcases a with r | ⟨_ | _ | e | item, st'⟩
        · cases hf
        · cases hf
          exact ⟨trivial, nofun⟩
        · cases hf
          exact trivial
        · cases hf
          exact ⟨trivial, nofun⟩
        · cases hf
          exact ⟨trivial, nofun⟩
    | none =>
        rw [hnext] at hf
        rcases a with (_ | _ | e | st) | ⟨r, st'⟩
        · cases hf
          exact ⟨trivial, nofun⟩
        · cases hf
          refine ⟨trivial, fun _ => ?_⟩
          show TryFlatten.is_terminated s (b || true) = true
          unfold is_terminated
          rw [hnext, Bool.or_true]
          rfl
        · cases hf
          exact ⟨trivial, nofun⟩
        · cases hf
          exact trivial
        · cases hf
  stops := by
    intro k s b _ hterm
    obtain ⟨hnone, rfl⟩ := Bool.and_eq_true_iff.mp hterm
    have hnext : s.next = none := Option.isNone_iff_eq_none.mp hnone
    refine ⟨⟨.base (.ready none), .ret (.ready none) s, fun _ _ => rfl, ?_⟩, ?_⟩
    · unfold machine
      dsimp only
      rw [hnext]
      rfl
    · intro a f hallow hf
      unfold machine at hf
      dsimp only at hf
      rw [hnext] at hf
      rcases a with r | ⟨r, st⟩
      · cases hf
        rcases r with _ | _ | item
        · exact absurd (hallow rfl rfl) nofun
        · exact ⟨s, rfl, hterm⟩
        · exact absurd (hallow rfl rfl) nofun
      · cases hf

/-- `TryUnfold` never holds a state and a future at once. -/
theorem TryUnfold.fuses (call : φ → S → Fut × φ) :
    (TryUnfold.machine (T := T) (E := E) call).Fuses (.absent _)
      (fun self _ => TryUnfold.is_terminated self) (.ready none)
      (fun s => s.fut ≠ none → s.state = none) fun s => s.state = none where
  enter := by
    intro k s b hs
    have htake : (s.take call).state = none := by
      unfold take
      split
      · rfl
      · assumption
    unfold machine
    dsimp only
    split
    · rename_i hfut
      refine ⟨fun _ => htake, fun _ => ?_⟩
      show (s.take call).is_terminated = true
      unfold is_terminated
      rw [htake, hfut]
      rfl
    · exact htake
  resume := by
    intro s a f b hs _ hf
    rcases a with _ | e | _ | ⟨item, next_state⟩
    · cases hf
      exact ⟨fun _ => hs, nofun⟩
    · cases hf
      exact ⟨fun _ => hs, nofun⟩
    · cases hf
      refine ⟨fun _ => hs, fun _ => ?_⟩
      show TryUnfold.is_terminated { s with fut := none } = true
      unfold is_terminated
      rw [hs]
      rfl
    · cases hf
      exact ⟨fun hne => absurd rfl hne, nofun⟩
  stops := by
    intro k s b _ hterm
    obtain ⟨hstate, hfut⟩ := Bool.and_eq_true_iff.mp hterm
    have htake : s.take call = s := by
      unfold take
      rw [Option.isNone_iff_eq_none.mp hstate]
    unfold machine
    dsimp only
    rw [htake, Option.isNone_iff_eq_none.mp hfut]
    exact ⟨rfl, hterm⟩

namespace Chunks

variable {cs : Chunks T E}

/-- Between calls: an error is stashed only while the base runs. -/
def Running (cs : Chunks T E) : Prop := cs.stream.is_terminated = true → cs.pending_error = none

/-- At the head of the loop the base runs and no error is stashed. -/
def Filling (cs : Chunks T E) : Prop := cs.stream.is_terminated = false ∧ cs.pending_error = none

/-- The call runs up to its first poll of the base. -/
theorem start_leaves {is_terminated : Chunks T E → Bool → Bool} (b : Bool)
    (hflag : ∀ cs : Chunks T E, cs.stream.is_terminated = true → cs.items = [] →
      is_terminated cs b = true) :
    cs.start.Leaves is_terminated (.ready none) Running Filling b := by
  unfold start
  split
  · exact ⟨fun _ => rfl, nofun⟩
  · rename_i hnone
    split
    · rename_i hended
      unfold body
      dsimp only
      split
      · rename_i hempty
        exact ⟨fun _ => hnone, fun _ => hflag cs hended (List.isEmpty_iff.mp hempty)⟩
      · exact ⟨fun _ => hnone, nofun⟩
    · rename_i hrunning
      exact ⟨Bool.not_eq_true _ ▸ hrunning, hnone⟩

/-- One round of the loop. -/
theorem round_leaves {is_terminated : Chunks T E → Bool → Bool} (hs : cs.Filling) (r : TryPoll T E)
    (b : Bool) (hflag : ∀ cs : Chunks T E, cs.stream.is_terminated = true → cs.items = [] →
      is_terminated cs b = true) :
    (cs.round r).Leaves is_terminated (.ready none) Running Filling b := by
  obtain ⟨hrunning, hnone⟩ := hs
  have hkeep : cs.Running := fun hended => absurd (hrunning ▸ hended) Bool.false_ne_true
  unfold round
  rcases r with _ | _ | e | item
  · rw [IntoFuseStream.poll_pending hrunning]
    unfold body
    dsimp only
    split
    · exact ⟨hkeep, by rintro ⟨⟩⟩
    · exact ⟨fun _ => hnone, by rintro ⟨⟩⟩
  · rw [IntoFuseStream.poll_end hrunning]
    unfold body
    dsimp only
    split
    · rename_i hempty
      exact ⟨fun _ => hnone, fun _ => hflag _ rfl (List.isEmpty_iff.mp hempty)⟩
    · exact ⟨fun _ => hnone, by rintro ⟨⟩⟩
  · rw [IntoFuseStream.poll_item hrunning]
    unfold body
    dsimp only
    split
    · exact ⟨hkeep, by rintro ⟨⟩⟩
    · exact ⟨fun hended => absurd (hrunning ▸ hended) Bool.false_ne_true, by rintro ⟨⟩⟩
  · rw [IntoFuseStream.poll_item hrunning]
    unfold body
    dsimp only
    split
    · exact ⟨fun _ => hnone, by rintro ⟨⟩⟩
    · exact ⟨hrunning, hnone⟩

/-- A call over an ended base with nothing left to return. -/
theorem start_of_ended (hs : cs.Running) (hended : cs.stream.is_terminated = true)
    (hitems : cs.items = []) : cs.start = .ret (.ready none) cs := by
  unfold start
  rw [hs hended]
  dsimp only
  rw [if_pos hended]
  unfold body
  dsimp only
  rw [hitems]
  rfl

end Chunks

theorem TryChunks.fuses (T E : Type) :
    (TryChunks.machine T E).Fuses (.absent _) (fun self _ => TryChunks.is_terminated self)
      (.ready none) Chunks.Running Chunks.Filling where
  enter := by
    intro k cs b _
    refine Chunks.start_leaves b fun cs hended hitems => ?_
    show TryChunks.is_terminated cs = true
    unfold is_terminated
    rw [hended, hitems]
    rfl
  resume := by
    intro cs r f b hs _ hf
    cases hf
    refine Chunks.round_leaves hs r _ fun cs hended hitems => ?_
    show TryChunks.is_terminated cs = true
    unfold is_terminated
    rw [hended, hitems]
    rfl
  stops := by
    intro k cs b hs hterm
    obtain ⟨hended, hitems⟩ := Bool.and_eq_true_iff.mp hterm
    show cs.start.Stops _ _ _ _ _
    rw [Chunks.start_of_ended hs hended (List.isEmpty_iff.mp hitems)]
    exact ⟨rfl, hterm⟩

theorem TryReadyChunks.fuses (T E : Type) :
    (TryReadyChunks.machine T E).Fuses (.absent _) (fun self _ => TryReadyChunks.is_terminated self)
      (.ready none) Chunks.Running Chunks.Filling where
  enter := fun _ cs b _ => Chunks.start_leaves b fun _ hended _ => hended
  resume := by
    intro cs r f b hs _ hf
    cases hf
    exact Chunks.round_leaves hs r _ fun _ hended _ => hended
  stops := by
    intro k cs b hs hended
    show (Chunks.start { cs with items := [] }).Stops _ _ _ _ _
    have hempty : Chunks.start (T := T) (E := E) { cs with items := [] } =
        .ret (.ready none) { cs with items := [] } := Chunks.start_of_ended hs hended rfl
    rw [hempty]
    exact ⟨rfl, hended⟩

end TokioStreamUtil
