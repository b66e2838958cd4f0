/-
When the buffering adaptors keep their limit.

`poll_next` reads the length of the queue once, before the loop that fills the
queue, so the loop stops at the limit only when the base does. What a queue
manages is counted by `managed`: a push adds one, no other step adds anything, and
while no `poll_next` of the queue is in progress it is the length. A call that begins
at the limit leaves the base alone. The limit is therefore kept in exactly the runs in
which no call that begins below it is answered with more futures than there is room for.
-/
import TokioStreamUtil.TryStream.BufferedCalls
import TokioStreamUtil.FuturesUnordered.Sound

set_option autoImplicit false

namespace TokioStreamUtil

open FuturesUnordered (Polled PollNext move_of_step inv_move ledger_move Move)

/-! ## What `FuturesOrdered` manages -/

namespace FuturesOrdered

variable {F O W : Type} {A : AtomicWaker W} {s s' : State F O W A}

/-- What holds of a `FuturesOrdered`: its set is sound, and is polled only inside
the loop of `poll_next`. -/
structure State.Sound (s : State F O W A) : Prop where
  set : s.in_progress_queue.Sound
  notLoop : (∀ w, s.pc ≠ .loop w) → s.in_progress_queue.owner.isIdle = true
  quiet : s.pc.isIdle = false → s.in_progress_queue.pushing = ∅

/-- The futures that have not finished, and the outputs that wait for their turn. -/
def State.managed (s : State F O W A) : ℕ :=
  s.in_progress_queue.unfinished + s.in_progress_queue.owner.carrying.length + s.queued_outputs.len

namespace State.Sound

theorem new : (State.new : State F O W A).Sound :=
  ⟨FuturesUnordered.State.Sound.new, fun _ => rfl, nofun⟩

theorem len_le (h : s.Sound) : s.len ≤ s.managed := by
  have hset := h.set.len_le
  show s.in_progress_queue.len + s.queued_outputs.len ≤ _
  unfold State.managed
  omega

theorem managed_of_idle (ho : s.in_progress_queue.owner.isIdle = true) :
    s.managed = s.in_progress_queue.unfinished + s.queued_outputs.len := by
  unfold State.managed
  rw [FuturesUnordered.Owner.carrying_of_idle ho]
  rfl

theorem setIdle (h : s.Sound) (hpc : s.pc = .idle) : s.in_progress_queue.owner.isIdle = true := by
  refine h.notLoop fun w hw => ?_
  rw [hpc] at hw
  cases hw

theorem len_eq (h : s.Sound) (hpc : s.pc = .idle) : s.len = s.managed := by
  have hidle := h.setIdle hpc
  have hset := h.set.len_eq (FuturesUnordered.Owner.eq_idle hidle)
  rw [managed_of_idle hidle, ← hset]
  rfl

theorem push_back (h : s.Sound) (hpc : s.pc = .idle) {i : ℕ} {future : F}
    (hs : step s (.push_back i future) = some s') :
    s'.Sound ∧ s'.pc = .idle ∧ s'.managed = s.managed + 1 := by
  simp only [step, Option.ite_none_right_eq_some, Option.some.injEq] at hs
  obtain ⟨⟨-, -, hi⟩, rfl⟩ := hs
  have hidle := h.setIdle hpc
  have hm := Move.push (s := s.in_progress_queue) { data := future, index := s.next_incoming_index }
    hi (FuturesUnordered.Owner.eq_idle hidle)
  refine ⟨⟨h.set.move hm (by rintro ⟨⟩), fun _ => hidle, ?_⟩, hpc, ?_⟩
  · intro hcall
    rw [show (s.push_back i future).pc = .idle from hpc] at hcall
    cases hcall
  · have hpush := h.set.unfinished_push i { data := future, index := s.next_incoming_index }
    have hcarry : (s.push_back i future).in_progress_queue.owner.carrying =
      s.in_progress_queue.owner.carrying := rfl
    have hheap : (s.push_back i future).queued_outputs = s.queued_outputs := rfl
    show FuturesUnordered.State.unfinished (FuturesUnordered.State.push _ _ _) + _ + _ = _
    rw [hpush, State.managed, hcarry, hheap]
    omega

theorem poll_next (h : s.Sound) (hpc : s.pc = .idle) {w : W}
    (hs : step s (.poll_next w) = some s') : s'.Sound ∧ s'.managed = s.managed := by
  simp only [step, Option.ite_none_right_eq_some, Option.some.injEq] at hs
  obtain ⟨⟨-, hpush⟩, rfl⟩ := hs
  have hidle := h.setIdle hpc
  exact ⟨⟨h.set, fun _ => hidle, fun _ => hpush⟩, rfl⟩

/-- The loop calls the set. -/
theorem pollSet (hset : s.in_progress_queue.Sound)
    (hidle : s.in_progress_queue.owner.isIdle = true) (hpush : s.in_progress_queue.pushing = ∅)
    (w : W) :
    (s.pollSet w).Sound ∧ (s.pollSet w).managed =
      s.in_progress_queue.unfinished + s.queued_outputs.len := by
  have hm := Move.poll_next w (FuturesUnordered.Owner.eq_idle hidle) hpush
  refine ⟨⟨hset.move hm nofun, ?_, fun _ => hpush⟩, rfl⟩
  intro hnot
  exact absurd rfl (hnot w)

theorem peekQueued (h : s.Sound) {w : W} (hpc : s.pc = .peek w) :
    (s.peekQueued w).Sound ∧ (s.peekQueued w).managed ≤ s.managed := by
  have hidle := h.notLoop (by rw [hpc]; nofun)
  have hpush := h.quiet (by rw [hpc]; rfl)
  obtain ⟨hsound, hmanaged⟩ := pollSet h.set hidle hpush w
  have hpoll : (s.pollSet w).managed ≤ s.managed := by rw [hmanaged, managed_of_idle hidle]
  unfold State.peekQueued
  split
  · rename_i next_output hpeek
    split
    · refine ⟨⟨h.set, fun _ => hidle, fun _ => hpush⟩, ?_⟩
      have hpop := MaxHeap.len_pop hpeek
      show s.in_progress_queue.unfinished + s.in_progress_queue.owner.carrying.length +
        s.queued_outputs.pop.len ≤ _
      unfold State.managed
      omega
    · exact ⟨hsound, hpoll⟩
  · exact ⟨hsound, hpoll⟩

theorem loopBody (h : s.Sound) {w : W} {lv : FuturesUnordered.Locals W}
    {r : PollNext (Ordered O)} (hpc : s.pc = .loop w)
    (ho : s.in_progress_queue.owner = .poll lv (.done r)) :
    let s' := { s with in_progress_queue := s.in_progress_queue.ret lv r }.loopBody w r
    s'.Sound ∧ s'.managed ≤ s.managed := by
  have hset := h.set.move (Move.ret ho) nofun
  have hpush : (s.in_progress_queue.ret lv r).pushing = ∅ := h.quiet (by rw [hpc]; rfl)
  have hcarry : s.in_progress_queue.owner.carrying = FuturesUnordered.State.outputOf r := by
    rw [ho]; rfl
  have hsame : (s.in_progress_queue.ret lv r).unfinished = s.in_progress_queue.unfinished := rfl
  -- a result without an output leaves what is managed as it was
  have hsettle : ∀ r', FuturesUnordered.State.outputOf r = [] →
      (State.settle { s with in_progress_queue := s.in_progress_queue.ret lv r } r').Sound ∧
      (State.settle { s with in_progress_queue := s.in_progress_queue.ret lv r } r').managed ≤
        s.managed := by
    intro r' hout
    refine ⟨⟨hset, fun _ => rfl, fun _ => hpush⟩, ?_⟩
    unfold State.managed
    rw [hcarry, hout]
    exact le_of_eq rfl
  cases r with
  | pending => exact hsettle .pending rfl
  | unwound => exact hsettle .unwound rfl
  | ready output =>
      cases output with
      | none => exact hsettle (.ready none) rfl
      | some output =>
          dsimp only [State.loopBody]
          split
          · refine ⟨⟨hset, fun _ => rfl, fun _ => hpush⟩, ?_⟩
            show s.in_progress_queue.unfinished + 0 + s.queued_outputs.len ≤ _
            unfold State.managed
            omega
          · obtain ⟨hsound, hmanaged⟩ := pollSet (s := { s with
              in_progress_queue := s.in_progress_queue.ret lv (.ready (some output))
              queued_outputs := s.queued_outputs.push output }) hset rfl hpush w
            refine ⟨hsound, ?_⟩
            have hlen := s.queued_outputs.len_push output
            rw [hmanaged, hsame, State.managed, hcarry]
            show _ + (s.queued_outputs.push output).len ≤ _ + 1 + _
            omega

theorem stepOwn (h : s.Sound) (hs : FuturesOrdered.stepOwn s = some s') :
    s'.Sound ∧ s'.managed ≤ s.managed := by
  unfold FuturesOrdered.stepOwn at hs
  split at hs
  · cases hs
  · rename_i w hpc
    cases hs
    exact h.peekQueued hpc
  · rename_i w hpc
    split at hs
    · rename_i lv r ho
      cases hs
      exact h.loopBody hpc ho
    · cases hs
  · cases hs

/-- A step of the set that is not about the call of `FuturesOrdered`. -/
theorem stepSet (h : s.Sound) {a : FuturesUnordered.Act (Ordered F) (Ordered O) W}
    (ha : a.inner = true) (hs : FuturesOrdered.stepSet s a = some s') :
    s'.Sound ∧ s'.pc = s.pc ∧ s'.managed = s.managed := by
  obtain ⟨q, hq, rfl⟩ := Option.map_eq_some_iff.mp hs
  have hm := move_of_step hq
  have hframe := FuturesUnordered.frame_move hm ha
  refine ⟨⟨h.set.move hm ?_, ?_, fun hcall => hframe.pushing (h.quiet hcall)⟩, rfl, ?_⟩
  · rintro rfl
    cases ha
  · intro hnot
    rw [hframe.idle]
    exact h.notLoop hnot
  · show q.unfinished + q.owner.carrying.length + _ = _
    rw [hframe.unfinished, hframe.carrying]
    rfl

/-- The future that the set polls answers. -/
theorem polled (h : s.Sound) {lv : FuturesUnordered.Locals W} {t : ℕ}
    (ho : s.in_progress_queue.owner = .poll lv (.poll t)) (r : Polled (Ordered F) (Ordered O))
    (events : List (Event O)) :
    let s' := { s with in_progress_queue := s.in_progress_queue.polled lv t r, events := events }
    State.Sound s' ∧ State.managed s' ≤ s.managed := by
  have hnot : ¬ ∀ w, s.pc ≠ .loop w := by
    intro hnot
    have hidle := h.notLoop hnot
    rw [ho] at hidle
    cases hidle
  have hpushing : (s.in_progress_queue.polled lv t r).pushing = s.in_progress_queue.pushing := by
    cases r <;> rfl
  refine ⟨⟨h.set.move (.polled r ho) nofun, fun hall => absurd hall hnot, ?_⟩, ?_⟩
  · intro hcall
    exact hpushing.trans (h.quiet hcall)
  · have hpolled := FuturesUnordered.unfinished_polled h.set ho r
    show (s.in_progress_queue.polled lv t r).unfinished +
      (s.in_progress_queue.polled lv t r).owner.carrying.length + s.queued_outputs.len ≤ _
    unfold State.managed
    omega

theorem stepPolled (h : s.Sound) {r : Polled F O} (hs : FuturesOrdered.stepPolled s r = some s') :
    s'.Sound ∧ s'.managed ≤ s.managed := by
  unfold FuturesOrdered.stepPolled at hs
  split at hs
  · rename_i lv t ho
    split at hs
    · cases hs
      exact h.polled ho _ _
    · cases hs
  · cases hs

/-- Nobody is polled while no call is in progress. -/
theorem not_stepPolled (h : s.Sound) (hpc : s.pc = .idle) (r : Polled F O) :
    FuturesOrdered.stepPolled s r = none := by
  have hidle := h.setIdle hpc
  unfold FuturesOrdered.stepPolled
  rw [FuturesUnordered.Owner.eq_idle hidle]

theorem ret (h : s.Sound) (hs : step s .ret = some s') :
    s'.Sound ∧ s'.pc = .idle ∧ s'.managed ≤ s.managed := by
  unfold step at hs
  dsimp only at hs
  split at hs
  · rename_i r hpc
    cases hs
    exact ⟨⟨h.set, fun _ => h.notLoop (by rw [hpc]; nofun), nofun⟩, rfl, le_refl s.managed⟩
  · cases hs

end State.Sound

end FuturesOrdered

/-! ## What an adaptor relies on -/

/-- The queue counts what it manages: `managed` is the length while the queue is
`free`, a push adds one, and no other step adds anything. -/
structure InProgressQueue.Counted {F O W : Type} (Q : InProgressQueue F O W)
    (Inv : Q.State → Prop) (free : Q.State → Prop) (managed : Q.State → ℕ) : Prop where
  new : Inv Q.new ∧ free Q.new ∧ managed Q.new = 0
  len_le : ∀ q, Inv q → Q.len q ≤ managed q
  len_eq : ∀ q, Inv q → free q → Q.len q = managed q
  push : ∀ q q' i fut, Inv q → free q → Q.step q (Q.push i fut) = some q' →
    Inv q' ∧ free q' ∧ managed q' = managed q + 1
  poll_next : ∀ q q' w, Inv q → free q → Q.step q (Q.poll_next w) = some q' →
    Inv q' ∧ managed q' = managed q
  runs : ∀ q q' a, Inv q → Q.runs a = true → Q.step q a = some q' →
    Inv q' ∧ managed q' ≤ managed q
  runs_free : ∀ q q' a, Inv q → free q → Q.runs a = true → Q.step q a = some q' →
    free q' ∧ managed q' = managed q
  ret : ∀ q q', Inv q → Q.step q Q.ret = some q' → Inv q' ∧ free q' ∧ managed q' ≤ managed q

namespace InProgressQueue

variable {F O W : Type} {A : AtomicWaker W}

/-- `FuturesUnordered` counts its futures. -/
theorem unordered_counted : (unordered F O W A).Counted FuturesUnordered.State.Sound
    (fun q => q.owner = .idle) FuturesUnordered.State.unfinished where
  new := ⟨FuturesUnordered.State.Sound.new, rfl, rfl⟩
  len_le q h := h.len_le
  len_eq q h ho := h.len_eq ho
  push q q' i fut h ho (hs : FuturesUnordered.step q (.push i fut) = some q') := by
    cases move_of_step hs with
    | push fut hi ho => exact ⟨h.move (.push fut hi ho) nofun, ho, h.unfinished_push i fut⟩
  poll_next q q' w h ho (hs : FuturesUnordered.step q (.poll_next w) = some q') := by
    cases move_of_step hs with
    | poll_next w ho hp => exact ⟨h.move (.poll_next w ho hp) nofun, rfl⟩
  runs q q' a h ha (hs : FuturesUnordered.step q a = some q') := by
    have hm := move_of_step hs
    cases a with
    | wake i t => exact ⟨h.move hm nofun, le_of_eq (FuturesUnordered.frame_move hm rfl).unfinished⟩
    | thread i => exact ⟨h.move hm nofun, le_of_eq (FuturesUnordered.frame_move hm rfl).unfinished⟩
    | owner => exact ⟨h.move hm nofun, le_of_eq (FuturesUnordered.frame_move hm rfl).unfinished⟩
    | polled r =>
        refine ⟨h.move hm nofun, ?_⟩
        cases hm with
        | polled r ho =>
            have hpolled := FuturesUnordered.unfinished_polled h ho r
            omega
    | _ => cases ha
  runs_free q q' a h ho ha (hs : FuturesUnordered.step q a = some q') := by
    have hm := move_of_step hs
    have hframe : FuturesUnordered.Frame q q' := by
      apply FuturesUnordered.frame_move hm
      cases a with
      | wake i t => rfl
      | thread i => rfl
      | owner => rfl
      | polled r =>
          cases hm with
          | polled r hpoll => rw [ho] at hpoll; cases hpoll
      | _ => cases ha
    refine ⟨FuturesUnordered.Owner.eq_idle ?_, hframe.unfinished⟩
    rw [hframe.idle, ho]
    rfl
  ret q q' h (hs : FuturesUnordered.step q .ret = some q') := by
    cases move_of_step hs with
    | ret ho => exact ⟨h.move (.ret ho) nofun, rfl, le_refl _⟩

/-- `FuturesOrdered` counts its futures and the outputs that wait. -/
theorem ordered_counted : (ordered F O W A).Counted FuturesOrdered.State.Sound
    (fun q => q.pc = .idle) FuturesOrdered.State.managed where
  new := ⟨FuturesOrdered.State.Sound.new, rfl, rfl⟩
  len_le q h := h.len_le
  len_eq q h hpc := h.len_eq hpc
  push q q' i fut h hpc hs := h.push_back hpc hs
  poll_next q q' w h hpc hs := h.poll_next hpc hs
  runs q q' a h ha (hs : FuturesOrdered.step q a = some q') := by
    cases a with
    | own => exact h.stepOwn hs
    | wake i t => exact (h.stepSet rfl hs).imp_right fun hk => le_of_eq hk.2
    | thread i => exact (h.stepSet rfl hs).imp_right fun hk => le_of_eq hk.2
    | owner => exact (h.stepSet rfl hs).imp_right fun hk => le_of_eq hk.2
    | polled r => exact h.stepPolled hs
    | _ => cases ha
  runs_free q q' a h hpc ha (hs : FuturesOrdered.step q a = some q') := by
    have hset : ∀ b, FuturesUnordered.Act.inner b = true → FuturesOrdered.stepSet q b = some q' →
        q'.pc = .idle ∧ q'.managed = FuturesOrdered.State.managed q := by
      intro b hb hstep
      obtain ⟨-, hsame, hmanaged⟩ := h.stepSet hb hstep
      exact ⟨hsame.trans hpc, hmanaged⟩
    cases a with
    | own =>
        simp only [FuturesOrdered.step, FuturesOrdered.stepOwn, hpc] at hs
        cases hs
    | wake i t => exact hset _ rfl hs
    | thread i => exact hset _ rfl hs
    | owner => exact hset _ rfl hs
    | polled r =>
        have hnone := h.not_stepPolled hpc r
        rw [show FuturesOrdered.stepPolled q r = some q' from hs] at hnone
        cases hnone
    | _ => cases ha
  ret q q' h hs := h.ret hs

end InProgressQueue

/-! ## The limit -/

namespace Buffered

section

variable {E T F W : Type} {Q : InProgressQueue F (Except E T) W} {s s' : State Q}

/-- The answer is a future. -/
def gives : PollNext (Except E F) → Bool
  | .ready (some (.ok _)) => true
  | _ => false

/-- The base gives a future. -/
def Act.gives : Act Q → Bool
  | .base _ r => Buffered.gives r
  | _ => false

/-- The label is a call of `poll_next`. -/
def Act.calls : Act Q → Bool
  | .poll_next _ => true
  | _ => false

/-- The base is polled, and answers. -/
def Act.asksBase : Act Q → Bool
  | .base _ _ => true
  | _ => false

/-- In the run `ls` from `s₀`, `poll_next` is called in `s`, and `call` is what follows,
up to some point before it is called again. -/
def CallAt (s₀ : State Q) (ls : List (Act Q)) (s : State Q) (call : List (Act Q)) : Prop :=
  (∃ pre w, pre ++ .poll_next w :: call <+: ls ∧ Transition.run step s₀ pre = some s) ∧
    ∀ a ∈ call, a.calls = false

/-- In no call of the run `ls` that begins with fewer than `n` futures does the base
answer with more futures than there is room for when the call begins. -/
def RoomInCalls (n : ℕ) (s₀ : State Q) (ls : List (Act Q)) : Prop :=
  ∀ s call, CallAt s₀ ls s call → s.len < n → s.len + call.countP Act.gives ≤ n

/-- A call of the run `ls` that begins with `n` futures or more leaves the base alone. -/
def UnpolledWhenFull (n : ℕ) (s₀ : State Q) (ls : List (Act Q)) : Prop :=
  ∀ s call, CallAt s₀ ls s call → n ≤ s.len → ∀ a ∈ call, a.asksBase = false

/-- At every point of the run `ls` at most `n` futures are managed. -/
def LimitKept (n : ℕ) (s₀ : State Q) (ls : List (Act Q)) : Prop :=
  ∀ pre s, pre <+: ls → Transition.run step s₀ pre = some s → s.len ≤ n

variable {Inv free : Q.State → Prop} {managed : Q.State → ℕ}

/-- Where the queue is free, and what the loop has added to it. -/
structure Sound (Inv free : Q.State → Prop) (managed : Q.State → ℕ) (s : State Q) : Prop where
  inv : Inv s.in_progress_queue
  free : (∀ w, s.pc ≠ .queue w) → free s.in_progress_queue
  filled : ∀ w len, s.pc = .fill w len → managed s.in_progress_queue = len + s.taken

/-- What a step does to what is managed: a future of the base adds one, in the
loop, and nothing else adds anything. -/
def Grows (managed : Q.State → ℕ) (s : State Q) (gives : Bool) (s' : State Q) : Prop :=
  if gives then
    managed s'.in_progress_queue = managed s.in_progress_queue + 1 ∧ s'.pc = s.pc
  else managed s'.in_progress_queue ≤ managed s.in_progress_queue

theorem sound_new (hQ : Q.Counted Inv free managed) (m : Option ℕ) :
    Sound Inv free managed (State.new Q m) :=
  ⟨hQ.new.1, fun _ => hQ.new.2.1, nofun⟩

namespace Sound

/-- The call of the queue. -/
theorem pollQueue (hQ : Q.Counted Inv free managed) (h : Sound Inv free managed s)
    (hfree : free s.in_progress_queue) {w : W} (hs : s.pollQueue w = some s') :
    Sound Inv free managed s' ∧ managed s'.in_progress_queue = managed s.in_progress_queue := by
  obtain ⟨q, hq, rfl⟩ := Option.map_eq_some_iff.mp hs
  obtain ⟨hinv, hsame⟩ := hQ.poll_next _ _ _ h.inv hfree hq
  exact ⟨⟨hinv, fun hnot => absurd rfl (hnot w), nofun⟩, hsame⟩

/-- The body of the loop. -/
theorem fillBody (hQ : Q.Counted Inv free managed) (h : Sound Inv free managed s) {w : W}
    {len i : ℕ} (hpc : s.pc = .fill w len) {r : PollNext (Except E F)}
    (hs : s.fillBody w i r = some s') :
    Sound Inv free managed s' ∧ Grows managed s (gives r) s' := by
  have hfree : free s.in_progress_queue := h.free (by rw [hpc]; nofun)
  have hpoll : ∀ s', s.pollQueue w = some s' → Sound Inv free managed s' ∧
      managed s'.in_progress_queue ≤ managed s.in_progress_queue := fun s' hs' =>
    (h.pollQueue hQ hfree hs').imp_right le_of_eq
  have hsettle : ∀ r', Sound Inv free managed (s.settle r') := fun r' =>
    ⟨h.inv, fun _ => hfree, nofun⟩
  cases r with
  | pending => exact hpoll s' hs
  | unwound =>
      cases hs
      exact ⟨hsettle _, le_refl (managed s.in_progress_queue)⟩
  | ready item =>
      cases item with
      | none => exact hpoll s' hs
      | some item =>
          cases item with
          | error e =>
              cases hs
              exact ⟨hsettle _, le_refl (managed s.in_progress_queue)⟩
          | ok fut =>
              obtain ⟨q, hq, rfl⟩ := Option.map_eq_some_iff.mp hs
              obtain ⟨hinv, hfree', hmore⟩ := hQ.push _ _ _ _ h.inv hfree hq
              refine ⟨⟨hinv, fun _ => hfree', ?_⟩, hmore, rfl⟩
              intro w' len' hpc'
              have hfilled := h.filled w' len' hpc'
              show managed q = len' + (s.taken + 1)
              omega

/-- One round of the loop. -/
theorem fillRound (hQ : Q.Counted Inv free managed) (h : Sound Inv free managed s) {w : W}
    {len i : ℕ} (hpc : s.pc = .fill w len) {r : PollNext (Except E F)}
    (hs : s.fillRound w i r = some s') :
    Sound Inv free managed s' ∧ Grows managed s (gives (s.stream.poll_next r).2) s' := by
  have hbase : Sound Inv free managed { s with stream := (s.stream.poll_next r).1 } :=
    ⟨h.inv, h.free, h.filled⟩
  exact hbase.fillBody hQ hpc hs

theorem stepOwn (hQ : Q.Counted Inv free managed) (h : Sound Inv free managed s)
    (hs : Buffered.stepOwn s = some s') :
    Sound Inv free managed s' ∧ managed s'.in_progress_queue ≤ managed s.in_progress_queue := by
  unfold Buffered.stepOwn at hs
  split at hs
  · rename_i w len hpc
    have hfree : free s.in_progress_queue := h.free (by rw [hpc]; nofun)
    split at hs
    · split at hs
      · split at hs
        · rename_i hended
          have hround := h.fillRound hQ hpc hs
          rw [s.stream.poll_next_of_terminated hended] at hround
          exact hround
        · cases hs
      · exact (h.pollQueue hQ hfree hs).imp_right le_of_eq
    · cases hs
  · split at hs
    · obtain ⟨q, hq, rfl⟩ := Option.map_eq_some_iff.mp hs
      obtain ⟨hinv, hfree, hle⟩ := hQ.ret _ _ h.inv hq
      exact ⟨⟨hinv, fun _ => hfree, nofun⟩, hle⟩
    · cases hs
  · cases hs

theorem stepBase (hQ : Q.Counted Inv free managed) (h : Sound Inv free managed s) {i : ℕ}
    {r : PollNext (Except E F)} (hs : Buffered.stepBase s i r = some s') :
    Sound Inv free managed s' ∧ Grows managed s (gives r) s' := by
  unfold Buffered.stepBase at hs
  split at hs
  · rename_i w len hpc
    split at hs
    · rename_i hrunning
      have hround := h.fillRound hQ hpc hs
      rw [s.stream.poll_next_of_running hrunning.2.2] at hround
      exact hround
    · cases hs
  · cases hs

/-- A step of the queue. -/
theorem runs (hQ : Q.Counted Inv free managed) (h : Sound Inv free managed s) {a : Q.Act}
    (ha : Q.runs a = true) {q : Q.State} (hq : Q.step s.in_progress_queue a = some q) :
    Sound Inv free managed { s with in_progress_queue := q } ∧
      managed q ≤ managed s.in_progress_queue := by
  obtain ⟨hinv, hle⟩ := hQ.runs _ _ _ h.inv ha hq
  have hkeep := fun hfree => hQ.runs_free _ _ _ h.inv hfree ha hq
  refine ⟨⟨hinv, fun hnot => (hkeep (h.free hnot)).1, ?_⟩, hle⟩
  intro w len hpc
  have hfree := h.free (by rw [show s.pc = .fill w len from hpc]; nofun)
  exact (hkeep hfree).2.trans (h.filled w len hpc)

end Sound

/-- **Only a future of the base adds to what is managed.** -/
theorem sound_step (hQ : Q.Counted Inv free managed) (h : Sound Inv free managed s) {a : Act Q}
    (hs : step s a = some s') : Sound Inv free managed s' ∧ Grows managed s a.gives s' := by
  cases a with
  | poll_next w =>
      simp only [step] at hs
      split at hs
      · rename_i hpc
        cases hs
        have hfree := h.free (by rw [hpc]; rintro w ⟨⟩)
        refine ⟨⟨h.inv, fun _ => hfree, ?_⟩, le_refl (managed s.in_progress_queue)⟩
        intro w' len hpc'
        cases hpc'
        exact (hQ.len_eq _ h.inv hfree).symm
      · cases hs
  | own => exact h.stepOwn hQ hs
  | base i r => exact h.stepBase hQ hs
  | queue a =>
      simp only [step, Option.ite_none_right_eq_some] at hs
      obtain ⟨ha, hs⟩ := hs
      obtain ⟨q, hq, rfl⟩ := Option.map_eq_some_iff.mp hs
      exact h.runs hQ ha hq
  | ret =>
      simp only [step] at hs
      split at hs
      · rename_i r hpc
        cases hs
        exact ⟨⟨h.inv, fun _ => h.free (by rw [hpc]; rintro w ⟨⟩), by rintro w len ⟨⟩⟩,
          le_refl (managed s.in_progress_queue)⟩
      · cases hs

/-- Every run is sound. -/
theorem sound_of_run (hQ : Q.Counted Inv free managed) {m : Option ℕ} {ls : List (Act Q)}
    (hrun : Transition.run step (State.new Q m) ls = some s) : Sound Inv free managed s :=
  Transition.run_invariant (I := Sound Inv free managed)
    (fun _ _ _ h hs => (sound_step hQ h hs).1) (sound_new hQ m) hrun

/-! ### One call -/

/-- The limit is set once. -/
theorem max_step {a : Act Q} (hs : step s a = some s') : s'.max = s.max := by
  cases move_of_step hs <;> rfl

theorem max_run {m : Option ℕ} {ls : List (Act Q)}
    (hrun : Transition.run step (State.new Q m) ls = some s) : s.max = m.bind NonZeroUsize.new :=
  Transition.run_invariant (I := fun s => s.max = m.bind NonZeroUsize.new)
    (fun _ _ _ h hs => (max_step hs).trans h) rfl hrun

/-- Below the limit there is room for a future. -/
theorem lt_of_below {n len : ℕ} (hn : 0 < n) (hmax : s.max = (some n).bind NonZeroUsize.new)
    (hbelow : s.belowMax len = true) : len < n := by
  have hsome : s.max = some ⟨n, hn⟩ := hmax.trans (NonZeroUsize.new_pos hn)
  unfold State.belowMax at hbelow
  rw [hsome] at hbelow
  exact of_decide_eq_true hbelow

/-- If the call stands in the loop over the base, it has begun with `len` futures and
has taken `taken`. -/
def State.Filling (s : State Q) (len taken : ℕ) : Prop :=
  ∀ w in_progress_queue_len, s.pc = .fill w in_progress_queue_len →
    in_progress_queue_len = len ∧ s.taken = taken

theorem filling_move {a : Act Q} {len taken : ℕ} (h : s.Filling len taken)
    (ha : a.calls = false) (hm : Move s a s') :
    s'.Filling len (taken + if a.gives then 1 else 0) := by
  cases hm with
  | poll_next w hpc => cases ha
  | future hb hq =>
      intro w' len' hpc'
      obtain ⟨hlen, htaken⟩ := h w' len' hpc'
      exact ⟨hlen, congrArg (· + 1) htaken⟩
  | queue ha hq => exact h
  | _ => rintro w' len' ⟨⟩

theorem filling_run {call : List (Act Q)} {len : ℕ} : ∀ {s : State Q} {taken : ℕ},
    s.Filling len taken → (∀ a ∈ call, a.calls = false) → Transition.run step s call = some s' →
    s'.Filling len (taken + call.countP Act.gives) := by
  induction call with
  | nil =>
      intro s taken h _ hrun
      rw [Transition.run_nil, Option.some.injEq] at hrun
      exact hrun ▸ h
  | cons a call ih =>
      intro s taken h hcall hrun
      rw [Transition.run_cons, Option.bind_eq_some_iff] at hrun
      obtain ⟨u, hu, hrun⟩ := hrun
      have hfilling := filling_move h (hcall a List.mem_cons_self) (move_of_step hu)
      have hrest := ih hfilling (fun b hb => hcall b (List.mem_cons_of_mem a hb)) hrun
      rw [List.countP_cons, Nat.add_comm (call.countP _), ← Nat.add_assoc]
      exact hrest

/-- The call that is called in `s` goes by the length that the queue has there. -/
theorem filling_of_call {call : List (Act Q)} {w : W} (hcall : ∀ a ∈ call, a.calls = false)
    (hrun : Transition.run step s (.poll_next w :: call) = some s') :
    s'.Filling s.len (call.countP Act.gives) := by
  rw [Transition.run_cons, Option.bind_eq_some_iff] at hrun
  obtain ⟨u, hu, hrun⟩ := hrun
  have hbegin : u.Filling s.len 0 := by
    cases move_of_step hu with
    | poll_next w hpc =>
        rintro w' len' ⟨⟩
        exact ⟨rfl, rfl⟩
  have hfilling := filling_run hbegin hcall hrun
  rwa [Nat.zero_add] at hfilling

/-- Whoever stands in the loop over the base has been called before. -/
theorem called_of_fill {m : Option ℕ} {ls : List (Act Q)} : ∀ {s : State Q} {w : W} {len : ℕ},
    Transition.run step (State.new Q m) ls = some s → s.pc = .fill w len →
    ∃ pre w' call t, ls = pre ++ .poll_next w' :: call ∧
      Transition.run step (State.new Q m) pre = some t ∧ (∀ a ∈ call, a.calls = false) ∧
      Transition.run step t (.poll_next w' :: call) = some s := by
  induction ls using List.reverseRecOn with
  | nil =>
      intro s w len hrun hpc
      rw [Transition.run_nil, Option.some.injEq] at hrun
      subst hrun
      cases hpc
  | append_singleton ls a ih =>
      intro s w len hrun hpc
      obtain ⟨u, hu, hs⟩ := Transition.run_concat_eq_some.mp hrun
      -- a step that stays in the loop belongs to the call that is in it
      have hstay : u.pc = .fill w len → a.calls = false → ∃ pre w' call t,
          ls ++ [a] = pre ++ .poll_next w' :: call ∧
          Transition.run step (State.new Q m) pre = some t ∧ (∀ a ∈ call, a.calls = false) ∧
          Transition.run step t (.poll_next w' :: call) = some s := by
        intro hpcu ha
        obtain ⟨pre, w', call, t, rfl, ht, hcall, hrun'⟩ := ih hu hpcu
        refine ⟨pre, w', call ++ [a], t, by simp, ht, ?_, ?_⟩
        · intro b hb
          rcases List.mem_append.mp hb with hb | hb
          · exact hcall b hb
          · exact List.mem_singleton.mp hb ▸ ha
        · rw [← List.cons_append, Transition.run_concat_eq_some]
          exact ⟨u, hrun', hs⟩
      cases move_of_step hs with
      | poll_next w' hpc' =>
          refine ⟨ls, w', [], u, rfl, hu, by simp, ?_⟩
          rw [Transition.run_cons, hs]
          rfl
      | future hb hq => exact hstay hpc rfl
      | queue ha hq => exact hstay hpc rfl
      | _ => cases hpc

/-! ### Every call -/

/-- **The base is left alone by a call that begins at the limit.** -/
theorem unpolled_when_full {n : ℕ} (hn : 0 < n) {ls : List (Act Q)}
    (hrun : Transition.run step (State.new Q (some n)) ls = some s) :
    UnpolledWhenFull n (State.new Q (some n)) ls := by
  rintro t call ⟨⟨pre, w, ⟨rest, rfl⟩, ht⟩, hcall⟩ hfull a ha
  obtain ⟨before, after, rfl⟩ := List.append_of_mem ha
  -- the state in which `a` is taken
  obtain ⟨v, hv, -⟩ := Transition.run_append_eq_some.mp hrun
  obtain ⟨t', ht', hv⟩ := Transition.run_append_eq_some.mp hv
  rw [ht] at ht'
  cases ht'
  rw [← List.cons_append] at hv
  obtain ⟨u, hu, hv⟩ := Transition.run_append_eq_some.mp hv
  have hfilling := filling_of_call
    (fun b hb => hcall b (List.mem_append_left _ hb)) hu
  have hmax : u.max = (some n).bind NonZeroUsize.new :=
    Transition.run_invariant (I := fun s => s.max = (some n).bind NonZeroUsize.new)
      (fun _ _ _ h hs => (max_step hs).trans h) (max_run ht) hu
  cases a with
  | base i r =>
      rw [Transition.run_cons, Option.bind_eq_some_iff] at hv
      obtain ⟨u', hu', -⟩ := hv
      have hasks : ∃ w len, AsksBase u w len := by
        cases move_of_step hu' with
        | future hb hq => exact ⟨_, _, hb⟩
        | error hb => exact ⟨_, _, hb⟩
        | ends hb hq => exact ⟨_, _, hb⟩
        | pending hb hq => exact ⟨_, _, hb⟩
        | unwinds hb => exact ⟨_, _, hb⟩
      obtain ⟨w', len, hb⟩ := hasks
      have hlt := lt_of_below hn hmax hb.below
      have hlen := (hfilling w' len hb.pc).1
      omega
  | _ => rfl

/-- Along a run in which every call has room, no more than `n` futures are managed. -/
theorem managed_le_of_room (hQ : Q.Counted Inv free managed) {n : ℕ} (hn : 0 < n)
    {ls : List (Act Q)} (hroom : RoomInCalls n (State.new Q (some n)) ls) :
    ∀ pre s, pre <+: ls → Transition.run step (State.new Q (some n)) pre = some s →
      managed s.in_progress_queue ≤ n := by
  intro pre
  induction pre using List.reverseRecOn with
  | nil =>
      intro s _ hrun
      rw [Transition.run_nil, Option.some.injEq] at hrun
      subst hrun
      exact (le_of_eq hQ.new.2.2).trans (Nat.zero_le n)
  | append_singleton pre a ih =>
      intro s hpre hrun
      obtain ⟨u, hu, hs⟩ := Transition.run_concat_eq_some.mp hrun
      have hsound := sound_of_run hQ hu
      have hle := ih u ((List.prefix_append pre [a]).trans hpre) hu
      obtain ⟨-, hgrow⟩ := sound_step hQ hsound hs
      unfold Grows at hgrow
      split at hgrow
      · rename_i hgives
        have hm := move_of_step hs
        cases hm with
        | @future w len i fut q hb hq =>
            obtain ⟨pre', w', call, t, rfl, ht, hcall, hcalled⟩ := called_of_fill hu hb.pc
            obtain ⟨hlen, htaken⟩ := filling_of_call hcall hcalled w len hb.pc
            have hlt := lt_of_below hn (max_run hu) hb.below
            have hcount := hroom t (call ++ [.base i (.ready (some (.ok fut)))])
              ⟨⟨pre', w', by simpa using hpre, ht⟩, by
                intro b hb
                rcases List.mem_append.mp hb with hb | hb
                · exact hcall b hb
                · rw [List.mem_singleton.mp hb]
                  rfl⟩ (hlen ▸ hlt)
            rw [List.countP_append] at hcount
            have hone : [(.base i (.ready (some (.ok fut))) : Act Q)].countP Act.gives = 1 := rfl
            have hfilled := hsound.filled w len hb.pc
            omega
        | _ => cases hgives
      · exact hgrow.trans hle

/-- **The limit is kept in a run exactly if every call of it has room.** -/
theorem limitKept_iff (hQ : Q.Counted Inv free managed) {n : ℕ} (hn : 0 < n)
    {ls : List (Act Q)} (hrun : Transition.run step (State.new Q (some n)) ls = some s) :
    LimitKept n (State.new Q (some n)) ls ↔ RoomInCalls n (State.new Q (some n)) ls := by
  constructor
  · rintro hkept t call ⟨⟨pre, w, hpre, ht⟩, hcall⟩ hlt
    induction call using List.reverseRecOn with
    | nil => exact le_of_lt hlt
    | append_singleton call a ih =>
        have hcall' : ∀ b ∈ call, b.calls = false := fun b hb => hcall b (List.mem_append_left _ hb)
        have hpre' : pre ++ .poll_next w :: call <+: ls := by
          refine List.IsPrefix.trans ?_ hpre
          rw [← List.cons_append, ← List.append_assoc]
          exact List.prefix_append _ _
        have hbefore := ih hcall' hpre'
        rw [List.countP_append]
        cases hgives : a.gives with
        | false =>
            rw [List.countP_singleton, hgives]
            exact hbefore
        | true =>
            -- the length after the step is what the call began with, what it took, and one more
            obtain ⟨rest, rfl⟩ := hpre
            obtain ⟨v, hv, -⟩ := Transition.run_append_eq_some.mp hrun
            have hlen : v.len ≤ n := hkept _ v ⟨rest, rfl⟩ hv
            rw [← List.cons_append, ← List.append_assoc] at hv
            obtain ⟨u, hu, hs⟩ := Transition.run_concat_eq_some.mp hv
            have hsound := sound_of_run hQ hu
            obtain ⟨hsound', hgrow⟩ := sound_step hQ hsound hs
            rw [Grows, if_pos hgives] at hgrow
            obtain ⟨t', ht', hcalled⟩ := Transition.run_append_eq_some.mp hu
            rw [ht] at ht'
            cases ht'
            have hm := move_of_step hs
            cases hm with
            | @future w' len i fut q hb hq =>
                obtain ⟨hbegan, htaken⟩ := filling_of_call hcall' hcalled w' len hb.pc
                have hfilled := hsound.filled w' len hb.pc
                have hfree := hsound'.free (by rw [hgrow.2, hb.pc]; rintro w ⟨⟩)
                have heq := hQ.len_eq _ hsound'.inv hfree
                unfold State.len at hlen hbegan
                have hone : [(.base i (.ready (some (.ok fut))) : Act Q)].countP Act.gives = 1 := rfl
                unfold State.len
                omega
            | _ => cases hgives
  · intro hroom pre u hpre hu
    have hle := managed_le_of_room hQ hn hroom pre u hpre hu
    exact (hQ.len_le _ (sound_of_run hQ hu).inv).trans hle

end

end Buffered

open Buffered (LimitKept RoomInCalls UnpolledWhenFull)

/-- **When the limit holds.** `TryBuffered` and `TryBufferUnordered` with limit
`Some(n)` manage at most `n` futures throughout a run exactly if in every call of the
run that begins with fewer, `L` say, the base answers with at most `n - L` futures. A
call that begins with `n` or more does not poll the base. -/
theorem limit_kept_iff_room (E T F W : Type) (A : AtomicWaker W) (n : ℕ) (hn : 1 ≤ n) :
    (∀ ls s, Transition.run Buffered.step (TryBuffered.new E T F W A (some n)) ls = some s →
      (LimitKept n (TryBuffered.new E T F W A (some n)) ls ↔
        RoomInCalls n (TryBuffered.new E T F W A (some n)) ls) ∧
      UnpolledWhenFull n (TryBuffered.new E T F W A (some n)) ls) ∧
    (∀ ls s, Transition.run Buffered.step (TryBufferUnordered.new E T F W A (some n)) ls = some s →
      (LimitKept n (TryBufferUnordered.new E T F W A (some n)) ls ↔
        RoomInCalls n (TryBufferUnordered.new E T F W A (some n)) ls) ∧
      UnpolledWhenFull n (TryBufferUnordered.new E T F W A (some n)) ls) := by
  refine ⟨fun ls s hrun => ⟨?_, ?_⟩, fun ls s hrun => ⟨?_, ?_⟩⟩
  · exact Buffered.limitKept_iff InProgressQueue.ordered_counted hn hrun
  · exact Buffered.unpolled_when_full hn hrun
  · exact Buffered.limitKept_iff InProgressQueue.unordered_counted hn hrun
  · exact Buffered.unpolled_when_full hn hrun

/-- With limit `Some(1)` the base gives a future and then pends. The next call begins
at the limit. -/
def oneIsTaken : List (Buffered.Act (InProgressQueue.unordered Unit (Except Unit Unit) Unit (.cell Unit))) :=
  [.poll_next (), .base 0 (.ready (some (.ok ())))] ++ List.replicate 4 (.queue (.thread 0)) ++
    [.base 0 .pending] ++ List.replicate 12 (.queue .owner) ++
    [.queue (.polled (.pending ())), .queue .owner, .queue .owner, .queue .owner, .own, .ret,
      .poll_next (), .own]

theorem limit_kept_iff_room_one_is_taken :
    ∃ s, Transition.run Buffered.step
        (TryBufferUnordered.new Unit Unit Unit Unit (.cell Unit) (some 1)) oneIsTaken = some s ∧
      s.len = 1 ∧
      RoomInCalls 1 (TryBufferUnordered.new Unit Unit Unit Unit (.cell Unit) (some 1)) oneIsTaken ∧
      UnpolledWhenFull 1 (TryBufferUnordered.new Unit Unit Unit Unit (.cell Unit) (some 1))
        oneIsTaken := by
  have hrun : (Transition.run Buffered.step
      (TryBufferUnordered.new Unit Unit Unit Unit (.cell Unit) (some 1)) oneIsTaken).map
        Buffered.State.len = some 1 := by
    decide +kernel
  obtain ⟨s, hs, hlen⟩ := Option.map_eq_some_iff.mp hrun
  obtain ⟨hiff, hunpolled⟩ :=
    (limit_kept_iff_room Unit Unit Unit Unit (.cell Unit) 1 (le_refl 1)).2 oneIsTaken s hs
  refine ⟨s, hs, hlen, hiff.mp fun pre u hpre hu => ?_, hunpolled⟩
  have hall : ∀ pre ∈ oneIsTaken.inits, ((Transition.run Buffered.step
      (TryBufferUnordered.new Unit Unit Unit Unit (.cell Unit) (some 1)) pre).map
        Buffered.State.len).getD 0 ≤ 1 := by
    decide +kernel
  have hle := hall pre ((List.mem_inits _ _).mpr hpre)
  rw [hu] at hle
  exact hle

/-- The base is ready with two futures in one call: with limit `Some(1)` both are
taken, since the length is not read again after the first. -/
theorem limit_exceeded :
    (¬ ∀ n ≥ 1, ∀ ls s, Transition.run Buffered.step
      (TryBuffered.new Unit Unit Unit Unit (.cell Unit) (some n)) ls = some s → s.len ≤ n) ∧
    (¬ ∀ n ≥ 1, ∀ ls s, Transition.run Buffered.step
      (TryBufferUnordered.new Unit Unit Unit Unit (.cell Unit) (some n)) ls = some s →
        s.len ≤ n) := by
  constructor
  · intro hclaim
    have hrun : (Transition.run Buffered.step
        (TryBuffered.new Unit Unit Unit Unit (.cell Unit) (some 1))
        [.poll_next (), .base 0 (.ready (some (.ok ()))), .queue (.thread 0), .queue (.thread 0),
          .queue (.thread 0), .queue (.thread 0), .base 0 (.ready (some (.ok ())))]).map
        Buffered.State.len = some 2 := by
      decide +kernel
    obtain ⟨s, hs, hlen⟩ := Option.map_eq_some_iff.mp hrun
    have hle := hclaim 1 (le_refl 1) _ s hs
    omega
  · intro hclaim
    have hrun : (Transition.run Buffered.step
        (TryBufferUnordered.new Unit Unit Unit Unit (.cell Unit) (some 1))
        [.poll_next (), .base 0 (.ready (some (.ok ()))), .queue (.thread 0), .queue (.thread 0),
          .queue (.thread 0), .queue (.thread 0), .base 0 (.ready (some (.ok ())))]).map
        Buffered.State.len = some 2 := by
      decide +kernel
    obtain ⟨s, hs, hlen⟩ := Option.map_eq_some_iff.mp hrun
    have hle := hclaim 1 (le_refl 1) _ s hs
    omega

end TokioStreamUtil
