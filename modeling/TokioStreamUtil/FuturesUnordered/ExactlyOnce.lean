/-
Every pushed future is accounted for exactly once, and an empty set says so.

The first half reads the partition off the ledger and the list of all tasks. The
second half follows a `poll_next` call on an empty set: what is left in the ready
to run queue are stale entries of finished tasks, each `dequeue` takes one of
them out without ever finding the queue inconsistent, and `emptyRank` bounds how
many steps of its own the call has left.
-/
import TokioStreamUtil.FuturesUnordered.Ledger
import TokioStreamUtil.FuturesUnordered.QueuedFlag
import TokioStreamUtil.FuturesUnordered.ReadyToRunQueueFifo

set_option autoImplicit false

namespace TokioStreamUtil.FuturesUnordered

open ReadyToRunQueue (Node Sys CallInv)

variable {F O W : Type} {A : AtomicWaker W} {s s' : State F O W A} {l : List ℕ} {t : ℕ}

/-! ## The partition -/

/-- Future `t` is still in the set: in the list of all tasks, or being polled. -/
def State.InSet (s : State F O W A) (t : ℕ) : Prop :=
  s.InAll t ∨ (s.Held t ∧ s.owner.releasing ≠ some t)

/-- The futures whose output is yielded. -/
def State.yielded (s : State F O W A) : List ℕ := s.hist.completed.map Prod.fst

/-- The pointers determine the list of all tasks. -/
theorem State.Inv.inAll_iff (h : s.Inv l) : s.InAll t ↔ t ∈ l := by
  constructor
  · rintro ⟨l', hrep, hmem⟩
    by_contra hout
    exact hrep.ready t hmem (h.places.all.outside t hout).1
  · intro hmem
    exact ⟨l, h.places.all, hmem⟩

theorem releasing_held {o : Owner O W} (h : o.releasing = some t) : o.held = some t := by
  cases o with
  | poll lv pc =>
      cases pc with
      | release u r => exact h
      | _ => cases h
  | _ => cases h

/-- A future is in the set exactly while it has not finished. -/
theorem inSet_iff (hl : s.Inv l) (h : s.Ledger) (ht : t < s.fresh) :
    s.InSet t ↔ t ∉ s.yielded ++ s.hist.discarded := by
  unfold State.InSet State.Held State.yielded
  rw [hl.inAll_iff, hl.places.mem t, h.finished t]
  constructor
  · rintro (⟨-, hr, hheld⟩ | ⟨hheld, hrel⟩) (hr' | hrel')
    · rw [hr] at hr'; cases hr'
    · exact hheld (releasing_held hrel')
    · rw [(hl.places.held_live t hheld).2] at hr'; cases hr'
    · exact hrel hrel'
  · intro hnot
    obtain ⟨hr, hrel⟩ := not_or.mp hnot
    by_cases hheld : s.owner.held = some t
    · exact Or.inr ⟨hheld, hrel⟩
    · exact Or.inl ⟨ht, by simpa using hr, hheld⟩

/-- What is linked and what has finished are different futures. -/
theorem linked_nodup (hl : s.Inv l) (h : s.Ledger) :
    (l ++ (s.yielded ++ s.hist.discarded)).Nodup := by
  rw [List.nodup_append]
  refine ⟨hl.places.nodup, h.nodup, ?_⟩
  rintro t ht u hu rfl
  obtain ⟨-, hr, hheld⟩ := (hl.places.mem t).mp ht
  rcases (h.finished t).mp hu with hr' | hrel'
  · rw [hr] at hr'; cases hr'
  · exact hheld (releasing_held hrel')

/-- What is linked or has finished was pushed. -/
theorem linked_lt (hl : s.Inv l) (h : s.Ledger) (ht : t ∈ l ++ (s.yielded ++ s.hist.discarded)) :
    t < s.fresh := by
  rcases List.mem_append.mp ht with hmem | hfin
  · exact ((hl.places.mem t).mp hmem).1
  · rcases (h.finished t).mp hfin with hr | hrel
    · exact hl.places.retired_lt t hr
    · exact (hl.places.held_live t (releasing_held hrel)).1

/-- No more is linked or has finished than was pushed. -/
theorem len_bound (hl : s.Inv l) (h : s.Ledger) :
    s.len + s.hist.completed.length + s.hist.discarded.length ≤ s.fresh := by
  have hsub : l ++ (s.yielded ++ s.hist.discarded) ⊆ List.range s.fresh := fun t ht =>
    List.mem_range.mpr (linked_lt hl h ht)
  have hlen := (List.subperm_of_subset (linked_nodup hl h) hsub).length_le
  have hrep : s.len = l.length := hl.places.all.len_eq
  simp only [List.length_append, List.length_range, State.yielded, List.length_map] at hlen
  omega

/-- Between calls, what is linked and what has finished make up what was pushed. -/
theorem len_balance (hl : s.Inv l) (h : s.Ledger) (ho : s.owner = .idle) :
    s.len + s.hist.completed.length + s.hist.discarded.length = s.fresh := by
  have hheld : s.owner.held = none := by rw [ho]; rfl
  have hperm : (l ++ (s.yielded ++ s.hist.discarded)).Perm (List.range s.fresh) := by
    rw [List.perm_ext_iff_of_nodup (linked_nodup hl h) List.nodup_range]
    intro t
    refine ⟨fun ht => List.mem_range.mpr (linked_lt hl h ht), fun ht => ?_⟩
    rw [List.mem_append, hl.places.mem t, State.yielded, h.finished t, hheld]
    cases hr : s.hist.retired t with
    | true => exact Or.inr (Or.inl rfl)
    | false => exact Or.inl ⟨List.mem_range.mp ht, rfl, by simp⟩
  have hlen := hperm.length_eq
  have hrep : s.len = l.length := hl.places.all.len_eq
  simp only [List.length_append, List.length_range, State.yielded, List.length_map] at hlen
  omega

/-! ## `poll_next` on an empty set -/

/-- The tasks in the ready to run queue. -/
def State.stale (s : State F O W A) : ℕ := (s.ready.chain.filter (· ≠ .stub)).length

/-- Where `poll_next` can be on an empty set. -/
def Owner.ofEmpty : Owner O W → Bool
  | .poll _ .register => true
  | .poll _ .dequeue => true
  | .poll _ (.done (.ready none)) => true
  | _ => false

/-- A `poll_next` call on an empty set, with no enqueue in progress anywhere. -/
structure EmptyCall (s : State F O W A) : Prop where
  inv : ∃ l, s.Inv l
  empty : s.is_empty = true
  quiet : ∀ i, s.ready.producers i = .idle
  place : s.owner.ofEmpty = true
  call : s.owner.dequeuing = true → ∃ q₀, CallInv q₀ s.ready

/-- A bound on the steps the call has left. Each stale entry costs one `dequeue`. -/
def emptyRank (s : State F O W A) : ℕ :=
  match s.owner with
  | .poll _ .register => 8 * s.stale + 9
  | .poll _ .dequeue =>
      match s.ready.consumer with
      | .done (.Data _) => 8 * s.stale + 9
      | .done _ => 1
      | pc => 8 * s.stale + pc.rank + 1
  | _ => 0

/-- The label is a step of the exclusive call. -/
def Act.own : Act F O W → Bool
  | .owner => true
  | _ => false

theorem emptyRank_running {lv : Locals W} (ho : s.owner = .poll lv .dequeue)
    (hrun : s.ready.consumer.running = true) :
    emptyRank s = 8 * s.stale + s.ready.consumer.rank + 1 := by
  unfold emptyRank
  rw [ho]
  cases hc : s.ready.consumer with
  | done d => rw [hc] at hrun; cases hrun
  | _ => rfl

/-- A step of `dequeue` keeps the tasks in the queue, but for one it returns. -/
theorem stale_consume {q : Sys ℕ} (h : q.Inv) (hrun : q.consumer.running = true) :
    (q.consume.chain.filter (· ≠ .stub)).length + (Sys.delivers q.consume.consumer).length =
      (q.chain.filter (· ≠ .stub)).length := by
  have hstub : (Sys.swaps (Sys.stubPc q.consumer)).filter (· ≠ .stub) = [] := by
    rw [List.filter_eq_nil_iff]
    intro n hn
    cases hpc : Sys.stubPc q.consumer with
    | swap m =>
        have hm := h.stub m (by rw [hpc]; rfl)
        rw [hpc] at hn
        simpa [Sys.swaps, hm] using hn
    | _ => rw [hpc] at hn; simp [Sys.swaps] at hn
  have hbefore := congrArg List.length h.history
  have hafter := congrArg List.length (h.consume hrun).history
  have hswapped : q.consume.swapped.filter (· ≠ .stub) = q.swapped.filter (· ≠ .stub) := by
    show (q.swapped ++ Sys.swaps (Sys.stubPc q.consumer)).filter (· ≠ .stub) = _
    rw [List.filter_append, hstub, List.append_nil]
  have hreturned : q.consume.returned = q.returned ++ Sys.delivers q.consume.consumer := rfl
  rw [hswapped, hreturned] at hafter
  simp only [List.length_append] at hbefore hafter
  omega

namespace EmptyCall

/-- Every task ever pushed has been retired, and its future is gone. -/
theorem retired (h : EmptyCall s) (ht : t < s.fresh) :
    s.hist.retired t = true ∧ (s.tasks t).future = none := by
  obtain ⟨l, hl⟩ := h.inv
  have hnil : l = [] := hl.places.all.is_empty_iff.mp h.empty
  subst hnil
  have hplace : s.owner.held = none ∧ s.owner.dropping = none := by
    have hat := h.place
    unfold Owner.ofEmpty at hat
    split at hat
    · rename_i ho; rw [ho]; exact ⟨rfl, rfl⟩
    · rename_i ho; rw [ho]; exact ⟨rfl, rfl⟩
    · rename_i ho; rw [ho]; exact ⟨rfl, rfl⟩
    · cases hat
  have hr := hl.retired_of_nil hplace.1 ht
  have hvac := (hl.places.vacant t ht).mpr ⟨hr, by rw [hplace.2]; simp⟩
  exact ⟨hr, by simpa using hvac⟩

theorem not_idle (h : EmptyCall s) : s.owner.isIdle = false := by
  have hat := h.place
  cases ho : s.owner with
  | idle => rw [ho] at hat; cases hat
  | _ => rfl

theorem calm (h : EmptyCall s) : s.ready.Calm := by
  intro i p n hp
  rw [h.quiet i] at hp
  cases hp

/-- A move of another thread: it neither enqueues nor touches the call. -/
theorem frame (h : EmptyCall s) (hinv : ∃ l, s'.Inv l) (hall : s'.all = s.all)
    (hready : s'.ready = s.ready) (ho : s'.owner = s.owner) :
    EmptyCall s' ∧ emptyRank s' = emptyRank s := by
  refine ⟨⟨hinv, ?_, ?_, ?_, ?_⟩, ?_⟩
  · unfold State.is_empty
    rw [hall]
    exact h.empty
  · rw [hready]; exact h.quiet
  · rw [ho]; exact h.place
  · rw [ho, hready]; exact h.call
  · unfold emptyRank State.stale
    rw [ho, hready]

/-- A step of the `dequeue` in progress. -/
theorem consume (h : EmptyCall s) (hinv : ∃ l, s.consume.Inv l) {lv : Locals W}
    (ho : s.owner = .poll lv .dequeue) (hrun : s.ready.consumer.running = true) :
    EmptyCall s.consume ∧ emptyRank s.consume < emptyRank s := by
  obtain ⟨q₀, hq₀⟩ := h.call (by rw [ho]; rfl)
  have hcall : CallInv q₀ s.ready.consume := hq₀.consume hrun
  have hstale := stale_consume hq₀.inv hrun
  have hrank : (s.ready.consume.consumer).rank < s.ready.consumer.rank :=
    ReadyToRunQueue.rank_dequeue s.ready.queue hrun
  have hrun' := emptyRank_running ho hrun
  have hown : s.consume.owner = .poll lv .dequeue := ho
  refine ⟨⟨hinv, h.empty, h.quiet, h.place, fun _ => ⟨q₀, hcall⟩⟩, ?_⟩
  have hle : s.consume.stale + (Sys.delivers s.ready.consume.consumer).length = s.stale := hstale
  cases hc : s.ready.consume.consumer with
  | done d =>
      have hpos : 0 < s.ready.consumer.rank := ReadyToRunQueue.rank_pos hrun
      rw [hc] at hle
      have hc' : s.consume.ready.consumer = .done d := hc
      cases d with
      | Data n =>
          have hval : emptyRank s.consume = 8 * s.consume.stale + 9 := by
            unfold emptyRank
            rw [hown, hc']
          simp only [Sys.delivers, List.length_singleton] at hle
          omega
      | Empty =>
          have hval : emptyRank s.consume = 1 := by
            unfold emptyRank
            rw [hown, hc']
          omega
      | Inconsistent =>
          have hval : emptyRank s.consume = 1 := by
            unfold emptyRank
            rw [hown, hc']
          omega
  | idle =>
      exact absurd hc (ReadyToRunQueue.consume_consumer_ne_idle hq₀.inv hrun)
  | _ =>
      have hc' : s.consume.ready.consumer.running = true := by
        show s.ready.consume.consumer.running = true
        rw [hc]
        rfl
      have hval := emptyRank_running hown hc'
      have heq : s.consume.ready.consumer = s.ready.consume.consumer := rfl
      rw [heq] at hval
      omega

/-- **One move of the call, or of anybody else.** The call stays on its way to
`Ready(None)`, and its own steps use up its rank. -/
theorem move (h : EmptyCall s) {a : Act F O W} (hm : Move s a s') (ha : a ≠ .ret) :
    EmptyCall s' ∧ emptyRank s' + (if a.own then 1 else 0) ≤ emptyRank s := by
  have hinv : ∃ l, s'.Inv l := by
    obtain ⟨l, hl⟩ := h.inv
    exact inv_move hl hm
  obtain ⟨l, hl⟩ := h.inv
  have hplace := h.place
  cases hm with
  | push fut hi ho => rw [ho] at hplace; cases hplace
  | produce hp => exact absurd (h.quiet _) hp
  | endPush hi hp =>
      have hpush := hl.calls.exclusive h.not_idle
      have hmem := (hl.calls.mem_pushing _).mpr ⟨_, hi⟩
      rw [hpush] at hmem
      cases hmem
  | upgrade hi ht ha =>
      obtain ⟨hs', hrank⟩ := h.frame hinv rfl rfl rfl
      exact ⟨hs', Nat.le_of_eq hrank⟩
  | upgradeFails ha => exact ⟨h, Nat.le_refl _⟩
  | storeWoken hi =>
      obtain ⟨hs', hrank⟩ := h.frame hinv rfl rfl rfl
      exact ⟨hs', Nat.le_of_eq hrank⟩
  | @swapQueued i t hi =>
      -- the flag of a finished task is up, so nothing is enqueued
      have ht := hl.calls.task_lt i t (Or.inr ⟨_, hi⟩)
      have hup := hl.queued_of_retired (h.retired ht).1
      unfold State.swapQueued at hinv ⊢
      rw [if_pos hup] at hinv ⊢
      obtain ⟨hs', hrank⟩ := h.frame hinv rfl rfl rfl
      exact ⟨hs', Nat.le_of_eq hrank⟩
  | endEnqueue hi hp =>
      obtain ⟨hs', hrank⟩ := h.frame hinv rfl rfl rfl
      exact ⟨hs', Nat.le_of_eq hrank⟩
  | wakeWaker hi =>
      obtain ⟨hs', hrank⟩ := h.frame hinv rfl rfl rfl
      exact ⟨hs', Nat.le_of_eq hrank⟩
  | dropInner hi =>
      have heq : ∀ i, s.dropInner i = { s with
          threads := Function.update s.threads i .idle, holders := s.holders.erase i } := by
        intro i
        unfold State.dropInner
        dsimp only
        split
        · rename_i ho; rw [ho] at hplace; cases hplace
        · rfl
      rw [heq] at hinv ⊢
      obtain ⟨hs', hrank⟩ := h.frame hinv rfl rfl rfl
      exact ⟨hs', Nat.le_of_eq hrank⟩
  | poll_next w ho hp => rw [ho] at hplace; cases hplace
  | register ho =>
      have hc : s.ready.consumer = .idle := hl.consumer.mpr (by rw [ho]; rfl)
      have hbegin := CallInv.begin hl.flags.ready h.calm hc
      refine ⟨⟨hinv, h.empty, h.quiet, rfl, fun _ => ⟨_, hbegin⟩⟩, ?_⟩
      have hval : emptyRank s = 8 * s.stale + 9 := by
        unfold emptyRank
        rw [ho]
      rw [hval]
      exact Nat.le_refl (8 * s.stale + 9)
  | consume hrun ho =>
      rcases ho with ⟨lv', ho⟩ | ho
      · obtain ⟨hs', hlt⟩ := h.consume hinv ho hrun
        exact ⟨hs', hlt⟩
      · rw [ho] at hplace; cases hplace
  | dequeueEmpty ho hc =>
      have hval : emptyRank s = 1 := by
        unfold emptyRank
        rw [ho, hc]
      unfold State.dequeueEmpty at hinv ⊢
      rw [if_pos h.empty] at hinv ⊢
      refine ⟨⟨hinv, h.empty, h.quiet, rfl, nofun⟩, ?_⟩
      rw [hval]
      exact Nat.le_refl 1
  -- nobody is in the middle of an enqueue, so the queue is never seen inconsistent
  | dequeueInconsistent ho hc =>
      obtain ⟨q₀, hq₀⟩ := h.call (by rw [ho]; rfl)
      have hchain := hq₀.callChain
      rw [hc] at hchain
      exact hchain.elim
  -- the next round of the loop; the node that was taken out is no longer counted
  | @dequeueReleased lv n ho hc hf =>
      have hend := hl.flags.ready.endDequeue hc
      have hbegin := CallInv.begin hend h.calm rfl
      refine ⟨⟨hinv, h.empty, h.quiet, h.place, fun _ => ⟨_, hbegin⟩⟩, ?_⟩
      have hval : emptyRank s = 8 * s.stale + 9 := by
        unfold emptyRank
        rw [ho, hc]
      have hval' := @emptyRank_running F O W A (s.dequeueReleased n) lv ho rfl
      rw [hval, hval']
      exact Nat.le_refl (8 * s.stale + 9)
  -- what is dequeued has been retired, and has no future
  | dequeueData ho hc hf =>
      have hflags := hl.flags
      rw [ho, hc] at hflags
      rw [(h.retired (hflags.taken_out _ rfl).1).2] at hf
      cases hf
  | ret ho => exact absurd rfl ha
  | drop ho hp => rw [ho] at hplace; cases hplace
  | unlink ho => rw [ho] at hplace; cases hplace
  | resetQueued ho => rw [ho] at hplace; cases hplace
  | clearWoken ho => rw [ho] at hplace; cases hplace
  | polled r ho => rw [ho] at hplace; cases hplace
  | loadWoken ho => rw [ho] at hplace; cases hplace
  | relink ho => rw [ho] at hplace; cases hplace
  | release ho => rw [ho] at hplace; cases hplace
  | dropFuture ho => rw [ho] at hplace; cases hplace
  | wakeParent ho => rw [ho] at hplace; cases hplace
  | dropLoop ho => rw [ho] at hplace; cases hplace
  | dropRelease ho => rw [ho] at hplace; cases hplace
  | dropDropFuture ho => rw [ho] at hplace; cases hplace
  | dropDequeued ho hc => rw [ho] at hplace; cases hplace

/-- The call is at its end, or can take another step. -/
theorem not_stuck (h : EmptyCall s) :
    (∃ lv, s.owner = .poll lv (.done (.ready none))) ∨ ∃ s', step s .owner = some s' := by
  obtain ⟨l, hl⟩ := h.inv
  have hat := h.place
  unfold Owner.ofEmpty at hat
  split at hat
  · rename_i lv ho
    exact Or.inr ⟨s.register lv, by simp [step, ownerStep, ho, pollStep]⟩
  · rename_i lv ho
    refine Or.inr ?_
    cases hc : s.ready.consumer with
    | idle =>
        have hd := hl.consumer.mp hc
        rw [ho] at hd
        cases hd
    | done d => exact ⟨s.dequeued lv d, by simp [step, ownerStep, ho, pollStep, hc]⟩
    | _ => exact ⟨s.consume, by simp [step, ownerStep, ho, pollStep, hc]⟩
  · rename_i lv ho
    exact Or.inl ⟨lv, ho⟩
  · cases hat

/-- A stretch of a run in which the call does not return: the call's own steps
are at most its rank at the beginning. -/
theorem run : ∀ (ls : List (Act F O W)) (s s' : State F O W A), EmptyCall s → .ret ∉ ls →
    Transition.run step s ls = some s' →
      EmptyCall s' ∧ emptyRank s' + ls.countP Act.own ≤ emptyRank s := by
  intro ls
  induction ls with
  | nil =>
      intro s s' h _ hrun
      rw [Transition.run_nil, Option.some.injEq] at hrun
      subst hrun
      exact ⟨h, Nat.le_refl _⟩
  | cons a ls ih =>
      intro s s'' h hret hrun
      rw [Transition.run_cons, Option.bind_eq_some_iff] at hrun
      obtain ⟨s', hs, hrun⟩ := hrun
      have ha : a ≠ .ret := by rintro rfl; exact hret List.mem_cons_self
      obtain ⟨hs', hle⟩ := h.move (move_of_step hs) ha
      obtain ⟨hs'', hle'⟩ := ih s' s'' hs' (fun hmem => hret (List.mem_cons_of_mem a hmem)) hrun
      refine ⟨hs'', ?_⟩
      rw [List.countP_cons]
      omega

end EmptyCall

/-- The call starts. -/
theorem emptyCall_begin (hl : s.Inv l) (ho : s.owner = .idle) (hp : s.pushing = ∅)
    (he : s.is_empty = true) (hq : ∀ i t, ¬s.Enqueueing i t) (w : W) :
    EmptyCall (s.poll_next w) := by
  refine ⟨⟨l, hl.poll_next w ho hp⟩, he, ?_, rfl, nofun⟩
  intro i
  by_contra hne
  obtain ⟨t, ht⟩ := hl.calls.busy i hne
  exact hq i t (hl.enqueueing_iff.mpr ht)

/-! ## The theorem -/

/-- **Every future is accounted for exactly once.** In every state of every run of
pushes, wakes and `poll_next` calls, whatever the futures answer: each pushed
future is either in the set, or yielded, or discarded; no future is yielded twice
and the outputs handed out, with the one on its way, are those of the yielded
futures in order; the future about to be polled is neither yielded nor discarded;
between calls `len` is what was pushed less what was yielded and discarded; a
call that ends with `Ready(None)` leaves an empty set; and a call that starts on
an empty set, with no enqueue in progress, is never stuck before it returns
`Ready(None)`, and takes a bounded number of steps, whatever other threads do. -/
theorem every_future_exactly_once (ls : List (Act F O W)) (s : State F O W A)
    (hdrop : .drop ∉ ls) (hrun : Transition.run step State.new ls = some s) :
    (∀ t < s.fresh,
      (s.InSet t ∧ t ∉ s.yielded ∧ t ∉ s.hist.discarded) ∨
      (¬s.InSet t ∧ t ∈ s.yielded ∧ t ∉ s.hist.discarded) ∨
      (¬s.InSet t ∧ t ∉ s.yielded ∧ t ∈ s.hist.discarded)) ∧
    (s.yielded.Nodup ∧ s.hist.outputs ++ s.owner.carrying = s.hist.completed.map Prod.snd) ∧
    (∀ lv t, s.owner = .poll lv (.poll t) → t ∉ s.yielded ∧ t ∉ s.hist.discarded) ∧
    (s.owner = .idle →
      s.len + s.hist.outputs.length + s.hist.discarded.length = s.fresh) ∧
    (∀ lv, s.owner = .poll lv (.done (.ready none)) → s.is_empty = true ∧
      ∀ t < s.fresh, ¬s.InSet t) ∧
    (∀ w s₁, step s (.poll_next w) = some s₁ → s.is_empty = true →
      (∀ i t, ¬s.Enqueueing i t) →
      ∃ bound, ∀ ls' s', .ret ∉ ls' → Transition.run step s₁ ls' = some s' →
        ls'.countP Act.own ≤ bound ∧
        ((∃ lv, s'.owner = .poll lv (.done (.ready none))) ∨ ∃ s'', step s' .owner = some s'')) := by
  obtain ⟨⟨l, hl⟩, h⟩ := ledger_of_run hdrop hrun
  have hnodup := h.nodup
  rw [List.nodup_append] at hnodup
  obtain ⟨hyielded, -, hdisjoint⟩ := hnodup
  refine ⟨?_, ⟨hyielded, h.handed⟩, ?_, ?_, ?_, ?_⟩
  · intro t ht
    have hin := inSet_iff hl h ht
    rw [List.mem_append, not_or] at hin
    by_cases hy : t ∈ s.yielded
    · have hd : t ∉ s.hist.discarded := fun hd => hdisjoint t hy t hd rfl
      exact Or.inr (Or.inl ⟨fun hset => (hin.mp hset).1 hy, hy, hd⟩)
    · by_cases hd : t ∈ s.hist.discarded
      · exact Or.inr (Or.inr ⟨fun hset => (hin.mp hset).2 hd, hy, hd⟩)
      · exact Or.inl ⟨hin.mpr ⟨hy, hd⟩, hy, hd⟩
  · intro lv t ho
    have hlive := (hl.places.held_live t (by rw [ho]; rfl)).2
    have hnot : t ∉ s.yielded ++ s.hist.discarded := by
      intro hmem
      rcases (h.finished t).mp hmem with hr | hrel
      · rw [hlive] at hr; cases hr
      · rw [ho] at hrel; cases hrel
    rw [List.mem_append, not_or] at hnot
    exact hnot
  · intro ho
    have hhanded := congrArg List.length h.handed
    have hcarry : s.owner.carrying = [] := by rw [ho]; rfl
    rw [hcarry, List.append_nil, List.length_map] at hhanded
    have hbal := len_balance hl h ho
    omega
  · intro lv ho
    have hempty := h.ended (by rw [ho]; rfl)
    have hnil : l = [] := hl.places.all.is_empty_iff.mp hempty
    refine ⟨hempty, ?_⟩
    rintro t ht (hall | ⟨hheld, -⟩)
    · rw [hl.inAll_iff, hnil] at hall
      cases hall
    · unfold State.Held at hheld
      rw [ho] at hheld
      cases hheld
  · intro w s₁ hs₁ hempty hquiet
    simp only [step, Option.ite_none_right_eq_some, Option.some.injEq] at hs₁
    obtain ⟨⟨ho, hp⟩, rfl⟩ := hs₁
    have hbegin := emptyCall_begin hl (Owner.eq_idle ho) hp hempty hquiet w
    refine ⟨emptyRank (s.poll_next w), ?_⟩
    intro ls' s' hret hrun'
    obtain ⟨hs', hle⟩ := EmptyCall.run ls' _ s' hbegin hret hrun'
    exact ⟨by omega, hs'.not_stuck⟩

/-- One future completes, a second one unwinds. -/
def completeThenUnwind : List (Act Unit ℕ Unit) :=
  List.flatten [
    [.push 0 (), .thread 0, .thread 0, .thread 0, .thread 0, .push 0 (), .thread 0, .thread 0,
      .thread 0, .thread 0, .poll_next ()],
    List.replicate 7 .owner,
    [.polled (.ready 7), .owner, .owner, .ret, .poll_next ()],
    List.replicate 11 .owner,
    [.polled .unwind, .owner, .owner, .ret]]

theorem every_future_exactly_once_complete_then_unwind :
    ∃ s : State Unit ℕ Unit (AtomicWaker.cell Unit),
      Transition.run step State.new completeThenUnwind = some s ∧ s.hist.outputs = [7] ∧
        s.len + s.hist.outputs.length + s.hist.discarded.length = s.fresh :=
  ⟨_, rfl, rfl,
    (every_future_exactly_once completeThenUnwind _ (by simp [completeThenUnwind]) rfl).2.2.2.1 rfl⟩

end TokioStreamUtil.FuturesUnordered
