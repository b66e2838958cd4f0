/-
Where the tasks and the calls of a `FuturesUnordered` are.

`Places` is about the tasks: each one allocated is in the list of all tasks, in
the hands of the exclusive call, or retired. `Calls` is about the threads: whose
enqueue the queue is running, who holds the queue, and that nobody is inside
`push` while an exclusive call runs. Both come with one lemma for each way in
which a transition touches them.
-/
import TokioStreamUtil.FuturesUnordered.Model
import Mathlib.Tactic.Common

set_option autoImplicit false

namespace TokioStreamUtil.FuturesUnordered

open ReadyToRunQueue (EnqueuePc)

variable {F O W : Type}

/-! ## Tasks in the hands of the exclusive call -/

/-- The task that is unlinked and not yet released or linked again. -/
def Owner.held : Owner O W → Option ℕ
  | .poll _ (.reset t) => some t
  | .poll _ (.clearWoken t) => some t
  | .poll _ (.poll t) => some t
  | .poll _ (.loadWoken t) => some t
  | .poll _ (.relink t) => some t
  | .poll _ (.release t _) => some t
  | .drop (.release t) => some t
  | _ => none

/-- The task whose future is being dropped. -/
def Owner.dropping : Owner O W → Option ℕ
  | .poll _ (.dropFuture t _ _) => some t
  | .drop (.dropFuture t _) => some t
  | _ => none

/-- The task that is about to be unlinked. -/
def Owner.unlinking : Owner O W → Option ℕ
  | .poll _ (.unlink t) => some t
  | _ => none

/-- A `dequeue` call of the exclusive call is in progress. -/
def Owner.dequeuing : Owner O W → Bool
  | .poll _ .dequeue => true
  | .dropQueue => true
  | _ => false

/-- The last reference to the queue is gone. -/
def Owner.released : Owner O W → Bool
  | .dropQueue => true
  | .gone => true
  | .aborted => true
  | _ => false

/-- The drop of the set has unlinked the last task. -/
def Owner.emptied : Owner O W → Bool
  | .dropped => true
  | .dropQueue => true
  | .gone => true
  | .aborted => true
  | _ => false

/-- `l` is the list of all tasks. `vacant` says which tasks have no future. -/
structure Places (all : AllList) (l : List ℕ) (fresh : ℕ) (retired vacant : ℕ → Bool)
    (held dropping : Option ℕ) : Prop where
  all : all.Rep l
  mem : ∀ t, t ∈ l ↔ t < fresh ∧ retired t = false ∧ held ≠ some t
  held_live : ∀ t, held = some t → t < fresh ∧ retired t = false
  retired_lt : ∀ t, retired t = true → t < fresh
  dropping_retired : ∀ t, dropping = some t → retired t = true
  vacant : ∀ t, t < fresh → (vacant t = true ↔ retired t = true ∧ dropping ≠ some t)

namespace Places

variable {all : AllList} {l : List ℕ} {fresh t : ℕ} {retired vacant : ℕ → Bool}
  {held dropping : Option ℕ}

theorem nodup (h : Places all l fresh retired vacant held dropping) : l.Nodup :=
  h.all.linked.nodup

/-- A task with a future is still managed, unless the future is being dropped. -/
theorem live_of_future (h : Places all l fresh retired vacant held dropping) (ht : t < fresh)
    (hv : vacant t = false) (hd : dropping ≠ some t) : retired t = false := by
  by_contra hr
  have hvac := (h.vacant t ht).mpr ⟨by simpa using hr, hd⟩
  rw [hv] at hvac
  cases hvac

/-- A task on the list has its future, and nobody drops it. -/
theorem vacant_of_mem (h : Places all l fresh retired vacant held dropping) (ht : t ∈ l) :
    vacant t = false ∧ dropping ≠ some t := by
  obtain ⟨hlt, hlive, -⟩ := (h.mem t).mp ht
  refine ⟨?_, fun hd => ?_⟩
  · by_contra hv
    have hret := ((h.vacant t hlt).mp (by simpa using hv)).1
    rw [hlive] at hret
    cases hret
  · rw [h.dropping_retired t hd] at hlive
    cases hlive

/-- `push` links the task it has allocated. -/
theorem push (h : Places all l fresh retired vacant none dropping) :
    Places (all.link fresh) (fresh :: l) (fresh + 1) retired
      (Function.update vacant fresh false) none dropping := by
  have hout : fresh ∉ l := by
    intro hmem
    have hlt := ((h.mem fresh).mp hmem).1
    omega
  have hlive : retired fresh = false := by
    by_contra hr
    have hlt := h.retired_lt fresh (by simpa using hr)
    omega
  refine ⟨h.all.link hout, ?_, nofun, ?_, h.dropping_retired, ?_⟩
  · intro t
    rw [List.mem_cons, h.mem t]
    by_cases htf : t = fresh
    · simp [htf, hlive]
    · simp only [htf, false_or]
      constructor
      · rintro ⟨hlt, hr, hh⟩
        exact ⟨by omega, hr, hh⟩
      · rintro ⟨hlt, hr, hh⟩
        exact ⟨by omega, hr, hh⟩
  · intro t hr
    have hlt := h.retired_lt t hr
    omega
  · intro t hlt
    by_cases htf : t = fresh
    · simp [htf, hlive]
    · simpa [htf] using h.vacant t (by omega)

/-- `unlink` moves a linked task into the hands of the call. -/
theorem unlink (h : Places all l fresh retired vacant none none) (ht : t < fresh)
    (hr : retired t = false) :
    ∃ l', Places (all.unlink t) l' fresh retired vacant (some t) none := by
  have hmem : t ∈ l := (h.mem t).mpr ⟨ht, hr, by simp⟩
  obtain ⟨a, b, rfl⟩ := List.append_of_mem hmem
  have hnodup := h.nodup
  refine ⟨a ++ b, h.all.unlink, ?_, ?_, h.retired_lt, nofun, h.vacant⟩
  · intro u
    have hu := h.mem u
    have hsplit : u ∈ a ++ b ↔ u ∈ a ++ t :: b ∧ u ≠ t := by
      constructor
      · intro hin
        refine ⟨by simp only [List.mem_append, List.mem_cons] at hin ⊢; tauto, ?_⟩
        rintro rfl
        rw [List.nodup_middle, List.nodup_cons] at hnodup
        exact hnodup.1 hin
      · rintro ⟨hin, hne⟩
        simp only [List.mem_append, List.mem_cons] at hin ⊢
        tauto
    rw [hsplit, hu]
    simp only [ne_eq, Option.some.injEq, reduceCtorEq, not_false_eq_true, and_true, eq_comm]
    tauto
  · intro u hu
    cases hu
    exact ⟨ht, hr⟩

/-- The held task is linked again. -/
theorem relink (h : Places all l fresh retired vacant (some t) none) :
    Places (all.link t) (t :: l) fresh retired vacant none none := by
  obtain ⟨hlt, hr⟩ := h.held_live t rfl
  have hout : t ∉ l := fun hmem => ((h.mem t).mp hmem).2.2 rfl
  refine ⟨h.all.link hout, ?_, nofun, h.retired_lt, nofun, h.vacant⟩
  intro u
  rw [List.mem_cons, h.mem u]
  by_cases hut : u = t
  · simp [hut, hlt, hr]
  · have hne : t ≠ u := fun heq => hut heq.symm
    simp [hut, hne]

/-- The held task is retired. -/
theorem retire (h : Places all l fresh retired vacant (some t) none) :
    Places all l fresh (Function.update retired t true) vacant none (some t) := by
  obtain ⟨hlt, hr⟩ := h.held_live t rfl
  refine ⟨h.all, ?_, nofun, ?_, ?_, ?_⟩
  · intro u
    rw [h.mem u]
    by_cases hut : u = t
    · simp [hut]
    · have hne : t ≠ u := fun heq => hut heq.symm
      simp [hut, hne]
  · intro u hu
    by_cases hut : u = t
    · omega
    · exact h.retired_lt u (by simpa [hut] using hu)
  · intro u hu
    cases hu
    simp
  · intro u hu
    have hvac := h.vacant u hu
    by_cases hut : u = t
    · simpa [hut, hr] using hvac
    · have hne : t ≠ u := fun heq => hut heq.symm
      simpa [hut, hne] using hvac

/-- The future of the retired task is gone. -/
theorem dropFuture (h : Places all l fresh retired vacant none (some t)) :
    Places all l fresh retired (Function.update vacant t true) none none := by
  have hr := h.dropping_retired t rfl
  refine ⟨h.all, h.mem, nofun, h.retired_lt, nofun, ?_⟩
  intro u hu
  by_cases hut : u = t
  · simp [hut, hr]
  · have hne : t ≠ u := fun heq => hut heq.symm
    simpa [hut, hne] using h.vacant u hu

end Places

/-! ## The threads -/

/-- Who is inside which shared call. -/
structure Calls (threads : ℕ → Thread) (producers : ℕ → EnqueuePc) (pushing holders : Finset ℕ)
    (fresh : ℕ) (owner : Owner O W) : Prop where
  producer : ∀ i t, (producers i).node = some (.task t) →
    threads i = .push t ∨ threads i = .wake t .enqueue
  busy : ∀ i, producers i ≠ .idle → ∃ t, (producers i).node = some (.task t)
  task_lt : ∀ i t, (threads i = .push t ∨ ∃ pc, threads i = .wake t pc) → t < fresh
  mem_pushing : ∀ i, i ∈ pushing ↔ ∃ t, threads i = .push t
  mem_holders : ∀ i, i ∈ holders ↔ ∃ t pc, threads i = .wake t pc
  exclusive : owner.isIdle = false → pushing = ∅
  released : owner.released = true → holders = ∅

namespace Calls

variable {threads : ℕ → Thread} {producers : ℕ → EnqueuePc} {pushing holders : Finset ℕ}
  {fresh i t : ℕ} {owner owner' : Owner O W}

/-- A thread that is not inside an `enqueue` of the queue. -/
theorem producer_idle (h : Calls threads producers pushing holders fresh owner)
    (hp : ∀ t, threads i ≠ .push t) (hw : ∀ t, threads i ≠ .wake t .enqueue) :
    producers i = .idle := by
  by_contra hne
  obtain ⟨t, ht⟩ := h.busy i hne
  rcases h.producer i t ht with hth | hth
  · exact hp t hth
  · exact hw t hth

/-- The exclusive call moves on. -/
theorem setOwner (h : Calls threads producers pushing holders fresh owner)
    (hidle : owner'.isIdle = false → pushing = ∅) (hrel : owner'.released = true → holders = ∅) :
    Calls threads producers pushing holders fresh owner' :=
  ⟨h.producer, h.busy, h.task_lt, h.mem_pushing, h.mem_holders, hidle, hrel⟩

/-- `push` on thread `i`. -/
theorem push (h : Calls threads producers pushing holders fresh owner)
    (hi : threads i = .idle) (ho : owner.isIdle = true) :
    Calls (Function.update threads i (.push fresh))
      (Function.update producers i (.clear (.task fresh))) (insert i pushing) holders (fresh + 1)
      owner := by
  refine ⟨?_, ?_, ?_, ?_, ?_, ?_, h.released⟩
  · intro j t hj
    by_cases hji : j = i
    · subst hji
      simp only [Function.update_self, EnqueuePc.node, Option.some.injEq,
        ReadyToRunQueue.Node.task.injEq] at hj
      simp [hj]
    · simpa [hji] using h.producer j t (by simpa [hji] using hj)
  · intro j hj
    by_cases hji : j = i
    · exact ⟨fresh, by simp [hji, EnqueuePc.node]⟩
    · simpa [hji] using h.busy j (by simpa [hji] using hj)
  · intro j t hj
    by_cases hji : j = i
    · simp only [hji, Function.update_self, Thread.push.injEq, reduceCtorEq, exists_false,
        or_false] at hj
      omega
    · have hlt := h.task_lt j t (by simpa [hji] using hj)
      omega
  · intro j
    by_cases hji : j = i
    · simp [hji]
    · simpa [hji] using h.mem_pushing j
  · intro j
    by_cases hji : j = i
    · simpa [hji, hi] using h.mem_holders i
    · simpa [hji] using h.mem_holders j
  · intro hne
    rw [ho] at hne
    cases hne

/-- The next step of the enqueue of thread `i`. -/
theorem produce (h : Calls threads producers pushing holders fresh owner) {e : EnqueuePc}
    (he : e = .idle ∨ e.node = (producers i).node) :
    Calls threads (Function.update producers i e) pushing holders fresh owner := by
  refine ⟨?_, ?_, h.task_lt, h.mem_pushing, h.mem_holders, h.exclusive, h.released⟩
  · intro j t hj
    by_cases hji : j = i
    · subst hji
      rw [Function.update_self] at hj
      rcases he with rfl | he
      · cases hj
      · exact h.producer j t (he ▸ hj)
    · exact h.producer j t (by simpa [hji] using hj)
  · intro j hj
    by_cases hji : j = i
    · subst hji
      rw [Function.update_self] at hj ⊢
      rcases he with rfl | he
      · exact absurd rfl hj
      · rw [he]
        apply h.busy j
        intro hidle
        rw [hidle] at he
        cases e with
        | idle => exact hj rfl
        | _ => cases he
    · simpa [hji] using h.busy j (by simpa [hji] using hj)

/-- `push` on thread `i` returns. -/
theorem endPush (h : Calls threads producers pushing holders fresh owner)
    (hp : producers i = .idle) (hi : threads i = .push t) :
    Calls (Function.update threads i .idle) producers (pushing.erase i) holders fresh owner := by
  refine ⟨?_, h.busy, ?_, ?_, ?_, ?_, h.released⟩
  · intro j u hj
    have hji : j ≠ i := by
      rintro rfl
      rw [hp] at hj
      cases hj
    simpa [hji] using h.producer j u hj
  · intro j u hj
    by_cases hji : j = i
    · simp [hji] at hj
    · exact h.task_lt j u (by simpa [hji] using hj)
  · intro j
    by_cases hji : j = i
    · simp [hji]
    · simpa [hji] using h.mem_pushing j
  · intro j
    by_cases hji : j = i
    · simpa [hji, hi] using h.mem_holders i
    · simpa [hji] using h.mem_holders j
  · intro hne
    simp [h.exclusive hne]

/-- `upgrade` on thread `i`. -/
theorem upgrade (h : Calls threads producers pushing holders fresh owner)
    (hi : threads i = .idle) (ht : t < fresh) (ho : owner.released = false) :
    Calls (Function.update threads i (.wake t .storeWoken)) producers pushing (insert i holders)
      fresh owner := by
  refine ⟨?_, h.busy, ?_, ?_, ?_, h.exclusive, ?_⟩
  · intro j u hj
    have hji : j ≠ i := by
      rintro rfl
      rcases h.producer j u hj with hth | hth
      · rw [hi] at hth; cases hth
      · rw [hi] at hth; cases hth
    simpa [hji] using h.producer j u hj
  · intro j u hj
    by_cases hji : j = i
    · simp only [hji, Function.update_self, reduceCtorEq, Thread.wake.injEq, exists_and_left,
        exists_eq', and_true, false_or] at hj
      omega
    · exact h.task_lt j u (by simpa [hji] using hj)
  · intro j
    by_cases hji : j = i
    · simpa [hji, hi] using h.mem_pushing i
    · simpa [hji] using h.mem_pushing j
  · intro j
    by_cases hji : j = i
    · simp [hji]
    · simpa [hji] using h.mem_holders j
  · intro hrel
    rw [ho] at hrel
    cases hrel

/-- A wake that is in no enqueue moves to another place outside the enqueue. -/
theorem moveWake (h : Calls threads producers pushing holders fresh owner) {pc pc' : WakePc}
    (hi : threads i = .wake t pc) (hp : producers i = .idle) :
    Calls (Function.update threads i (.wake t pc')) producers pushing holders fresh owner := by
  refine ⟨?_, h.busy, ?_, ?_, ?_, h.exclusive, h.released⟩
  · intro j u hj
    have hji : j ≠ i := by
      rintro rfl
      rw [hp] at hj
      cases hj
    simpa [hji] using h.producer j u hj
  · intro j u hj
    by_cases hji : j = i
    · have hut : t = u := by simpa [hji] using hj
      exact hut ▸ h.task_lt i t (Or.inr ⟨pc, hi⟩)
    · exact h.task_lt j u (by simpa [hji] using hj)
  · intro j
    by_cases hji : j = i
    · simpa [hji, hi] using h.mem_pushing i
    · simpa [hji] using h.mem_pushing j
  · intro j
    by_cases hji : j = i
    · simpa [hji, hi] using h.mem_holders i
    · simpa [hji] using h.mem_holders j

/-- A wake begins its enqueue. -/
theorem beginEnqueue (h : Calls threads producers pushing holders fresh owner)
    (hi : threads i = .wake t .swapQueued) :
    Calls (Function.update threads i (.wake t .enqueue))
      (Function.update producers i (.clear (.task t))) pushing holders fresh owner := by
  refine ⟨?_, ?_, ?_, ?_, ?_, h.exclusive, h.released⟩
  · intro j u hj
    by_cases hji : j = i
    · subst hji
      simp only [Function.update_self, EnqueuePc.node, Option.some.injEq,
        ReadyToRunQueue.Node.task.injEq] at hj
      simp [hj]
    · simpa [hji] using h.producer j u (by simpa [hji] using hj)
  · intro j hj
    by_cases hji : j = i
    · exact ⟨t, by simp [hji, EnqueuePc.node]⟩
    · simpa [hji] using h.busy j (by simpa [hji] using hj)
  · intro j u hj
    by_cases hji : j = i
    · have hut : t = u := by simpa [hji] using hj
      exact hut ▸ h.task_lt i t (Or.inr ⟨_, hi⟩)
    · exact h.task_lt j u (by simpa [hji] using hj)
  · intro j
    by_cases hji : j = i
    · simpa [hji, hi] using h.mem_pushing i
    · simpa [hji] using h.mem_pushing j
  · intro j
    by_cases hji : j = i
    · simpa [hji, hi] using h.mem_holders i
    · simpa [hji] using h.mem_holders j

/-- A wake returns. -/
theorem endWake (h : Calls threads producers pushing holders fresh owner)
    (hi : threads i = .wake t .dropInner) :
    Calls (Function.update threads i .idle) producers pushing (holders.erase i) fresh owner := by
  have hp : producers i = .idle := by
    apply h.producer_idle
    · intro u hu; rw [hi] at hu; cases hu
    · intro u hu; rw [hi] at hu; cases hu
  refine ⟨?_, h.busy, ?_, ?_, ?_, h.exclusive, ?_⟩
  · intro j u hj
    have hji : j ≠ i := by
      rintro rfl
      rw [hp] at hj
      cases hj
    simpa [hji] using h.producer j u hj
  · intro j u hj
    by_cases hji : j = i
    · simp [hji] at hj
    · exact h.task_lt j u (by simpa [hji] using hj)
  · intro j
    by_cases hji : j = i
    · simpa [hji, hi] using h.mem_pushing i
    · simpa [hji] using h.mem_pushing j
  · intro j
    by_cases hji : j = i
    · simp [hji]
    · simpa [hji] using h.mem_holders j
  · intro hrel
    simp [h.released hrel]

end Calls

end TokioStreamUtil.FuturesUnordered
