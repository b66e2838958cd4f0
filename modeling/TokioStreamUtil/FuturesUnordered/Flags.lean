/-
The `queued` flag and the ready to run queue.

`Flags` says what the flag of each task means, in terms of the queue alone: it
is up exactly when the task is in the hands of the queue (`enqueued`), has just
been taken out of it (`taken`), or has been retired. Each way in which
`FuturesUnordered` touches a flag or the queue has one lemma that says it keeps
`Flags`; the calls those ways belong to come in `Invariant.lean`.
-/
import TokioStreamUtil.FuturesUnordered.ReadyToRunQueueLinks

set_option autoImplicit false

namespace TokioStreamUtil

namespace ReadyToRunQueue

/-- The task a finished `dequeue` call has returned. -/
def DequeuePc.data : DequeuePc → Option ℕ
  | .done (.Data (.task t)) => some t
  | _ => none

theorem data_of_running {pc : DequeuePc} (h : pc.running = true) : pc.data = none := by
  cases pc with
  | done d => cases h
  | _ => rfl

/-- What a step of `dequeue` does to the tasks in the queue: it returns one of
them, or leaves them as they are. -/
theorem consume_enqueued {s : Sys ℕ} (h : s.Inv) (hrun : s.consumer.running = true) :
    (s.consume.consumer.data = none ∧ s.consume.enqueued = s.enqueued) ∨
    ∃ t, s.consume.consumer = .done (.Data (.task t)) ∧ s.enqueued t = true ∧
      s.consume.enqueued = Function.update s.enqueued t false := by
  have hcases := Sys.consume_cases h hrun
  generalize s.consume = s' at hcases ⊢
  cases hcases with
  | data hc hw ht hn hch hl =>
      refine Or.inr ⟨_, rfl, ?_, rfl⟩
      rw [h.flag]
      exact Or.inl (by simp [hch])
  | stub hc =>
      refine Or.inl ⟨?_, rfl⟩
      dsimp only
      split <;> rfl
  | _ => exact Or.inl ⟨rfl, rfl⟩

/-- A step of a `dequeue` call does not make it idle. -/
theorem consume_consumer_ne_idle {s : Sys ℕ} (h : s.Inv) (hrun : s.consumer.running = true) :
    s.consume.consumer ≠ .idle := by
  have hcases := Sys.consume_cases h hrun
  generalize s.consume = s' at hcases ⊢
  cases hcases with
  | stub hc =>
      dsimp only
      split <;> simp
  | _ => simp

end ReadyToRunQueue

open ReadyToRunQueue (Sys)

namespace FuturesUnordered

/-- The meaning of the flags. `taken` is the task that has left the queue with
its flag still up. -/
structure Flags (q : Sys ℕ) (fresh : ℕ) (queued retired : ℕ → Bool) (taken : Option ℕ) :
    Prop where
  ready : q.Inv
  enqueued_lt : ∀ t, q.enqueued t = true → t < fresh
  taken_out : ∀ t, taken = some t → t < fresh ∧ q.enqueued t = false
  flag : ∀ t, t < fresh →
    (queued t = true ↔ q.enqueued t = true ∨ taken = some t ∨ retired t = true)

namespace Flags

variable {q : Sys ℕ} {fresh : ℕ} {queued retired : ℕ → Bool} {taken : Option ℕ} {i t : ℕ}

/-- A task whose flag is down is nowhere near the queue. -/
theorem of_queued_false (h : Flags q fresh queued retired taken) (ht : t < fresh)
    (hq : queued t = false) :
    q.enqueued t = false ∧ taken ≠ some t ∧ retired t = false := by
  have hflag := h.flag t ht
  rw [hq] at hflag
  have hnot := not_or.mp (fun hor => Bool.false_ne_true (hflag.mpr hor))
  refine ⟨by simpa using hnot.1, ?_, ?_⟩
  · exact fun htaken => hnot.2 (Or.inl htaken)
  · by_contra hret
    exact hnot.2 (Or.inr (by simpa using hret))

/-- `push`: a new task starts with its flag up and its enqueue begun. -/
theorem push (h : Flags q fresh queued retired taken) (hi : q.producers i = .idle) :
    Flags (q.beginEnqueue i fresh) (fresh + 1) (Function.update queued fresh true) retired
      taken := by
  have hnew : q.enqueued fresh = false := by
    by_contra hne
    have hlt := h.enqueued_lt fresh (by simpa using hne)
    omega
  refine ⟨h.ready.beginEnqueue hi hnew, ?_, ?_, ?_⟩
  · intro t ht
    by_cases htf : t = fresh
    · omega
    · have hlt := h.enqueued_lt t (by simpa [Sys.beginEnqueue, htf] using ht)
      omega
  · intro t ht
    obtain ⟨hlt, hout⟩ := h.taken_out t ht
    have htf : t ≠ fresh := by omega
    exact ⟨by omega, by simpa [Sys.beginEnqueue, htf] using hout⟩
  · intro t ht
    by_cases htf : t = fresh
    · simp [Sys.beginEnqueue, htf]
    · simpa [Sys.beginEnqueue, htf] using h.flag t (by omega)

/-- The steps of an enqueue in progress change no flag. -/
theorem produce (h : Flags q fresh queued retired taken) (i : ℕ) :
    Flags (q.produce i) fresh queued retired taken :=
  ⟨h.ready.produce i, h.enqueued_lt, h.taken_out, h.flag⟩

/-- A wake that finds the flag down puts it up and begins an enqueue. -/
theorem swap (h : Flags q fresh queued retired taken) (hi : q.producers i = .idle)
    (ht : t < fresh) (hq : queued t = false) :
    Flags (q.beginEnqueue i t) fresh (Function.update queued t true) retired taken := by
  obtain ⟨hout, htaken, hret⟩ := h.of_queued_false ht hq
  refine ⟨h.ready.beginEnqueue hi hout, ?_, ?_, ?_⟩
  · intro u hu
    by_cases hut : u = t
    · omega
    · exact h.enqueued_lt u (by simpa [Sys.beginEnqueue, hut] using hu)
  · intro u hu
    have hut : u ≠ t := by rintro rfl; exact htaken hu
    obtain ⟨hlt, hout'⟩ := h.taken_out u hu
    exact ⟨hlt, by simpa [Sys.beginEnqueue, hut] using hout'⟩
  · intro u hu
    by_cases hut : u = t
    · simp [Sys.beginEnqueue, hut]
    · simpa [Sys.beginEnqueue, hut] using h.flag u hu

theorem beginDequeue (h : Flags q fresh queued retired taken) (hc : q.consumer = .idle) :
    Flags q.beginDequeue fresh queued retired taken :=
  ⟨h.ready.beginDequeue hc, h.enqueued_lt, h.taken_out, h.flag⟩

theorem endDequeue (h : Flags q fresh queued retired taken) {d : ReadyToRunQueue.Dequeue}
    (hc : q.consumer = .done d) : Flags q.endDequeue fresh queued retired taken :=
  ⟨h.ready.endDequeue hc, h.enqueued_lt, h.taken_out, h.flag⟩

/-- A step of `dequeue`: a task it returns becomes the taken one. -/
theorem consume (h : Flags q fresh queued retired none) (hrun : q.consumer.running = true) :
    Flags q.consume fresh queued retired q.consume.consumer.data := by
  have hinv := h.ready.consume hrun
  rcases ReadyToRunQueue.consume_enqueued h.ready hrun with ⟨hdata, henq⟩ | ⟨t, hdata, ht, henq⟩
  · rw [hdata]
    exact ⟨hinv, by rw [henq]; exact h.enqueued_lt, nofun,
      by rw [henq]; exact h.flag⟩
  · have htlt := h.enqueued_lt t ht
    have hsome : q.consume.consumer.data = some t := by rw [hdata]; rfl
    rw [hsome]
    refine ⟨hinv, ?_, ?_, ?_⟩
    · intro u hu
      by_cases hut : u = t
      · omega
      · exact h.enqueued_lt u (by simpa [henq, hut] using hu)
    · intro u hu
      cases hu
      exact ⟨htlt, by simp [henq]⟩
    · intro u hu
      by_cases hut : u = t
      · have hflag := (h.flag t htlt).mpr (Or.inl ht)
        simp [hut, hflag]
      · have hne : t ≠ u := fun heq => hut heq.symm
        simpa [henq, hut, hne] using h.flag u hu

/-- `queued.swap(false)` on the taken task. -/
theorem reset (h : Flags q fresh queued retired (some t)) (hret : retired t = false) :
    Flags q fresh (Function.update queued t false) retired none := by
  obtain ⟨hlt, hout⟩ := h.taken_out t rfl
  refine ⟨h.ready, h.enqueued_lt, nofun, ?_⟩
  intro u hu
  by_cases hut : u = t
  · simp [hut, hout, hret]
  · have hne : t ≠ u := fun heq => hut heq.symm
    simpa [hut, hne] using h.flag u hu

/-- `release_task` puts the flag up for good. -/
theorem retire (h : Flags q fresh queued retired taken) (t : ℕ) :
    Flags q fresh (Function.update queued t true) (Function.update retired t true) taken := by
  refine ⟨h.ready, h.enqueued_lt, h.taken_out, ?_⟩
  intro u hu
  by_cases hut : u = t
  · simp [hut]
  · simpa [hut] using h.flag u hu

/-- A retired task that has left the queue need not be kept track of. -/
theorem forget (h : Flags q fresh queued retired taken)
    (hret : ∀ t, taken = some t → retired t = true) : Flags q fresh queued retired none := by
  refine ⟨h.ready, h.enqueued_lt, nofun, ?_⟩
  intro u hu
  rw [h.flag u hu]
  constructor
  · rintro (henq | htaken | hr)
    · exact Or.inl henq
    · exact Or.inr (Or.inr (hret u htaken))
    · exact Or.inr (Or.inr hr)
  · rintro (henq | htaken | hr)
    · exact Or.inl henq
    · cases htaken
    · exact Or.inr (Or.inr hr)

end Flags

end FuturesUnordered

end TokioStreamUtil
