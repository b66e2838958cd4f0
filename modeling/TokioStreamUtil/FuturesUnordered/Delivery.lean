/-
What a `FuturesUnordered` delivers.

The tasks of a set are numbered in the order of their pushes, so a list of the futures
given to it says which future every task holds. A future agrees with the outputs that it
may come to; the outputs that the set has handed out are then those of different futures
of the list, and of all of them once the set is empty.
-/
import TokioStreamUtil.FuturesUnordered.Sound

set_option autoImplicit false

namespace TokioStreamUtil.FuturesUnordered

variable {F O W : Type} {A : AtomicWaker W} {s s' : State F O W A}

/-! ## Outputs of different futures -/

theorem filterMap_getElem?_range {α : Type} (xs : List α) :
    (List.range xs.length).filterMap (fun i => xs[i]?) = xs := by
  induction xs using List.reverseRecOn with
  | nil => rfl
  | append_singleton xs x ih =>
      rw [List.length_append, List.length_singleton, List.range_succ, List.filterMap_append]
      have hinit : (List.range xs.length).filterMap (fun i => (xs ++ [x])[i]?) =
          (List.range xs.length).filterMap fun i => xs[i]? := by
        apply List.filterMap_congr
        intro i hi
        rw [List.getElem?_append_left (List.mem_range.mp hi)]
      rw [hinit, ih]
      simp

/-- Values at different places of a list belong to some of its elements, each of them at
most once. -/
theorem exists_subperm_forall₂ {α β : Type} {R : α → β → Prop} {xs : List α} {ps : List (ℕ × β)}
    (hnodup : (ps.map Prod.fst).Nodup) (h : ∀ p ∈ ps, ∃ x, xs[p.1]? = some x ∧ R x p.2) :
    ∃ ys, ys.Subperm xs ∧ List.Forall₂ R ys (ps.map Prod.snd) := by
  refine ⟨(ps.map Prod.fst).filterMap (fun i => xs[i]?), ?_, ?_⟩
  · have hsub : ps.map Prod.fst ⊆ List.range xs.length := by
      intro i hi
      obtain ⟨p, hp, rfl⟩ := List.mem_map.mp hi
      obtain ⟨x, hx, -⟩ := h p hp
      exact List.mem_range.mpr (List.getElem?_eq_some_iff.mp hx).1
    obtain ⟨is, hperm, hsublist⟩ := List.subperm_of_subset hnodup hsub
    refine ⟨is.filterMap (fun i => xs[i]?), hperm.filterMap _, ?_⟩
    have hfilter := hsublist.filterMap (fun i => xs[i]?)
    rwa [filterMap_getElem?_range] at hfilter
  · clear hnodup
    induction ps with
    | nil => exact .nil
    | cons p ps ih =>
        obtain ⟨x, hx, hR⟩ := h p List.mem_cons_self
        rw [List.map_cons, List.map_cons, List.filterMap_cons_some hx]
        exact .cons hR (ih fun p hp => h p (List.mem_cons_of_mem _ hp))

/-! ## What a future may come to -/

/-- The answer of a future that agrees with the outputs in `Agrees`: none of them is lost
on the way, the output is one of them, and it does not unwind. -/
def Polled.Honest (Agrees : F → O → Prop) (fut : F) : Polled F O → Prop
  | .pending fut' => ∀ o, Agrees fut' o → Agrees fut o
  | .ready o => Agrees fut o
  | .unwind => False

variable {Agrees : F → O → Prop} {futs : List F} {outs : List O}

/-- The set was given the futures `futs`, and has handed out `outs`. -/
structure State.Delivery (Agrees : F → O → Prop) (futs : List F) (outs : List O)
    (s : State F O W A) : Prop where
  sound : s.Sound
  fresh : s.fresh = futs.length
  outputs : s.hist.outputs = outs
  kept : s.hist.discarded = []
  calm : s.owner.result ≠ some .unwound
  waiting : ∀ t fut, (s.tasks t).future = some fut →
    ∃ fut₀, futs[t]? = some fut₀ ∧ ∀ o, Agrees fut o → Agrees fut₀ o
  completed : ∀ p ∈ s.hist.completed, ∃ fut₀, futs[p.1]? = some fut₀ ∧ Agrees fut₀ p.2

namespace State.Delivery

theorem new : (State.new : State F O W A).Delivery Agrees [] [] :=
  ⟨.new, rfl, rfl, rfl, nofun, nofun, nofun⟩

theorem push (h : s.Delivery Agrees futs outs) {i : ℕ} (fut : F) (hi : s.threads i = .idle)
    (ho : s.owner = .idle) : (s.push i fut).Delivery Agrees (futs ++ [fut]) outs := by
  have hmore : ∀ {t : ℕ} {fut₀ : F}, futs[t]? = some fut₀ → (futs ++ [fut])[t]? = some fut₀ := by
    intro t fut₀ ht
    rw [List.getElem?_append_left (List.getElem?_eq_some_iff.mp ht).1]
    exact ht
  refine ⟨h.sound.move (.push fut hi ho) nofun, ?_, h.outputs, h.kept, h.calm, ?_, ?_⟩
  · rw [List.length_append, List.length_singleton, ← h.fresh]
    rfl
  · intro t x hx
    by_cases htf : t = s.fresh
    · have hxf : fut = x := by simpa [State.push, htf] using hx
      refine ⟨fut, ?_, fun o ho => by rwa [hxf]⟩
      rw [htf, h.fresh, List.getElem?_concat_length]
    · have hold : (s.tasks t).future = some x := by simpa [State.push, htf] using hx
      exact (h.waiting t x hold).imp fun _ h₀ => ⟨hmore h₀.1, h₀.2⟩
  · intro p hp
    exact (h.completed p hp).imp fun _ h₀ => ⟨hmore h₀.1, h₀.2⟩

theorem poll_next (h : s.Delivery Agrees futs outs) (w : W) (ho : s.owner = .idle)
    (hp : s.pushing = ∅) : (s.poll_next w).Delivery Agrees futs outs :=
  ⟨h.sound.move (.poll_next w ho hp) nofun, h.fresh, h.outputs, h.kept, nofun, h.waiting,
    h.completed⟩

/-- What has been handed out is part of what has completed. -/
theorem handed (h : s.Delivery Agrees futs outs) :
    outs ++ s.owner.carrying = s.hist.completed.map Prod.snd := by
  rw [← h.outputs]
  exact h.sound.ledger.handed

/-- The machinery of the set delivers nothing. -/
theorem inner (h : s.Delivery Agrees futs outs) {a : Act F O W} (ha : a.inner = true)
    (hm : Move s a s') : s'.Delivery Agrees futs outs := by
  have hframe := frame_move hm ha
  have hsound : s'.Sound := h.sound.move hm (by rintro rfl; cases ha)
  refine ⟨hsound, hframe.fresh.trans h.fresh, ?_, hframe.discarded.trans h.kept,
    hframe.unwound h.calm, fun t fut hf => h.waiting t fut (hframe.future t fut hf), ?_⟩
  · have hhanded := hsound.ledger.handed
    rw [hframe.completed, hframe.carrying, ← h.handed] at hhanded
    exact List.append_cancel_right hhanded
  · rw [hframe.completed]
    exact h.completed

/-- The future that is polled answers. -/
theorem polled (h : s.Delivery Agrees futs outs) {lv : Locals W} {t : ℕ} {fut : F}
    (ho : s.owner = .poll lv (.poll t)) (hf : (s.tasks t).future = some fut) {r : Polled F O}
    (hr : r.Honest Agrees fut) : (s.polled lv t r).Delivery Agrees futs outs := by
  have hsound := h.sound.move (.polled r ho) nofun
  obtain ⟨fut₀, hfut₀, hagrees⟩ := h.waiting t fut hf
  cases r with
  | pending fut' =>
      refine ⟨hsound, h.fresh, h.outputs, h.kept, nofun, ?_, h.completed⟩
      intro u x hx
      by_cases hut : u = t
      · have hxf : fut' = x := by simpa [State.polled, State.setTask, State.setOwner, hut] using hx
        refine ⟨fut₀, by rw [hut, hfut₀], fun o ho => hagrees o (hr o ?_)⟩
        rw [hxf]
        exact ho
      · refine h.waiting u x ?_
        simpa [State.polled, State.setTask, State.setOwner, hut] using hx
  | ready o =>
      refine ⟨hsound, h.fresh, h.outputs, h.kept, nofun, h.waiting, ?_⟩
      intro p hp
      rcases List.mem_append.mp hp with hold | hnew
      · exact h.completed p hold
      · rw [List.mem_singleton.mp hnew]
        exact ⟨fut₀, hfut₀, hagrees o hr⟩
  | unwind => exact hr.elim

/-- `poll_next` returns. -/
theorem ret (h : s.Delivery Agrees futs outs) {lv : Locals W} {r : PollNext O}
    (ho : s.owner = .poll lv (.done r)) :
    (s.ret lv r).Delivery Agrees futs (outs ++ State.outputOf r) := by
  refine ⟨h.sound.move (.ret ho) nofun, h.fresh, ?_, h.kept, nofun, h.waiting, h.completed⟩
  rw [← h.outputs]
  rfl

theorem not_unwound (h : s.Delivery Agrees futs outs) {lv : Locals W} {r : PollNext O}
    (ho : s.owner = .poll lv (.done r)) : r ≠ .unwound := by
  rintro rfl
  have hcalm := h.calm
  rw [ho] at hcalm
  exact hcalm rfl

/-- Between calls the set holds the futures that it has not handed an output out of. -/
theorem len_eq (h : s.Delivery Agrees futs outs) (ho : s.owner = .idle) :
    s.len + outs.length = futs.length := by
  have hlen := h.sound.len_eq ho
  have hhanded := congrArg List.length h.handed
  have hcarry : s.owner.carrying = [] := by rw [ho]; rfl
  have hbound := h.sound.bound
  rw [hcarry, List.append_nil, List.length_map] at hhanded
  unfold State.unfinished at hlen
  rw [h.kept, List.length_nil, Nat.add_zero] at hlen hbound
  rw [← h.fresh]
  omega

/-- `Ready(None)` comes when everything has been handed out. -/
theorem of_none (h : s.Delivery Agrees futs outs) {lv : Locals W}
    (ho : s.owner = .poll lv (.done (.ready none))) : outs.length = futs.length := by
  have hempty : s.is_empty = true := h.sound.ledger.ended (by rw [ho]; rfl)
  have hafter := h.ret ho
  have hlen := hafter.len_eq rfl
  have hnil : (s.ret lv (.ready none)).len = 0 := h.sound.is_empty_iff.mp hempty
  rw [hnil, Nat.zero_add, List.length_append] at hlen
  exact hlen

/-- **Each output is that of another future.** -/
theorem delivered (h : s.Delivery Agrees futs outs) :
    ∃ futs', futs'.Subperm futs ∧ List.Forall₂ Agrees futs' outs := by
  have hnodup := (List.nodup_append.mp h.sound.ledger.nodup).1
  obtain ⟨futs', hsub, hall⟩ := exists_subperm_forall₂ hnodup h.completed
  rw [← h.handed] at hall
  refine ⟨futs'.take outs.length, (List.take_sublist _ _).subperm.trans hsub, ?_⟩
  exact List.forall₂_take_append futs' outs _ hall

end State.Delivery

end TokioStreamUtil.FuturesUnordered
