/-
# What the worker does to the memory of events

A run in memory in which only events that are not pending are dispatched and written to is a
run of `WorkerSys` (`Represents.step`), and every run of `WorkerSys` is one of memory
(`Represents.realize`): the worker passes through the same places with the same counters and
calls the same handlers on the same fields (`run_iff`).  So what is proved about the lists of
`WorkerSys` is true of the links.

What the links say is `linked_iff_pending`: the six heads are those of six disjoint rings, and
the nodes on them are those of the pending events.  And the worker looks at no other event:
from the call of its handler on an event may be freed, initialised again or given to another
worker, and the worker's steps are the same, before or after (`work_write`).
-/

import EdpIo.Worker.Linked

namespace EdpIo
namespace CellSys

/-! ### The start -/

theorem initHeads_rings (l : Links WorkAddr) :
    (initHeads l).Rings head fun _ => [] where
  ring i := by
    rw [Links.isRing_nil]
    cases i with
    | none => simp [initHeads, initListHead, head]
    | some p => cases p <;> simp [initHeads, initListHead, head]
  apart i j hij := by
    cases i <;> cases j <;> simp_all [head, eq_comm]

theorem represents_init (l : Links WorkAddr) (mem : ℕ → EdpEvent) :
    Represents (init l mem) WorkerSys.init where
  regs := rfl
  rings := by
    have hlists : lists WorkerSys.init.worker = fun _ => [] := by
      funext i
      cases i <;> rfl
    rw [hlists]
    exact initHeads_rings l
  mem := by simp [WorkerSys.init, Worker.held, Worker.start]
  addr _ := rfl
  cursor := trivial
  signalling := rfl
  hist := rfl
  queued _ := rfl

/-! ### Both ways -/

section Both

variable {c c' : CellSys} {s t : WorkerSys}

/-- Before a step that is seen the worker takes at most one that is not. -/
theorem Represents.seen_work (hr : Represents c s) :
    ∃ acts c', StepSystem.run CellSys.step c acts = some c' ∧
      StepSystem.Meets CellSys.step Owned c acts ∧ Represents c' s ∧ c'.seen .work = [.work] := by
  by_cases hseen : c.seen .work = [.work]
  · exact ⟨[], c, rfl, trivial, hr, hseen⟩
  · -- the cursors are set, or advanced
    have hplace : ∃ p, c.regs.pc = .loop p ∧ c.turn ≠ .test := by
      dsimp only [seen] at hseen
      split at hseen
      · rename_i p hpc hturn
        exact ⟨p, hpc, by simp [hturn]⟩
      · rename_i p hpc hturn
        exact ⟨p, hpc, by simp [hturn]⟩
      · exact absurd rfl hseen
    obtain ⟨p, hpc, hturn⟩ := hplace
    have hstep : ∃ c', c.workStep = some c' ∧ c'.regs.pc = .loop p ∧ c'.turn = .test := by
      unfold workStep loopStep
      rw [hpc]
      cases ht : c.turn with
      | first | body => exact ⟨_, rfl, hpc, rfl⟩
      | test => exact absurd ht hturn
    obtain ⟨c', hc', hpc', hturn'⟩ := hstep
    have hstutter := hr.loop hpc (by simpa only [workStep, hpc] using hc')
    rw [if_neg hturn] at hstutter
    obtain ⟨t, ht, -, hr'⟩ := hstutter
    obtain rfl := Option.some.inj ht
    have hown : c.Owned .work := trivial
    refine ⟨[.work], c', StepSystem.run_cons.2 ⟨c', hc', rfl⟩, .one hown hc', hr', ?_⟩
    simp only [seen, hpc', hturn']

/-- **A step of `WorkerSys` is a run in memory.**  Before a dispatch the owner writes the
event. -/
theorem Represents.realize {act : WorkerSys.Act} (hr : Represents c s) (hC : s.NotPending act)
    (h : WorkerSys.step s act = some t) :
    ∃ acts c', StepSystem.run CellSys.step c acts = some c' ∧
      StepSystem.Meets CellSys.step Owned c acts ∧ Represents c' t := by
  -- a step of memory that is seen as `act` leads where `act` leads
  have hone : ∀ {c c' : CellSys} (a : Act), Represents c s → c.Owned a → c.seen a = [act] →
      CellSys.step c a = some c' → Represents c' t := by
    intro c c' a hr hC hseen hstep
    have hf := hr.step hC hstep
    rw [hseen] at hf
    exact hf.represents h
  cases act with
  | work =>
    obtain ⟨acts, c₁, hrun, hmeets, hr₁, hseen⟩ := hr.seen_work
    have hn : s.worker.next ≠ none := by
      obtain ⟨r, hr, -⟩ := Option.map_eq_some_iff.1 h
      simp [hr]
    obtain ⟨c₂, hc₂⟩ := Option.ne_none_iff_exists'.1 (hr₁.workStep_ne_none hn)
    have hown : c₁.Owned .work := trivial
    have hc₂ : CellSys.step c₁ .work = some c₂ := hc₂
    refine ⟨acts ++ [.work], c₂, ?_, hmeets.append hrun (.one hown hc₂),
      hone .work hr₁ trivial hseen hc₂⟩
    rw [StepSystem.run_append hrun]
    exact StepSystem.run_cons.2 ⟨c₂, hc₂, rfl⟩
  | dispatch ev =>
    have hC' : queuedCount ev.addr c.hist = calledCount ev.addr c.hist := by
      rw [hr.hist]
      exact hC
    set c₁ := c.wrote ev.addr ev .events .events with hc₁
    have hw : Represents c₁ s := hr.write hC'
    have hmem : c₁.mem ev.addr = ev := by simp [hc₁, wrote]
    have hwrite : CellSys.step c (.write ev.addr ev .events .events) = some c₁ := rfl
    obtain ⟨c₂, hc₂⟩ : ∃ c₂, CellSys.step c₁ (.dispatch ev.addr) = some c₂ := by
      rw [CellSys.step]
      split <;> exact ⟨_, rfl⟩
    have hown : c₁.Owned (.dispatch ev.addr) := hC'
    refine ⟨[.write ev.addr ev .events .events, .dispatch ev.addr], c₂,
      StepSystem.run_cons.2 ⟨c₁, hwrite, StepSystem.run_cons.2 ⟨c₂, hc₂, rfl⟩⟩,
      .cons hC' hwrite (.one hown hc₂), hone (.dispatch _) hw hown ?_ hc₂⟩
    rw [seen, hmem]
  | signal ev =>
    have hev : ev ∈ c.signalling := by
      rw [hr.signalling]
      by_contra hev
      rw [WorkerSys.step, if_neg hev] at h
      cases h
    obtain ⟨c', hc'⟩ : ∃ c', CellSys.step c (.signal ev) = some c' := ⟨_, if_pos hev⟩
    have hown : c.Owned (.signal ev) := trivial
    exact ⟨[.signal ev], c', StepSystem.run_cons.2 ⟨c', hc', rfl⟩, .one hown hc',
      hone (.signal ev) hr trivial rfl hc'⟩
  | stop =>
    exact ⟨[.stop], _, rfl, ⟨trivial, trivial⟩, hone .stop hr trivial rfl rfl⟩

/-- Where a run in memory ends, a run of `WorkerSys` ends. -/
theorem represents_run {l : Links WorkAddr} {mem : ℕ → EdpEvent} {acts : List Act}
    (hC : StepSystem.Meets step Owned (init l mem) acts)
    (hrun : StepSystem.run step (init l mem) acts = some c) :
    ∃ as s, StepSystem.run WorkerSys.step WorkerSys.init as = some s ∧
      StepSystem.Meets WorkerSys.step WorkerSys.NotPending WorkerSys.init as ∧ Represents c s :=
  StepSystem.run_simulates_meets (R := Represents)
    (fun c _ _ _ hr hC h => ⟨c.seen _, hr.step hC h⟩) (represents_init l mem) hC hrun

end Both

/-- **The lists in memory are lists.**  Whatever is in memory at the start: the runs in which
only events that are not pending are dispatched and written to pass through the same places of
the worker, with the same counters, calls and returns, as the runs of `WorkerSys` in which
only such events are dispatched. -/
theorem run_iff (l : Links WorkAddr) (mem : ℕ → EdpEvent) (w : Worker) (hist : List Obs) :
    (∃ acts c, StepSystem.Meets step Owned (init l mem) acts ∧
      StepSystem.run step (init l mem) acts = some c ∧ c.regs = w ∧ c.hist = hist) ↔
    ∃ acts s, StepSystem.Meets WorkerSys.step WorkerSys.NotPending WorkerSys.init acts ∧
      StepSystem.run WorkerSys.step WorkerSys.init acts = some s ∧ s.worker.bare = w ∧
        s.hist = hist := by
  constructor
  · rintro ⟨acts, c, hC, hrun, rfl, rfl⟩
    obtain ⟨as, s, hrun', hC', hr⟩ := represents_run hC hrun
    exact ⟨as, s, hC', hrun', hr.regs.symm, hr.hist.symm⟩
  · rintro ⟨acts, s, hC, hrun, rfl, rfl⟩
    obtain ⟨as, c, hrun', hC', hr⟩ :=
      StepSystem.run_simulates_meets (R := fun s c => Represents c s)
        (fun _ _ _ _ hr hC h => hr.realize hC h) (represents_init l mem) hC hrun
    exact ⟨as, c, hC', hrun', hr.regs, hr.hist⟩

/-! ### Pending events -/

section Pending

variable {c c' : CellSys} {s : WorkerSys} {a : ℕ}

theorem Represents.pending_iff (hr : Represents c s) (ho : s.worker.places a ≤ 1) :
    c.Pending a ↔ 0 < s.worker.places a := by
  have hq := hr.queued a
  rw [← hr.hist] at hq
  unfold Pending
  omega

/-- An event has a place exactly when its node is on a list. -/
theorem places_pos_iff (w : Worker) : 0 < w.places a ↔ ∃ i, .node a ∈ lists w i := by
  constructor
  · intro h
    by_contra hno
    refine h.ne' ?_
    rw [Worker.places_eq, Multiset.countP_eq_zero]
    rintro ev hev rfl
    have hin : (∃ p, ev ∈ w.queue p) ∨ ev ∈ w.events := by
      simp only [Worker.held, Multiset.mem_add, Multiset.mem_coe] at hev
      rcases hev with ((((h | h) | h) | h) | h) | h
      · exact .inl ⟨_, h⟩
      · exact .inl ⟨_, h⟩
      · exact .inl ⟨_, h⟩
      · exact .inl ⟨_, h⟩
      · exact .inl ⟨_, h⟩
      · exact .inr h
    rcases hin with ⟨p, hp⟩ | hp
    · exact hno ⟨some p, List.mem_map.2 ⟨ev, hp, rfl⟩⟩
    · exact hno ⟨none, List.mem_map.2 ⟨ev, hp, rfl⟩⟩
  · rintro ⟨i, hi⟩
    by_contra h
    exact fresh_of_places (Nat.eq_zero_of_not_pos h) i (List.mem_cons_of_mem _ hi)

end Pending

/-- **The nodes on the lists are those of the pending events.**  In every state of every run in
which only events that are not pending are dispatched and written to, the heads of the five
queues and of the local list are those of six disjoint rings, and an event is pending exactly
when its node is on one of them. -/
theorem linked_iff_pending {l : Links WorkAddr} {mem : ℕ → EdpEvent} {acts : List Act}
    {c : CellSys} (hC : StepSystem.Meets step Owned (init l mem) acts)
    (hrun : StepSystem.run step (init l mem) acts = some c) :
    ∃ nodes, c.links.Rings head nodes ∧ ∀ a, c.Pending a ↔ ∃ i, .node a ∈ nodes i := by
  obtain ⟨as, s, hrun', hC', hr⟩ := represents_run hC hrun
  refine ⟨lists s.worker, hr.rings, fun a => ?_⟩
  have hacc : WorkerSys.Account a s :=
    StepSystem.run_invariant (fun _ _ _ hs hC h => hs.step hC h) (WorkerSys.account_init a) hC'
      hrun'
  rw [hr.pending_iff hacc.once, places_pos_iff]

/-- An event is dispatched and its handler called; the handler frees it and dispatches another
one. -/
def handled : List Act :=
  let ev : EdpEvent := ⟨7, 1, 1, -1, 0, 0, 0, 1⟩
  [.write 7 ev (.node 7) (.node 7), .dispatch 7, .signal ev] ++ List.replicate 14 .work ++
    [.write 7 ⟨7, 0, 0, 0, 0, 0, 0, 0⟩ .poison1 .poison2, .write 8 ev (.node 8) (.node 8),
      .dispatch 8]

/-- A run that meets the hypotheses of `linked_iff_pending`. -/
theorem linked_iff_pending_handled :
    ∃ l mem c, StepSystem.run step (init l mem) handled = some c ∧ calledCount 7 c.hist = 1 ∧
      c.Pending 8 ∧ ∃ nodes, c.links.Rings head nodes ∧ ∀ a, c.Pending a ↔ ∃ i, .node a ∈ nodes i :=
  have hrun := Eq.refl (StepSystem.run step
    (init ⟨id, id⟩ fun _ => ⟨0, 0, 0, 0, 0, 0, 0, 0⟩) handled)
  ⟨_, _, _, hrun, rfl, rfl, linked_iff_pending (by decide) hrun⟩

/-! ### What the worker looks at -/

section Looks

variable {l : Links WorkAddr} {x : WorkAddr}

/-- A section looks at the heads and at the ends of the lists. -/
theorem spliceQueue_put {xs : Option Priority → List WorkAddr} (H : l.Rings head xs)
    (hx : Links.Fresh head xs x) (q : Priority) {v w : WorkAddr} :
    spliceQueue (l.put x v w) q = (spliceQueue l q).put x v w := by
  have hne : ∀ i, ∀ z ∈ head i :: xs i, z ≠ x := fun i z hz e => hx i (e ▸ hz)
  have hq : WorkAddr.queue q ≠ x := hne (some q) _ List.mem_cons_self
  have hqn : l.next (.queue q) ≠ x := hne (some q) _ (H.ring (some q)).next_mem
  have hqp : l.prev (.queue q) ≠ x := hne (some q) _ (H.ring (some q)).prev_mem
  have hl : WorkAddr.events ≠ x := hne none _ List.mem_cons_self
  have hln : l.next .events ≠ x := hne none _ (H.ring none).next_mem
  have hlp : l.prev .events ≠ x := hne none _ (H.ring none).prev_mem
  have hempty : listEmpty (l.put x v w) (.queue q) = listEmpty l (.queue q) := by
    unfold listEmpty
    rw [Links.put_next_of_ne hq]
  unfold spliceQueue listSpliceInit listSpliceTailInit
  rw [hempty, Links.put_next_of_ne hl, Links.put_prev_of_ne hl,
    ListCall._listSplice_put hqn hqp hq hl hln, ListCall._listSplice_put hqn hqp hq hlp hl]
  split
  · split <;> rfl
  · rfl

variable {c : CellSys} {s : WorkerSys} {a : ℕ}

/-- The worker's step does not depend on an event that has no place, and leaves it as it is. -/
theorem Represents.workStep_wrote (hr : Represents c s) (ha : s.worker.places a = 0)
    (ev : EdpEvent) (next prev : WorkAddr) :
    (c.wrote a ev next prev).workStep = c.workStep.map fun c => c.wrote a ev next prev := by
  have hfresh := fresh_of_places ha
  have hne : ∀ i, ∀ z ∈ head i :: lists s.worker i, z ≠ .node a :=
    fun i z hz e => hfresh i (e ▸ hz)
  have hpos : ∀ {z}, z ∈ head none :: lists s.worker none →
      (c.wrote a ev next prev).links.next z = c.links.next z :=
    fun hz => Links.put_next_of_ne (hne none _ hz)
  have hfirst : ∀ {evs}, (∀ e ∈ evs, e ∈ s.worker.events) →
      firstOf evs ∈ head none :: lists s.worker none := by
    intro evs hevs
    cases evs with
    | nil => exact List.mem_cons_self
    | cons e rest =>
      exact List.mem_cons_of_mem _ (List.mem_map.2 ⟨e, hevs e List.mem_cons_self, rfl⟩)
  have hcur := hr.cursor
  unfold Cursor at hcur
  unfold workStep
  rw [wrote_regs]
  cases hpc : c.regs.pc with
  | sect p =>
    simp only [Option.map_some, wrote, spliceQueue_put hr.rings hfresh]
  | loop p =>
    rw [hpc] at hcur
    unfold loopStep
    rw [wrote_turn]
    cases ht : c.turn with
    | first =>
      have hhead := hpos (z := .events) List.mem_cons_self
      have hsecond := hpos (z := c.links.next .events) (hr.rings.ring none).next_mem
      dsimp only
      rw [hhead, hsecond]
      rfl
    | body =>
      rw [ht] at hcur
      dsimp only
      rw [wrote_tmp, hpos (hcur ▸ hfirst fun _ h => h)]
      rfl
    | test =>
      rw [ht] at hcur
      obtain ⟨hp, -⟩ := hcur
      dsimp only
      rw [wrote_pos]
      cases hev : s.worker.events with
      | nil =>
        rw [hev, firstOf] at hp
        rw [if_pos hp, if_pos hp]
        rfl
      | cons e rest =>
        rw [hev, firstOf] at hp
        have hin : c.pos ∈ head none :: lists s.worker none := by
          rw [hp]
          exact List.mem_cons_of_mem _ (List.mem_map.2 ⟨e, by simp [hev], rfl⟩)
        have hea : e.addr ≠ a := fun h => hne none _ hin (by rw [hp, nodeOf, h])
        have hpn : c.pos ≠ .events := by
          rw [hp]
          exact WorkAddr.noConfusion
        have hentry : c.pos.entry? = some e.addr := by
          rw [hp]
          rfl
        have hdel : listDel (c.links.put (.node a) next prev) c.pos =
            (listDel c.links c.pos).put (.node a) next prev :=
          ListCall.listDel_put (hne none _ hin)
            (hne none _ ((hr.rings.ring none).next_mem_of_mem hin))
            (hne none _ ((hr.rings.ring none).prev_mem_of_mem hin))
        rw [if_neg hpn, if_neg hpn, hentry, Option.bind_some, Option.bind_some, wrote_mem,
          Function.update_of_ne hea, wrote_links, hdel]
        split
        · rfl
        · split <;> rfl
  | head | wait | blocked | running p e | check p q | exit q | finished =>
    simp only [Option.map_map]
    rfl

end Looks

/-- **The worker does not look at events that are not pending.**  In every state of every run in
which only events that are not pending are dispatched and written to, and for every event that is
not pending: whatever its owner writes to its fields and its node, the worker's next step is the
same before and after, and leaves what was written. -/
theorem work_write {l : Links WorkAddr} {mem : ℕ → EdpEvent} {acts : List Act} {c : CellSys}
    (hC : StepSystem.Meets step Owned (init l mem) acts)
    (hrun : StepSystem.run step (init l mem) acts = some c) {a : ℕ} (ha : ¬ c.Pending a)
    (ev : EdpEvent) (next prev : WorkAddr) :
    StepSystem.run step c [.write a ev next prev, .work] =
      StepSystem.run step c [.work, .write a ev next prev] := by
  obtain ⟨as, s, hrun', hC', hr⟩ := represents_run hC hrun
  have hacc : WorkerSys.Account a s :=
    StepSystem.run_invariant (fun _ _ _ hs hC h => hs.step hC h) (WorkerSys.account_init a) hC'
      hrun'
  have hplaces : s.worker.places a = 0 := by
    rw [hr.pending_iff hacc.once] at ha
    omega
  have hstep := hr.workStep_wrote hplaces ev next prev
  simp only [StepSystem.run, step, hstep]
  cases c.workStep <;> rfl

/-- While a handler runs on an event that it has freed. -/
theorem work_write_handled :
    ∃ l mem c, StepSystem.run step (init l mem) handled = some c ∧ calledCount 7 c.hist = 1 ∧
      StepSystem.run step c [.write 7 ⟨7, 5, 5, 5, 5, 5, 5, 5⟩ (.node 9) .poison1, .work] =
        StepSystem.run step c [.work, .write 7 ⟨7, 5, 5, 5, 5, 5, 5, 5⟩ (.node 9) .poison1] :=
  have hrun := Eq.refl (StepSystem.run step
    (init ⟨id, id⟩ fun _ => ⟨0, 0, 0, 0, 0, 0, 0, 0⟩) handled)
  ⟨_, _, _, hrun, rfl, work_write (by decide) hrun (by decide) _ _ _⟩

end CellSys
end EdpIo
