/-
# The lists in memory are lists

`CellSys.Represents` relates a state in memory to one of `WorkerSys`: the six heads are the
heads of disjoint rings, whose nodes are those of the events in the lists, in order; the fields
of these events are in memory as they were when dispatched; and the cursors of a loop are the
next two entries of what is left of the local list (`Cursor`).  A step in memory is a step of
`WorkerSys` or is not seen (`Represents.step`): the initialisation and the advance of the
cursors, and the writes of the owners.

The one thing that the representation rests on is that nobody writes to a pending event, from
the locked section of its dispatch to the call of its handler.  Then every run in memory is one
of `WorkerSys` with the same history (`refines`), the nodes on the lists are those of the pending
events (`linked_iff_pending`), and the worker follows no other link, although from the call of a
handler on its event may be freed or dispatched again (`cursor_pending`).
-/

import EdpIo.Worker.Cells

namespace EdpIo
namespace CellSys

/-- The heads of the five queues and of the local list. -/
def head : Option Priority → WorkAddr
  | some p => .queue p
  | none => .events

/-- `&ev->ev_node`. -/
def nodeOf (ev : EdpEvent) : WorkAddr := .node ev.addr

/-- The nodes on the six lists. -/
def lists (w : Worker) : Option Priority → List WorkAddr
  | some p => (w.queue p).map nodeOf
  | none => w.events.map nodeOf

/-- What `events.next` is if the local list holds `evs`. -/
def firstOf : List EdpEvent → WorkAddr
  | [] => .events
  | ev :: _ => nodeOf ev

/-- The cursors, where the local list holds `evs`: `pos` is its first entry and `tmp` the second
one before the test, and `tmp` the first one while the entry taken out is handled. -/
def Cursor (s : CellSys) (evs : List EdpEvent) : Prop :=
  match s.regs.pc, s.turn with
  | .loop _, .first => True
  | .loop _, .test => s.pos = firstOf evs ∧ ∀ ev rest, evs = ev :: rest → s.tmp = firstOf rest
  | .loop _, .body | .running _ _, .body | .check _ _, .body => s.tmp = firstOf evs
  | .running _ _, _ | .check _ _, _ => False
  | _, _ => True

/-- **A state of `WorkerSys` for one in memory.** -/
structure Represents (c : CellSys) (s : WorkerSys) : Prop where
  regs : c.regs = s.worker.bare
  rings : c.links.Rings head (lists s.worker)
  mem : ∀ ev ∈ s.worker.held, c.mem ev.addr = ev
  addr : ∀ a, (c.mem a).addr = a
  cursor : c.Cursor s.worker.events
  signalling : c.signalling = s.signalling
  hist : c.hist = s.hist
  queued : ∀ a, queuedCount a s.hist = calledCount a s.hist + s.worker.places a

/-! ### The lists of a worker -/

section Lists

variable {w : Worker} {p : Priority} {a : ℕ}

theorem mem_held_queue {ev : EdpEvent} (h : ev ∈ w.queue p) : ev ∈ w.held := by
  unfold Worker.held
  cases p <;> simp [h]

theorem mem_held_events {ev : EdpEvent} (h : ev ∈ w.events) : ev ∈ w.held := by
  unfold Worker.held
  simp [h]

/-- An entry of a list is the node of an event that the worker holds. -/
theorem exists_of_mem_lists {i : Option Priority} {z : WorkAddr} (h : z ∈ lists w i) :
    ∃ ev ∈ w.held, z = nodeOf ev := by
  cases i with
  | none =>
    obtain ⟨ev, hev, rfl⟩ := List.mem_map.1 h
    exact ⟨ev, mem_held_events hev, rfl⟩
  | some p =>
    obtain ⟨ev, hev, rfl⟩ := List.mem_map.1 h
    exact ⟨ev, mem_held_queue hev, rfl⟩

/-- An event that has no place is in none of the lists. -/
theorem fresh_of_places (h : w.places a = 0) : Links.Fresh head (lists w) (.node a) := by
  intro i hm
  rcases List.mem_cons.1 hm with e | hm
  · cases i <;> cases e
  · obtain ⟨ev, hev, e⟩ := exists_of_mem_lists hm
    obtain rfl : a = ev.addr := WorkAddr.node.inj e
    rw [Worker.places_eq, Multiset.countP_eq_zero] at h
    exact h ev hev rfl

theorem lists_splice (w : Worker) (p : Priority) :
    lists (w.splice p) =
      Function.update (Function.update (lists w) none
        (if Worker.splicesFront p then lists w (some p) ++ lists w none
          else lists w none ++ lists w (some p))) (some p) [] := by
  funext i
  cases i with
  | none =>
    rw [Function.update_of_ne (by simp), Function.update_self]
    simp only [lists, Worker.splice]
    split <;> rw [List.map_append]
  | some q =>
    by_cases hq : q = p
    · subst hq
      simp [lists, Worker.splice]
    · simp [lists, Worker.splice, hq]

theorem lists_enqueue (w : Worker) (p : Priority) (ev : EdpEvent) :
    lists (w.enqueue p ev) =
      Function.update (lists w) (some p) (lists w (some p) ++ [nodeOf ev]) := by
  funext i
  cases i with
  | none => simp [lists, Worker.enqueue]
  | some q =>
    by_cases hq : q = p
    · subst hq
      simp [lists, Worker.enqueue]
    · simp [lists, Worker.enqueue, hq]

theorem lists_start (w : Worker) (rest : List EdpEvent) (pc : Pc) :
    lists { w with events := rest, pc := pc } =
      Function.update (lists w) none (rest.map nodeOf) := by
  funext i
  cases i <;> simp [lists]

/-- The first entry of the local list follows its head. -/
theorem next_events {l : Links WorkAddr} (H : l.Rings head (lists w)) :
    l.next .events = firstOf w.events := by
  have hring := H.ring none
  rw [lists] at hring
  cases hev : w.events with
  | nil =>
    rw [hev] at hring
    exact (Links.isRing_nil.1 hring).1
  | cons ev rest =>
    rw [hev] at hring
    exact hring.2.1.1

/-- And the second the first. -/
theorem next_first {l : Links WorkAddr} (H : l.Rings head (lists w)) {ev : EdpEvent}
    {rest : List EdpEvent} (hev : w.events = ev :: rest) : l.next (nodeOf ev) = firstOf rest := by
  have hring := H.ring none
  rw [lists, hev] at hring
  have hseg := hring.2.2
  cases rest with
  | nil => exact hseg.1
  | cons ev' rest => exact hseg.1.1

end Lists

/-! ### The worker without its lists -/

theorem yields_bare (w : Worker) (p q : Priority) : w.bare.yields p q = w.yields p q := by
  cases p <;> cases q <;> rfl

/-- Outside its sections and loops the worker does not look at its lists. -/
theorem next_bare {w : Worker} (hsect : ∀ p, w.pc ≠ .sect p) (hloop : ∀ p, w.pc ≠ .loop p) :
    w.bare.next = w.next.map fun r => (r.1.bare, r.2) := by
  have hpc : w.bare.pc = w.pc := rfl
  have hcv : w.bare.cvCount = w.cvCount := rfl
  have hpend : w.bare.pending = w.pending := rfl
  unfold Worker.next
  rw [hpc]
  cases h : w.pc with
  | sect p => exact absurd h (hsect p)
  | loop p => exact absurd h (hloop p)
  | head => rfl
  | wait =>
    dsimp only
    rw [hcv]
    split <;> rfl
  | blocked | running p ev | finished => rfl
  | check p q =>
    dsimp only
    rw [hpend, yields_bare]
    split <;> rfl
  | exit q =>
    dsimp only
    rw [hpend]
    split
    · rfl
    · cases q <;> rfl

/-! ### Steps -/

section Steps

variable {c c' : CellSys} {s t : WorkerSys} {p : Priority} {a : ℕ}

/-- While an event is handled `tmp` is the first entry of what is left. -/
theorem cursor_running {ev : EdpEvent} {evs : List EdpEvent} (hpc : c.regs.pc = .running p ev)
    (h : c.Cursor evs) : c.turn = .body ∧ c.tmp = firstOf evs := by
  rw [Cursor, hpc] at h
  cases hturn : c.turn with
  | body =>
    rw [hturn] at h
    exact ⟨rfl, h⟩
  | first | test =>
    rw [hturn] at h
    exact h.elim

theorem cursor_check {q : Priority} {evs : List EdpEvent} (hpc : c.regs.pc = .check p q)
    (h : c.Cursor evs) : c.turn = .body ∧ c.tmp = firstOf evs := by
  rw [Cursor, hpc] at h
  cases hturn : c.turn with
  | body =>
    rw [hturn] at h
    exact ⟨rfl, h⟩
  | first | test =>
    rw [hturn] at h
    exact h.elim

/-- And so it is while the counters are read and when the loop goes on. -/
theorem cursor_checkFrom {evs : List EdpEvent} {q : Option Priority}
    (hpc : c.regs.pc = Worker.checkFrom p q) (h : c.turn = .body ∧ c.tmp = firstOf evs) :
    c.Cursor evs := by
  have hplace : (∃ r, c.regs.pc = .check p r) ∨ c.regs.pc = .loop p := by
    rw [hpc]
    unfold Worker.checkFrom
    split
    · split
      · exact .inl ⟨_, rfl⟩
      · exact .inr rfl
    · exact .inr rfl
  rcases hplace with ⟨r, hpc⟩ | hpc
  · rw [Cursor, hpc, h.1]
    exact h.2
  · rw [Cursor, hpc, h.1]
    exact h.2

/-- What is seen of a step. -/
def seen (c : CellSys) : Act → List WorkerSys.Act
  | .work =>
    match c.regs.pc, c.turn with
    | .loop _, .first | .loop _, .body => []
    | _, _ => [.work]
  | .dispatch a => [.dispatch (c.mem a)]
  | .signal ev => [.signal ev]
  | .stop => [.stop]
  | .write _ _ _ _ => []

/-- The steps `bs` of `WorkerSys` lead to what a step in memory has led to. -/
def Follows (bs : List WorkerSys.Act) (c' : CellSys) (s : WorkerSys) : Prop :=
  ∃ t, StepSystem.run WorkerSys.step s bs = some t ∧
    StepSystem.Meets WorkerSys.step WorkerSys.NotPending s bs ∧ Represents c' t

/-- A step that is not seen. -/
theorem Represents.stutter (hr : Represents c' s) : Follows [] c' s := ⟨s, rfl, trivial, hr⟩

/-- A step that is one of `WorkerSys`. -/
theorem Represents.one {act : WorkerSys.Act} (h : WorkerSys.step s act = some t)
    (hC : s.NotPending act) (hr : Represents c' t) : Follows [act] c' s := by
  refine ⟨t, StepSystem.run_cons.2 ⟨t, h, rfl⟩, ⟨hC, ?_⟩, hr⟩
  rw [h]
  trivial

/-- And no other. -/
theorem Follows.represents {act : WorkerSys.Act} (hf : Follows [act] c' s)
    (h : WorkerSys.step s act = some t) : Represents c' t := by
  obtain ⟨u, hrun, -, hr⟩ := hf
  obtain ⟨v, hv, hu⟩ := StepSystem.run_cons.1 hrun
  obtain rfl := Option.some.inj hu
  obtain rfl := Option.some.inj (h.symm.trans hv)
  exact hr

/-- A step of the worker that is one of `Worker.next`. -/
theorem Represents.next (hr : Represents c s) {w : Worker} {l : Worker.Label}
    (hn : s.worker.next = some (w, l)) (hregs : c'.regs = w.bare)
    (hrings : c'.links.Rings head (lists w)) (hmem : c'.mem = c.mem) (hcur : c'.Cursor w.events)
    (hsig : c'.signalling = c.signalling) (hhist : c'.hist = l.obs ++ c.hist) :
    Follows [.work] c' s := by
  have hstep : WorkerSys.step s .work = some ⟨w, s.signalling, l.obs ++ s.hist⟩ := by
    rw [WorkerSys.step, hn]
    rfl
  have hw := Worker.next_step hn
  refine Represents.one hstep trivial ⟨hregs, hrings, ?_, ?_, hcur, hsig.trans hr.signalling,
    hhist.trans (congrArg (l.obs ++ ·) hr.hist), ?_⟩
  · intro ev hev
    rw [hmem]
    exact hr.mem ev (hw.held_subset hev)
  · rw [hmem]
    exact hr.addr
  · exact fun a => WorkerSys.queued_step (hr.queued a) hstep

/-- The section of a class. -/
theorem Represents.splice (hr : Represents c s) (hpc : c.regs.pc = .sect p) :
    Follows [.work]
      { c with regs := c.regs.splice p, turn := .first, links := spliceQueue c.links p } s := by
  have hpc' : s.worker.pc = .sect p := by rw [← hpc, hr.regs]; rfl
  have hn : s.worker.next = some (s.worker.splice p, .tau) := by rw [Worker.next, hpc']
  refine hr.next hn ?_ ?_ rfl trivial rfl rfl
  · have hq : Function.update (fun _ => []) p [] = fun _ : Priority => ([] : List EdpEvent) :=
      Function.update_eq_self p _
    rw [hr.regs]
    simp only [Worker.splice, Worker.bare, hq, List.append_nil, ite_self]
    rfl
  · have hempty : spliceQueue c.links p =
        if Worker.splicesFront p then listSpliceInit c.links (.queue p) .events
        else listSpliceTailInit c.links (.queue p) .events := by
      unfold spliceQueue
      split
      · rfl
      · -- the two functions test for an empty list themselves
        rename_i he
        simp only [listSpliceInit, listSpliceTailInit, if_neg he, ite_self]
    rw [lists_splice, hempty]
    have hne : some p ≠ (none : Option Priority) := by simp
    split
    · exact ListCall.spliceInit_rings hr.rings hne
    · exact ListCall.spliceTailInit_rings hr.rings hne

/-- The loop is left. -/
theorem Represents.leave (hr : Represents c s) (hpc : c.regs.pc = .loop p)
    (hev : s.worker.events = [] ∨
      ∃ ev rest, s.worker.events = ev :: rest ∧ Worker.breaksAt p ev = true) :
    Follows [.work] { c with regs := { c.regs with pc := Worker.afterLoop p } } s := by
  have hpc' : s.worker.pc = .loop p := by rw [← hpc, hr.regs]; rfl
  have hn : s.worker.next = some ({ s.worker with pc := Worker.afterLoop p }, .tau) := by
    rcases hev with hev | ⟨ev, rest, hev, hb⟩
    · simp only [Worker.next, hpc', hev]
    · simp only [Worker.next, hpc', hev, hb, if_true]
  refine hr.next hn ?_ hr.rings rfl ?_ rfl rfl
  · rw [hr.regs]
    rfl
  · cases p <;> trivial

/-- An event is taken out of the local list and its handler called. -/
theorem Represents.start (hr : Represents c s) (hpc : c.regs.pc = .loop p)
    (hturn : c.turn = .test) {ev : EdpEvent} {rest : List EdpEvent}
    (hev : s.worker.events = ev :: rest) (hb : Worker.breaksAt p ev = false)
    (hh : ev.evHandler ≠ 0) :
    Follows [.work] { c with
      regs := { c.regs with pc := .running p ev }
      turn := .body
      links := listDel c.links (nodeOf ev)
      hist := .started ev :: c.hist } s := by
  have hpc' : s.worker.pc = .loop p := by rw [← hpc, hr.regs]; rfl
  have hn : s.worker.next =
      some ({ s.worker with events := rest, pc := .running p ev }, .start ev) := by
    simp only [Worker.next, hpc', hev, hb, Bool.false_eq_true, if_false, if_neg hh]
  have hcur := hr.cursor
  simp only [Cursor, hpc, hturn] at hcur
  refine hr.next hn ?_ ?_ rfl ?_ rfl rfl
  · rw [hr.regs]
    rfl
  · rw [lists_start]
    have hlist : lists s.worker none = [] ++ nodeOf ev :: rest.map nodeOf := by
      rw [lists, hev]
      rfl
    exact ListCall.del_rings hr.rings hlist
  · exact hcur.2 ev rest hev

/-- What lies between the sections and the loops. -/
theorem Represents.between (hr : Represents c s) (hsect : ∀ p, c.regs.pc ≠ .sect p)
    (hloop : ∀ p, c.regs.pc ≠ .loop p) {w : Worker} {l : Worker.Label}
    (hn : c.regs.next = some (w, l)) :
    Follows [.work] { c with regs := w, hist := l.obs ++ c.hist } s := by
  have hpc' : c.regs.pc = s.worker.pc := by rw [hr.regs]; rfl
  rw [hr.regs, next_bare (hpc' ▸ hsect) (hpc' ▸ hloop)] at hn
  obtain ⟨⟨w', l'⟩, hn', he⟩ := Option.map_eq_some_iff.1 hn
  obtain ⟨rfl, rfl⟩ := Prod.mk.inj he
  have hstep := Worker.next_step hn'
  refine hr.next hn' rfl ?_ rfl ?_ rfl rfl
  · have hlists : lists w' = lists s.worker := by
      cases hstep with
      | splice q hpc => exact absurd (hpc'.trans hpc) (hsect q)
      | leave q hpc _ | start q ev rest hpc _ _ _ => exact absurd (hpc'.trans hpc) (hloop q)
      | _ => rfl
    rw [hlists]
    exact hr.rings
  · cases hstep with
    | splice q hpc => exact absurd (hpc'.trans hpc) (hsect q)
    | leave q hpc _ | start q ev rest hpc _ _ _ => exact absurd (hpc'.trans hpc) (hloop q)
    | finish q ev hpc =>
      have hbody := cursor_running (hpc'.trans hpc) hr.cursor
      exact cursor_checkFrom (q := some .crit) rfl hbody
    | resume q r hpc _ ratio =>
      have hbody := cursor_check (hpc'.trans hpc) hr.cursor
      exact cursor_checkFrom (q := r.below) rfl hbody
    | stopped hpc _ | enter hpc _ | sleep hpc _ | pass hpc _ | wake hpc
    | yield q r hpc _ _ | back q hpc _ | down q q' hpc _ _ | finished hpc _ => trivial

/-- In a loop. -/
theorem Represents.loop (hr : Represents c s) (hpc : c.regs.pc = .loop p)
    (h : c.loopStep p = some c') : Follows (if c.turn = .test then [.work] else []) c' s := by
  have hcur := hr.cursor
  obtain ⟨regs, turn, pos, tmp, links, mem, signalling, hist⟩ := c
  dsimp only at hpc
  unfold Cursor at hcur
  unfold loopStep at h
  cases turn with
  | first =>
    obtain rfl := Option.some.inj h
    have hfirst := next_events hr.rings
    refine Represents.stutter { hr with cursor := ?_ }
    rw [Cursor, hpc]
    refine ⟨hfirst, fun ev rest hev => ?_⟩
    dsimp only at hfirst ⊢
    rw [hfirst, hev]
    exact next_first hr.rings hev
  | body =>
    rw [hpc] at hcur
    obtain rfl := Option.some.inj h
    refine Represents.stutter { hr with cursor := ?_ }
    rw [Cursor, hpc]
    refine ⟨hcur, fun ev rest hev => ?_⟩
    dsimp only at hcur ⊢
    rw [hcur, hev]
    exact next_first hr.rings hev
  | test =>
    rw [hpc] at hcur
    obtain ⟨hpos, -⟩ := hcur
    dsimp only at h hpos
    cases hev : s.worker.events with
    | nil =>
      rw [hev, firstOf] at hpos
      rw [if_pos hpos] at h
      obtain rfl := Option.some.inj h
      exact hr.leave hpc (.inl hev)
    | cons ev rest =>
      rw [hev, firstOf] at hpos
      subst hpos
      have hmem : mem ev.addr = ev := hr.mem ev (mem_held_events (by simp [hev]))
      rw [if_neg WorkAddr.noConfusion] at h
      simp only [nodeOf, WorkAddr.entry?, Option.bind_some, hmem] at h
      split at h
      · obtain rfl := Option.some.inj h
        exact hr.leave hpc (.inr ⟨ev, rest, hev, ‹_›⟩)
      · split at h
        · cases h
        · obtain rfl := Option.some.inj h
          exact hr.start hpc rfl hev (Bool.eq_false_iff.2 ‹_›) ‹_›

/-- The worker's step. -/
theorem Represents.work (hr : Represents c s) (h : c.workStep = some c') :
    Follows (c.seen .work) c' s := by
  unfold workStep at h
  split at h
  · rename_i p hpc
    obtain rfl := Option.some.inj h
    have hseen : c.seen .work = [.work] := by simp only [seen, hpc]
    rw [hseen]
    exact hr.splice hpc
  · rename_i p hpc
    have hseen : c.seen .work = if c.turn = .test then [.work] else [] := by
      simp only [seen, hpc]
      cases c.turn <;> rfl
    rw [hseen]
    exact hr.loop hpc h
  · rename_i hsect hloop
    obtain ⟨⟨w, l⟩, hn, rfl⟩ := Option.map_eq_some_iff.1 h
    have hseen : c.seen .work = [.work] := by
      dsimp only [seen]
      split
      · exact absurd ‹_› (hloop _)
      · exact absurd ‹_› (hloop _)
      · rfl
    rw [hseen]
    exact hr.between (fun p hp => hsect p hp) (fun p hp => hloop p hp) hn

/-- A step of those around the worker, which leaves the local list to it. -/
theorem Represents.around (hr : Represents c s) {act : WorkerSys.Act}
    (hstep : WorkerSys.step s act = some t) (hmeets : s.NotPending act)
    (hregs : c'.regs = t.worker.bare) (hrings : c'.links.Rings head (lists t.worker))
    (hmem : ∀ ev ∈ t.worker.held, c'.mem ev.addr = ev) (haddr : ∀ a, (c'.mem a).addr = a)
    (hevents : t.worker.events = s.worker.events) (hpc : c'.regs.pc = c.regs.pc)
    (hturn : c'.turn = c.turn) (hpos : c'.pos = c.pos) (htmp : c'.tmp = c.tmp)
    (hsig : c'.signalling = t.signalling) (hhist : c'.hist = t.hist) : Follows [act] c' s := by
  refine Represents.one hstep hmeets ⟨hregs, hrings, hmem, haddr, ?_, hsig, hhist,
    fun a => WorkerSys.queued_step (hr.queued a) hstep⟩
  have hcur := hr.cursor
  unfold Cursor at hcur ⊢
  rw [hevents, hpc, hturn, hpos, htmp]
  exact hcur

/-- The callers' condition, seen in either system: the event has no place. -/
theorem Represents.places (hr : Represents c s)
    (h : queuedCount a c.hist = calledCount a c.hist) : s.worker.places a = 0 := by
  have hq := hr.queued a
  rw [← hr.hist] at hq
  omega

theorem Represents.dispatch (hr : Represents c s) (hC : c.Owned (.dispatch a))
    (h : step c (.dispatch a) = some c') : Follows [.dispatch (c.mem a)] c' s := by
  rw [step] at h
  have hplaces := hr.places hC
  have haddr : (c.mem a).addr = a := hr.addr a
  have hpend : s.NotPending (.dispatch (c.mem a)) := by
    show queuedCount (c.mem a).addr s.hist = calledCount (c.mem a).addr s.hist
    rw [haddr, ← hr.hist]
    exact hC
  split at h
  · rename_i hp
    obtain rfl := Option.some.inj h
    have hstep : WorkerSys.step s (.dispatch (c.mem a)) = some s := by rw [WorkerSys.step, hp]
    exact Represents.one hstep hpend hr
  · rename_i p hp
    obtain rfl := Option.some.inj h
    have hstep : WorkerSys.step s (.dispatch (c.mem a)) =
        some ⟨s.worker.enqueue p (c.mem a), c.mem a :: s.signalling,
          .queued (c.mem a) :: s.hist⟩ := by
      rw [WorkerSys.step, hp]
    refine hr.around hstep hpend ?_ ?_ ?_ hr.addr rfl rfl rfl rfl rfl ?_ ?_
    · show c.regs.incPending p = _
      rw [hr.regs]
      rfl
    · rw [lists_enqueue, nodeOf, haddr]
      exact ListCall.addTail_rings hr.rings (fresh_of_places hplaces) (some p)
    · intro ev hev
      rw [Worker.held_enqueue, Multiset.singleton_add, Multiset.mem_cons] at hev
      rcases hev with rfl | hev
      · exact congrArg c.mem haddr
      · exact hr.mem ev hev
    · exact congrArg (c.mem a :: ·) hr.signalling
    · exact congrArg (.queued (c.mem a) :: ·) hr.hist

/-- What the owner of an event writes is not seen. -/
theorem Represents.write (hr : Represents c s) {ev : EdpEvent} {next prev : WorkAddr}
    (hC : c.Owned (.write a ev next prev)) : Represents (c.wrote a ev next prev) s := by
  have hplaces := hr.places hC
  refine { hr with rings := ?_, mem := ?_, addr := ?_ }
  · exact hr.rings.fresh_change (Links.agreeOff_put _ _ _ _)
      (by simpa using fresh_of_places hplaces)
  · intro e he
    have hne : e.addr ≠ a := by
      rintro rfl
      rw [Worker.places_eq, Multiset.countP_eq_zero] at hplaces
      exact hplaces e he rfl
    rw [wrote_mem, Function.update_of_ne hne]
    exact hr.mem e he
  · intro b
    by_cases hb : b = a
    · subst hb
      simp
    · rw [wrote_mem, Function.update_of_ne hb]
      exact hr.addr b

/-- **A step in memory is a step of `WorkerSys` or is not seen.** -/
theorem Represents.step {act : Act} (hr : Represents c s) (hC : c.Owned act)
    (h : CellSys.step c act = some c') : Follows (c.seen act) c' s := by
  cases act with
  | work => exact hr.work h
  | dispatch a => exact hr.dispatch hC h
  | write a ev next prev =>
    obtain rfl := Option.some.inj h
    exact (hr.write hC).stutter
  | signal ev =>
    rw [CellSys.step] at h
    split at h
    · rename_i hev
      obtain rfl := Option.some.inj h
      rw [hr.signalling] at hev
      have hstep : WorkerSys.step s (.signal ev) =
          some ⟨s.worker.signal, s.signalling.erase ev, .returned ev :: s.hist⟩ := if_pos hev
      have hregs : c.regs.signal = s.worker.signal.bare := by
        rw [hr.regs]
        unfold Worker.signal
        have hcv : s.worker.bare.cvCount = s.worker.cvCount := rfl
        rw [hcv]
        split <;> rfl
      have hlists : lists s.worker.signal = lists s.worker := by
        unfold Worker.signal
        split <;> rfl
      refine hr.around hstep trivial hregs ?_ ?_ hr.addr ?_ ?_ rfl rfl rfl ?_ ?_
      · rw [hlists]
        exact hr.rings
      · rw [Worker.held_signal]
        exact hr.mem
      · show s.worker.signal.events = _
        unfold Worker.signal
        split <;> rfl
      · exact Worker.signal_pc c.regs
      · exact congrArg (List.erase · ev) hr.signalling
      · exact congrArg (.returned ev :: ·) hr.hist
    · cases h
  | stop =>
    obtain rfl := Option.some.inj h
    have hstep : WorkerSys.step s .stop = some { s with worker := s.worker.stop } := rfl
    refine hr.around hstep trivial ?_ hr.rings hr.mem hr.addr rfl rfl rfl rfl rfl
      hr.signalling hr.hist
    show c.regs.stop = _
    rw [hr.regs]
    rfl

/-- What `WorkerSys` can do memory can do. -/
theorem Represents.workStep_ne_none (hr : Represents c s) (h : s.worker.next ≠ none) :
    c.workStep ≠ none := by
  have hpc : s.worker.pc = c.regs.pc := by rw [hr.regs]; rfl
  unfold workStep
  split
  · exact Option.some_ne_none _
  · rename_i p hp
    rw [Worker.next, hpc, hp] at h
    have hcur := hr.cursor
    unfold Cursor at hcur
    unfold loopStep
    split
    · exact Option.some_ne_none _
    · rename_i hturn
      rw [hp, hturn] at hcur
      obtain ⟨hpos, -⟩ := hcur
      cases hev : s.worker.events with
      | nil =>
        rw [hev, firstOf] at hpos
        rw [if_pos hpos]
        exact Option.some_ne_none _
      | cons ev rest =>
        rw [hev] at hpos h
        have hmem : c.mem ev.addr = ev := hr.mem ev (mem_held_events (by simp [hev]))
        have hne : c.pos ≠ .events := by
          rw [hpos]
          exact WorkAddr.noConfusion
        have hentry : c.pos.entry? = some ev.addr := by
          rw [hpos]
          rfl
        rw [if_neg hne, hentry, Option.bind_some, hmem]
        dsimp only at h ⊢
        split
        · exact Option.some_ne_none _
        · split
          · simp_all
          · exact Option.some_ne_none _
    · exact Option.some_ne_none _
  · rename_i hsect hloop
    rw [hr.regs, next_bare (hpc ▸ fun p hp => hsect p hp) (hpc ▸ fun p hp => hloop p hp)]
    simpa using h

end Steps

end CellSys
end EdpIo
