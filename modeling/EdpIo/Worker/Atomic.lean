/-
# The sections are atomic

Every run of `LockedSys`, in which the statements of the sections are steps of their own, is
one of `WorkerSys`, in which a section is one step (`simulated`): the section of the worker
takes place at its splice, that of a dispatcher when it has raised the counter, and the other
statements inside are not seen.  `abs` is the worker as `WorkerSys` sees it: without the event
that a call has put into a queue and not yet counted, and with what is left of the worker's
own section done.

So what holds in every run of `WorkerSys` holds between the statements too.  For the counters
this is `pending_eq_length`: while the lock of a class is free, nobody is between its queue
and its counter, and the counter is the length of the queue.
-/

import EdpIo.Worker.Locks

namespace EdpIo
namespace LockedSys

/-- Whether a call has put its event into the queue of `p` and not yet counted it. -/
def addingTo (p : Priority) (c : DispatchCall) : Bool :=
  decide (c.pc = .inc) && decide (c.ev.class? = some p)

/-- The queue of `p` as far as it is counted. -/
def counted (s : LockedSys) (p : Priority) : List EdpEvent :=
  if s.calls.any (addingTo p) then (s.worker.queue p).dropLast else s.worker.queue p

/-- The worker when it has left the section in which it has begun to splice. -/
def ahead (s : LockedSys) : Worker :=
  match s.worker.pc, s.sect with
  | .sect p, some .reset => (s.worker.resetPending p).endSect p
  | .sect p, some .unlock => s.worker.endSect p
  | _, _ => s.worker

/-- The worker as `WorkerSys` sees it. -/
def abs (s : LockedSys) : Worker := { s.ahead with queue := s.counted }

/-- The call has raised the counter and has its signal to send. -/
def signals (c : DispatchCall) : Bool := decide (c.pc = .unlock) || decide (c.pc = .signal)

/-- The events whose dispatchers are to signal. -/
def toSignal (calls : List DispatchCall) : List EdpEvent :=
  (calls.filter signals).map DispatchCall.ev

/-- **A state of `WorkerSys` for one between the statements.** -/
structure Simulates (s : LockedSys) (c : WorkerSys) : Prop where
  worker : c.worker = s.abs
  signalling : c.signalling.Perm (toSignal s.calls)
  hist : c.hist = s.hist

theorem simulates_init : Simulates init WorkerSys.init := ⟨rfl, .refl _, rfl⟩

section

variable {s t : LockedSys} {p q : Priority} {c : DispatchCall}

theorem any_adding_erase (hc : c ∈ s.calls) (q : Priority) :
    s.calls.any (addingTo q) = (addingTo q c || (s.calls.erase c).any (addingTo q)) :=
  (List.perm_cons_erase hc).any_eq

/-- The dispatchers that are to signal, with one taken out. -/
theorem toSignal_erase (hc : c ∈ s.calls) :
    (toSignal s.calls).Perm
      ((if signals c then [c.ev] else []) ++ toSignal (s.calls.erase c)) := by
  refine (((List.perm_cons_erase hc).filter signals).map DispatchCall.ev).trans ?_
  unfold toSignal
  rw [List.filter_cons]
  split <;> simp

theorem addingTo_eq_false (h : c.pc ≠ .inc) (q : Priority) : addingTo q c = false := by
  simp [addingTo, h]

theorem insideOf_of_adding (h : addingTo p c = true) : insideOf p c = true := by
  obtain ⟨hpc, hp⟩ : c.pc = .inc ∧ c.ev.class? = some p := by simpa [addingTo] using h
  exact insideOf_of_inside hp (by rw [hpc]; rfl)

/-- Where no call is inside, every event of the queue is counted. -/
theorem counted_eq_queue (h : ∀ c ∈ s.calls, insideOf p c = false) :
    s.counted p = s.worker.queue p := by
  refine if_neg fun hany => ?_
  obtain ⟨c, hc, hadd⟩ := List.any_eq_true.1 hany
  exact absurd ((insideOf_of_adding hadd).symm.trans (h c hc)) (by decide)

/-- While the worker is inside, no call is. -/
theorem counted_inside (hs : s.Exclusive) (hw : s.workerInside p = true) :
    s.counted p = s.worker.queue p := counted_eq_queue fun _ hc => hs.no_call hw hc

/-- What a loop weighs is `high` and `ratio`. -/
theorem yields_of_eq (w w' : Worker) (hh : w'.high = w.high) (hr : w'.ratio = w.ratio)
    (p q : Priority) : w'.yields p q = w.yields p q := by
  cases p <;> cases q <;> simp [Worker.yields, hh, hr]

/-- The queues play no part in what the worker does outside its sections. -/
theorem next_withQueue {w w' : Worker} {l : Worker.Label} (hpc : ∀ p, w.pc ≠ .sect p)
    (h : w.next = some (w', l)) (f : Priority → List EdpEvent) :
    ({ w with queue := f } : Worker).next = some ({ w' with queue := f }, l) := by
  unfold Worker.next at h ⊢
  dsimp only
  cases hp : w.pc with
  | sect p => exact absurd hp (hpc p)
  | head | blocked | running p ev =>
    simp only [hp, Option.some.injEq, Prod.mk.injEq] at h ⊢
    obtain ⟨rfl, rfl⟩ := h
    simp
  | wait =>
    simp only [hp] at h ⊢
    split at h
    all_goals
      rename_i hcv
      obtain ⟨rfl, rfl⟩ := by simpa using h
      simp [hcv]
  | loop p =>
    simp only [hp] at h ⊢
    split at h
    · obtain ⟨rfl, rfl⟩ := by simpa using h
      simp
    · split at h
      · rename_i hb
        obtain ⟨rfl, rfl⟩ := by simpa using h
        simp [hb]
      · rename_i hb
        split at h
        · cases h
        · rename_i hh
          obtain ⟨rfl, rfl⟩ := by simpa using h
          simp [hb, hh]
  | check p q =>
    simp only [hp] at h ⊢
    rw [yields_of_eq w { w with queue := f, pc := .check p q } rfl rfl]
    split at h
    all_goals
      rename_i hy
      obtain ⟨rfl, rfl⟩ := by simpa using h
    · rw [if_pos hy]
    · rw [if_neg hy]
  | exit q =>
    simp only [hp] at h ⊢
    split at h
    · rename_i hq
      obtain ⟨rfl, rfl⟩ := by simpa using h
      simp [hq]
    · rename_i hq
      split at h
      all_goals
        obtain ⟨rfl, rfl⟩ := by simpa using h
        simp [*]
  | finished =>
    simp only [hp] at h
    cases h

/-- What is left of a section does not read the queues. -/
theorem ahead_withQueue (s : LockedSys) (f g : Priority → List EdpEvent)
    (calls : List DispatchCall) (hist : List Obs) :
    ({ ahead { s with worker := { s.worker with queue := f }, calls := calls, hist := hist } with
        queue := g } : Worker) = { s.ahead with queue := g } := by
  unfold ahead
  dsimp only
  split <;> rfl

/-- A statement that `WorkerSys` does not see. -/
theorem Simulates.stutter {d : WorkerSys} (h : Simulates s d) (hw : t.abs = s.abs)
    (hsig : (toSignal s.calls).Perm (toSignal t.calls)) (hh : t.hist = s.hist) :
    Simulates t d :=
  ⟨h.worker.trans hw.symm, h.signalling.trans hsig, h.hist.trans hh.symm⟩

/-- The splice is seen as the whole section. -/
theorem abs_splice (hs : s.Exclusive) (hpc : s.worker.pc = .sect p)
    (hsect : s.sect = some .splice) :
    abs { s with worker := s.worker.takeQueue p, sect := some .reset } = s.abs.splice p := by
  have hw : s.workerInside p = true := by simp [workerInside, hpc, hsect]
  have hcounted : ∀ r, counted { s with worker := s.worker.takeQueue p, sect := some .reset } r =
      Function.update s.counted p [] r := by
    intro r
    have htake : (s.worker.takeQueue p).queue r = Function.update s.worker.queue p [] r := by
      rw [Worker.takeQueue_eq]
    by_cases hr : r = p
    · subst hr
      simp [counted, htake]
    · simp [counted, htake, hr]
  have hpc' : (s.worker.takeQueue p).pc = .sect p := by rw [Worker.takeQueue_eq, hpc]
  calc abs { s with worker := s.worker.takeQueue p, sect := some .reset }
    _ = { s.worker.splice p with queue := Function.update s.counted p [] } := by
      rw [← Worker.splice_eq, ← funext hcounted]
      simp [abs, ahead, hpc']
    _ = ({ s.worker with queue := s.counted } : Worker).splice p := by
      simp [Worker.splice, counted_inside hs hw]
    _ = s.abs.splice p := by simp [abs, ahead, hpc, hsect]

/-- The statements of the worker. -/
theorem simulates_work (hs : s.Exclusive) {d : WorkerSys} (hd : Simulates s d)
    (h : LockedSys.step s .work = some t) :
    ∃ bs e, StepSystem.run WorkerSys.step d bs = some e ∧ Simulates t e := by
  cases step_cases h with
  | take p hpc hsect hfree =>
    refine ⟨[], d, rfl, hd.stutter ?_ (.refl _) rfl⟩
    simp only [abs, ahead, hpc, hsect]
    rfl
  | splice p hpc hsect =>
    have hpc' : d.worker.pc = .sect p := by
      rw [hd.worker]
      simp [abs, ahead, hpc, hsect]
    have hstep : WorkerSys.step d .work = some ⟨d.worker.splice p, d.signalling, d.hist⟩ := by
      simp [WorkerSys.step, Worker.next, hpc', Worker.Label.obs]
    refine ⟨[.work], _, StepSystem.run_cons.2 ⟨_, hstep, rfl⟩, ?_, hd.signalling, hd.hist⟩
    exact (congrArg (Worker.splice · p) hd.worker).trans (abs_splice hs hpc hsect).symm
  | reset p hpc hsect =>
    refine ⟨[], d, rfl, hd.stutter ?_ (.refl _) rfl⟩
    have hpc' : (s.worker.resetPending p).pc = .sect p := hpc
    simp only [abs, ahead, hpc, hpc', hsect]
    rfl
  | leave p hpc hsect =>
    refine ⟨[], d, rfl, hd.stutter ?_ (.refl _) rfl⟩
    have hpc' : (s.worker.endSect p).pc = .loop p := rfl
    simp only [abs, ahead, hpc, hpc', hsect]
    rfl
  | next w l hpc hn =>
    have hsect := hs.outside hpc
    have habs : s.abs = { s.worker with queue := s.counted } := by
      simp [abs, ahead, hsect]
    have hcounted : s.counted = counted { s with worker := w, hist := l.obs ++ s.hist } := by
      funext r
      simp [counted, next_queue hpc hn]
    have hnext : d.worker.next = some ({ w with queue := s.counted }, l) := by
      rw [hd.worker, habs]
      exact next_withQueue hpc hn s.counted
    have hstep : WorkerSys.step d .work =
        some ⟨{ w with queue := s.counted }, d.signalling, l.obs ++ d.hist⟩ := by
      simp [WorkerSys.step, hnext]
    refine ⟨[.work], _, StepSystem.run_cons.2 ⟨_, hstep, rfl⟩, ?_, hd.signalling, ?_⟩
    · simp [abs, ahead, hsect, hcounted]
    · rw [hd.hist]

/-- The moves of a call that are not seen: between statements at neither of which its event is
in the queue and not counted, on the same side of the increment. -/
theorem counted_move (hc : c ∈ s.calls) (pc : EnqueuePc) (hpc : c.pc ≠ .inc) (hpc' : pc ≠ .inc)
    (q : Priority) : (s.move c pc).counted q = s.counted q := by
  have hany : (s.move c pc).calls.any (addingTo q) = s.calls.any (addingTo q) := by
    rw [any_adding_erase hc, addingTo_eq_false hpc, move, List.any_cons,
      addingTo_eq_false (c := ⟨pc, c.ev⟩) hpc']
  unfold counted
  rw [hany]
  rfl

theorem toSignal_move (hc : c ∈ s.calls) {pc : EnqueuePc}
    (h : signals ⟨pc, c.ev⟩ = signals c) :
    (toSignal s.calls).Perm (toSignal (s.move c pc).calls) := by
  refine (toSignal_erase hc).trans ?_
  rw [← h, move]
  unfold toSignal
  rw [List.filter_cons]
  split <;> simp

/-- Where a call of class `p` is inside, no other call is between its writes. -/
theorem any_adding_alone (hs : s.Exclusive) (hc : c ∈ s.calls) (hin : insideOf p c = true) :
    (s.calls.erase c).any (addingTo p) = false := by
  rw [List.any_eq_false]
  intro d hd hadd
  have hno := (hs.alone hc hin).2 d hd
  exact absurd ((insideOf_of_adding hadd).symm.trans hno) (by decide)

/-- An event that is put into the queue is not counted yet. -/
theorem counted_add (hs : s.Exclusive) (hc : c ∈ s.calls) (hp : c.ev.class? = some p)
    (hpc : c.pc = .add) (q : Priority) :
    counted { s.move c .inc with worker := s.worker.addTail p c.ev } q = s.counted q := by
  have hin : insideOf p c = true := insideOf_of_inside hp (by rw [hpc]; rfl)
  have hno : addingTo q c = false := addingTo_eq_false (by rw [hpc]; decide) q
  unfold counted
  rw [any_adding_erase hc, hno, Bool.false_or, move, List.any_cons]
  by_cases hq : q = p
  · subst hq
    rw [any_adding_alone hs hc hin]
    simp [addingTo, hp, Worker.addTail]
  · simp [addingTo, hp, Worker.addTail, hq, Ne.symm hq]

/-- The increment counts it. -/
theorem counted_inc (hs : s.Exclusive) (hc : c ∈ s.calls) (hp : c.ev.class? = some p)
    (hpc : c.pc = .inc) :
    counted { s.move c .unlock with
        worker := s.worker.incPending p, hist := .queued c.ev :: s.hist } =
      Function.update s.counted p (s.counted p ++ [c.ev]) := by
  have hin : insideOf p c = true := insideOf_of_inside hp (by rw [hpc]; rfl)
  funext q
  have hno : addingTo q ⟨.unlock, c.ev⟩ = false := rfl
  by_cases hq : q = p
  · subst hq
    obtain ⟨l, hl⟩ := hs.added c hc hpc q hp
    have hadd : addingTo q c = true := by simp [addingTo, hpc, hp]
    have hbefore : s.counted q = l := by
      unfold counted
      rw [any_adding_erase hc, hadd, hl]
      simp
    rw [Function.update_self, hbefore]
    unfold counted
    rw [move, List.any_cons, hno, any_adding_alone hs hc hin]
    exact hl
  · have hadd : addingTo q c = false := by simp [addingTo, hp, Ne.symm hq]
    rw [Function.update_of_ne hq]
    unfold counted
    rw [any_adding_erase hc, hadd, move, List.any_cons, hno]
    rfl

/-- The counters of two classes. -/
theorem resetPending_incPending (w : Worker) (h : p ≠ q) :
    (w.incPending p).resetPending q = (w.resetPending q).incPending p := by
  have hhigh : q = .high →
      Function.update w.pending p (w.pending p + 1) .high = w.pending .high := by
    rintro rfl
    exact Function.update_of_ne h.symm _ _
  unfold Worker.resetPending Worker.incPending
  dsimp only
  rw [Function.update_comm h, Function.update_of_ne h]
  by_cases hq : q = .high
  · rw [if_pos hq, if_pos hq, hhigh hq]
  · rw [if_neg hq, if_neg hq]

/-- The increment of a counter commutes with what is left of the worker's section of another
class. -/
theorem ahead_inc (hw : s.workerInside p = false) (f : Priority → List EdpEvent)
    (calls : List DispatchCall) (hist : List Obs) :
    ({ ahead { s with worker := s.worker.incPending p, calls := calls, hist := hist } with
        queue := f } : Worker) = { s.ahead.incPending p with queue := f } := by
  have hpc : (s.worker.incPending p).pc = s.worker.pc := rfl
  unfold ahead
  dsimp only
  rw [hpc]
  split
  · rename_i q hpc hsect
    have hne : p ≠ q := by
      rintro rfl
      simp [workerInside, hpc, hsect] at hw
    rw [resetPending_incPending s.worker hne]
    rfl
  · rfl
  · rfl

/-- The signal, which ends the call, is seen as it is. -/
theorem abs_signal (hc : c ∈ s.calls) (hpc : c.pc = .signal) (hist : List Obs) :
    abs { s with worker := s.worker.signal, calls := s.calls.erase c, hist := hist } =
      s.abs.signal := by
  have hcounted : counted { s with
      worker := s.worker.signal, calls := s.calls.erase c, hist := hist } = s.counted := by
    funext q
    have hno : addingTo q c = false := addingTo_eq_false (by rw [hpc]; decide) q
    unfold counted
    rw [any_adding_erase hc, hno, Bool.false_or, Worker.signal_queue]
  have hcv : s.abs.cvCount = s.worker.cvCount := by
    unfold abs ahead
    dsimp only
    split <;> rfl
  rw [abs, hcounted, Worker.signal, Worker.signal, hcv]
  unfold abs ahead
  dsimp only
  by_cases h : s.worker.cvCount ≠ 0
  · rw [if_pos h, if_pos h]
  · rw [if_neg h, if_neg h]
    dsimp only
    split <;> rfl

/-- The statements of a call. -/
theorem simulates_advance (hs : s.Exclusive) {d : WorkerSys} (hd : Simulates s d)
    (h : LockedSys.step s (.advance c) = some t) :
    ∃ bs e, StepSystem.run WorkerSys.step d bs = some e ∧ Simulates t e := by
  cases step_cases h with
  | lock _ p hc hp hpc hfree =>
    have hcounted := counted_move hc .add (by rw [hpc]; decide) (by decide)
    refine ⟨[], d, rfl, hd.stutter ?_ (toSignal_move hc ?_) rfl⟩
    · show ({ s.ahead with queue := (s.move c .add).counted } : Worker) = s.abs
      rw [funext hcounted]
      rfl
    · simp [signals, hpc]
  | unlock _ p hc hp hpc =>
    have hcounted := counted_move hc .signal (by rw [hpc]; decide) (by decide)
    refine ⟨[], d, rfl, hd.stutter ?_ (toSignal_move hc ?_) rfl⟩
    · show ({ s.ahead with queue := (s.move c .signal).counted } : Worker) = s.abs
      rw [funext hcounted]
      rfl
    · simp [signals, hpc]
  | add _ p hc hp hpc =>
    refine ⟨[], d, rfl, hd.stutter ?_ (toSignal_move hc ?_) rfl⟩
    · rw [abs, funext (counted_add hs hc hp hpc)]
      exact ahead_withQueue s _ _ _ _
    · simp [signals, hpc]
  | inc _ p hc hp hpc =>
    have hin : insideOf p c = true := insideOf_of_inside hp (by rw [hpc]; rfl)
    have hstep : WorkerSys.step d (.dispatch c.ev) = some ⟨d.worker.enqueue p c.ev,
        c.ev :: d.signalling, .queued c.ev :: d.hist⟩ := by
      rw [WorkerSys.step, hp]
    refine ⟨[.dispatch c.ev], _, StepSystem.run_cons.2 ⟨_, hstep, rfl⟩, ?_, ?_, ?_⟩
    · have habs : abs { s.move c .unlock with
          worker := s.worker.incPending p, hist := .queued c.ev :: s.hist } =
          s.abs.enqueue p c.ev := by
        rw [abs, counted_inc hs hc hp hpc, ← Worker.enqueue_eq]
        exact ahead_inc (hs.alone hc hin).1 _ _ _
      exact (congrArg (Worker.enqueue · p c.ev) hd.worker).trans habs.symm
    · have hno : signals c = false := by simp [signals, hpc]
      have hsig := hd.signalling.trans (toSignal_erase hc)
      rw [hno] at hsig
      exact hsig.cons c.ev
    · rw [hd.hist]
  | signal _ p hc hp hpc =>
    have hyes : signals c = true := by simp [signals, hpc]
    have hsig := hd.signalling.trans (toSignal_erase hc)
    rw [hyes] at hsig
    have hmem : c.ev ∈ d.signalling := hsig.mem_iff.2 List.mem_cons_self
    have hstep : WorkerSys.step d (.signal c.ev) = some ⟨d.worker.signal,
        d.signalling.erase c.ev, .returned c.ev :: d.hist⟩ := if_pos hmem
    refine ⟨[.signal c.ev], _, StepSystem.run_cons.2 ⟨_, hstep, rfl⟩, ?_, ?_, ?_⟩
    · exact (congrArg Worker.signal hd.worker).trans (abs_signal hc hpc _).symm
    · refine (hsig.erase c.ev).trans ?_
      simp
    · rw [hd.hist]

/-- **A statement is a step of `WorkerSys` or is not seen.** -/
theorem simulates_step {a : Act} (hs : s.Exclusive) {d : WorkerSys} (hd : Simulates s d)
    (h : LockedSys.step s a = some t) :
    ∃ bs e, StepSystem.run WorkerSys.step d bs = some e ∧ Simulates t e := by
  cases a with
  | work => exact simulates_work hs hd h
  | advance c => exact simulates_advance hs hd h
  | call ev =>
    refine ⟨[], d, rfl, ?_⟩
    cases step_cases h with
    | refused _ _ => exact hd
    | call _ p _ =>
      refine hd.stutter ?_ (.refl _) rfl
      have hcounted : ∀ q, counted { s with calls := ⟨.lock, ev⟩ :: s.calls } q = s.counted q := by
        intro q
        have hno : addingTo q ⟨.lock, ev⟩ = false := rfl
        unfold counted
        rw [List.any_cons, hno, Bool.false_or]
      rw [abs, funext hcounted]
      rfl
  | stop =>
    cases step_cases h with
    | stop =>
      refine ⟨[.stop], _, StepSystem.run_cons.2 ⟨_, rfl, rfl⟩, ?_, hd.signalling, hd.hist⟩
      have hstop : abs { s with worker := s.worker.stop } = s.abs.stop := by
        unfold abs ahead counted
        dsimp only [Worker.stop]
        split <;> rfl
      exact (congrArg Worker.stop hd.worker).trans hstop.symm

/-- **The sections are atomic.**  Every run of the statements is a run of `WorkerSys`. -/
theorem simulated {acts : List Act} (hrun : StepSystem.run step init acts = some s) :
    s.Exclusive ∧
      ∃ bs d, StepSystem.run WorkerSys.step WorkerSys.init bs = some d ∧ Simulates s d := by
  obtain ⟨bs, d, hd, hs, hsim⟩ := StepSystem.run_simulates
    (R := fun s d => Exclusive s ∧ Simulates s d)
    (fun s a t d hR h => by
      obtain ⟨bs, e, he, hsim⟩ := simulates_step hR.1 hR.2 h
      exact ⟨bs, e, he, hR.1.step h, hsim⟩)
    (And.intro exclusive_init simulates_init) hrun
  exact ⟨hs, bs, d, hd, hsim⟩

/-- While the lock is free nobody is inside. -/
theorem Exclusive.nobody (hs : s.Exclusive) (hfree : s.lock p = false) :
    s.workerInside p = false ∧ ∀ c ∈ s.calls, insideOf p c = false := by
  have hone := hs.one p
  rw [hfree, Bool.toNat_false] at hone
  constructor
  · cases hw : s.workerInside p with
    | false => rfl
    | true =>
      rw [hw, Bool.toNat_true] at hone
      omega
  · have hzero : s.callsInside p = 0 := by omega
    intro c hc
    simpa using List.countP_eq_zero.1 hzero c hc

/-- What is left of the worker's section leaves the counters of the other classes. -/
theorem abs_pending (hw : s.workerInside p = false) : s.abs.pending p = s.worker.pending p := by
  unfold abs ahead
  dsimp only
  split
  · rename_i q hpc hsect
    have hne : p ≠ q := by
      rintro rfl
      simp [workerInside, hpc, hsect] at hw
    exact Function.update_of_ne hne _ _
  · rfl
  · rfl

end

/-- **A counter is the length of its queue** whenever the lock of the class is free, in every
state of every run of the worker and any number of dispatchers, so that a test of the counter
is one of the queue. -/
theorem pending_eq_length {acts : List Act} {s : LockedSys}
    (hrun : StepSystem.run step init acts = some s) {p : Priority} (hfree : s.lock p = false) :
    s.worker.pending p = (s.worker.queue p).length ∧
      (s.worker.pending p ≠ 0 ↔ s.worker.queue p ≠ []) := by
  obtain ⟨hs, bs, d, hd, hsim⟩ := simulated hrun
  have hcounted : d.worker.Counted :=
    StepSystem.run_preserves (fun _ _ _ hs h => WorkerSys.counted_step hs h) Worker.counted_start hd
  obtain ⟨hworker, hcalls⟩ := hs.nobody hfree
  have hlen : s.worker.pending p = (s.worker.queue p).length := by
    have hp := hcounted p
    rw [hsim.worker, abs_pending hworker] at hp
    exact hp.trans (congrArg List.length (counted_eq_queue hcalls))
  refine ⟨hlen, ?_⟩
  rw [hlen, Ne, List.length_eq_zero_iff]

/-- A dispatch to `NORM` and the worker's section that takes the event. -/
theorem pending_eq_length_norm :
    ∃ acts s, StepSystem.run step init acts = some s ∧ s.worker.events.length = 1 ∧
      s.worker.pending .norm = (s.worker.queue .norm).length ∧
      (s.worker.pending .norm ≠ 0 ↔ s.worker.queue .norm ≠ []) :=
  have hrun := Eq.refl (StepSystem.run step init
    ([Act.call ⟨7, 0, 1, -1, 0, 0, 0, 1⟩, .advance ⟨.lock, ⟨7, 0, 1, -1, 0, 0, 0, 1⟩⟩,
      .advance ⟨.add, ⟨7, 0, 1, -1, 0, 0, 0, 1⟩⟩, .advance ⟨.inc, ⟨7, 0, 1, -1, 0, 0, 0, 1⟩⟩,
      .advance ⟨.unlock, ⟨7, 0, 1, -1, 0, 0, 0, 1⟩⟩,
      .advance ⟨.signal, ⟨7, 0, 1, -1, 0, 0, 0, 1⟩⟩] ++ List.replicate 21 Act.work))
  ⟨_, _, hrun, rfl, pending_eq_length hrun rfl⟩

end LockedSys
end EdpIo
