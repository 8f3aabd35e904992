/-
# The sections of the worker and of its dispatchers, statement by statement

`WorkerSys` takes a section under a queue's lock as one step.  Here each statement is one:
`spi_spin_lock`, the splice or `list_add_tail`, the reset or increment of the counter, and
`spi_spin_unlock`, so that other threads, at their own statements, come between any two.  The
calls of `__edp_dispatch` in progress are kept in a list; a call is where it is and its event.

`Exclusive`: as many parties are inside the section of a class as its lock is held, none or
one.  What this says of the queues and counters is read off in `EdpIo.Worker.Atomic`.
-/

import EdpIo.Lib.Pool
import EdpIo.Worker.System

namespace EdpIo

/-- The statement of its locked section at which the worker is, with the lock held. -/
inductive SectPc
  | splice
  | reset
  | unlock
deriving DecidableEq, Repr

/-- The statement at which a call of `__edp_dispatch` is, once it has chosen its queue. -/
inductive EnqueuePc
  | lock
  | add
  | inc
  | unlock
  | signal
deriving DecidableEq, Repr

/-- With the lock held. -/
def EnqueuePc.inside : EnqueuePc → Bool
  | .add | .inc | .unlock => true
  | .lock | .signal => false

/-- A call of `__edp_dispatch(ev)`. -/
structure DispatchCall where
  pc : EnqueuePc
  ev : EdpEvent
deriving DecidableEq, Repr

namespace Worker

/-- `if(!list_empty(&wkr->wk_p_events)) list_splice_init(..)`, or `list_splice_tail_init`. -/
def takeQueue (w : Worker) (p : Priority) : Worker :=
  if w.queue p = [] then w
  else
    { w with
      events := if splicesFront p then w.queue p ++ w.events else w.events ++ w.queue p
      queue := Function.update w.queue p [] }

/-- `atomic_reset(&wkr->wk_p_pending)`, whose result `high` keeps in `ratio`. -/
def resetPending (w : Worker) (p : Priority) : Worker :=
  { w with
    pending := Function.update w.pending p 0
    ratio := if p = .high then toInt32 (w.pending .high) else w.ratio }

/-- What follows the section on the worker's own variables. -/
def endSect (w : Worker) (p : Priority) : Worker :=
  { w with
    ratio := if p = .norm then w.ratio.tdiv highNormRatio else w.ratio
    high := if p = .high then w.ratio ≠ 0 else w.high
    pc := .loop p }

/-- `list_add_tail(&ev->ev_node, lh)`. -/
def addTail (w : Worker) (p : Priority) (ev : EdpEvent) : Worker :=
  { w with queue := Function.update w.queue p (w.queue p ++ [ev]) }

/-- `atomic_inc(pendings)`. -/
def incPending (w : Worker) (p : Priority) : Worker :=
  { w with pending := Function.update w.pending p (w.pending p + 1) }

/-- An empty queue need not be tested for. -/
theorem takeQueue_eq (w : Worker) (p : Priority) :
    w.takeQueue p =
      { w with
        events := if splicesFront p then w.queue p ++ w.events else w.events ++ w.queue p
        queue := Function.update w.queue p [] } := by
  unfold takeQueue
  split
  · rename_i hq
    have hupd : Function.update w.queue p [] = w.queue := by
      rw [← hq, Function.update_eq_self]
    rw [hupd, hq]
    simp
  · rfl

/-- The statements of the worker's section make up `splice`. -/
theorem splice_eq (w : Worker) (p : Priority) :
    ((w.takeQueue p).resetPending p).endSect p = w.splice p := by
  rw [takeQueue_eq]
  cases p <;> simp [resetPending, endSect, splice]

/-- The statements of a dispatcher's section make up `enqueue`. -/
theorem enqueue_eq (w : Worker) (p : Priority) (ev : EdpEvent) :
    (w.addTail p ev).incPending p = w.enqueue p ev := rfl

end Worker

/-- A worker with its locks and the calls of `__edp_dispatch` in progress.  `sect` is where the
worker is inside a section; `hist` is the record of `WorkerSys`, in which a dispatch is queued
when it has raised the counter. -/
structure LockedSys where
  worker : Worker
  sect : Option SectPc
  lock : Priority → Bool
  calls : List DispatchCall
  hist : List Obs

namespace LockedSys

/-- Before any dispatch. -/
def init : LockedSys := ⟨Worker.start, none, fun _ => false, [], []⟩

/-- The statements of the worker and of the calls. -/
inductive Act
  /-- The worker's next statement. -/
  | work
  /-- `__edp_dispatch(ev)` is called. -/
  | call (ev : EdpEvent)
  /-- The next statement of a call. -/
  | advance (c : DispatchCall)
  /-- `wk_status = STOP` in `worker_fini`. -/
  | stop
deriving DecidableEq, Repr

/-- The call goes on to another statement. -/
def move (s : LockedSys) (c : DispatchCall) (pc : EnqueuePc) : LockedSys :=
  { s with calls := ⟨pc, c.ev⟩ :: s.calls.erase c }

/-- One statement; `none` where it waits for a lock. -/
def step (s : LockedSys) : Act → Option LockedSys
  | .work =>
    match s.worker.pc, s.sect with
    | .sect p, none =>
      if s.lock p then none
      else some { s with sect := some .splice, lock := Function.update s.lock p true }
    | .sect p, some .splice => some { s with worker := s.worker.takeQueue p, sect := some .reset }
    | .sect p, some .reset =>
      some { s with worker := s.worker.resetPending p, sect := some .unlock }
    | .sect p, some .unlock =>
      some { s with
        worker := s.worker.endSect p
        sect := none
        lock := Function.update s.lock p false }
    | _, _ => s.worker.next.map fun r => { s with worker := r.1, hist := r.2.obs ++ s.hist }
  | .call ev =>
    match ev.class? with
    | none => some s
    | some _ => some { s with calls := ⟨.lock, ev⟩ :: s.calls }
  | .advance c =>
    if c ∈ s.calls then
      c.ev.class?.bind fun p =>
        match c.pc with
        | .lock =>
          if s.lock p then none
          else some { s.move c .add with lock := Function.update s.lock p true }
        | .add => some { s.move c .inc with worker := s.worker.addTail p c.ev }
        | .inc =>
          some { s.move c .unlock with
            worker := s.worker.incPending p
            hist := .queued c.ev :: s.hist }
        | .unlock => some { s.move c .signal with lock := Function.update s.lock p false }
        | .signal =>
          some { s with
            worker := s.worker.signal
            calls := s.calls.erase c
            hist := .returned c.ev :: s.hist }
    else none
  | .stop => some { s with worker := s.worker.stop }

/-- What a statement can do. -/
inductive Step (s : LockedSys) : Act → LockedSys → Prop
  | take (p : Priority) (hpc : s.worker.pc = .sect p) (hs : s.sect = none)
      (hfree : s.lock p = false) :
      Step s .work { s with sect := some .splice, lock := Function.update s.lock p true }
  | splice (p : Priority) (hpc : s.worker.pc = .sect p) (hs : s.sect = some .splice) :
      Step s .work { s with worker := s.worker.takeQueue p, sect := some .reset }
  | reset (p : Priority) (hpc : s.worker.pc = .sect p) (hs : s.sect = some .reset) :
      Step s .work { s with worker := s.worker.resetPending p, sect := some .unlock }
  | leave (p : Priority) (hpc : s.worker.pc = .sect p) (hs : s.sect = some .unlock) :
      Step s .work { s with
        worker := s.worker.endSect p
        sect := none
        lock := Function.update s.lock p false }
  | next (w : Worker) (l : Worker.Label) (hpc : ∀ p, s.worker.pc ≠ .sect p)
      (h : s.worker.next = some (w, l)) :
      Step s .work { s with worker := w, hist := l.obs ++ s.hist }
  | refused (ev : EdpEvent) (h : ev.class? = none) : Step s (.call ev) s
  | call (ev : EdpEvent) (p : Priority) (h : ev.class? = some p) :
      Step s (.call ev) { s with calls := ⟨.lock, ev⟩ :: s.calls }
  | lock (c : DispatchCall) (p : Priority) (hc : c ∈ s.calls) (hp : c.ev.class? = some p)
      (hpc : c.pc = .lock) (hfree : s.lock p = false) :
      Step s (.advance c) { s.move c .add with lock := Function.update s.lock p true }
  | add (c : DispatchCall) (p : Priority) (hc : c ∈ s.calls) (hp : c.ev.class? = some p)
      (hpc : c.pc = .add) :
      Step s (.advance c) { s.move c .inc with worker := s.worker.addTail p c.ev }
  | inc (c : DispatchCall) (p : Priority) (hc : c ∈ s.calls) (hp : c.ev.class? = some p)
      (hpc : c.pc = .inc) :
      Step s (.advance c) { s.move c .unlock with
        worker := s.worker.incPending p
        hist := .queued c.ev :: s.hist }
  | unlock (c : DispatchCall) (p : Priority) (hc : c ∈ s.calls) (hp : c.ev.class? = some p)
      (hpc : c.pc = .unlock) :
      Step s (.advance c) { s.move c .signal with lock := Function.update s.lock p false }
  | signal (c : DispatchCall) (p : Priority) (hc : c ∈ s.calls) (hp : c.ev.class? = some p)
      (hpc : c.pc = .signal) :
      Step s (.advance c) { s with
        worker := s.worker.signal
        calls := s.calls.erase c
        hist := .returned c.ev :: s.hist }
  | stop : Step s .stop { s with worker := s.worker.stop }

/-- **The inversion lemma of the statements.** -/
theorem step_cases {s t : LockedSys} {a : Act} (h : step s a = some t) : s.Step a t := by
  cases a with
  | work =>
    rw [step] at h
    split at h
    · rename_i p hpc hs
      split at h
      · cases h
      · obtain rfl := Option.some.inj h
        exact .take p hpc hs (by simpa using ‹¬ s.lock p = true›)
    · obtain rfl := Option.some.inj h
      exact .splice _ ‹_› ‹_›
    · obtain rfl := Option.some.inj h
      exact .reset _ ‹_› ‹_›
    · obtain rfl := Option.some.inj h
      exact .leave _ ‹_› ‹_›
    · rename_i hnone hsplice hreset hunlock
      obtain ⟨⟨w, l⟩, hn, rfl⟩ := Option.map_eq_some_iff.1 h
      refine .next w l (fun p hpc => ?_) hn
      -- at a section one of the four statements above is next
      cases hs : s.sect with
      | none => exact hnone p hpc hs
      | some pc =>
        cases pc with
        | splice => exact hsplice p hpc hs
        | reset => exact hreset p hpc hs
        | unlock => exact hunlock p hpc hs
  | call ev =>
    rw [step] at h
    split at h
    · obtain rfl := Option.some.inj h
      exact .refused ev ‹_›
    · obtain rfl := Option.some.inj h
      exact .call ev _ ‹_›
  | advance c =>
    rw [step] at h
    split at h
    · rename_i hc
      obtain ⟨p, hp, h⟩ := Option.bind_eq_some_iff.1 h
      split at h
      · split at h
        · cases h
        · obtain rfl := Option.some.inj h
          exact .lock c p hc hp ‹_› (by simpa using ‹¬ s.lock p = true›)
      · obtain rfl := Option.some.inj h
        exact .add c p hc hp ‹_›
      · obtain rfl := Option.some.inj h
        exact .inc c p hc hp ‹_›
      · obtain rfl := Option.some.inj h
        exact .unlock c p hc hp ‹_›
      · obtain rfl := Option.some.inj h
        exact .signal c p hc hp ‹_›
    · cases h
  | stop =>
    obtain rfl := Option.some.inj h
    exact .stop

/-! ### Mutual exclusion -/

/-- The worker is inside the section of `p`. -/
def workerInside (s : LockedSys) (p : Priority) : Bool :=
  s.sect.isSome && decide (s.worker.pc = .sect p)

/-- Whether a call is inside the section of `p`. -/
def insideOf (p : Priority) (c : DispatchCall) : Bool :=
  c.pc.inside && decide (c.ev.class? = some p)

/-- The calls inside the section of `p`. -/
def callsInside (s : LockedSys) (p : Priority) : ℕ := s.calls.countP (insideOf p)

/-- As many are inside a section as its lock is held; a call between its two writes has its
event at the end of the queue. -/
structure Exclusive (s : LockedSys) : Prop where
  one : ∀ p, (s.workerInside p).toNat + s.callsInside p = (s.lock p).toNat
  place : s.sect ≠ none → ∃ p, s.worker.pc = .sect p
  added : ∀ c ∈ s.calls, c.pc = .inc → ∀ p, c.ev.class? = some p →
    ∃ q, s.worker.queue p = q ++ [c.ev]

theorem exclusive_init : Exclusive init where
  one _ := rfl
  place h := absurd rfl h
  added _ h := absurd h List.not_mem_nil

section

variable {s t : LockedSys} {p q : Priority} {c d : DispatchCall}

theorem insideOf_eq (hp : c.ev.class? = some p) (pc : EnqueuePc) (q : Priority) :
    insideOf q ⟨pc, c.ev⟩ = (pc.inside && decide (p = q)) := by
  simp [insideOf, hp]

theorem insideOf_of_inside (hp : c.ev.class? = some p) (hpc : c.pc.inside = true) :
    insideOf p c = true := by
  simp [insideOf, hp, hpc]

/-- What the move of a call does to the calls inside. -/
theorem callsInside_move (hc : c ∈ s.calls) (pc : EnqueuePc) (q : Priority) :
    (s.move c pc).callsInside q + (insideOf q c).toNat =
      s.callsInside q + (insideOf q ⟨pc, c.ev⟩).toNat := by
  have hswap := Pool.countP_swap hc (some ⟨pc, c.ev⟩) (insideOf q)
  cases hd : insideOf q c <;> cases hd' : insideOf q ⟨pc, c.ev⟩ <;>
    simpa [callsInside, move, hd, hd'] using hswap

/-- Outside its sections the worker is at no statement of one. -/
theorem Exclusive.outside (hs : s.Exclusive) (hpc : ∀ p, s.worker.pc ≠ .sect p) :
    s.sect = none := by
  refine not_not.1 fun hne => ?_
  obtain ⟨p, hp⟩ := hs.place hne
  exact hpc p hp

/-- Nobody else is inside with a call. -/
theorem Exclusive.alone (hs : s.Exclusive) (hc : c ∈ s.calls) (hin : insideOf p c = true) :
    s.workerInside p = false ∧ ∀ d ∈ s.calls.erase c, insideOf p d = false := by
  have hone := hs.one p
  have hlock := Bool.toNat_le (s.lock p)
  have hperm := (List.perm_cons_erase hc).countP_eq (insideOf p)
  rw [List.countP_cons, if_pos hin] at hperm
  unfold callsInside at hone
  constructor
  · cases hw : s.workerInside p with
    | false => rfl
    | true =>
      rw [hw] at hone
      simp only [Bool.toNat_true] at hone
      omega
  · have hzero : (s.calls.erase c).countP (insideOf p) = 0 := by omega
    intro d hd
    simpa using List.countP_eq_zero.1 hzero d hd

/-- Nobody is inside with the worker. -/
theorem Exclusive.no_call (hs : s.Exclusive) (hw : s.workerInside p = true) (hc : c ∈ s.calls) :
    insideOf p c = false := by
  cases hin : insideOf p c with
  | false => rfl
  | true => exact absurd (hw.symm.trans (hs.alone hc hin).1) (by decide)

/-- Outside the sections the worker's step leaves the queues alone. -/
theorem next_queue {w w' : Worker} {l : Worker.Label} (hpc : ∀ p, w.pc ≠ .sect p)
    (h : w.next = some (w', l)) : w'.queue = w.queue := by
  cases Worker.next_step h with
  | splice p hp => exact absurd hp (hpc p)
  | _ => rfl

/-- A step that leaves the calls, the locks and where the worker is inside. -/
theorem Exclusive.frame (hs : s.Exclusive) {w : Worker} {sect : Option SectPc}
    (hin : ∀ q, (sect.isSome && decide (w.pc = .sect q)) = s.workerInside q)
    (hplace : sect ≠ none → ∃ p, w.pc = .sect p)
    (hadded : ∀ c ∈ s.calls, ∀ p, insideOf p c = true → w.queue p = s.worker.queue p)
    (hist : List Obs) : Exclusive { s with worker := w, sect := sect, hist := hist } where
  one q := by
    have hone := hs.one q
    rw [← hin q] at hone
    exact hone
  place := hplace
  added c hc hpc p hp := by
    have hq := hadded c hc p (insideOf_of_inside hp (by rw [hpc]; rfl))
    obtain ⟨q, hq'⟩ := hs.added c hc hpc p hp
    exact ⟨q, hq.trans hq'⟩

/-- The step of the worker. -/
theorem Exclusive.work (hs : s.Exclusive) (h : LockedSys.step s .work = some t) : t.Exclusive := by
  cases step_cases h with
  | take p hpc hsect hfree =>
    refine ⟨fun q => ?_, fun _ => ⟨p, hpc⟩, hs.added⟩
    have hone := hs.one q
    by_cases hq : p = q
    · subst hq
      simpa [workerInside, callsInside, hpc, hsect, hfree] using hone
    · simpa [workerInside, callsInside, hpc, hsect, hq, Ne.symm hq] using hone
  | splice p hpc hsect =>
    have hpc' : (s.worker.takeQueue p).pc = .sect p := by rw [Worker.takeQueue_eq, hpc]
    refine hs.frame (fun q => ?_) (fun _ => ⟨p, hpc'⟩) (fun c hc q hin => ?_) s.hist
    · simp [workerInside, hpc, hpc', hsect]
    · have hqp : q ≠ p := by
        rintro rfl
        have hw : s.workerInside q = true := by simp [workerInside, hpc, hsect]
        exact absurd (hin.symm.trans (hs.no_call hw hc)) (by decide)
      simp [Worker.takeQueue_eq, hqp]
  | reset p hpc hsect =>
    refine hs.frame (w := s.worker.resetPending p) (fun q => ?_) (fun _ => ⟨p, hpc⟩)
      (fun _ _ _ _ => rfl) s.hist
    rw [workerInside, hsect]
    rfl
  | leave p hpc hsect =>
    refine ⟨fun q => ?_, fun h => absurd rfl h, hs.added⟩
    have hone := hs.one q
    by_cases hq : p = q
    · subst hq
      have hw : s.workerInside p = true := by simp [workerInside, hpc, hsect]
      have hlock := Bool.toNat_le (s.lock p)
      rw [hw, Bool.toNat_true] at hone
      have hnone : s.callsInside p = 0 := by omega
      simpa [workerInside, callsInside] using hnone
    · simpa [workerInside, callsInside, hpc, hsect, hq, Ne.symm hq] using hone
  | next w l hpc hn =>
    have hsect := hs.outside hpc
    refine hs.frame (fun q => ?_) (fun h => absurd hsect h) (fun _ _ _ _ => ?_) _
    · simp [workerInside, hsect]
    · rw [next_queue hpc hn]

/-- A call that stays inside, or outside. -/
theorem Exclusive.move_stay (hs : s.Exclusive) (hc : c ∈ s.calls)
    {pc : EnqueuePc} (hin : pc.inside = c.pc.inside) {w : Worker} (hist : List Obs)
    (hw : w.pc = s.worker.pc)
    (hadded : ∀ d ∈ (s.move c pc).calls, d.pc = .inc → ∀ q, d.ev.class? = some q →
      ∃ l, w.queue q = l ++ [d.ev]) :
    Exclusive { s.move c pc with worker := w, hist := hist } where
  one q := by
    have hmove := callsInside_move hc pc q
    have hsame : insideOf q ⟨pc, c.ev⟩ = insideOf q c := by simp [insideOf, hin]
    rw [hsame, Nat.add_right_cancel_iff] at hmove
    have hone := hs.one q
    rw [← hmove] at hone
    show (s.sect.isSome && decide (w.pc = .sect q)).toNat + (s.move c pc).callsInside q = _
    rw [hw]
    exact hone
  place h := by
    obtain ⟨q, hq⟩ := hs.place h
    exact ⟨q, hw.trans hq⟩
  added := hadded

/-- A call that takes the lock or gives it back. -/
theorem Exclusive.move_lock (hs : s.Exclusive) (hc : c ∈ s.calls) (hp : c.ev.class? = some p)
    {pc : EnqueuePc} {b : Bool} (hin : pc.inside = b) (hout : c.pc.inside = !b)
    (hlock : s.lock p = !b) (hpc : pc ≠ .inc) :
    Exclusive { s.move c pc with lock := Function.update s.lock p b } where
  one q := by
    have hmove := callsInside_move hc pc q
    have hone := hs.one q
    have hc' : (insideOf q c).toNat = (c.pc.inside && decide (p = q)).toNat :=
      congrArg Bool.toNat (insideOf_eq hp c.pc q)
    rw [hc', insideOf_eq hp, hin, hout] at hmove
    show (s.workerInside q).toNat + (s.move c pc).callsInside q =
      (Function.update s.lock p b q).toNat
    by_cases hq : p = q
    · subst hq
      rw [hlock] at hone
      rw [Function.update_self]
      simp only [decide_true, Bool.and_true] at hmove
      omega
    · rw [Function.update_of_ne (Ne.symm hq)]
      simp only [hq, decide_false, Bool.and_false, Bool.toNat_false] at hmove
      omega
  place := hs.place
  added d hd hinc q hq := by
    rcases List.mem_cons.1 hd with rfl | hd
    · exact absurd hinc hpc
    · exact hs.added d (List.mem_of_mem_erase hd) hinc q hq

/-- The statement of a call. -/
theorem Exclusive.advance (hs : s.Exclusive) (h : LockedSys.step s (.advance c) = some t) :
    t.Exclusive := by
  cases step_cases h with
  | lock _ p hc hp hpc hfree =>
    exact hs.move_lock hc hp rfl (by rw [hpc]; rfl) hfree (by decide)
  | unlock _ p hc hp hpc =>
    have hin : insideOf p c = true := insideOf_of_inside hp (by rw [hpc]; rfl)
    have hlock : s.lock p = true := by
      have hone := hs.one p
      have hpos := List.countP_pos_iff.2 ⟨c, hc, hin⟩
      cases hl : s.lock p with
      | true => rfl
      | false =>
        rw [hl] at hone
        simp only [callsInside, Bool.toNat_false] at hone
        omega
    exact hs.move_lock hc hp rfl (by rw [hpc]; rfl) hlock (by decide)
  | add _ p hc hp hpc =>
    have hin : insideOf p c = true := insideOf_of_inside hp (by rw [hpc]; rfl)
    refine hs.move_stay hc (by rw [hpc]; rfl) s.hist rfl fun d hd hinc q hq => ?_
    rcases List.mem_cons.1 hd with rfl | hd
    · obtain rfl := Option.some.inj (hp.symm.trans hq)
      exact ⟨s.worker.queue p, by simp [Worker.addTail]⟩
    · -- the others between their writes are in other sections
      have hqp : q ≠ p := by
        rintro rfl
        have hno := (hs.alone hc hin).2 d hd
        exact Bool.false_ne_true (hno.symm.trans (insideOf_of_inside hq (by rw [hinc]; rfl)))
      obtain ⟨l, hl⟩ := hs.added d (List.mem_of_mem_erase hd) hinc q hq
      exact ⟨l, by simpa [Worker.addTail, hqp] using hl⟩
  | inc _ p hc hp hpc =>
    refine hs.move_stay hc (by rw [hpc]; rfl) _ rfl fun d hd hinc q hq => ?_
    rcases List.mem_cons.1 hd with rfl | hd
    · cases hinc
    · exact hs.added d (List.mem_of_mem_erase hd) hinc q hq
  | signal _ p hc hp hpc =>
    refine ⟨fun q => ?_, ?_, fun d hd hinc q hq => ?_⟩
    · have hone := hs.one q
      have hswap := Pool.countP_swap hc none (insideOf q)
      have hout : insideOf q c = false := by simp [insideOf, hpc, EnqueuePc.inside]
      simp only [Option.toList, List.nil_append, hout, Bool.false_eq_true, if_false, Option.any,
        Nat.add_zero] at hswap
      simpa [workerInside, callsInside, hswap] using hone
    · simpa using hs.place
    · simpa using hs.added d (List.mem_of_mem_erase hd) hinc q hq

theorem Exclusive.step {a : Act} (hs : s.Exclusive) (h : LockedSys.step s a = some t) :
    t.Exclusive := by
  cases a with
  | work => exact hs.work h
  | advance c => exact hs.advance h
  | call ev =>
    cases step_cases h with
    | refused _ _ => exact hs
    | call _ p _ =>
      refine ⟨fun q => ?_, hs.place, fun c hc hpc => ?_⟩
      · have hone := hs.one q
        simpa [workerInside, callsInside, insideOf, EnqueuePc.inside] using hone
      · rcases List.mem_cons.1 hc with rfl | hc
        · cases hpc
        · exact hs.added c hc hpc
  | stop =>
    cases step_cases h with
    | stop => exact ⟨hs.one, hs.place, hs.added⟩

end

end LockedSys
end EdpIo
