/-
# The worker's sleep, statement by statement

`WorkerSys` and `LockedSys` take `__spi_convar_wait` and `__spi_convar_signal` as a step each, and
a sleeping worker may wake at any time.  Here each statement of the two functions is a step: the
mutex is taken and given back, `pthread_cond_wait` gives it back and goes to sleep in one step and
takes it again when it is woken, by a `pthread_cond_signal` or for no reason.  The one who holds
the mutex is kept with the statement at which it is (`Holder`), so that nobody else is inside.

Every step is one of `LockedSys` or leaves its state as it is (`locked_run`), so nothing that
holds there is lost.  What is new is `Latched`: a worker that sleeps and has not been woken finds
the latch clear, or the one who has set it has its `pthread_cond_signal` still to do.  With
`WorkerSys.Awake` this gives `asleep_idle`, and from it that a sleeping worker with a queue that is
not empty is woken by the dispatchers that are already on their way (`dispatchers_wake`).
-/

import EdpIo.Worker.Atomic
import EdpIo.Worker.Wakeup

namespace EdpIo

/-- The statement of `__spi_convar_signal` at which a call is, with the mutex held. -/
inductive SignalPc
  /-- `if(cv->cv_count != 0)`, with the assignment of the other branch. -/
  | test
  /-- `pthread_cond_signal`. -/
  | cond
  /-- `pthread_mutex_unlock`, of either branch. -/
  | unlock
deriving DecidableEq, Repr

/-- The statement of `__spi_convar_wait` at which the worker is, with the mutex held. -/
inductive WaitPc
  /-- `if(cv->cv_count == 0)`, with the start of `pthread_cond_wait`. -/
  | test
  /-- `cv->cv_count = 0`. -/
  | reset
  | unlock
deriving DecidableEq, Repr

/-- Who holds `wk_event.cv_mutex`. -/
inductive Holder
  | signal (c : DispatchCall) (pc : SignalPc)
  | wait (pc : WaitPc)
deriving DecidableEq, Repr

/-- A worker and its dispatchers with `wk_event`; `woken` says of a worker that is in
`pthread_cond_wait` that it has been woken and is to take the mutex again. -/
structure ConvarSys where
  base : LockedSys
  holder : Option Holder
  woken : Bool

namespace ConvarSys

/-- Before any dispatch. -/
def init : ConvarSys := ⟨LockedSys.init, none, false⟩

/-- The statements of the worker and of the calls. -/
inductive Act
  /-- The worker's next statement. -/
  | work
  /-- `__edp_dispatch(ev)` is called. -/
  | call (ev : EdpEvent)
  /-- The next statement of a call up to its `pthread_mutex_lock`. -/
  | advance (c : DispatchCall)
  /-- The next statement of the call that holds the mutex. -/
  | hold
  /-- `pthread_cond_wait` returns without a signal. -/
  | spurious
  /-- `wk_status = STOP` in `worker_fini`. -/
  | stop
deriving DecidableEq, Repr

/-- The worker's next statement where it does not hold the mutex. -/
def workOutside (s : ConvarSys) : Option ConvarSys :=
  match s.base.worker.pc with
  | .wait => if s.holder = none then some { s with holder := some (.wait .test) } else none
  | .blocked =>
    -- `pthread_cond_wait` returns with the mutex
    if s.woken = true ∧ s.holder = none then some { s with holder := some (.wait .reset) } else none
  | _ => (LockedSys.step s.base .work).map fun b => { s with base := b }

/-- One statement; `none` where it waits for a lock or for a signal. -/
def step (s : ConvarSys) : Act → Option ConvarSys
  | .work =>
    match s.holder with
    | some (.wait .test) =>
      if s.base.worker.cvCount = 0 then
        (LockedSys.step s.base .work).map fun b => ⟨b, none, false⟩
      else some { s with holder := some (.wait .reset) }
    | some (.wait .reset) =>
      (LockedSys.step s.base .work).map fun b =>
        { s with base := b, holder := some (.wait .unlock) }
    | some (.wait .unlock) => some { s with holder := none }
    | _ => s.workOutside
  | .call ev => (LockedSys.step s.base (.call ev)).map fun b => { s with base := b }
  | .advance c =>
    if c.pc = .signal then
      if c ∈ s.base.calls ∧ s.holder = none then some { s with holder := some (.signal c .test) }
      else none
    else (LockedSys.step s.base (.advance c)).map fun b => { s with base := b }
  | .hold =>
    match s.holder with
    | some (.signal c .test) =>
      let pc := if s.base.worker.cvCount ≠ 0 then SignalPc.unlock else .cond
      (LockedSys.step s.base (.advance c)).map fun b =>
        { s with base := b, holder := some (.signal c pc) }
    -- nobody but the worker waits on `wk_event`
    | some (.signal c .cond) => some { s with woken := true, holder := some (.signal c .unlock) }
    | some (.signal _ .unlock) => some { s with holder := none }
    | _ => none
  | .spurious => if s.base.worker.pc = .blocked then some { s with woken := true } else none
  | .stop => (LockedSys.step s.base .stop).map fun b => { s with base := b }

/-- The worker is in `pthread_cond_wait` and has not been woken. -/
def Asleep (s : ConvarSys) : Prop := s.base.worker.pc = .blocked ∧ s.woken = false

instance (s : ConvarSys) : Decidable s.Asleep := inferInstanceAs (Decidable (_ ∧ _))

/-- What a statement can do. -/
inductive Step (s : ConvarSys) : Act → ConvarSys → Prop
  | sleep (b : LockedSys) (hh : s.holder = some (.wait .test)) (hcv : s.base.worker.cvCount = 0)
      (h : LockedSys.step s.base .work = some b) : Step s .work ⟨b, none, false⟩
  | pass (hh : s.holder = some (.wait .test)) (hcv : s.base.worker.cvCount ≠ 0) :
      Step s .work { s with holder := some (.wait .reset) }
  | reset (b : LockedSys) (hh : s.holder = some (.wait .reset))
      (h : LockedSys.step s.base .work = some b) :
      Step s .work { s with base := b, holder := some (.wait .unlock) }
  | leave (hh : s.holder = some (.wait .unlock)) : Step s .work { s with holder := none }
  | take (hpc : s.base.worker.pc = .wait) (hh : s.holder = none) :
      Step s .work { s with holder := some (.wait .test) }
  | retake (hpc : s.base.worker.pc = .blocked) (hw : s.woken = true) (hh : s.holder = none) :
      Step s .work { s with holder := some (.wait .reset) }
  | work (b : LockedSys) (hwait : s.base.worker.pc ≠ .wait) (hblocked : s.base.worker.pc ≠ .blocked)
      (hh : ∀ pc, s.holder ≠ some (.wait pc)) (h : LockedSys.step s.base .work = some b) :
      Step s .work { s with base := b }
  | call (ev : EdpEvent) (b : LockedSys) (h : LockedSys.step s.base (.call ev) = some b) :
      Step s (.call ev) { s with base := b }
  | enter (c : DispatchCall) (hc : c ∈ s.base.calls) (hpc : c.pc = .signal) (hh : s.holder = none) :
      Step s (.advance c) { s with holder := some (.signal c .test) }
  | advance (c : DispatchCall) (b : LockedSys) (hpc : c.pc ≠ .signal)
      (h : LockedSys.step s.base (.advance c) = some b) : Step s (.advance c) { s with base := b }
  | merge (c : DispatchCall) (b : LockedSys) (hh : s.holder = some (.signal c .test))
      (hcv : s.base.worker.cvCount ≠ 0) (h : LockedSys.step s.base (.advance c) = some b) :
      Step s .hold { s with base := b, holder := some (.signal c .unlock) }
  | set (c : DispatchCall) (b : LockedSys) (hh : s.holder = some (.signal c .test))
      (hcv : s.base.worker.cvCount = 0) (h : LockedSys.step s.base (.advance c) = some b) :
      Step s .hold { s with base := b, holder := some (.signal c .cond) }
  | cond (c : DispatchCall) (hh : s.holder = some (.signal c .cond)) :
      Step s .hold { s with woken := true, holder := some (.signal c .unlock) }
  | release (c : DispatchCall) (hh : s.holder = some (.signal c .unlock)) :
      Step s .hold { s with holder := none }
  | spurious (hpc : s.base.worker.pc = .blocked) : Step s .spurious { s with woken := true }
  | stop (b : LockedSys) (h : LockedSys.step s.base .stop = some b) :
      Step s .stop { s with base := b }

section

variable {s t : ConvarSys} {b : LockedSys} {c : DispatchCall}

/-- The worker's statements. -/
theorem work_cases (h : step s .work = some t) : Step s .work t := by
  rw [step] at h
  split at h
  · split at h
    · obtain ⟨b, hb, rfl⟩ := Option.map_eq_some_iff.1 h
      exact .sleep b ‹_› ‹_› hb
    · obtain rfl := Option.some.inj h
      exact .pass ‹_› ‹_›
  · obtain ⟨b, hb, rfl⟩ := Option.map_eq_some_iff.1 h
    exact .reset b ‹_› hb
  · obtain rfl := Option.some.inj h
    exact .leave ‹_›
  · rename_i htest hreset hunlock
    unfold workOutside at h
    split at h
    · split at h
      · obtain rfl := Option.some.inj h
        exact .take ‹_› ‹_›
      · cases h
    · split at h
      · rename_i hpc hw
        obtain rfl := Option.some.inj h
        exact .retake hpc hw.1 hw.2
      · cases h
    · rename_i hwait hblocked
      obtain ⟨b, hb, rfl⟩ := Option.map_eq_some_iff.1 h
      refine .work b hwait hblocked (fun pc hh => ?_) hb
      cases pc with
      | test => exact htest hh
      | reset => exact hreset hh
      | unlock => exact hunlock hh

/-- **Inversion.** -/
theorem step_cases {a : Act} (h : step s a = some t) : Step s a t := by
  cases a with
  | work => exact work_cases h
  | call ev =>
    obtain ⟨b, hb, rfl⟩ := Option.map_eq_some_iff.1 h
    exact .call ev b hb
  | advance c =>
    rw [step] at h
    split at h
    · split at h
      · rename_i hpc hc
        obtain rfl := Option.some.inj h
        exact .enter c hc.1 hpc hc.2
      · cases h
    · obtain ⟨b, hb, rfl⟩ := Option.map_eq_some_iff.1 h
      exact .advance c b ‹_› hb
  | hold =>
    rw [step] at h
    split at h
    · rename_i c hh
      obtain ⟨b, hb, rfl⟩ := Option.map_eq_some_iff.1 h
      split
      · exact .merge c b hh ‹_› hb
      · exact .set c b hh (not_not.1 ‹_›) hb
    · obtain rfl := Option.some.inj h
      exact .cond _ ‹_›
    · obtain rfl := Option.some.inj h
      exact .release _ ‹_›
    · cases h
  | spurious =>
    rw [step] at h
    split at h
    · obtain rfl := Option.some.inj h
      exact .spurious ‹_›
    · cases h
  | stop =>
    rw [step] at h
    obtain ⟨b, hb, rfl⟩ := Option.map_eq_some_iff.1 h
    exact .stop b hb

/-! ### A run of the statements is one of `LockedSys` -/

/-- A step takes one step of `LockedSys` or none. -/
theorem Step.base {a : Act} (h : Step s a t) :
    t.base = s.base ∨ ∃ a', LockedSys.step s.base a' = some t.base := by
  cases h with
  | sleep b _ _ h | reset b _ h | work b _ _ _ h | call ev b h | advance c b _ h | merge c b _ _ h
  | set c b _ _ h | stop b h => exact .inr ⟨_, h⟩
  | _ => exact .inl rfl

/-- **Every run of the statements is one of `LockedSys`.** -/
theorem locked_run {acts : List Act} (h : StepSystem.run step init acts = some s) :
    ∃ as, StepSystem.run LockedSys.step LockedSys.init as = some s.base := by
  have hsim : ∃ as d, StepSystem.run LockedSys.step init.base as = some d ∧ s.base = d := by
    refine StepSystem.run_simulates (R := fun s b => s.base = b) ?_ rfl h
    rintro s a t _ rfl h
    rcases (step_cases h).base with he | ⟨a', ha'⟩
    · exact ⟨[], s.base, rfl, he⟩
    · exact ⟨[a'], t.base, StepSystem.run_cons.2 ⟨t.base, ha', rfl⟩, rfl⟩
  obtain ⟨as, d, hd, rfl⟩ := hsim
  exact ⟨as, hd⟩

/-! ### What the steps of `LockedSys` do to the latch -/

/-- With the latch clear the worker goes to sleep. -/
theorem base_sleep {l : LockedSys} (hpc : l.worker.pc = .wait) (hcv : l.worker.cvCount = 0)
    (h : LockedSys.step l .work = some b) : b.worker.pc = .blocked ∧ b.worker.cvCount = 0 := by
  cases LockedSys.step_cases h with
  | take p hp | splice p hp | reset p hp | leave p hp => simp [hpc] at hp
  | next w _ _ hn =>
    cases Worker.next_step hn with
    | sleep _ _ => exact ⟨rfl, hcv⟩
    | pass _ hne => exact absurd hcv hne
    | _ => simp_all

/-- The wait ends with the first section of a pass. -/
theorem base_reset {l : LockedSys}
    (hpc : l.worker.pc = .wait ∧ l.worker.cvCount ≠ 0 ∨ l.worker.pc = .blocked)
    (h : LockedSys.step l .work = some b) : b.worker.pc = .sect .crit := by
  have hsect : ∀ p, l.worker.pc ≠ .sect p := by
    intro p hp
    simp [hp] at hpc
  cases LockedSys.step_cases h with
  | take p hp | splice p hp | reset p hp | leave p hp => exact absurd hp (hsect p)
  | next w _ _ hn =>
    cases Worker.next_step hn with
    | pass _ _ | wake _ => rfl
    | sleep hp h => simp_all
    | _ => simp_all

theorem checkFrom_ne_blocked (p : Priority) (q : Option Priority) :
    Worker.checkFrom p q ≠ .blocked := by
  unfold Worker.checkFrom
  split
  · split <;> simp
  · simp

/-- Nothing else puts the worker to sleep. -/
theorem base_work {l : LockedSys} (hpc : l.worker.pc ≠ .wait)
    (h : LockedSys.step l .work = some b) :
    b.worker.pc ≠ .blocked ∧ b.calls = l.calls := by
  cases LockedSys.step_cases h with
  | take p hp => exact ⟨by simp [hp], rfl⟩
  | splice p hp => exact ⟨by simp [Worker.takeQueue_eq, hp], rfl⟩
  | reset p hp => exact ⟨by simp [Worker.resetPending, hp], rfl⟩
  | leave p hp => exact ⟨by simp [Worker.endSect], rfl⟩
  | next w _ _ hn =>
    refine ⟨?_, rfl⟩
    cases Worker.next_step hn with
    | sleep hp _ => exact absurd hp hpc
    | leave p _ _ =>
      show Worker.afterLoop p ≠ .blocked
      cases p <;> simp [Worker.afterLoop, Priority.below]
    | finish p _ _ =>
      exact checkFrom_ne_blocked p (some .crit)
    | resume p q _ _ _ => exact checkFrom_ne_blocked p q.below
    | _ => simp_all

/-- A call on its way to its signal. -/
theorem base_advance {l : LockedSys} (hpc : c.pc ≠ .signal)
    (h : LockedSys.step l (.advance c) = some b) :
    b.worker.pc = l.worker.pc ∧ b.worker.cvCount = l.worker.cvCount ∧
      ∀ d ∈ l.calls, d.pc = .signal → d ∈ b.calls := by
  have hmove : ∀ pc, ∀ d ∈ l.calls, d.pc = .signal → d ∈ (l.move c pc).calls := by
    rintro pc d hd hsig
    refine List.mem_cons_of_mem _ ((List.mem_erase_of_ne ?_).2 hd)
    rintro rfl
    exact hpc hsig
  cases LockedSys.step_cases h with
  | signal _ _ _ _ hp => exact absurd hp hpc
  | lock | add | inc | unlock => exact ⟨rfl, rfl, hmove _⟩

/-- The signal of a call. -/
theorem base_signal {l : LockedSys} (hpc : c.pc = .signal)
    (h : LockedSys.step l (.advance c) = some b) : b.worker = l.worker.signal := by
  cases LockedSys.step_cases h with
  | lock _ _ _ _ hp | add _ _ _ _ hp | inc _ _ _ _ hp | unlock _ _ _ _ hp => simp [hpc] at hp
  | signal => rfl

/-! ### Who holds the mutex, and who has set the latch -/

/-- Where the holder of the mutex is. -/
def Placed (s : ConvarSys) : Prop :=
  match s.holder with
  | none => True
  | some (.wait .test) => s.base.worker.pc = .wait
  | some (.wait .reset) =>
    s.base.worker.pc = .wait ∧ s.base.worker.cvCount ≠ 0 ∨
      s.base.worker.pc = .blocked ∧ s.woken = true
  | some (.wait .unlock) => s.base.worker.pc = .sect .crit
  | some (.signal c .test) => c ∈ s.base.calls ∧ c.pc = .signal
  | some (.signal _ _) => True

/-- **A worker that sleeps finds the latch clear**, or the one who has set it is about to wake
it. -/
structure Latched (s : ConvarSys) : Prop where
  placed : s.Placed
  latch : s.Asleep → s.base.worker.cvCount = 0 ∨ ∃ c, s.holder = some (.signal c .cond)

theorem latched_init : Latched init where
  placed := trivial
  latch _ := .inl rfl

/-- A step of `LockedSys` that leaves the worker where it is and the latch as it is. -/
theorem Latched.keep (hs : s.Latched) (hpc : b.worker.pc = s.base.worker.pc)
    (hcv : b.worker.cvCount = s.base.worker.cvCount)
    (hcalls : ∀ c ∈ s.base.calls, c.pc = .signal → c ∈ b.calls) :
    Latched { s with base := b } := by
  obtain ⟨hp, hl⟩ := hs
  refine ⟨?_, fun ha => ?_⟩
  · unfold Placed at hp ⊢
    dsimp only
    rw [hpc, hcv]
    split
    · trivial
    · simpa only [‹s.holder = _›] using hp
    · simpa only [‹s.holder = _›] using hp
    · simpa only [‹s.holder = _›] using hp
    · simp only [‹s.holder = _›] at hp
      exact ⟨hcalls _ hp.1 hp.2, hp.2⟩
    · trivial
  · have hasleep : s.Asleep := ⟨hpc.symm.trans ha.1, ha.2⟩
    exact (hl hasleep).imp hcv.trans id

theorem Latched.step {a : Act} (hs : s.Latched) (h : ConvarSys.step s a = some t) :
    t.Latched := by
  obtain ⟨hp, hl⟩ := hs
  have hs : s.Latched := ⟨hp, hl⟩
  unfold Placed at hp
  cases step_cases h with
  | sleep b hh hcv hb =>
    rw [hh] at hp
    exact ⟨trivial, fun _ => .inl (base_sleep hp hcv hb).2⟩
  | pass hh hcv =>
    rw [hh] at hp
    exact ⟨.inl ⟨hp, hcv⟩, fun ha => absurd (hp.symm.trans ha.1) (by decide)⟩
  | reset b hh hb =>
    rw [hh] at hp
    have hpc := base_reset (hp.imp id And.left) hb
    exact ⟨hpc, fun ha => absurd (hpc.symm.trans ha.1) (by decide)⟩
  | leave hh =>
    rw [hh] at hp
    exact ⟨trivial, fun ha => absurd (hp.symm.trans ha.1) (by decide)⟩
  | take hpc hh => exact ⟨hpc, fun ha => absurd (hpc.symm.trans ha.1) (by decide)⟩
  | retake hpc hw hh => exact ⟨.inr ⟨hpc, hw⟩, fun ha => absurd (hw.symm.trans ha.2) (by decide)⟩
  | work b hwait hblocked hh hb =>
    obtain ⟨hpc, hcalls⟩ := base_work hwait hb
    refine ⟨?_, fun ha => absurd ha.1 hpc⟩
    unfold Placed
    dsimp only
    split
    · trivial
    · exact absurd ‹_› (hh _)
    · exact absurd ‹_› (hh _)
    · exact absurd ‹_› (hh _)
    · simp only [‹s.holder = _›] at hp
      rw [hcalls]
      exact hp
    · trivial
  | call ev b hb =>
    cases LockedSys.step_cases hb with
    | refused _ _ => exact hs
    | call _ _ _ => exact hs.keep rfl rfl fun _ hc _ => List.mem_cons_of_mem _ hc
  | enter c hc hpc hh =>
    refine ⟨⟨hc, hpc⟩, fun ha => (hl ha).imp id ?_⟩
    rintro ⟨d, hd⟩
    exact absurd (hh.symm.trans hd) (by simp)
  | advance c b hpc hb =>
    obtain ⟨hpc, hcv, hcalls⟩ := base_advance hpc hb
    exact hs.keep hpc hcv hcalls
  | merge c b hh hcv hb =>
    rw [hh] at hp
    have hworker : b.worker = s.base.worker := by
      rw [base_signal hp.2 hb, Worker.signal, if_pos hcv]
    refine ⟨trivial, fun ha => ?_⟩
    rcases hl ⟨hworker ▸ ha.1, ha.2⟩ with h0 | ⟨d, hd⟩
    · exact absurd h0 hcv
    · exact absurd (hh.symm.trans hd) (by simp)
  | set c b hh hcv hb => exact ⟨trivial, fun _ => .inr ⟨c, rfl⟩⟩
  | cond c hh => exact ⟨trivial, fun ha => absurd ha.2 (by simp)⟩
  | release c hh =>
    refine ⟨trivial, fun ha => (hl ha).imp id ?_⟩
    rintro ⟨d, hd⟩
    exact absurd (hh.symm.trans hd) (by simp)
  | spurious hpc =>
    refine ⟨?_, fun ha => absurd ha.2 (by simp)⟩
    unfold Placed
    dsimp only
    split <;> simp_all
  | stop b hb =>
    cases LockedSys.step_cases hb with
    | stop => exact hs.keep rfl rfl fun _ hc _ => hc

/-! ### A sleeping worker with something to do -/

/-- The calls in progress have chosen a queue. -/
theorem classed {acts : List LockedSys.Act} {l : LockedSys}
    (h : StepSystem.run LockedSys.step LockedSys.init acts = some l) :
    ∀ c ∈ l.calls, ∃ p, c.ev.class? = some p := by
  refine StepSystem.run_preserves (I := fun l => ∀ c ∈ l.calls, ∃ p, c.ev.class? = some p) ?_
    (fun c hc => absurd hc List.not_mem_nil) h
  intro l a l' hl h
  have hmove : ∀ (c : DispatchCall) (p : Priority) (pc : EnqueuePc), c.ev.class? = some p →
      ∀ d ∈ (l.move c pc).calls, ∃ p, d.ev.class? = some p := by
    intro c p pc hp d hd
    rcases List.mem_cons.1 hd with rfl | hd
    · exact ⟨p, hp⟩
    · exact hl d (List.mem_of_mem_erase hd)
  cases LockedSys.step_cases h with
  | lock c p _ hp | add c p _ hp | inc c p _ hp | unlock c p _ hp => exact hmove c p _ hp
  | signal c _ _ _ _ => exact fun d hd => hl d (List.mem_of_mem_erase hd)
  | call ev p hp =>
    intro d hd
    rcases List.mem_cons.1 hd with rfl | hd
    · exact ⟨p, hp⟩
    · exact hl d hd
  | _ => exact hl

/-- The call has put its event into the queue and is on its way to its signal. -/
def onItsWay (c : DispatchCall) : Prop := c.pc = .inc ∨ c.pc = .unlock ∨ c.pc = .signal

/-- **The worker sleeps only if it has nothing to do**: in every state of every run in which it
is in `pthread_cond_wait` and has not been woken, and no dispatch is between its `list_add_tail`
and its `pthread_cond_signal`, the queues are empty. -/
theorem asleep_idle {acts : List Act} (hrun : StepSystem.run step init acts = some s)
    (ha : s.Asleep) (hcalls : ∀ c ∈ s.base.calls, ¬ onItsWay c)
    (hcond : ∀ c, s.holder ≠ some (.signal c .cond)) (p : Priority) :
    s.base.worker.queue p = [] := by
  have hs : s.Latched := StepSystem.run_preserves (fun _ _ _ hs h => hs.step h) latched_init hrun
  obtain ⟨as, hrun'⟩ := locked_run hrun
  obtain ⟨-, bs, d, hd, hsim⟩ := LockedSys.simulated hrun'
  have hawake : d.Awake :=
    StepSystem.run_preserves (fun _ _ _ hs h => hs.step h) WorkerSys.awake_init hd
  have hcounted : s.base.counted p = s.base.worker.queue p := by
    refine if_neg fun hany => ?_
    obtain ⟨c, hc, hadd⟩ := List.any_eq_true.1 hany
    refine hcalls c hc (.inl ?_)
    simp only [LockedSys.addingTo, Bool.and_eq_true, decide_eq_true_eq] at hadd
    exact hadd.1
  have hsignals : LockedSys.toSignal s.base.calls = [] := by
    refine List.map_eq_nil_iff.2 (List.filter_eq_nil_iff.2 fun c hc hsig => hcalls c hc (.inr ?_))
    simpa [LockedSys.signals] using hsig
  have hahead : s.base.ahead = s.base.worker := by
    unfold LockedSys.ahead
    rw [ha.1]
  by_contra hq
  have hqueue : d.worker.queue p = s.base.worker.queue p := by
    rw [hsim.worker]
    exact hcounted
  rcases hawake.noticed p (hqueue ▸ hq) with (hahead' | hcv) | hsig
  · rw [hsim.worker, LockedSys.abs, hahead, ha.1] at hahead'
    exact hahead'
  · rw [hsim.worker, LockedSys.abs, hahead] at hcv
    rcases hs.latch ha with h0 | ⟨c, hc⟩
    · exact hcv h0
    · exact hcond c hc
  · have hperm := hsim.signalling
    rw [hsignals] at hperm
    exact hsig hperm.eq_nil

/-- The next statement of a call that is on its way, or of the one that holds the mutex. -/
def Act.ofCallOnItsWay : Act → Prop
  | .advance c => onItsWay c
  | .hold => True
  | .work | .call _ | .spurious | .stop => False

/-- The dispatches that are on their way can go on until the worker is woken. -/
def Wakes (s : ConvarSys) : Prop :=
  ∃ acts t, (∀ a ∈ acts, a.ofCallOnItsWay) ∧ StepSystem.run step s acts = some t ∧
    t.base.worker.pc = .blocked ∧ t.woken = true

theorem Wakes.cons {a : Act} (ha : a.ofCallOnItsWay) (h : ConvarSys.step s a = some t)
    (ht : t.Wakes) : s.Wakes := by
  obtain ⟨acts, u, hacts, hrun, hu⟩ := ht
  exact ⟨a :: acts, u, List.forall_mem_cons.2 ⟨ha, hacts⟩, StepSystem.run_cons.2 ⟨t, h, hrun⟩, hu⟩

/-- From its `pthread_cond_signal`. -/
theorem wakes_cond (hpc : s.base.worker.pc = .blocked) (hh : s.holder = some (.signal c .cond)) :
    s.Wakes := by
  have h : step s .hold = some { s with woken := true, holder := some (.signal c .unlock) } := by
    rw [step, hh]
  exact ⟨[.hold], _, by simp [Act.ofCallOnItsWay], StepSystem.run_cons.2 ⟨_, h, rfl⟩, hpc, rfl⟩

/-- From its test, which finds the latch clear. -/
theorem wakes_test (hs : s.Latched) (ha : s.Asleep) (hh : s.holder = some (.signal c .test))
    {p : Priority} (hp : c.ev.class? = some p) : s.Wakes := by
  have hplaced := hs.placed
  rw [Placed, hh] at hplaced
  have hcv : s.base.worker.cvCount = 0 := by
    refine (hs.latch ha).resolve_right ?_
    rintro ⟨d, hd⟩
    exact absurd (hh.symm.trans hd) (by simp)
  have hbase : ∃ b, LockedSys.step s.base (.advance c) = some b ∧ b.worker.pc = .blocked := by
    refine ⟨{ s.base with
      worker := s.base.worker.signal
      calls := s.base.calls.erase c
      hist := .returned c.ev :: s.base.hist }, ?_, (Worker.signal_pc s.base.worker).trans ha.1⟩
    rw [LockedSys.step, if_pos hplaced.1, hp, Option.bind_some, hplaced.2]
  obtain ⟨b, hb, hpc⟩ := hbase
  have h : step s .hold = some { s with base := b, holder := some (.signal c .cond) } := by
    rw [step, hh]
    simp only [hb, hcv, ne_eq, not_true_eq_false, if_false, Option.map_some]
  exact .cons (a := .hold) trivial h (wakes_cond hpc rfl)

/-- From before its `pthread_mutex_lock`, if the mutex is free. -/
theorem wakes_signal (hs : s.Latched) (ha : s.Asleep) (hh : s.holder = none)
    (hc : c ∈ s.base.calls) (hpc : c.pc = .signal) {p : Priority} (hp : c.ev.class? = some p) :
    s.Wakes := by
  have h : step s (.advance c) = some { s with holder := some (.signal c .test) } := by
    rw [step, if_pos hpc, if_pos ⟨hc, hh⟩]
  have hway : onItsWay c := .inr (.inr hpc)
  exact .cons (a := .advance c) hway h (wakes_test (hs.step h) ha rfl hp)

/-- From its `spi_spin_unlock`. -/
theorem wakes_unlock (hs : s.Latched) (ha : s.Asleep) (hh : s.holder = none)
    (hc : c ∈ s.base.calls) (hpc : c.pc = .unlock) {p : Priority} (hp : c.ev.class? = some p) :
    s.Wakes := by
  have hb : LockedSys.step s.base (.advance c) =
      some { s.base.move c .signal with lock := Function.update s.base.lock p false } := by
    rw [LockedSys.step, if_pos hc, hp, Option.bind_some, hpc]
  have hne : c.pc ≠ .signal := by simp [hpc]
  have h : step s (.advance c) = some { s with
      base := { s.base.move c .signal with lock := Function.update s.base.lock p false } } := by
    rw [step, if_neg hne, hb, Option.map_some]
  have hway : onItsWay c := .inr (.inl hpc)
  exact .cons (a := .advance c) hway h
    (wakes_signal (c := ⟨.signal, c.ev⟩) (hs.step h) ha hh List.mem_cons_self rfl hp)

/-- From its `atomic_inc`. -/
theorem wakes_inc (hs : s.Latched) (ha : s.Asleep) (hh : s.holder = none)
    (hc : c ∈ s.base.calls) (hpc : c.pc = .inc) {p : Priority} (hp : c.ev.class? = some p) :
    s.Wakes := by
  have hb : LockedSys.step s.base (.advance c) = some { s.base.move c .unlock with
      worker := s.base.worker.incPending p, hist := .queued c.ev :: s.base.hist } := by
    rw [LockedSys.step, if_pos hc, hp, Option.bind_some, hpc]
  have hne : c.pc ≠ .signal := by simp [hpc]
  have h : step s (.advance c) = some { s with base := { s.base.move c .unlock with
      worker := s.base.worker.incPending p, hist := .queued c.ev :: s.base.hist } } := by
    rw [step, if_neg hne, hb, Option.map_some]
  have hway : onItsWay c := .inl hpc
  exact .cons (a := .advance c) hway h
    (wakes_unlock (c := ⟨.unlock, c.ev⟩) (hs.step h) ha hh List.mem_cons_self rfl hp)

/-- From wherever it is. -/
theorem wakes_advance (hs : s.Latched) (ha : s.Asleep) (hh : s.holder = none)
    (hc : c ∈ s.base.calls) (hway : onItsWay c) {p : Priority} (hp : c.ev.class? = some p) :
    s.Wakes := by
  rcases hway with hpc | hpc | hpc
  · exact wakes_inc hs ha hh hc hpc hp
  · exact wakes_unlock hs ha hh hc hpc hp
  · exact wakes_signal hs ha hh hc hpc hp

/-- **The dispatchers wake the worker.**  In every state of every run in which the worker is in
`pthread_cond_wait` and has not been woken, although a queue is not empty: the calls of
`__edp_dispatch` that are between their `list_add_tail` and the end of their signal can take
their statements, and these wake it, with no step of the worker, no new dispatch and no
spurious wakeup. -/
theorem dispatchers_wake {acts : List Act} (hrun : StepSystem.run step init acts = some s)
    (ha : s.Asleep) {p : Priority} (hq : s.base.worker.queue p ≠ []) :
    ∃ acts t, (∀ a ∈ acts, a.ofCallOnItsWay) ∧ StepSystem.run step s acts = some t ∧
      t.base.worker.pc = .blocked ∧ t.woken = true := by
  have hs : s.Latched := StepSystem.run_preserves (fun _ _ _ hs h => hs.step h) latched_init hrun
  obtain ⟨as, hrun'⟩ := locked_run hrun
  have hclassed := classed hrun'
  show s.Wakes
  by_cases hcond : ∃ c, s.holder = some (.signal c .cond)
  · obtain ⟨c, hc⟩ := hcond
    exact wakes_cond ha.1 hc
  · have hcall : ∃ c ∈ s.base.calls, onItsWay c := by
      by_contra hno
      exact hq (asleep_idle hrun ha (fun c hc h => hno ⟨c, hc, h⟩) (fun c hc => hcond ⟨c, hc⟩) p)
    obtain ⟨c, hc, hway⟩ := hcall
    obtain ⟨q, hp⟩ := hclassed c hc
    have hplaced := hs.placed
    unfold Placed at hplaced
    cases hh : s.holder with
    | none => exact wakes_advance hs ha hh hc hway hp
    | some o =>
      rw [hh] at hplaced
      cases o with
      | wait pc =>
        -- a worker that is asleep does not hold the mutex
        cases pc with
        | test => exact absurd (hplaced.symm.trans ha.1) (by decide)
        | unlock => exact absurd (hplaced.symm.trans ha.1) (by decide)
        | reset =>
          rcases hplaced with h | h
          · exact absurd (h.1.symm.trans ha.1) (by decide)
          · exact absurd (h.2.symm.trans ha.2) (by decide)
      | signal d pc =>
        cases pc with
        | cond => exact absurd ⟨d, hh⟩ hcond
        | test =>
          obtain ⟨q, hp⟩ := hclassed d hplaced.1
          exact wakes_test hs ha hh hp
        | unlock =>
          have h : step s .hold = some { s with holder := none } := by rw [step, hh]
          exact .cons (a := .hold) trivial h (wakes_advance (hs.step h) ha rfl hc hway hp)

/-- A dispatch to a worker that sleeps, up to its `atomic_inc`. -/
theorem dispatchers_wake_norm :
    ∃ acts s, StepSystem.run step init acts = some s ∧ s.base.worker.pending .norm = 0 ∧
      ∃ acts t, (∀ a ∈ acts, a.ofCallOnItsWay) ∧ StepSystem.run step s acts = some t ∧
        t.base.worker.pc = .blocked ∧ t.woken = true :=
  have hrun := Eq.refl (StepSystem.run step init
    [Act.work, .work, .work, .call ⟨7, 0, 1, -1, 0, 0, 0, 1⟩,
      .advance ⟨.lock, ⟨7, 0, 1, -1, 0, 0, 0, 1⟩⟩, .advance ⟨.add, ⟨7, 0, 1, -1, 0, 0, 0, 1⟩⟩])
  ⟨_, _, hrun, rfl, dispatchers_wake hrun (by decide) (p := .norm) (by decide)⟩

end

end ConvarSys
end EdpIo
