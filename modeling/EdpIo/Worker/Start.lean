/-
# Starting the workers

`worker_init(thread)` of `src/worker.c` interleaved with the threads that it creates,
and with `__edp_dispatch` once it has returned `0`.  It starts one thread after the other
and waits for each at `wk_convar`, a latch of `posix/edp_sys.h`: the thread runs
`worker_init_tls` and signals, and `__spi_convar_timedwait` waits while `cv_count` is `0`.

The latch is tested once.  When `pthread_cond_timedwait` returns `0` although nobody has
signalled, as it may, `worker_init` goes on without the thread (`early_return`), and a
dispatch can find a queue whose links are still `NULL`.  `started` holds of every run
in which this does not happen and the initialisations of `worker_init_tls`, whose results
it does not look at, succeed: then every worker has entered its loop as `Worker.start`
before the first event is inserted.
-/

import EdpIo.Lib.Run
import EdpIo.Worker.Model
import EdpIo.Worker.Round

namespace EdpIo

/-- Where `worker_routine` is on its way to its loop. -/
inductive RoutinePc
  /-- The thread has not been created. -/
  | absent
  /-- In `worker_init_tls`, before `__spi_convar_init(&wkr->wk_event)`. -/
  | event
  /-- Before the `spi_spin_init` of the class. -/
  | lock (p : Priority)
  /-- Before its `INIT_LIST_HEAD`. -/
  | head (p : Priority)
  /-- Before `wk_status = INIT`. -/
  | status
  /-- Past `worker_init_tls`, before `wk_status = RUNNING`. -/
  | running
  /-- Before `__spi_convar_signal(&wkr->wk_convar)`. -/
  | signal
  /-- In the loop. -/
  | loop
deriving DecidableEq, Repr

namespace RoutinePc

/-- The next step initialises a lock or `wk_event`. -/
def inits : RoutinePc → Bool
  | .event | .lock _ => true
  | _ => false

/-- `wk_event` has been initialised. -/
def PastEvent : RoutinePc → Prop
  | .absent | .event => False
  | _ => True

/-- The lock of class `q` has been initialised. -/
def PastLock : RoutinePc → Priority → Prop
  | .absent, _ | .event, _ => False
  | .lock p, q => p < q
  | .head p, q => p ≤ q
  | _, _ => True

/-- The head of class `q` has been initialised. -/
def PastHead : RoutinePc → Priority → Prop
  | .absent, _ | .event, _ => False
  | .lock p, q | .head p, q => p < q
  | _, _ => True

/-- `wk_status` on the way to the loop. -/
def wkStatus : RoutinePc → WorkerStatus
  | .running => .init
  | .signal | .loop => .running
  | _ => .zero

end RoutinePc

/-- `worker_t` while it is being started: what `Worker` has of it, `wk_convar` and which
of its parts are initialised.  A head that is not has `NULL` links. -/
structure StartWorker where
  worker : Worker
  pc : RoutinePc
  /-- `wk_convar` is initialised and not destroyed. -/
  wkConvarInit : Bool
  /-- `wk_convar.cv_count`. -/
  wkConvar : ℕ
  eventInit : Bool
  lockInit : Priority → Bool
  headInit : Priority → Bool

namespace StartWorker

/-- After `memset`. -/
def zeroed : StartWorker where
  worker := { Worker.start with wkStatus := .zero }
  pc := .absent
  wkConvarInit := false
  wkConvar := 0
  eventInit := false
  lockInit := fun _ => false
  headInit := fun _ => false

/-- `__spi_convar_signal(&wkr->wk_convar)`: its mutex section. -/
def convarSignal (w : StartWorker) : StartWorker :=
  if w.wkConvar ≠ 0 then w else { w with wkConvar := 1 }

/-- `__spi_convar_init(&wkr->wk_convar)`. -/
def convarInit (w : StartWorker) : StartWorker := { w with wkConvarInit := true, wkConvar := 0 }

/-- `__spi_convar_fini(&wkr->wk_convar)`. -/
def convarFini (w : StartWorker) : StartWorker := { w with wkConvarInit := false }

/-- `cv_count = 0` at the end of `__spi_convar_timedwait(&wkr->wk_convar, ..)`. -/
def convarReset (w : StartWorker) : StartWorker := { w with wkConvar := 0 }

/-- `spi_thread_create(&wkr->wk_thread, worker_routine, wkr)`. -/
def threadCreate (w : StartWorker) : StartWorker := { w with pc := .event }

/-- The section of `__edp_dispatch` under the lock of class `p`, if it gets through. -/
def enqueue (p : Priority) (ev : EdpEvent) (w : StartWorker) : StartWorker :=
  if w.lockInit p && w.headInit p then { w with worker := w.worker.enqueue p ev } else w

/-- `__spi_convar_signal(&wkr->wk_event)`. -/
def eventSignal (w : StartWorker) : StartWorker := { w with worker := w.worker.signal }

/-- The next step of `worker_routine`; `ok` is whether an initialisation in it succeeds.
`none` when there is no thread, an assertion fails or `wk_convar` has been destroyed. -/
def next (w : StartWorker) (ok : Bool) : Option StartWorker :=
  match w.pc with
  | .absent => none
  | .event =>
    some { w with
      eventInit := ok
      worker := { w.worker with cvCount := if ok then 0 else w.worker.cvCount }
      pc := .lock .crit }
  | .lock p => some { w with lockInit := Function.update w.lockInit p ok, pc := .head p }
  | .head p =>
    some { w with
      headInit := Function.update w.headInit p true
      worker := { w.worker with queue := Function.update w.worker.queue p [] }
      pc := match p.below with
        | some q => .lock q
        | none => .status }
  | .status => some { w with worker := { w.worker with wkStatus := .init }, pc := .running }
  | .running => some { w with worker := { w.worker with wkStatus := .running }, pc := .signal }
  | .signal => if w.wkConvarInit then some { w.convarSignal with pc := .loop } else none
  | .loop => w.worker.next.map fun r => { w with worker := r.1 }

/-- The steps of `worker_routine` to its loop and in it. -/
inductive Step (w : StartWorker) (ok : Bool) : StartWorker → Prop
  | event (h : w.pc = .event) : Step w ok { w with
      eventInit := ok
      worker := { w.worker with cvCount := if ok then 0 else w.worker.cvCount }
      pc := .lock .crit }
  | lock (p : Priority) (h : w.pc = .lock p) : Step w ok { w with
      lockInit := Function.update w.lockInit p ok
      pc := .head p }
  | head (p q : Priority) (h : w.pc = .head p) (hb : p.below = some q) : Step w ok { w with
      headInit := Function.update w.headInit p true
      worker := { w.worker with queue := Function.update w.worker.queue p [] }
      pc := .lock q }
  | lastHead (p : Priority) (h : w.pc = .head p) (hb : p.below = none) : Step w ok { w with
      headInit := Function.update w.headInit p true
      worker := { w.worker with queue := Function.update w.worker.queue p [] }
      pc := .status }
  | status (h : w.pc = .status) : Step w ok { w with
      worker := { w.worker with wkStatus := .init }
      pc := .running }
  | running (h : w.pc = .running) : Step w ok { w with
      worker := { w.worker with wkStatus := .running }
      pc := .signal }
  | signal (h : w.pc = .signal) : Step w ok { w.convarSignal with pc := .loop }
  | loop (h : w.pc = .loop) (r : Worker × Worker.Label) (hr : w.worker.next = some r) :
      Step w ok { w with worker := r.1 }

theorem next_step {w w' : StartWorker} {ok : Bool} (hn : w.next ok = some w') : w.Step ok w' := by
  unfold next at hn
  split at hn
  · cases hn
  · exact Option.some.inj hn ▸ .event ‹_›
  · exact Option.some.inj hn ▸ .lock _ ‹_›
  · rename_i p hp
    cases hb : p.below with
    | some q =>
      rw [hb] at hn
      exact Option.some.inj hn ▸ .head p q hp hb
    | none =>
      rw [hb] at hn
      exact Option.some.inj hn ▸ .lastHead p hp hb
  · exact Option.some.inj hn ▸ .status ‹_›
  · exact Option.some.inj hn ▸ .running ‹_›
  · split at hn
    · exact Option.some.inj hn ▸ .signal ‹_›
    · cases hn
  · obtain ⟨r, hr, rfl⟩ := Option.map_eq_some_iff.1 hn
    exact .loop ‹_› r hr

/-- The signal writes nothing but the latch. -/
theorem convarSignal_eq (w : StartWorker) :
    w.convarSignal = { w with wkConvar := if w.wkConvar ≠ 0 then w.wkConvar else 1 } := by
  unfold convarSignal
  split <;> rfl

/-- The worker has finished `worker_init_tls`, all of it initialised, and has signalled. -/
structure Ready (w : StartWorker) : Prop where
  signalled : w.pc = .loop
  event : w.eventInit = true
  lock : ∀ p, w.lockInit p = true
  head : ∀ p, w.headInit p = true

/-- What is true of a worker at each place: what it has passed is initialised, the latch is
up only after the signal, and until then nobody else writes the worker. -/
structure Upto (w : StartWorker) : Prop where
  event : w.pc.PastEvent → w.eventInit = true
  lock : ∀ q, w.pc.PastLock q → w.lockInit q = true
  head : ∀ q, w.pc.PastHead q → w.headInit q = true
  latch : w.wkConvar ≠ 0 → w.pc = .loop
  fresh : w.pc ≠ .loop → w.worker = { Worker.start with wkStatus := w.pc.wkStatus }

theorem zeroed_upto : zeroed.Upto where
  event h := h.elim
  lock _ h := h.elim
  head _ h := h.elim
  latch h := absurd rfl h
  fresh _ := rfl

/-- A worker in its loop is ready. -/
theorem Upto.ready {w : StartWorker} (h : w.Upto) (hl : w.pc = .loop) : w.Ready := by
  refine ⟨hl, h.event ?_, fun p => h.lock p ?_, fun p => h.head p ?_⟩
  all_goals
    rw [hl]
    trivial

theorem Upto.convarInit {w : StartWorker} (h : w.Upto) : w.convarInit.Upto :=
  ⟨h.event, h.lock, h.head, fun h0 => absurd rfl h0, h.fresh⟩

theorem Upto.convarReset {w : StartWorker} (h : w.Upto) : w.convarReset.Upto :=
  ⟨h.event, h.lock, h.head, fun h0 => absurd rfl h0, h.fresh⟩

theorem Upto.convarFini {w : StartWorker} (h : w.Upto) : w.convarFini.Upto :=
  ⟨h.event, h.lock, h.head, h.latch, h.fresh⟩

theorem Upto.threadCreate {w : StartWorker} (h : w.Upto) (ha : w.pc = .absent) :
    w.threadCreate.Upto where
  event h := h.elim
  lock _ h := h.elim
  head _ h := h.elim
  latch h0 := by
    have hl := h.latch h0
    rw [ha] at hl
    cases hl
  fresh _ := by
    have hf := h.fresh (by rw [ha]; decide)
    rw [ha] at hf
    exact hf

/-- What happens to a worker in its loop is no longer part of its start. -/
theorem Upto.work {w : StartWorker} (h : w.Upto) (hl : w.pc = .loop) (v : Worker) :
    Upto { w with worker := v } :=
  ⟨h.event, h.lock, h.head, h.latch, fun hne => absurd hl hne⟩

/-- A thread is in its loop for good. -/
theorem next_loop {w w' : StartWorker} {ok : Bool} (hn : w.next ok = some w') (hl : w.pc = .loop) :
    w'.pc = .loop := by
  rw [next, hl] at hn
  obtain ⟨r, -, rfl⟩ := Option.map_eq_some_iff.1 hn
  rfl

/-- There must be a thread. -/
theorem next_present {w w' : StartWorker} {ok : Bool} (hn : w.next ok = some w') :
    w.pc ≠ .absent := by
  intro ha
  rw [next, ha] at hn
  cases hn

/-- A lock or head that has been initialised, beside those before it. -/
theorem update_past {f : Priority → Bool} {p q : Priority} (hf : ∀ r, p < r → f r = true)
    (hq : p ≤ q) : Function.update f p true q = true := by
  by_cases hqp : q = p
  · simp [hqp]
  · simpa [hqp] using hf q (lt_of_le_of_ne hq (Ne.symm hqp))

/-- The initialisation of an empty queue. -/
theorem fresh_head {worker : Worker} (p : Priority)
    (h : worker = { Worker.start with wkStatus := .zero }) :
    { worker with queue := Function.update worker.queue p [] } =
      { Worker.start with wkStatus := .zero } := by
  subst h
  simp [Worker.start]

/-- **A step of `worker_routine`** keeps all this. -/
theorem Upto.next {w w' : StartWorker} {ok : Bool} (h : w.Upto)
    (hok : w.pc.inits = true → ok = true) (hn : w.next ok = some w') : w'.Upto := by
  have hdown : w.pc ≠ .loop → w.wkConvar = 0 :=
    fun hne => Classical.not_not.1 fun h0 => hne (h.latch h0)
  cases next_step hn with
  | event hpc =>
    have hcrit : ∀ q, ¬ Priority.crit < q := fun q => not_lt_of_ge q.le_crit
    have hw := h.fresh (by simp [hpc])
    rw [hpc] at hok hw
    obtain rfl : ok = true := hok rfl
    refine ⟨fun _ => rfl, fun q hq => (hcrit q hq).elim, fun q hq => (hcrit q hq).elim, ?_, ?_⟩
    · exact fun h0 => absurd (hdown (by simp [hpc])) h0
    · intro _
      rw [hw]
      rfl
  | lock p hpc =>
    obtain ⟨hevent, hlock, hhead, -, hfresh⟩ := h
    rw [hpc] at hok hevent hlock hhead hfresh
    obtain rfl : ok = true := hok rfl
    refine ⟨hevent, fun q hq => update_past hlock hq, hhead, ?_, fun _ => hfresh (by simp)⟩
    exact fun h0 => absurd (hdown (by simp [hpc])) h0
  | head p q hpc hb =>
    obtain ⟨hevent, hlock, hhead, -, hfresh⟩ := h
    rw [hpc] at hevent hlock hhead hfresh
    refine ⟨hevent, fun r hr => ?_, fun r hr => ?_, fun h0 => ?_, fun _ => ?_⟩
    · exact hlock r ((Priority.below_lt_iff_le hb).1 hr)
    · exact update_past hhead ((Priority.below_lt_iff_le hb).1 hr)
    · exact absurd (hdown (by simp [hpc])) h0
    · exact fresh_head p (hfresh (by simp))
  | lastHead p hpc hb =>
    obtain ⟨hevent, hlock, hhead, -, hfresh⟩ := h
    rw [hpc] at hevent hlock hhead hfresh
    have hall : ∀ r, p ≤ r := fun r => not_lt.1 (Priority.not_lt_of_below hb)
    refine ⟨hevent, fun r _ => hlock r (hall r), fun r _ => update_past hhead (hall r), ?_, ?_⟩
    · exact fun h0 => absurd (hdown (by simp [hpc])) h0
    · exact fun _ => fresh_head p (hfresh (by simp))
  | status hpc | running hpc =>
    obtain ⟨hevent, hlock, hhead, -, hfresh⟩ := h
    rw [hpc] at hevent hlock hhead hfresh
    refine ⟨hevent, hlock, hhead, fun h0 => absurd (hdown (by simp [hpc])) h0, fun _ => ?_⟩
    rw [hfresh (by simp)]
    rfl
  | signal hpc =>
    obtain ⟨hevent, hlock, hhead, -, -⟩ := h
    rw [hpc] at hevent hlock hhead
    rw [convarSignal_eq]
    refine ⟨fun _ => hevent trivial, fun q _ => hlock q trivial, fun q _ => hhead q trivial, ?_, ?_⟩
    · exact fun _ => rfl
    · exact fun hne => absurd rfl hne
  | loop hpc r hr => exact ⟨h.event, h.lock, h.head, fun _ => hpc, fun hne => absurd hpc hne⟩

/-- **A worker enters its loop** as `Worker.start`. -/
theorem Upto.enters {w w' : StartWorker} {ok : Bool} (h : w.Upto) (hne : w.pc ≠ .loop)
    (hn : w.next ok = some w') (hl : w'.pc = .loop) : w'.worker = Worker.start := by
  have hw := h.fresh hne
  cases next_step hn with
  | event | lock | head | lastHead | status | running => cases hl
  | signal hpc =>
    rw [hpc] at hw
    rw [convarSignal_eq]
    exact hw
  | loop hpc => exact absurd hpc hne

end StartWorker

/-! ### All the workers -/

/-- Where `worker_init` is; `i` is its local variable and `ret` what it will return. -/
inductive InitPc
  /-- Before the test of `wd_init` and `mheap_alloc`. -/
  | alloc
  /-- Before `__spi_convar_init(&wkr->wk_convar)`. -/
  | convar (i : ℤ)
  /-- Before `spi_thread_create`. -/
  | create (i : ℤ)
  /-- In `__spi_convar_timedwait`, before its mutex is taken. -/
  | timedwait (i : ℤ)
  /-- Asleep in `pthread_cond_timedwait`. -/
  | blocked (i : ℤ)
  /-- In the loop that destroys what has been started. -/
  | unwind (i : ℤ) (ret : ℤ)
  /-- Before `wd_init = 1`. -/
  | done (ret : ℤ)
  | returned (ret : ℤ)
deriving DecidableEq, Repr

/-- What is recorded: a head is initialised, an event inserted in a queue. -/
inductive StartObs
  | initHead (k : ℤ) (p : Priority)
  | inserted (k : ℤ) (p : Priority) (ev : EdpEvent)
deriving DecidableEq, Repr

/-- `worker_data_t`, whether `wd_threads` is allocated and its workers, the place of
`worker_init`, the workers that dispatches are about to signal, the record, newest first,
and whether a dispatch has used what was not initialised. -/
structure StartSys where
  data : WorkerData
  live : Bool
  wdThreads : ℤ → StartWorker
  pc : InitPc
  signalling : List ℤ
  hist : List StartObs
  crashed : Bool

namespace StartSys

/-- Before the call of `worker_init`. -/
def init (data : WorkerData) : StartSys :=
  ⟨data, false, fun _ => .zeroed, .alloc, [], [], false⟩

/-- The steps. -/
inductive Act
  /-- A step of `worker_init`, and what the call in it returns. -/
  | init (ret : ℤ)
  /-- A step of worker `k`, and whether an initialisation in it succeeds. -/
  | worker (k : ℤ) (ok : Bool)
  /-- `__edp_dispatch(ev)` up to its signal. -/
  | dispatch (ev : EdpEvent)
  /-- Its signal of `wk_event`. -/
  | signal (k : ℤ)
deriving DecidableEq, Repr

/-- The head of the `for` loop of `worker_init` and what follows it. -/
def forLoop (thread : Int32) (i ret : ℤ) : InitPc :=
  if i < thread.toInt then .convar i
  else if i ≠ thread.toInt then .unwind i ret
  else .done ret

/-- A write to worker `k`. -/
def modify (s : StartSys) (k : ℤ) (f : StartWorker → StartWorker) : StartSys :=
  { s with wdThreads := Function.update s.wdThreads k (f (s.wdThreads k)) }

/-- The next step of `worker_init(thread)`. -/
def initStep (thread : Int32) (s : StartSys) (ret : ℤ) : Option StartSys :=
  match s.pc with
  | .alloc =>
    some <|
      if s.data.wdInit then { s with pc := .returned (-1) }
      else if ret ≠ 0 then { s with pc := .returned (-12) }
      else { s with live := true, wdThreads := fun _ => .zeroed, pc := forLoop thread 0 (-1) }
  | .convar i =>
    some <|
      if ret ≠ 0 then { s with pc := .unwind i ret }
      else { s.modify i StartWorker.convarInit with pc := .create i }
  | .create i =>
    some <|
      if ret ≠ 0 then { s.modify i StartWorker.convarFini with pc := .unwind i ret }
      else { s.modify i StartWorker.threadCreate with pc := .timedwait i }
  | .timedwait i =>
    some <|
      if (s.wdThreads i).wkConvar = 0 then { s with pc := .blocked i }
      else { s.modify i StartWorker.convarReset with pc := forLoop thread (i + 1) 0 }
  | .blocked i =>
    some <|
      -- `cv_count` is not looked at again
      if ret ≠ 0 then { s.modify i StartWorker.convarFini with pc := .unwind i (-110) }
      else { s.modify i StartWorker.convarReset with pc := forLoop thread (i + 1) 0 }
  | .unwind i ret =>
    some <|
      if 0 ≤ i then { s.modify i StartWorker.convarFini with pc := .unwind (i - 1) ret }
      else { s with live := false, pc := .returned ret }
  | .done ret =>
    some { s with
      data := { s.data with wdInit := true, wdThreadNum := thread.toInt }
      pc := .returned ret }
  | .returned _ => none

/-- What a step of a worker records. -/
def obs (k : ℤ) : RoutinePc → List StartObs
  | .head p => [.initHead k p]
  | _ => []

/-- The section of `__edp_dispatch` under the lock of class `p` of worker `k`.  A lock that has
not been initialised, or a `NULL` link, ends the program. -/
def insert (s : StartSys) (k : ℤ) (p : Priority) (ev : EdpEvent) : StartSys :=
  { s.modify k (StartWorker.enqueue p ev) with
    signalling := k :: s.signalling
    hist := .inserted k p ev :: s.hist
    crashed := !((s.wdThreads k).lockInit p && (s.wdThreads k).headInit p) }

/-- One step; `none` also where a division by zero, a worker past the array or a freed one
ends the program. -/
def step (thread : Int32) (s : StartSys) (a : Act) : Option StartSys :=
  if s.crashed then none
  else
    match a with
    | .init ret => s.initStep thread ret
    | .worker k ok =>
      if s.live then
        ((s.wdThreads k).next ok).map fun w =>
          { s.modify k fun _ => w with hist := obs k (s.wdThreads k).pc ++ s.hist }
      else none
    | .dispatch ev =>
      if s.pc ≠ .returned 0 then none
      else if s.data.wdThreadNum = 0 ∧ ¬ (0 ≤ ev.evCpuid ∧ ev.evCpuid < s.data.wdRound) then none
      else
        let (cpuid, ev', data) := s.data.pick ev
        match ev'.class? with
        | none => some { s with data := data }
        | some p =>
          if cpuid < 0 ∨ s.data.wdThreadNum ≤ cpuid then none
          else some ({ s with data := data }.insert cpuid p ev')
    | .signal k =>
      if k ∈ s.signalling then
        some { s.modify k StartWorker.eventSignal with
          signalling := s.signalling.erase k
          crashed := !(s.wdThreads k).eventInit }
      else none

/-- The worker that `worker_init` is asleep for. -/
def asleepFor : InitPc → Option ℤ
  | .blocked i => some i
  | _ => none

/-- `pthread_cond_timedwait` returns `0` only after the signal. -/
def Prompt (s : StartSys) : Act → Prop
  | .init ret => ∀ i ∈ asleepFor s.pc, ret = 0 → (s.wdThreads i).wkConvar ≠ 0
  | .worker _ _ | .dispatch _ | .signal _ => True

/-- The initialisations in `worker_init_tls` succeed. -/
def Inits (s : StartSys) : Act → Prop
  | .worker k ok => (s.wdThreads k).pc.inits = true → ok = true
  | .init _ | .dispatch _ | .signal _ => True

instance (s : StartSys) : (a : Act) → Decidable (s.Prompt a)
  | .init ret =>
    inferInstanceAs (Decidable (∀ i ∈ asleepFor s.pc, ret = 0 → (s.wdThreads i).wkConvar ≠ 0))
  | .worker _ _ | .dispatch _ | .signal _ => inferInstanceAs (Decidable True)

instance (s : StartSys) : (a : Act) → Decidable (s.Inits a)
  | .worker _ _ => inferInstanceAs (Decidable (_ → _))
  | .init _ | .dispatch _ | .signal _ => inferInstanceAs (Decidable True)

/-- **What the start promises.**  If `worker_init` has returned `0` all workers are ready, no
head is initialised after an insertion in its queue, and no dispatch uses what has not been
initialised. -/
structure Started (thread : Int32) (s : StartSys) : Prop where
  ready : s.pc = .returned 0 → ∀ k, 0 ≤ k → k < thread.toInt → (s.wdThreads k).Ready
  kept : s.hist.Pairwise fun later earlier =>
    ∀ k p ev, later = .initHead k p → earlier ≠ .inserted k p ev
  intact : s.crashed = false

variable {thread : Int32} {s t : StartSys}

/-- The steps of `worker_init`. -/
inductive InitStep (thread : Int32) (s : StartSys) (ret : ℤ) : StartSys → Prop
  | again (h : s.pc = .alloc) : InitStep thread s ret { s with pc := .returned (-1) }
  | noMem (h : s.pc = .alloc) : InitStep thread s ret { s with pc := .returned (-12) }
  | mem (h : s.pc = .alloc) : InitStep thread s ret { s with
      live := true
      wdThreads := fun _ => .zeroed
      pc := forLoop thread 0 (-1) }
  | convarFailed (i : ℤ) (h : s.pc = .convar i) (hr : ret ≠ 0) :
      InitStep thread s ret { s with pc := .unwind i ret }
  | convar (i : ℤ) (h : s.pc = .convar i) : InitStep thread s ret
      { s.modify i StartWorker.convarInit with pc := .create i }
  | createFailed (i : ℤ) (h : s.pc = .create i) (hr : ret ≠ 0) : InitStep thread s ret
      { s.modify i StartWorker.convarFini with pc := .unwind i ret }
  | create (i : ℤ) (h : s.pc = .create i) : InitStep thread s ret
      { s.modify i StartWorker.threadCreate with pc := .timedwait i }
  | asleep (i : ℤ) (h : s.pc = .timedwait i) : InitStep thread s ret { s with pc := .blocked i }
  | up (i : ℤ) (h : s.pc = .timedwait i) (hw : (s.wdThreads i).wkConvar ≠ 0) :
      InitStep thread s ret
        { s.modify i StartWorker.convarReset with pc := forLoop thread (i + 1) 0 }
  | timedOut (i : ℤ) (h : s.pc = .blocked i) : InitStep thread s ret
      { s.modify i StartWorker.convarFini with pc := .unwind i (-110) }
  | woken (i : ℤ) (h : s.pc = .blocked i) (hr : ret = 0) : InitStep thread s ret
      { s.modify i StartWorker.convarReset with pc := forLoop thread (i + 1) 0 }
  | unwind (i r : ℤ) (h : s.pc = .unwind i r) : InitStep thread s ret
      { s.modify i StartWorker.convarFini with pc := .unwind (i - 1) r }
  | freed (i r : ℤ) (h : s.pc = .unwind i r) : InitStep thread s ret
      { s with live := false, pc := .returned r }
  | done (r : ℤ) (h : s.pc = .done r) : InitStep thread s ret { s with
      data := { s.data with wdInit := true, wdThreadNum := thread.toInt }
      pc := .returned r }

theorem initStep_cases {ret : ℤ} (h : s.initStep thread ret = some t) :
    InitStep thread s ret t := by
  unfold initStep at h
  split at h
  · obtain rfl := Option.some.inj h
    split
    · exact .again ‹_›
    · split
      · exact .noMem ‹_›
      · exact .mem ‹_›
  · obtain rfl := Option.some.inj h
    split
    · exact .convarFailed _ ‹_› ‹_›
    · exact .convar _ ‹_›
  · obtain rfl := Option.some.inj h
    split
    · exact .createFailed _ ‹_› ‹_›
    · exact .create _ ‹_›
  · obtain rfl := Option.some.inj h
    split
    · exact .asleep _ ‹_›
    · exact .up _ ‹_› ‹_›
  · obtain rfl := Option.some.inj h
    split
    · exact .timedOut _ ‹_›
    · exact .woken _ ‹_› (Classical.not_not.1 ‹_›)
  · obtain rfl := Option.some.inj h
    split
    · exact .unwind _ _ ‹_›
    · exact .freed _ _ ‹_›
  · exact Option.some.inj h ▸ .done _ ‹_›
  · cases h

theorem modify_self (s : StartSys) (k : ℤ) (f : StartWorker → StartWorker) :
    (s.modify k f).wdThreads k = f (s.wdThreads k) := by
  simp [modify]

theorem modify_of_ne (s : StartSys) {j k : ℤ} (f : StartWorker → StartWorker) (h : j ≠ k) :
    (s.modify k f).wdThreads j = s.wdThreads j := by
  simp [modify, h]

/-- What holds of all workers and of the new one. -/
theorem modify_all {P : StartWorker → Prop} {k : ℤ} {f : StartWorker → StartWorker}
    (hs : ∀ j, P (s.wdThreads j)) (hk : P (f (s.wdThreads k))) (j : ℤ) :
    P ((s.modify k f).wdThreads j) := by
  by_cases hj : j = k
  · subst hj
    exact (modify_self s j f).symm ▸ hk
  · exact (modify_of_ne s f hj).symm ▸ hs j

/-- A write that leaves the place of the worker. -/
theorem modify_pc {k : ℤ} {f : StartWorker → StartWorker} (hf : ∀ w, (f w).pc = w.pc) (j : ℤ) :
    ((s.modify k f).wdThreads j).pc = (s.wdThreads j).pc := by
  by_cases hj : j = k
  · subst hj
    rw [modify_self, hf]
  · rw [modify_of_ne s f hj]

/-- What is true of the workers' places at each place of `worker_init`. -/
def Place (thread : Int32) (at' : ℤ → RoutinePc) : InitPc → Prop
  | .alloc => True
  | .convar i | .create i =>
    i < thread.toInt ∧ (∀ k, 0 ≤ k → k < i → at' k = .loop) ∧ ∀ k, i ≤ k → at' k = .absent
  | .timedwait i | .blocked i =>
    i < thread.toInt ∧ (∀ k, 0 ≤ k → k < i → at' k = .loop) ∧ ∀ k, i < k → at' k = .absent
  | .unwind _ ret => ret ≠ 0
  | .done _ => ∀ k, 0 ≤ k → k < thread.toInt → at' k = .loop
  | .returned ret => ret = 0 → ∀ k, 0 ≤ k → k < thread.toInt → at' k = .loop

/-- The head of the loop. -/
theorem place_forLoop {at' : ℤ → RoutinePc} {i ret : ℤ} (hi : i ≤ thread.toInt ∨ ret ≠ 0)
    (hloop : ∀ k, 0 ≤ k → k < i → at' k = .loop) (habs : ∀ k, i ≤ k → at' k = .absent) :
    Place thread at' (forLoop thread i ret) := by
  unfold forLoop
  split
  · exact ⟨‹_›, hloop, habs⟩
  · split
    · exact hi.resolve_left (by omega)
    · exact fun k h0 hk => hloop k h0 (by omega)

/-- Workers that go on neither leave their loop nor come into being. -/
theorem Place.mono {at₁ at₂ : ℤ → RoutinePc} {pc : InitPc} (h : Place thread at₁ pc)
    (hloop : ∀ k, at₁ k = .loop → at₂ k = .loop) (habs : ∀ k, at₁ k = .absent → at₂ k = .absent) :
    Place thread at₂ pc := by
  cases pc with
  | alloc => trivial
  | convar i | create i | timedwait i | blocked i =>
    obtain ⟨hi, hl, ha⟩ := h
    exact ⟨hi, fun k h0 hk => hloop k (hl k h0 hk), fun k hk => habs k (ha k hk)⟩
  | unwind i ret => exact h
  | done ret => exact fun k h0 hk => hloop k (h k h0 hk)
  | returned ret => exact fun hret k h0 hk => hloop k (h hret k h0 hk)

/-- What every run keeps, if it is prompt and its initialisations succeed. -/
structure Handshake (thread : Int32) (s : StartSys) : Prop where
  upto : ∀ k, (s.wdThreads k).Upto
  place : Place thread (fun k => (s.wdThreads k).pc) s.pc
  num : s.pc = .returned 0 → s.data.wdThreadNum = thread.toInt
  inserted : ∀ k p ev, .inserted k p ev ∈ s.hist →
    s.pc = .returned 0 ∧ (s.wdThreads k).pc = .loop
  signalling : ∀ k ∈ s.signalling, s.pc = .returned 0 ∧ (s.wdThreads k).pc = .loop
  kept : s.hist.Pairwise fun later earlier =>
    ∀ k p ev, later = .initHead k p → earlier ≠ .inserted k p ev
  intact : s.crashed = false

theorem init_handshake (thread : Int32) (data : WorkerData) : (init data).Handshake thread where
  upto _ := StartWorker.zeroed_upto
  place := trivial
  num h := by cases h
  inserted _ _ _ h := absurd h List.not_mem_nil
  signalling _ h := absurd h List.not_mem_nil
  kept := .nil
  intact := rfl

/-- **The workers at a step of `worker_init`.** -/
theorem Handshake.initStep_upto {ret : ℤ} (h : s.Handshake thread)
    (hs : s.initStep thread ret = some t) : ∀ k, (t.wdThreads k).Upto := by
  cases initStep_cases hs with
  | again | noMem | convarFailed | asleep | freed | done => exact h.upto
  | mem => exact fun _ => StartWorker.zeroed_upto
  | convar i => exact modify_all h.upto (h.upto i).convarInit
  | createFailed i | timedOut i | unwind i => exact modify_all h.upto (h.upto i).convarFini
  | create i hpc =>
    have hplace := h.place
    rw [hpc] at hplace
    exact modify_all h.upto ((h.upto i).threadCreate (hplace.2.2 i (le_refl i)))
  | up i | woken i =>
    exact modify_all h.upto (h.upto i).convarReset

/-- The worker whose latch is up has signalled, and the next one is started. -/
theorem Handshake.place_next {i : ℤ} (h : s.Handshake thread)
    (hpc : s.pc = .timedwait i ∨ s.pc = .blocked i) (hw : (s.wdThreads i).wkConvar ≠ 0) :
    Place thread (fun k => ((s.modify i StartWorker.convarReset).wdThreads k).pc)
      (forLoop thread (i + 1) 0) := by
  have hplace : i < thread.toInt ∧ (∀ k, 0 ≤ k → k < i → (s.wdThreads k).pc = .loop) ∧
      ∀ k, i < k → (s.wdThreads k).pc = .absent := by
    have hp := h.place
    rcases hpc with hpc | hpc
    · rw [hpc] at hp
      exact hp
    · rw [hpc] at hp
      exact hp
  obtain ⟨hi, hloop, habs⟩ := hplace
  refine place_forLoop (.inl (by omega)) (fun k h0 hk => ?_) fun k hk => ?_
  · rw [modify_pc (f := StartWorker.convarReset) fun _ => rfl]
    by_cases hki : k = i
    · exact hki ▸ (h.upto i).latch hw
    · exact hloop k h0 (by omega)
  · rw [modify_pc (f := StartWorker.convarReset) fun _ => rfl]
    exact habs k (by omega)

/-- **The place of `worker_init` after its step.** -/
theorem Handshake.initStep_place {ret : ℤ} (h : s.Handshake thread) (hp : s.Prompt (.init ret))
    (hs : s.initStep thread ret = some t) : Place thread (fun k => (t.wdThreads k).pc) t.pc := by
  have hplace := h.place
  cases initStep_cases hs with
  | again => exact fun h => absurd h (by decide)
  | noMem => exact fun h => absurd h (by decide)
  | mem => exact place_forLoop (.inr (by decide)) (fun k h0 hk => by omega) fun _ _ => rfl
  | convarFailed i _ hr => exact hr
  | convar i hpc =>
    rw [hpc] at hplace
    obtain ⟨hi, hloop, habs⟩ := hplace
    have hpcs := modify_pc (s := s) (k := i) (f := StartWorker.convarInit) fun _ => rfl
    refine ⟨hi, fun k h0 hk => ?_, fun k hk => ?_⟩
    · exact (hpcs k).trans (hloop k h0 hk)
    · exact (hpcs k).trans (habs k hk)
  | createFailed i _ hr => exact hr
  | create i hpc =>
    rw [hpc] at hplace
    obtain ⟨hi, hloop, habs⟩ := hplace
    refine ⟨hi, fun k h0 hk => ?_, fun k hk => ?_⟩
    · show ((s.modify i _).wdThreads k).pc = .loop
      rw [modify_of_ne s _ (ne_of_lt hk)]
      exact hloop k h0 hk
    · show ((s.modify i _).wdThreads k).pc = .absent
      rw [modify_of_ne s _ (ne_of_gt hk)]
      exact habs k (le_of_lt hk)
  | asleep i hpc =>
    rw [hpc] at hplace
    exact hplace
  | up i hpc hw => exact h.place_next (.inl hpc) hw
  | timedOut => exact show (-110 : ℤ) ≠ 0 by decide
  | woken i hpc hr => exact h.place_next (.inr hpc) (hp i (by rw [hpc]; rfl) hr)
  | unwind i r hpc =>
    rw [hpc] at hplace
    exact hplace
  | freed i r hpc =>
    rw [hpc] at hplace
    exact fun hr => absurd hr hplace
  | done r hpc =>
    rw [hpc] at hplace
    exact fun _ => hplace

/-- What a step of `worker_init` leaves. -/
theorem initStep_frame {ret : ℤ} (hs : s.initStep thread ret = some t) :
    s.pc ≠ .returned 0 ∧ t.hist = s.hist ∧ t.signalling = s.signalling ∧ t.crashed = s.crashed := by
  refine ⟨fun hpc => ?_, ?_⟩
  · rw [initStep, hpc] at hs
    cases hs
  · cases initStep_cases hs <;> exact ⟨rfl, rfl, rfl⟩

/-- `wd_thread_num` is set before `0` is returned. -/
theorem Handshake.initStep_num {ret : ℤ} (h : s.Handshake thread)
    (hs : s.initStep thread ret = some t) (hpc : t.pc = .returned 0) :
    t.data.wdThreadNum = thread.toInt := by
  have hplace := h.place
  have hloop : ∀ i ret, forLoop thread i ret ≠ .returned 0 := by
    intro i ret
    unfold forLoop
    split
    · simp
    · split <;> simp
  cases initStep_cases hs with
  | done => rfl
  | freed i r hr =>
    rw [hr] at hplace
    cases hpc
    exact absurd rfl hplace
  | mem | up | woken => exact absurd hpc (hloop _ _)
  | again | noMem => cases hpc
  | convarFailed | convar | createFailed | create | asleep | timedOut | unwind => cases hpc

/-- **A step of `worker_init`.** -/
theorem Handshake.initStep {ret : ℤ} (h : s.Handshake thread) (hp : s.Prompt (.init ret))
    (hs : s.initStep thread ret = some t) : t.Handshake thread := by
  obtain ⟨hret, hhist, hsig, hcrash⟩ := initStep_frame hs
  refine ⟨h.initStep_upto hs, h.initStep_place hp hs, h.initStep_num hs, fun k p ev hin => ?_,
    fun k hin => ?_, hhist ▸ h.kept, hcrash.trans h.intact⟩
  · rw [hhist] at hin
    exact absurd (h.inserted k p ev hin).1 hret
  · rw [hsig] at hin
    exact absurd (h.signalling k hin).1 hret

/-- The record of a worker's step. -/
theorem mem_obs {k : ℤ} {pc : RoutinePc} {o : StartObs} (h : o ∈ obs k pc) :
    ∃ p, pc = .head p ∧ o = .initHead k p := by
  cases pc with
  | head p => exact ⟨p, rfl, List.mem_singleton.1 h⟩
  | absent | event | lock | status | running | signal | loop => cases h

/-- **A step of a worker.** -/
theorem Handshake.worker {k : ℤ} {ok : Bool} {w : StartWorker} (h : s.Handshake thread)
    (hok : s.Inits (.worker k ok)) (hn : (s.wdThreads k).next ok = some w) :
    Handshake thread
      { s.modify k fun _ => w with hist := obs k (s.wdThreads k).pc ++ s.hist } := by
  have hloop : ∀ j, (s.wdThreads j).pc = .loop →
      ((s.modify k fun _ => w).wdThreads j).pc = .loop := by
    intro j hj
    by_cases hjk : j = k
    · subst hjk
      exact (modify_self s j _).symm ▸ StartWorker.next_loop hn hj
    · exact (modify_of_ne s _ hjk).symm ▸ hj
  have habs : ∀ j, (s.wdThreads j).pc = .absent →
      ((s.modify k fun _ => w).wdThreads j).pc = .absent := by
    intro j hj
    have hjk : j ≠ k := fun hjk => StartWorker.next_present hn (hjk ▸ hj)
    exact (modify_of_ne s _ hjk).symm ▸ hj
  refine ⟨?_, h.place.mono hloop habs, h.num, fun j p ev hin => ?_, fun j hin => ?_, ?_, h.intact⟩
  · exact modify_all (f := fun _ => w) h.upto ((h.upto k).next hok hn)
  · rcases List.mem_append.1 hin with hin | hin
    · obtain ⟨q, -, hq⟩ := mem_obs hin
      cases hq
    · obtain ⟨hret, hl⟩ := h.inserted j p ev hin
      exact ⟨hret, hloop j hl⟩
  · obtain ⟨hret, hl⟩ := h.signalling j hin
    exact ⟨hret, hloop j hl⟩
  · refine List.pairwise_append.2 ⟨?_, h.kept, fun later hlater earlier hearlier j p ev hl he => ?_⟩
    · unfold obs
      split
      · exact List.pairwise_singleton _ _
      · exact .nil
    · -- the worker is not in its loop yet
      obtain ⟨q, hq, hlq⟩ := mem_obs hlater
      cases hl.symm.trans hlq
      have hloop := (h.inserted k p ev (he ▸ hearlier)).2
      rw [hq] at hloop
      cases hloop

/-- A write to a worker in its loop that leaves its place. -/
theorem Handshake.write {k : ℤ} {f : StartWorker → StartWorker} (h : s.Handshake thread)
    (hk : (f (s.wdThreads k)).Upto) (hf : ∀ w, (f w).pc = w.pc) :
    (s.modify k f).Handshake thread := by
  have hpc := modify_pc (s := s) (k := k) hf
  refine ⟨modify_all h.upto hk, h.place.mono (fun j hj => (hpc j).trans hj)
    (fun j hj => (hpc j).trans hj), h.num, fun j p ev hin => ?_, fun j hin => ?_, h.kept, h.intact⟩
  · obtain ⟨hret, hl⟩ := h.inserted j p ev hin
    exact ⟨hret, (hpc j).trans hl⟩
  · obtain ⟨hret, hl⟩ := h.signalling j hin
    exact ⟨hret, (hpc j).trans hl⟩

/-- The choice of a worker leaves their number. -/
theorem Handshake.pick (h : s.Handshake thread) (ev : EdpEvent) :
    Handshake thread { s with data := (s.data.pick ev).2.2 } := by
  have hnum : (s.data.pick ev).2.2.wdThreadNum = s.data.wdThreadNum := by
    unfold WorkerData.pick
    split <;> rfl
  exact ⟨h.upto, h.place, fun hret => hnum.trans (h.num hret), h.inserted, h.signalling, h.kept,
    h.intact⟩

/-- **An insertion** finds the worker in its loop. -/
theorem Handshake.insert {k : ℤ} {p : Priority} {ev : EdpEvent} (h : s.Handshake thread)
    (hret : s.pc = .returned 0) (h0 : 0 ≤ k) (hk : k < thread.toInt) :
    (s.insert k p ev).Handshake thread := by
  have hl : (s.wdThreads k).pc = .loop := by
    have hplace := h.place
    rw [hret] at hplace
    exact hplace rfl k h0 hk
  have hready := (h.upto k).ready hl
  have hinit : ((s.wdThreads k).lockInit p && (s.wdThreads k).headInit p) = true := by
    simp [hready.lock p, hready.head p]
  have hpc : ∀ w : StartWorker, (StartWorker.enqueue p ev w).pc = w.pc := by
    intro w
    unfold StartWorker.enqueue
    split <;> rfl
  have hw : (s.modify k (StartWorker.enqueue p ev)).Handshake thread := by
    refine h.write ?_ hpc
    rw [StartWorker.enqueue, if_pos hinit]
    exact (h.upto k).work hl _
  have hl' := (modify_pc (s := s) (k := k) hpc k).trans hl
  refine ⟨hw.upto, hw.place, hw.num, fun j q e hin => ?_, fun j hin => ?_, ?_, ?_⟩
  · rcases List.mem_cons.1 hin with heq | hin
    · cases heq
      exact ⟨hret, hl'⟩
    · exact hw.inserted j q e hin
  · rcases List.mem_cons.1 hin with rfl | hin
    · exact ⟨hret, hl'⟩
    · exact hw.signalling j hin
  · refine List.pairwise_cons.2 ⟨fun earlier _ j q e heq => ?_, hw.kept⟩
    cases heq
  · show (!_) = false
    rw [hinit]
    rfl

/-- **A signal** finds `wk_event` initialised. -/
theorem Handshake.signal {k : ℤ} (h : s.Handshake thread) (hk : k ∈ s.signalling) :
    Handshake thread { s.modify k StartWorker.eventSignal with
      signalling := s.signalling.erase k
      crashed := !(s.wdThreads k).eventInit } := by
  have hl := (h.signalling k hk).2
  have hw : (s.modify k StartWorker.eventSignal).Handshake thread :=
    h.write ((h.upto k).work hl _) fun _ => rfl
  refine ⟨hw.upto, hw.place, hw.num, hw.inserted, fun j hj => ?_, hw.kept, ?_⟩
  · exact hw.signalling j (List.mem_of_mem_erase hj)
  · show (!_) = false
    rw [((h.upto k).ready hl).event]
    rfl

/-- **The step lemma.** -/
theorem Handshake.step {a : Act} (h : s.Handshake thread) (hp : s.Prompt a) (hi : s.Inits a)
    (hs : StartSys.step thread s a = some t) : t.Handshake thread := by
  unfold StartSys.step at hs
  rw [if_neg (by simp [h.intact])] at hs
  cases a with
  | init ret => exact h.initStep hp hs
  | worker k ok =>
    dsimp only at hs
    split at hs
    · obtain ⟨w, hw, rfl⟩ := Option.map_eq_some_iff.1 hs
      exact h.worker hi hw
    · cases hs
  | dispatch ev =>
    dsimp only at hs
    split at hs
    · cases hs
    · rename_i hret
      have hret : s.pc = .returned 0 := Classical.not_not.1 hret
      split at hs
      · cases hs
      · split at hs
        · obtain rfl := Option.some.inj hs
          exact h.pick ev
        · split at hs
          · cases hs
          · rename_i hrange
            obtain rfl := Option.some.inj hs
            have hnum := h.num hret
            exact (h.pick ev).insert hret (by omega) (by omega)
  | signal k =>
    dsimp only at hs
    split at hs
    · obtain rfl := Option.some.inj hs
      exact h.signal ‹_›
    · cases hs

variable {data : WorkerData} {acts : List Act}

theorem run_handshake
    (ha : StepSystem.Meets (step thread) (fun s a => s.Prompt a ∧ s.Inits a) (init data) acts)
    (hrun : StepSystem.run (step thread) (init data) acts = some s) : s.Handshake thread :=
  StepSystem.run_invariant (fun _ _ _ hs ha h => hs.step ha.1 ha.2 h) (init_handshake thread data)
    ha hrun

/-- **The start handshake.**  For every number of workers and in every interleaving in which
`pthread_cond_timedwait` returns `0` only after the signal and the initialisations of
`worker_init_tls` succeed: if `worker_init` returns `0` every worker has been initialised
and has signalled, no head is initialised after an event has been inserted in its queue, and
no dispatch meets a lock, a head or a `wk_event` that is not initialised. -/
theorem started
    (ha : StepSystem.Meets (step thread) (fun s a => s.Prompt a ∧ s.Inits a) (init data) acts)
    (hrun : StepSystem.run (step thread) (init data) acts = some s) : s.Started thread := by
  have h := run_handshake ha hrun
  refine ⟨fun hret k h0 hk => ?_, h.kept, h.intact⟩
  have hplace := h.place
  rw [hret] at hplace
  exact (h.upto k).ready (hplace rfl k h0 hk)

/-- In these runs a worker enters its loop as `Worker.start`. -/
theorem enters_start {k : ℤ} {ok : Bool}
    (ha : StepSystem.Meets (step thread) (fun s a => s.Prompt a ∧ s.Inits a) (init data) acts)
    (hrun : StepSystem.run (step thread) (init data) acts = some s)
    (hs : step thread s (.worker k ok) = some t) (hne : (s.wdThreads k).pc ≠ .loop)
    (hl : (t.wdThreads k).pc = .loop) : (t.wdThreads k).worker = Worker.start := by
  have h := run_handshake ha hrun
  unfold step at hs
  rw [if_neg (by simp [h.intact])] at hs
  dsimp only at hs
  split at hs
  · obtain ⟨w, hw, rfl⟩ := Option.map_eq_some_iff.1 hs
    have hself : ((s.modify k fun _ => w).wdThreads k) = w := modify_self s k _
    rw [show StartSys.wdThreads _ k = w from hself] at hl ⊢
    exact (h.upto k).enters hne hw hl
  · cases hs

/-- One worker, from `worker_init` to the first event. -/
theorem started_one :
    ∃ s, StepSystem.run (step 1) (init .zero)
        ([Act.init 0, .init 0, .init 0, .init 0] ++ List.replicate 14 (Act.worker 0 true) ++
          [Act.init 0, .init 0, .dispatch RoundSys.freshEvent, .signal 0]) = some s ∧
      s.pc = .returned 0 ∧ s.Started 1 := by
  have hrun := Eq.refl (StepSystem.run (step 1) (init .zero)
    ([Act.init 0, .init 0, .init 0, .init 0] ++ List.replicate 14 (Act.worker 0 true) ++
      [Act.init 0, .init 0, .dispatch RoundSys.freshEvent, .signal 0]))
  exact ⟨_, rfl, rfl, started (by decide) hrun⟩

/-- **The last wait ends early.**  If `pthread_cond_timedwait` returns `0` for the last worker
before it has signalled, `worker_init` returns `0` without it. -/
theorem early_return {i : ℤ} (hc : s.crashed = false) (hpc : s.pc = .blocked i) (h0 : 0 ≤ i)
    (hlast : i + 1 = thread.toInt) (hw : (s.wdThreads i).pc ≠ .loop) :
    ∃ t, StepSystem.run (step thread) s [.init 0, .init 0] = some t ∧ ¬ t.Started thread := by
  have hfor : forLoop thread (i + 1) 0 = .done 0 := by
    rw [forLoop, if_neg (by omega), if_neg (not_not_intro hlast)]
  have hwake : step thread s (.init 0) =
      some { s.modify i StartWorker.convarReset with pc := .done 0 } := by
    unfold step initStep
    rw [if_neg (by simp [hc]), hpc, ← hfor]
    rfl
  have hdone : step thread { s.modify i StartWorker.convarReset with pc := .done 0 } (.init 0) =
      some { s.modify i StartWorker.convarReset with
        data := { s.data with wdInit := true, wdThreadNum := thread.toInt }
        pc := .returned 0 } := by
    unfold step
    rw [if_neg (by simp [modify, hc])]
    rfl
  refine ⟨_, StepSystem.run_cons.2 ⟨_, hwake, StepSystem.run_cons.2 ⟨_, hdone, rfl⟩⟩, fun h => ?_⟩
  have hready := (h.ready rfl i h0 (by omega)).signalled
  exact hw ((modify_pc (s := s) (k := i) (f := StartWorker.convarReset) (fun _ => rfl) i).symm.trans
    hready)

/-- **A spurious wakeup.**  The only wait of `worker_init(1)` returns `0` before the thread has
run, and the first event is inserted at a `NULL` link. -/
theorem not_started :
    ¬ ∀ (data : WorkerData) (thread : Int32) (acts : List Act) (s : StartSys),
      StepSystem.run (step thread) (init data) acts = some s → s.Started thread := by
  intro hall
  have hrun := Eq.refl (StepSystem.run (step 1) (init .zero)
    [.init 0, .init 0, .init 0, .init 0, .init 0, .init 0, .dispatch RoundSys.freshEvent])
  exact absurd (hall _ _ _ _ hrun).intact (by decide)

end StartSys

end EdpIo
