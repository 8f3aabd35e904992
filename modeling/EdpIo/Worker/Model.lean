/-
# One worker: `worker_routine` and the locked half of `__edp_dispatch`

`worker_t` of `src/worker.c`, with the local variables of `worker_routine` and the
place it has reached.  `Worker.next` is the worker's own next step.  A step is one
of the atomic actions of the source: a section under a queue's lock, a mutex
section of the condition variable, one read of a pending counter, the call of a
handler (with the `list_del` before it, which no other thread can see) and its
return.  The `goto`s are moves to the place of their label.

The five classes of events go through near-identical code, so the places and
sections carry the class as an argument; what differs is written out: `crit`,
`emrg` and `high` are spliced in front of the local list and their loops stop at
an event whose `ev_type` is not the class's number, `norm` and `idle` are spliced
behind and their loops take every event, and only the `norm` loop weighs `high`
against its `ratio`.  The counters `wk_*_handled` are written and never read, and
are left out.
-/

import EdpIo.Base.Event
import Mathlib.Logic.Function.Basic

namespace EdpIo

/-- `enum worker_status`. -/
inductive WorkerStatus
  | zero
  | init
  | running
  | stop
deriving DecidableEq, Repr

/-- `HIGH_NORM_RATIO`. -/
def highNormRatio : ℤ := 5

/-- Where `worker_routine` is. -/
inductive Pc
  /-- The test `wk_status != STOP` of the outer loop. -/
  | head
  /-- `__spi_convar_wait(&wk_event)`, before its mutex is taken. -/
  | wait
  /-- Asleep in `pthread_cond_wait`. -/
  | blocked
  /-- At the label of the class, before its locked section. -/
  | sect (p : Priority)
  /-- At the head of the class's `list_for_each_safe`. -/
  | loop (p : Priority)
  /-- In the handler of an event taken by the class's loop. -/
  | running (p : Priority) (ev : EdpEvent)
  /-- After a handler in the loop of `p`, about to read the counter of `q`. -/
  | check (p q : Priority)
  /-- After the outer loop, about to read the counter of `q`. -/
  | exit (q : Priority)
  /-- Past `worker_fini_tls`. -/
  | finished
deriving DecidableEq, Repr

/-- `worker_t`, with the locals `events`, `ratio` and `high` of `worker_routine`
and its place. -/
structure Worker where
  wkStatus : WorkerStatus
  /-- `wk_event.cv_count`. -/
  cvCount : ℕ
  queue : Priority → List EdpEvent
  pending : Priority → ℕ
  events : List EdpEvent
  ratio : ℤ
  high : Bool
  pc : Pc

namespace Worker

/-- A worker after `worker_init_tls`, on entering its loop. -/
def start : Worker where
  wkStatus := .running
  cvCount := 0
  queue := fun _ => []
  pending := fun _ => 0
  events := []
  ratio := 0
  high := false
  pc := .head

/-- The value of an `int64_t` counter assigned to an `int`. -/
def toInt32 (n : ℕ) : ℤ := Int.bmod n 4294967296

/-- Whether the class is spliced in front of the local list, by
`list_splice_init`, or behind it, by `list_splice_tail_init`. -/
def splicesFront : Priority → Bool
  | .crit | .emrg | .high => true
  | .norm | .idle => false

/-- The section under the lock of class `p`: the queue moves into the local list
and its counter is reset.  `high` keeps the old counter in `ratio` and notes
whether it was zero; `norm` divides the `ratio` it finds. -/
def splice (w : Worker) (p : Priority) : Worker :=
  { w with
    events := if splicesFront p then w.queue p ++ w.events else w.events ++ w.queue p
    queue := Function.update w.queue p []
    pending := Function.update w.pending p 0
    ratio :=
      match p with
      | .high => toInt32 (w.pending .high)
      | .norm => w.ratio.tdiv highNormRatio
      | _ => w.ratio
    high := if p = .high then toInt32 (w.pending .high) ≠ 0 else w.high
    pc := .loop p }

/-- Whether the loop of `p` breaks at an event: the three upper loops do when
its `ev_type` is not the class's number. -/
def breaksAt (p : Priority) (ev : EdpEvent) : Bool :=
  splicesFront p && decide (ev.evType ≠ p.toNat)

/-- The place after the loop of `p`: the label of the next class, or the test of
the outer loop. -/
def afterLoop (p : Priority) : Pc :=
  match p.below with
  | some q => .sect q
  | none => .head

/-- After a handler in the loop of `p`, the counters above `p` are read from `q`
down; with none left the loop goes on. -/
def checkFrom (p : Priority) : Option Priority → Pc
  | some q => if p < q then .check p q else .loop p
  | none => .loop p

/-- Whether a non-zero counter of `q` ends the loop of `p`: always, but for
`high` in the `norm` loop, which may still have a share (`ratio`) left. -/
def yields (w : Worker) : Priority → Priority → Bool
  | .norm, .high => !w.high || w.ratio = 0
  | _, _ => true

/-- What a step of the worker does that others can tell. -/
inductive Label
  | tau
  | start (ev : EdpEvent)
  | finish (ev : EdpEvent)
deriving DecidableEq, Repr

/-- The worker's next step; `none` when it is over or an assertion fails. -/
def next (w : Worker) : Option (Worker × Label) :=
  match w.pc with
  | .head => some ({ w with pc := if w.wkStatus = .stop then .exit .crit else .wait }, .tau)
  | .wait =>
    if w.cvCount = 0 then some ({ w with pc := .blocked }, .tau)
    else some ({ w with cvCount := 0, pc := .sect .crit }, .tau)
  -- `pthread_cond_wait` may return at any time
  | .blocked => some ({ w with cvCount := 0, pc := .sect .crit }, .tau)
  | .sect p => some (w.splice p, .tau)
  | .loop p =>
    match w.events with
    | [] => some ({ w with pc := afterLoop p }, .tau)
    | ev :: rest =>
      if breaksAt p ev then some ({ w with pc := afterLoop p }, .tau)
      -- `worker_do_event` asserts `ev_handler != NULL`
      else if ev.evHandler = 0 then none
      else some ({ w with events := rest, pc := .running p ev }, .start ev)
  | .running p ev => some ({ w with pc := checkFrom p (some .crit) }, .finish ev)
  | .check p q =>
    if w.pending q ≠ 0 ∧ w.yields p q then some ({ w with pc := .sect q }, .tau)
    else
      let pc := checkFrom p q.below
      -- the `norm` loop ends its turn with `ratio--`
      some ({ w with pc := pc, ratio := if pc = .loop .norm then w.ratio - 1 else w.ratio }, .tau)
  | .exit q =>
    if w.pending q ≠ 0 then some ({ w with pc := .sect q }, .tau)
    else
      match q.below with
      | some q' => some ({ w with pc := .exit q' }, .tau)
      | none => some ({ w with wkStatus := .zero, pc := .finished }, .tau)
  | .finished => none

/-- The section of `__edp_dispatch` under the lock of class `p`. -/
def enqueue (w : Worker) (p : Priority) (ev : EdpEvent) : Worker :=
  { w with
    queue := Function.update w.queue p (w.queue p ++ [ev])
    pending := Function.update w.pending p (w.pending p + 1) }

/-- `__spi_convar_signal(&wk_event)`: its mutex section. -/
def signal (w : Worker) : Worker := if w.cvCount ≠ 0 then w else { w with cvCount := 1 }

@[simp] theorem signal_pc (w : Worker) : w.signal.pc = w.pc := by
  unfold signal
  split <;> rfl

@[simp] theorem signal_wkStatus (w : Worker) : w.signal.wkStatus = w.wkStatus := by
  unfold signal
  split <;> rfl

@[simp] theorem signal_queue (w : Worker) : w.signal.queue = w.queue := by
  unfold signal
  split <;> rfl

/-- `wk_status = kWORKER_STATUS_STOP`, as `worker_fini` sets it. -/
def stop (w : Worker) : Worker := { w with wkStatus := .stop }

end Worker

end EdpIo
