/-
# A worker among its dispatchers

The runs of one worker interleaved in any order with `__edp_dispatch` calls to it,
by other threads or by the handlers it runs, and with the `STOP` of
`worker_fini`.  A dispatch is two atomic steps: the section under the queue's
lock, and the mutex section of `__spi_convar_signal`; between them the caller is
one of `signalling`.  A handler runs from the step that calls it to its return,
and any number of other steps may lie between, its own dispatches included.

`hist` records, newest first, what happened to events: a dispatch passed its
locked section (`queued`), a dispatch returned `0` (`returned`), a handler was
called (`started`) and returned (`finished`).  Nothing in the worker reads it.
-/

import EdpIo.Lib.Run
import EdpIo.Worker.Step

namespace EdpIo

/-- What can be recorded of an event. -/
inductive Obs
  | queued (ev : EdpEvent)
  | returned (ev : EdpEvent)
  | started (ev : EdpEvent)
  | finished (ev : EdpEvent)
deriving DecidableEq, Repr

/-- The record of a worker's step. -/
def Worker.Label.obs : Worker.Label → List Obs
  | .tau => []
  | .start ev => [.started ev]
  | .finish ev => [.finished ev]

/-- A worker, the dispatchers between their queue insertion and the end of their
signal, and the history. -/
structure WorkerSys where
  worker : Worker
  signalling : List EdpEvent
  hist : List Obs

namespace WorkerSys

/-- Before any dispatch. -/
def init : WorkerSys := ⟨Worker.start, [], []⟩

/-- The atomic steps of the worker and of those around it. -/
inductive Act
  /-- The worker's own next step. -/
  | work
  /-- The locked section of `__edp_dispatch(ev)`, or its return of `-ERANGE`. -/
  | dispatch (ev : EdpEvent)
  /-- The signal of a dispatch of `ev`, and its return of `0`. -/
  | signal (ev : EdpEvent)
  /-- `wk_status = STOP` in `worker_fini`. -/
  | stop
deriving DecidableEq, Repr

/-- One step. -/
def step (s : WorkerSys) : Act → Option WorkerSys
  | .work => s.worker.next.map fun r => ⟨r.1, s.signalling, r.2.obs ++ s.hist⟩
  | .dispatch ev =>
    match ev.class? with
    | none => some s
    | some p => some ⟨s.worker.enqueue p ev, ev :: s.signalling, .queued ev :: s.hist⟩
  | .signal ev =>
    if ev ∈ s.signalling then
      some ⟨s.worker.signal, s.signalling.erase ev, .returned ev :: s.hist⟩
    else none
  | .stop => some { s with worker := s.worker.stop }

/-- The steps of the system, with what they leave as it was. -/
inductive Step (s : WorkerSys) : Act → WorkerSys → Prop
  | work (l : Worker.Label) (w : Worker) (h : s.worker.Step l w) :
      Step s .work ⟨w, s.signalling, l.obs ++ s.hist⟩
  | refused (ev : EdpEvent) (h : ev.class? = none) : Step s (.dispatch ev) s
  | dispatch (ev : EdpEvent) (p : Priority) (h : ev.class? = some p) :
      Step s (.dispatch ev) ⟨s.worker.enqueue p ev, ev :: s.signalling, .queued ev :: s.hist⟩
  | signal (ev : EdpEvent) (h : ev ∈ s.signalling) :
      Step s (.signal ev) ⟨s.worker.signal, s.signalling.erase ev, .returned ev :: s.hist⟩
  | stop : Step s .stop { s with worker := s.worker.stop }

theorem step_cases {s t : WorkerSys} {a : Act} (h : step s a = some t) : s.Step a t := by
  cases a with
  | work =>
    obtain ⟨⟨w, l⟩, hn, rfl⟩ := Option.map_eq_some_iff.1 h
    exact .work l w (Worker.next_step hn)
  | dispatch ev =>
    rw [step] at h
    split at h
    · obtain rfl := Option.some.inj h
      exact .refused ev ‹_›
    · obtain rfl := Option.some.inj h
      exact .dispatch ev _ ‹_›
  | signal ev =>
    rw [step] at h
    split at h
    · obtain rfl := Option.some.inj h
      exact .signal ev ‹_›
    · cases h
  | stop =>
    obtain rfl := Option.some.inj h
    exact .stop

/-- The step dispatches no event whose `ev_type` is not its `ev_priority`. -/
def OwnType (_ : WorkerSys) : Act → Prop
  | .dispatch ev => ev.evType = ev.evPriority
  | _ => True

instance (s : WorkerSys) : (a : Act) → Decidable (s.OwnType a)
  | .dispatch _ => inferInstanceAs (Decidable (_ = _))
  | .work | .signal _ | .stop => inferInstanceAs (Decidable True)

/-- In every state of every run each counter is the length of its queue. -/
theorem counted_step {s t : WorkerSys} {a : Act} (hs : s.worker.Counted)
    (h : step s a = some t) : t.worker.Counted := by
  cases step_cases h with
  | work l w hw => exact hs.step hw
  | refused ev _ => exact hs
  | dispatch ev p _ => exact hs.enqueue p ev
  | signal ev _ => exact hs.signal
  | stop => exact hs

/-- In every state of every run the local list is empty outside a pass. -/
theorem placed_step {s t : WorkerSys} {a : Act} (hs : s.worker.Placed)
    (h : step s a = some t) : t.worker.Placed := by
  cases step_cases h with
  | work l w hw => exact hs.step hw
  | refused ev _ => exact hs
  | dispatch ev p _ => exact ⟨hs.inPass, hs.checksUp⟩
  | signal ev _ => exact hs.signal
  | stop => exact ⟨hs.inPass, hs.checksUp⟩

end WorkerSys
end EdpIo
