/-
# The worker's lists in memory

`WorkerSys` has lists of events where the source has links: five heads in `worker_t`, the head
`events` on the stack of `worker_routine`, and an `ev_node` in every event object.  Here the
links are those of `include/list.h`, the fields of an event are read from its object when the
source reads them, and `list_for_each_safe` is its two cursors: `tmp` is read before the handler
is called, so that the handler may do with the event what it likes.

What the worker does not own it finds as others left it: the owner of an event object may write
anything to its fields and its node, as `edp_event_init`, `free` and the next user of the memory
do.  That it does so only while the event is not pending is `Owned`.
-/

import EdpIo.Base.ListCalls
import EdpIo.Worker.Conservation
import EdpIo.Worker.Locks

namespace EdpIo

/-- The addresses of list heads: `&wkr->wk_p_events`, `&events` and `&ev->ev_node` of the event
object at `a`, and the two poison values. -/
inductive WorkAddr
  | queue (p : Priority)
  | events
  | node (a : ℕ)
  | poison1
  | poison2
deriving DecidableEq, Repr

instance : ListPoison WorkAddr := ⟨.poison1, .poison2⟩

/-- `list_entry(pos, struct edp_event, ev_node)`. -/
def WorkAddr.entry? : WorkAddr → Option ℕ
  | .node a => some a
  | .queue _ | .events | .poison1 | .poison2 => none

/-- Where the worker is in a `list_for_each_safe(pos, tmp, &events)`. -/
inductive Turn
  /-- Before `pos = events.next, tmp = pos->next`. -/
  | first
  /-- Before the test `pos != &events`. -/
  | test
  /-- After the test, the body included, and before `pos = tmp, tmp = pos->next`. -/
  | body
deriving DecidableEq, Repr

/-- A worker without its lists. -/
def Worker.bare (w : Worker) : Worker := { w with queue := fun _ => [], events := [] }

/-- A worker among its dispatchers, in memory: `regs` is `worker_t` and the locals of
`worker_routine` without the lists, which are in `links`, and `mem` the event objects. -/
structure CellSys where
  regs : Worker
  turn : Turn
  pos : WorkAddr
  tmp : WorkAddr
  links : Links WorkAddr
  mem : ℕ → EdpEvent
  signalling : List EdpEvent
  hist : List Obs

namespace CellSys

/-- The lists as `worker_init_tls` and `worker_routine` initialise them. -/
def initHeads (l : Links WorkAddr) : Links WorkAddr :=
  let l := initListHead l .events
  let l := initListHead l (.queue .crit)
  let l := initListHead l (.queue .emrg)
  let l := initListHead l (.queue .high)
  let l := initListHead l (.queue .norm)
  initListHead l (.queue .idle)

/-- Before any dispatch, in a memory with anything in it. -/
def init (l : Links WorkAddr) (mem : ℕ → EdpEvent) : CellSys where
  regs := Worker.start
  turn := .first
  pos := .events
  tmp := .events
  links := initHeads l
  mem := fun a => { mem a with addr := a }
  signalling := []
  hist := []

/-- `if(!list_empty(&wkr->wk_p_events)) list_splice_init(&wkr->wk_p_events, &events)`, or
`list_splice_tail_init`. -/
def spliceQueue (l : Links WorkAddr) (p : Priority) : Links WorkAddr :=
  if !listEmpty l (.queue p) then
    if Worker.splicesFront p then listSpliceInit l (.queue p) .events
    else listSpliceTailInit l (.queue p) .events
  else l

/-- The steps of the worker and of those around it. -/
inductive Act
  /-- The worker's own next step. -/
  | work
  /-- The locked section of `__edp_dispatch` on the object at `a`, or its return of `-ERANGE`. -/
  | dispatch (a : ℕ)
  /-- The signal of a dispatch, and its return of `0`. -/
  | signal (ev : EdpEvent)
  /-- `wk_status = STOP` in `worker_fini`. -/
  | stop
  /-- The owner of the object at `a` writes its fields and the links of its node. -/
  | write (a : ℕ) (ev : EdpEvent) (next prev : WorkAddr)
deriving DecidableEq, Repr

/-- A step of the worker in the loop of `p`. -/
def loopStep (s : CellSys) (p : Priority) : Option CellSys :=
  match s.turn with
  | .first =>
    let pos := s.links.next .events
    some { s with turn := .test, pos := pos, tmp := s.links.next pos }
  | .test =>
    if s.pos = .events then some { s with regs := { s.regs with pc := Worker.afterLoop p } }
    else
      s.pos.entry?.bind fun a =>
        let ev := s.mem a
        if Worker.breaksAt p ev then
          some { s with regs := { s.regs with pc := Worker.afterLoop p } }
        -- `worker_do_event` asserts `ev_handler != NULL`
        else if ev.evHandler = 0 then none
        else
          some { s with
            regs := { s.regs with pc := .running p ev }
            turn := .body
            links := listDel s.links s.pos
            hist := .started ev :: s.hist }
  | .body => some { s with turn := .test, pos := s.tmp, tmp := s.links.next s.tmp }

/-- The worker's next step: its sections and loops work on the links, and what lies between
them does not. -/
def workStep (s : CellSys) : Option CellSys :=
  match s.regs.pc with
  | .sect p =>
    some { s with regs := s.regs.splice p, turn := .first, links := spliceQueue s.links p }
  | .loop p => s.loopStep p
  | _ => s.regs.next.map fun r => { s with regs := r.1, hist := r.2.obs ++ s.hist }

/-- The event object at `a` is written. -/
def wrote (s : CellSys) (a : ℕ) (ev : EdpEvent) (next prev : WorkAddr) : CellSys :=
  { s with
    links := s.links.put (.node a) next prev
    mem := Function.update s.mem a { ev with addr := a } }

section Wrote

variable (s : CellSys) (a : ℕ) (ev : EdpEvent) (next prev : WorkAddr)

@[simp] theorem wrote_regs : (s.wrote a ev next prev).regs = s.regs := rfl

@[simp] theorem wrote_turn : (s.wrote a ev next prev).turn = s.turn := rfl

@[simp] theorem wrote_pos : (s.wrote a ev next prev).pos = s.pos := rfl

@[simp] theorem wrote_tmp : (s.wrote a ev next prev).tmp = s.tmp := rfl

@[simp] theorem wrote_links :
    (s.wrote a ev next prev).links = s.links.put (.node a) next prev := rfl

@[simp] theorem wrote_mem :
    (s.wrote a ev next prev).mem = Function.update s.mem a { ev with addr := a } := rfl

end Wrote

/-- One step. -/
def step (s : CellSys) : Act → Option CellSys
  | .work => s.workStep
  | .dispatch a =>
    match (s.mem a).class? with
    | none => some s
    | some p =>
      some { s with
        regs := s.regs.incPending p
        links := listAddTail s.links (.node a) (.queue p)
        signalling := s.mem a :: s.signalling
        hist := .queued (s.mem a) :: s.hist }
  | .signal ev =>
    if ev ∈ s.signalling then
      some { s with
        regs := s.regs.signal
        signalling := s.signalling.erase ev
        hist := .returned ev :: s.hist }
    else none
  | .stop => some { s with regs := s.regs.stop }
  | .write a ev next prev => some (s.wrote a ev next prev)

/-- `edp_event_init(ev, type, priority)` is a write. -/
def eventInit (s : CellSys) (a : ℕ) (type priority : ℤ) : Act :=
  .write a (edpEventInit (s.mem a) type priority) (.node a) (.node a)

/-- The event object at `a` has been dispatched and its handler not yet been called. -/
def Pending (s : CellSys) (a : ℕ) : Prop := queuedCount a s.hist = calledCount a s.hist + 1

instance (s : CellSys) (a : ℕ) : Decidable (s.Pending a) := inferInstanceAs (Decidable (_ = _))

/-- The callers' condition: an event is dispatched and written to only while every earlier
dispatch of it has had its handler called. -/
def Owned (s : CellSys) : Act → Prop
  | .dispatch a | .write a _ _ _ => queuedCount a s.hist = calledCount a s.hist
  | .work | .signal _ | .stop => True

instance (s : CellSys) : (a : Act) → Decidable (s.Owned a)
  | .dispatch _ | .write _ _ _ _ => inferInstanceAs (Decidable (_ = _))
  | .work | .signal _ | .stop => inferInstanceAs (Decidable True)

end CellSys
end EdpIo
