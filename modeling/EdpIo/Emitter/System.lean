/-
# Emitters and their users

Any number of `emit_dispatch` and `emit_destroy` calls in progress on any emitters,
handlers added and removed, and `n` workers, in any interleaving.  `mem` holds the
event objects: the lists of the workers and the calls in progress refer to an object
by its address, and every step reads the object's fields anew (`fetch`), so that what
is written to an event on its way is seen by whoever handles it.  Only the emitter
that `emit_event_handler` got as an argument is its own.

`hist` records, newest first, the calls of `emit_dispatch` that passed the locked
section of `__edp_dispatch` and those that returned, each by its number, the calls of
`edp_event_done`, and the results of `emit_destroy`.  A completion callback runs after
its record, while its worker has not yet returned from the handler, and may dispatch
the event again.
-/

import EdpIo.Emitter.Load
import EdpIo.Lib.Pool
import EdpIo.Lib.Run

namespace EdpIo

/-! ### Reading the event objects -/

/-- The event object as it is now. -/
def EdpEvent.fetch (mem : ℕ → EdpEvent) (ev : EdpEvent) : EdpEvent := mem ev.addr

/-- The events of a worker as they are now. -/
def Worker.fetch (mem : ℕ → EdpEvent) (w : Worker) : Worker :=
  { w with queue := fun p => (w.queue p).map (EdpEvent.fetch mem)
           events := w.events.map (EdpEvent.fetch mem) }

/-- The event of `emit_event_handler(emit, ev)` as it is now; `emit` is the argument. -/
def Phase.fetch (mem : ℕ → EdpEvent) : Phase → Phase
  | .out => .out
  | .entered ev => .entered { ev.fetch mem with evEmit := ev.evEmit }
  | .inside ev => .inside { ev.fetch mem with evEmit := ev.evEmit }
  | .ended ev errcode => .ended { ev.fetch mem with evEmit := ev.evEmit } errcode
  | .completing ev errcode => .completing { ev.fetch mem with evEmit := ev.evEmit } errcode

/-- The event of a call as it is now. -/
def EmitCall.fetch {n : ℕ} (mem : ℕ → EdpEvent) (c : EmitCall n) : EmitCall n :=
  { c with ev := c.ev.fetch mem }

/-- All events of the workers as they are now. -/
def Emitters.fetch {n : ℕ} (mem : ℕ → EdpEvent) (s : Emitters n) : Emitters n :=
  { s with workers := fun i => (s.workers i).fetch mem
           phases := fun i => (s.phases i).fetch mem }

/-! ### The operations around dispatch -/

namespace Emitters

variable {n : ℕ}

/-- `emit_add_handler(em, type, handler)`, with what it returns. -/
def emitAddHandler (s : Emitters n) (em : ℕ) (type : ℤ) (handler : Handler) : Emitters n × ℤ :=
  if type < 0 ∨ kEmitEventTypeMax ≤ type then (s, -34)
  else ({ s with emits := s.emits.modify em fun e => e.addHandler type handler }, 0)

/-- `emit_rmv_watch(em, type)`, with what it returns. -/
def emitRmvWatch (s : Emitters n) (em : ℕ) (type : ℤ) : Emitters n × ℤ :=
  if type < 0 ∨ kEmitEventTypeMax ≤ type then (s, -34)
  else ({ s with emits := s.emits.modify em fun e => e.addHandler type .default }, 0)

variable (s : Emitters n) (em : ℕ) (type : ℤ) (handler : Handler)

@[simp] theorem emitAddHandler_workers :
    (s.emitAddHandler em type handler).1.workers = s.workers := by
  unfold emitAddHandler
  split <;> rfl

@[simp] theorem emitAddHandler_phases : (s.emitAddHandler em type handler).1.phases = s.phases := by
  unfold emitAddHandler
  split <;> rfl

@[simp] theorem emitRmvWatch_workers : (s.emitRmvWatch em type).1.workers = s.workers := by
  unfold emitRmvWatch
  split <;> rfl

@[simp] theorem emitRmvWatch_phases : (s.emitRmvWatch em type).1.phases = s.phases := by
  unfold emitRmvWatch
  split <;> rfl

end Emitters

/-- Where `emit_destroy` is. -/
inductive ClosePc
  /-- Before the test of `ee_pendings`. -/
  | testing
  /-- Before `ee_init = 0`. -/
  | uniniting
  /-- Before `mheap_free`. -/
  | freeing
deriving DecidableEq, Repr

/-- `emit_destroy(em)` in progress. -/
structure EmitClose where
  em : ℕ
  pc : ClosePc
deriving DecidableEq, Repr

/-- What is left of it after a step, or what it returns. -/
inductive CloseResult
  | next (d : EmitClose)
  | ret (code : ℤ)
deriving DecidableEq, Repr

/-- One step of `emit_destroy`. -/
def EmitClose.step {n : ℕ} (s : Emitters n) (d : EmitClose) : Option (Emitters n × CloseResult) :=
  match d.pc with
  | .testing =>
    (s.emits.get? d.em).map fun e =>
      (s, if e.eePendings ≠ 0 then .ret (-22) else .next ⟨d.em, .uniniting⟩)
  | .uniniting =>
    some ({ s with emits := s.emits.modify d.em Emit.uninit }, .next ⟨d.em, .freeing⟩)
  | .freeing => some ({ s with emits := s.emits.free d.em }, .ret 0)

/-- The steps of `emit_destroy`, one constructor for each way on. -/
inductive EmitClose.Step {n : ℕ} (s : Emitters n) : EmitClose → Emitters n → CloseResult → Prop
  | busy (em : ℕ) (e : Emit) (he : s.emits.get? em = some e) (hp : e.eePendings ≠ 0) :
      Step s ⟨em, .testing⟩ s (.ret (-22))
  | idle (em : ℕ) (e : Emit) (he : s.emits.get? em = some e) (hp : e.eePendings = 0) :
      Step s ⟨em, .testing⟩ s (.next ⟨em, .uniniting⟩)
  | uninit (em : ℕ) :
      Step s ⟨em, .uniniting⟩ { s with emits := s.emits.modify em Emit.uninit }
        (.next ⟨em, .freeing⟩)
  | free (em : ℕ) : Step s ⟨em, .freeing⟩ { s with emits := s.emits.free em } (.ret 0)

theorem EmitClose.Step.workers {n : ℕ} {s t : Emitters n} {d : EmitClose} {r : CloseResult}
    (h : d.Step s t r) : t.workers = s.workers ∧ t.phases = s.phases := by
  cases h <;> exact ⟨rfl, rfl⟩

theorem EmitClose.step_cases {n : ℕ} {s t : Emitters n} {d : EmitClose} {r : CloseResult}
    (h : d.step s = some (t, r)) : d.Step s t r := by
  obtain ⟨em, pc⟩ := d
  cases pc with
  | testing =>
    obtain ⟨e, he, h⟩ := Option.map_eq_some_iff.1 h
    obtain ⟨rfl, rfl⟩ := Prod.mk.inj h
    by_cases hp : e.eePendings = 0
    · rw [if_neg (not_not.2 hp)]
      exact .idle em e he hp
    · rw [if_pos hp]
      exact .busy em e he hp
  | uniniting =>
    obtain ⟨rfl, rfl⟩ := Prod.mk.inj (Option.some.inj h)
    exact .uninit em
  | freeing =>
    obtain ⟨rfl, rfl⟩ := Prod.mk.inj (Option.some.inj h)
    exact .free em

/-! ### The system -/

/-- A call of `emit_dispatch` in progress, with its number. -/
structure EmitTask (n : ℕ) where
  id : ℕ
  call : EmitCall n
deriving DecidableEq, Repr

/-- What is recorded of the calls. -/
inductive EmitObs
  /-- The call with the number `id` passed the locked section of `__edp_dispatch`. -/
  | queued (id em a cb data : ℕ)
  /-- It returned `code`. -/
  | returned (id em a cb data : ℕ) (code : ℤ)
  /-- `edp_event_done` called `cb(a, data, errcode)` for the emitter `em`. -/
  | done (em a cb data : ℕ) (errcode : ℤ)
  /-- `emit_destroy(em)` returned `code`. -/
  | destroyed (em : ℕ) (code : ℤ)
deriving DecidableEq, Repr

/-- What a step of a call is recorded as. -/
def EmitCall.obs {n : ℕ} (id : ℕ) (c : EmitCall n) : EmitResult n → List EmitObs
  | .next c' =>
    match c'.pc with
    | .signalling _ => [.queued id c.em c.ev.addr c.cb c.data]
    | _ => []
  | .ret code => [.returned id c.em c.ev.addr c.cb c.data code]

/-- What a step from the place in `emit_event_handler` is recorded as. -/
def Phase.obs : Phase → List EmitObs
  | .completing ev errcode => [.done ev.evEmit ev.addr ev.evCb ev.evData errcode]
  | _ => []

/-- The emitters and workers, the event objects, the calls of `emit_dispatch` in progress
with their numbers, those of `emit_destroy`, and the history. -/
structure EmitSys (n : ℕ) where
  emit : Emitters n
  mem : ℕ → EdpEvent
  calls : List (EmitTask n)
  closing : List EmitClose
  begun : ℕ
  hist : List EmitObs

namespace EmitSys

variable {n : ℕ}

/-- Running workers without events, no emitter, and event objects that hold zeros. -/
def init : EmitSys n where
  emit := .init
  mem := fun a => ⟨a, 0, 0, 0, 0, 0, 0, 0⟩
  calls := []
  closing := []
  begun := 0
  hist := []

/-- The steps. -/
inductive Act (n : ℕ)
  /-- `emit_create(data, ..)`, with the address that `mheap_alloc` returns. -/
  | create (em data : ℕ)
  | addHandler (em : ℕ) (type : ℤ) (handler : Handler)
  | rmvWatch (em : ℕ) (type : ℤ)
  /-- `edp_event_init(a, type, priority)`. -/
  | initEvent (a : ℕ) (type priority : ℤ)
  /-- The beginning of `emit_dispatch(em, a, cb, data)`. -/
  | dispatch (em a cb data : ℕ)
  /-- A step of a call in progress, with the worker that `__edp_dispatch` picks. -/
  | call (c : EmitTask n) (w : Option (Fin n))
  /-- The own next step of a worker. -/
  | work (i : Fin n)
  /-- Its next step in `emit_event_handler`, with what the handler returns. -/
  | handle (i : Fin n) (ret : ℤ)
  /-- `wk_status = STOP` in `worker_fini`. -/
  | stop (i : Fin n)
  /-- The beginning of `emit_destroy(em)`. -/
  | destroy (em : ℕ)
  /-- A step of it. -/
  | close (d : EmitClose)
deriving DecidableEq, Repr

/-- The state after a step of the call `c` with the result `r`. -/
def advance (s : EmitSys n) (c : EmitTask n) (e : Emitters n) (r : EmitResult n) : EmitSys n :=
  match r with
  | .next c' =>
    { s with emit := e
             mem := Function.update s.mem c'.ev.addr c'.ev
             calls := ⟨c.id, c'⟩ :: s.calls.erase c
             hist := (c.call.fetch s.mem).obs c.id r ++ s.hist }
  | .ret _ =>
    { s with emit := e
             calls := s.calls.erase c
             hist := (c.call.fetch s.mem).obs c.id r ++ s.hist }

/-- The state after a step of `emit_destroy`. -/
def closed (s : EmitSys n) (d : EmitClose) (e : Emitters n) : CloseResult → EmitSys n
  | .next d' => { s with emit := e, closing := d' :: s.closing.erase d }
  | .ret code =>
    { s with emit := e
             closing := s.closing.erase d
             hist := .destroyed d.em code :: s.hist }

/-- One step. -/
def step (s : EmitSys n) : Act n → Option (EmitSys n)
  | .create em data =>
    if (s.emit.emits em).isNone then
      some { s with emit.emits := s.emit.emits.alloc em (emitCreate data) }
    else none
  | .addHandler em type handler =>
    some { s with emit := (s.emit.emitAddHandler em type handler).1 }
  | .rmvWatch em type => some { s with emit := (s.emit.emitRmvWatch em type).1 }
  | .initEvent a type priority =>
    some { s with mem := Function.update s.mem a (edpEventInit (s.mem a) type priority) }
  | .dispatch em a cb data =>
    some { s with calls := ⟨s.begun, em, s.mem a, cb, data, .checking⟩ :: s.calls
                  begun := s.begun + 1 }
  | .call c w =>
    if c ∈ s.calls then
      ((c.call.fetch s.mem).step s.emit w).map fun r => s.advance c r.1 r.2
    else none
  | .work i => ((s.emit.fetch s.mem).work i).map fun e => { s with emit := e }
  | .handle i ret =>
    ((s.emit.fetch s.mem).handle i ret).map fun e =>
      { s with emit := e, hist := ((s.emit.phases i).fetch s.mem).obs ++ s.hist }
  | .stop i =>
    some { s with emit.workers := Function.update s.emit.workers i (s.emit.workers i).stop }
  | .destroy em => some { s with closing := ⟨em, .testing⟩ :: s.closing }
  | .close d =>
    if d ∈ s.closing then (d.step s.emit).map fun r => s.closed d r.1 r.2 else none

/-- The steps of the system, with those of the calls as their own steps say. -/
inductive Step (s : EmitSys n) : Act n → EmitSys n → Prop
  | create (em data : ℕ) (h : s.emit.emits em = none) :
      Step s (.create em data) { s with emit.emits := s.emit.emits.alloc em (emitCreate data) }
  | addHandler (em : ℕ) (type : ℤ) (handler : Handler) :
      Step s (.addHandler em type handler)
        { s with emit := (s.emit.emitAddHandler em type handler).1 }
  | rmvWatch (em : ℕ) (type : ℤ) :
      Step s (.rmvWatch em type) { s with emit := (s.emit.emitRmvWatch em type).1 }
  | initEvent (a : ℕ) (type priority : ℤ) :
      Step s (.initEvent a type priority)
        { s with mem := Function.update s.mem a (edpEventInit (s.mem a) type priority) }
  | dispatch (em a cb data : ℕ) :
      Step s (.dispatch em a cb data)
        { s with calls := ⟨s.begun, em, s.mem a, cb, data, .checking⟩ :: s.calls
                 begun := s.begun + 1 }
  | call (c : EmitTask n) (w : Option (Fin n)) (hc : c ∈ s.calls) (e : Emitters n)
      (r : EmitResult n) (h : (c.call.fetch s.mem).Step s.emit e r) :
      Step s (.call c w) (s.advance c e r)
  | work (i : Fin n) (e : Emitters n) (h : (s.emit.fetch s.mem).work i = some e) :
      Step s (.work i) { s with emit := e }
  | handle (i : Fin n) (ret : ℤ) (e : Emitters n)
      (h : (s.emit.fetch s.mem).handle i ret = some e) :
      Step s (.handle i ret)
        { s with emit := e, hist := ((s.emit.phases i).fetch s.mem).obs ++ s.hist }
  | stop (i : Fin n) :
      Step s (.stop i)
        { s with emit.workers := Function.update s.emit.workers i (s.emit.workers i).stop }
  | destroy (em : ℕ) : Step s (.destroy em) { s with closing := ⟨em, .testing⟩ :: s.closing }
  | close (d : EmitClose) (hd : d ∈ s.closing) (e : Emitters n) (r : CloseResult)
      (h : d.Step s.emit e r) : Step s (.close d) (s.closed d e r)

theorem step_cases {s t : EmitSys n} {a : Act n} (h : step s a = some t) : s.Step a t := by
  cases a with
  | create em data =>
    rw [step] at h
    split at h
    · obtain rfl := Option.some.inj h
      exact .create em data (Option.isNone_iff_eq_none.1 ‹_›)
    · cases h
  | addHandler em type handler =>
    obtain rfl := Option.some.inj h
    exact .addHandler em type handler
  | rmvWatch em type =>
    obtain rfl := Option.some.inj h
    exact .rmvWatch em type
  | initEvent a type priority =>
    obtain rfl := Option.some.inj h
    exact .initEvent a type priority
  | dispatch em a cb data =>
    obtain rfl := Option.some.inj h
    exact .dispatch em a cb data
  | call c w =>
    rw [step] at h
    split at h
    · obtain ⟨⟨e, r⟩, hr, rfl⟩ := Option.map_eq_some_iff.1 h
      exact .call c w ‹_› e r (EmitCall.step_cases hr)
    · cases h
  | work i =>
    obtain ⟨e, he, rfl⟩ := Option.map_eq_some_iff.1 h
    exact .work i e he
  | handle i ret =>
    obtain ⟨e, he, rfl⟩ := Option.map_eq_some_iff.1 h
    exact .handle i ret e he
  | stop i =>
    obtain rfl := Option.some.inj h
    exact .stop i
  | destroy em =>
    obtain rfl := Option.some.inj h
    exact .destroy em
  | close d =>
    rw [step] at h
    split at h
    · obtain ⟨⟨e, r⟩, hr, rfl⟩ := Option.map_eq_some_iff.1 h
      exact .close d ‹_› e r (EmitClose.step_cases hr)
    · cases h

end EmitSys
end EdpIo
