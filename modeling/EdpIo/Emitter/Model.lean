/-
# Emitters on `n` workers

`struct edp_emit` and `emit_dispatch`, `emit_event_handler` and `emit_destroy` of
`emitter.c`, over the workers they dispatch to.  A call of `emit_dispatch` in
progress is an `EmitCall`; a worker in `emit_event_handler` is at a `Phase`, and
its own next step has to wait until that is over.  The atomic steps are the checks
of the call, `atomic_inc`, the two of `__edp_dispatch`, and in the handler the
checks, the call of the handler and its return, `atomic_dec` and the completion
callback.

Emitters are objects of a heap whose blocks keep their contents when freed.
`ee_magic` is the same for every emitter and is left out with `emit_check`; so are
the lock and the list that link the emitters together.  Which worker
`__edp_dispatch` picks is an input of the step.
-/

import EdpIo.Lib.BlockHeap
import EdpIo.Worker.Step
import Mathlib.Algebra.BigOperators.Group.Finset.Basic
import Mathlib.Algebra.BigOperators.Fin

namespace EdpIo

/-- The values of an `emit_handler`. -/
inductive Handler
  /-- `emit_default_handler`. -/
  | default
  /-- A function of the emitter's owner, by its address. -/
  | fn (addr : ℕ)
deriving DecidableEq, Repr

/-- `kEMIT_EVENT_TYPE_MAX`. -/
def kEmitEventTypeMax : ℤ := 16

/-- `struct edp_emit`. -/
structure Emit where
  eeInit : Bool
  eePendings : ℤ
  eeHandler : ℤ → Handler
  eeData : ℕ

/-- `emit_create`. -/
def emitCreate (data : ℕ) : Emit where
  eeInit := true
  eePendings := 0
  eeHandler := fun _ => .default
  eeData := data

namespace Emit

/-- `emit_add_handler`, on a type in range. -/
def addHandler (e : Emit) (type : ℤ) (h : Handler) : Emit :=
  { e with eeHandler := Function.update e.eeHandler type h }

/-- The tests of `emit_dispatch` on a type: `0`, or the error it returns. -/
def check (e : Emit) (type : ℤ) : ℤ :=
  if type < 0 ∨ kEmitEventTypeMax ≤ type then -34
  else if e.eeHandler type = .default then -2
  else if !e.eeInit then -22
  else 0

/-- `emit_event_handler` has a handler to call for the type. -/
def Installed (e : Emit) (type : ℤ) : Prop :=
  0 ≤ type ∧ type < kEmitEventTypeMax ∧ e.eeHandler type ≠ .default

instance (e : Emit) (type : ℤ) : Decidable (e.Installed type) :=
  inferInstanceAs (Decidable (_ ∧ _))

/-- `atomic_inc(&ee->ee_pendings)`. -/
def incPendings (e : Emit) : Emit := { e with eePendings := e.eePendings + 1 }

/-- `atomic_dec(&ee->ee_pendings)`. -/
def decPendings (e : Emit) : Emit := { e with eePendings := e.eePendings - 1 }

/-- `ee_init = 0`. -/
def uninit (e : Emit) : Emit := { e with eeInit := false }

/-- An initialised emitter takes the types that have a handler. -/
theorem check_eq_zero {e : Emit} {type : ℤ} (h : e.Installed type) (hi : e.eeInit = true) :
    e.check type = 0 := by
  obtain ⟨h0, hlt, hne⟩ := h
  rw [check, if_neg (by omega), if_neg hne, hi]
  rfl

end Emit

/-- The address of `emit_event_handler`. -/
def emitEventHandler : ℕ := 1

/-- Where a worker is in `emit_event_handler`, called with the event it is running. -/
inductive Phase
  /-- Not in it. -/
  | out
  /-- Before the tests of `ev_type`. -/
  | entered (ev : EdpEvent)
  /-- In the handler of the event's type. -/
  | inside (ev : EdpEvent)
  /-- Before `atomic_dec`. -/
  | ended (ev : EdpEvent) (errcode : ℤ)
  /-- Before `edp_event_done(ev, errcode)`. -/
  | completing (ev : EdpEvent) (errcode : ℤ)
deriving DecidableEq, Repr

/-- A call of `emit_dispatch` that has not returned. -/
inductive EmitPc (n : ℕ)
  /-- Before the tests. -/
  | checking
  /-- Before `atomic_inc`. -/
  | counting
  /-- Before the locked section of `__edp_dispatch`. -/
  | queueing
  /-- Before its signal to the worker. -/
  | signalling (w : Fin n)
deriving DecidableEq, Repr

/-- `emit_dispatch(em, ev, cb, data)` in progress; `cb` and `data` are those that
`ev` gets. -/
structure EmitCall (n : ℕ) where
  em : ℕ
  ev : EdpEvent
  cb : ℕ
  data : ℕ
  pc : EmitPc n
deriving DecidableEq, Repr

/-- What is left of a call after a step. -/
inductive EmitResult (n : ℕ)
  | next (c : EmitCall n)
  | ret (code : ℤ)
deriving DecidableEq, Repr

/-- The workers, where each is in `emit_event_handler`, and the emitters. -/
structure Emitters (n : ℕ) where
  workers : Fin n → Worker
  phases : Fin n → Phase
  emits : BlockHeap Emit

namespace Emitters

variable {n : ℕ}

/-- Running workers without events, and no emitter. -/
def init : Emitters n := ⟨fun _ => .start, fun _ => .out, .empty⟩

/-- The worker `i` at another place in the handler. -/
def setPhase (s : Emitters n) (i : Fin n) (p : Phase) : Emitters n :=
  { s with phases := Function.update s.phases i p }

/-- The place in the handler after a step of the worker's own. -/
def phaseAfter : Worker.Label → Phase
  | .start ev => if ev.evHandler = emitEventHandler then .entered ev else .out
  | .tau => .out
  | .finish _ => .out

/-- A worker enters `emit_event_handler` only with the event it starts. -/
theorem phaseAfter_cases (l : Worker.Label) :
    phaseAfter l = .out ∨
      ∃ ev, l = .start ev ∧ ev.evHandler = emitEventHandler ∧ phaseAfter l = .entered ev := by
  cases l with
  | tau | finish ev => exact .inl rfl
  | start ev =>
    by_cases h : ev.evHandler = emitEventHandler
    · exact .inr ⟨ev, rfl, h, if_pos h⟩
    · exact .inl (if_neg h)

/-- The own next step of worker `i`, while it is not in `emit_event_handler`. -/
def work (s : Emitters n) (i : Fin n) : Option (Emitters n) :=
  match s.phases i with
  | .out =>
    (s.workers i).next.map fun r =>
      { s with workers := Function.update s.workers i r.1
               phases := Function.update s.phases i (phaseAfter r.2) }
  | _ => none

/-- The next step of worker `i` in `emit_event_handler`; `ret` is what the handler
returns, and a callback that is the null pointer ends the program. -/
def handle (s : Emitters n) (i : Fin n) (ret : ℤ) : Option (Emitters n) :=
  match s.phases i with
  | .out => none
  | .entered ev =>
    (s.emits.get? ev.evEmit).map fun e =>
      s.setPhase i <|
        if ev.evType < 0 ∨ kEmitEventTypeMax ≤ ev.evType then .completing ev (-34)
        else if e.eeHandler ev.evType = .default then .completing ev (-2)
        else .inside ev
  | .inside ev => some (s.setPhase i (.ended ev ret))
  | .ended ev errcode =>
    some { s.setPhase i (.completing ev errcode) with
           emits := s.emits.modify ev.evEmit Emit.decPendings }
  | .completing ev _ => if ev.evCb = 0 then none else some (s.setPhase i .out)

/-- The steps of worker `i` in `emit_event_handler`, one constructor for each way on. -/
inductive Handle (s : Emitters n) (i : Fin n) (ret : ℤ) : Emitters n → Prop
  | refuse (ev : EdpEvent) (errcode : ℤ) (hph : s.phases i = .entered ev) (e : Emit)
      (he : s.emits.get? ev.evEmit = some e) (h : ¬ e.Installed ev.evType) :
      Handle s i ret (s.setPhase i (.completing ev errcode))
  | call (ev : EdpEvent) (hph : s.phases i = .entered ev) (e : Emit)
      (he : s.emits.get? ev.evEmit = some e) (h : e.Installed ev.evType) :
      Handle s i ret (s.setPhase i (.inside ev))
  | returned (ev : EdpEvent) (hph : s.phases i = .inside ev) :
      Handle s i ret (s.setPhase i (.ended ev ret))
  | decrement (ev : EdpEvent) (errcode : ℤ) (hph : s.phases i = .ended ev errcode) :
      Handle s i ret { s.setPhase i (.completing ev errcode) with
                       emits := s.emits.modify ev.evEmit Emit.decPendings }
  | complete (ev : EdpEvent) (errcode : ℤ) (hph : s.phases i = .completing ev errcode)
      (hcb : ev.evCb ≠ 0) : Handle s i ret (s.setPhase i .out)

theorem handle_cases {s t : Emitters n} {i : Fin n} {ret : ℤ} (h : s.handle i ret = some t) :
    s.Handle i ret t := by
  unfold handle at h
  split at h
  · cases h
  · rename_i ev hph
    obtain ⟨e, he, rfl⟩ := Option.map_eq_some_iff.1 h
    split
    · exact .refuse ev (-34) hph e he (by rintro ⟨h0, hlt, -⟩; omega)
    · split
      · exact .refuse ev (-2) hph e he fun hi => hi.2.2 ‹_›
      · exact .call ev hph e he ⟨by omega, by omega, ‹_›⟩
  · obtain rfl := Option.some.inj h
    exact .returned _ ‹_›
  · obtain rfl := Option.some.inj h
    exact .decrement _ _ ‹_›
  · split at h
    · cases h
    · obtain rfl := Option.some.inj h
      exact .complete _ _ ‹_› ‹_›

theorem work_cases {s t : Emitters n} {i : Fin n} (h : s.work i = some t) :
    s.phases i = .out ∧ ∃ w l, (s.workers i).Step l w ∧
      t = { s with workers := Function.update s.workers i w
                   phases := Function.update s.phases i (phaseAfter l) } := by
  unfold work at h
  split at h
  · obtain ⟨⟨w, l⟩, hn, rfl⟩ := Option.map_eq_some_iff.1 h
    exact ⟨‹_›, w, l, Worker.next_step hn, rfl⟩
  · cases h

/-- The locked section of `__edp_dispatch` on worker `w`. -/
def enqueue (s : Emitters n) (w : Fin n) (p : Priority) (ev : EdpEvent) : Emitters n :=
  { s with workers := Function.update s.workers w ((s.workers w).enqueue p ev) }

/-- The signal of `__edp_dispatch` to worker `w`. -/
def signal (s : Emitters n) (w : Fin n) : Emitters n :=
  { s with workers := Function.update s.workers w (s.workers w).signal }

end Emitters

/-- One step of `emit_dispatch`, with the worker that `__edp_dispatch` picks. -/
def EmitCall.step {n : ℕ} (s : Emitters n) (w : Option (Fin n)) (c : EmitCall n) :
    Option (Emitters n × EmitResult n) :=
  match c.pc with
  | .checking =>
    (s.emits.get? c.em).map fun e =>
      if e.check c.ev.evType ≠ 0 then (s, .ret (e.check c.ev.evType))
      else
        let ev := { c.ev with evCb := c.cb, evData := c.data, evHandler := emitEventHandler,
                              evEmit := c.em }
        (s, .next { c with ev := ev, pc := .counting })
  | .counting =>
    some ({ s with emits := s.emits.modify c.em Emit.incPendings },
      .next { c with pc := .queueing })
  | .queueing =>
    match c.ev.class?, w with
    | none, _ => some (s, .ret (-34))
    | some p, some w => some (s.enqueue w p c.ev, .next { c with pc := .signalling w })
    | some _, none => none
  | .signalling w => some (s.signal w, .ret 0)

/-- The event as `emit_dispatch` queues it. -/
def EmitCall.event {n : ℕ} (c : EmitCall n) : EdpEvent :=
  { c.ev with evCb := c.cb, evData := c.data, evHandler := emitEventHandler, evEmit := c.em }

/-- The steps of `emit_dispatch`, one constructor for each way on. -/
inductive EmitCall.Step {n : ℕ} (s : Emitters n) : EmitCall n → Emitters n → EmitResult n → Prop
  | refuse (c : EmitCall n) (hpc : c.pc = .checking) (e : Emit) (he : s.emits.get? c.em = some e)
      (h : e.check c.ev.evType ≠ 0) : Step s c s (.ret (e.check c.ev.evType))
  | pass (c : EmitCall n) (hpc : c.pc = .checking) (e : Emit) (he : s.emits.get? c.em = some e)
      (h : e.check c.ev.evType = 0) :
      Step s c s (.next { c with ev := c.event, pc := .counting })
  | count (c : EmitCall n) (hpc : c.pc = .counting) :
      Step s c { s with emits := s.emits.modify c.em Emit.incPendings }
        (.next { c with pc := .queueing })
  | range (c : EmitCall n) (hpc : c.pc = .queueing) (h : c.ev.class? = none) :
      Step s c s (.ret (-34))
  | queue (c : EmitCall n) (hpc : c.pc = .queueing) (p : Priority) (h : c.ev.class? = some p)
      (w : Fin n) : Step s c (s.enqueue w p c.ev) (.next { c with pc := .signalling w })
  | signal (c : EmitCall n) (w : Fin n) (hpc : c.pc = .signalling w) :
      Step s c (s.signal w) (.ret 0)

theorem EmitCall.step_cases {n : ℕ} {s t : Emitters n} {w : Option (Fin n)} {c : EmitCall n}
    {r : EmitResult n} (h : c.step s w = some (t, r)) : c.Step s t r := by
  unfold EmitCall.step at h
  split at h
  · obtain ⟨e, he, h⟩ := Option.map_eq_some_iff.1 h
    split at h
    · obtain ⟨rfl, rfl⟩ := Prod.mk.inj h
      exact .refuse c ‹_› e he ‹_›
    · obtain ⟨rfl, rfl⟩ := Prod.mk.inj h
      exact .pass c ‹_› e he (by simpa using ‹¬ e.check c.ev.evType ≠ 0›)
  · obtain ⟨rfl, rfl⟩ := Prod.mk.inj (Option.some.inj h)
    exact .count c ‹_›
  · split at h
    · obtain ⟨rfl, rfl⟩ := Prod.mk.inj (Option.some.inj h)
      exact .range c ‹_› ‹_›
    · obtain ⟨rfl, rfl⟩ := Prod.mk.inj (Option.some.inj h)
      exact .queue c ‹_› _ ‹_› _
    · cases h
  · obtain ⟨rfl, rfl⟩ := Prod.mk.inj (Option.some.inj h)
    exact .signal c _ ‹_›

end EdpIo
