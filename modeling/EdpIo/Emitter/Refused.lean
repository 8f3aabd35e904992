/-
# Dispatches that are refused

`emit_dispatch` as one call, over the workers that `__edp_dispatch` deals its events to,
between the other calls on emitters and the workers' own steps; `emit_event_handler` is
put down to the end of the worker's handler.

A call that returns an error should leave everything as it was (`Harmless`), so that it
does not stand in the way of `emit_destroy`.  The errors of `emit_dispatch` itself come
before its `atomic_inc`, the one of `__edp_dispatch`, a priority out of range, comes
after it, and after the choice of a worker; nothing takes either back.
`harmless_iff`: the calls of a run are all harmless exactly when those that pass the
first checks have a valid priority.
-/

import EdpIo.Emitter.Model
import EdpIo.Worker.Dispatch

namespace EdpIo

/-- The first checks let an event pass exactly when there is a handler for its type and
the emitter is initialised. -/
theorem Emit.check_eq_zero_iff {e : Emit} {type : ℤ} :
    e.check type = 0 ↔ e.Installed type ∧ e.eeInit = true := by
  refine ⟨fun h => ?_, fun h => Emit.check_eq_zero h.1 h.2⟩
  unfold Emit.check at h
  split at h
  · exact absurd h (by decide)
  · split at h
    · exact absurd h (by decide)
    · split at h
      · exact absurd h (by decide)
      · rename_i hr hd hi
        exact ⟨⟨by omega, by omega, hd⟩, by simpa using hi⟩

/-- The priorities that have a queue. -/
theorem EdpEvent.class?_ne_none_iff {ev : EdpEvent} :
    ev.class? ≠ none ↔ 0 ≤ ev.evPriority ∧ ev.evPriority ≤ 4 := by
  constructor
  · intro h
    obtain ⟨p, hp⟩ := Option.ne_none_iff_exists'.1 h
    have hn := EdpEvent.class?_eq_some.1 hp
    have hle := p.toNat_le
    omega
  · rintro ⟨h0, h4⟩
    have hcases : ev.evPriority = 0 ∨ ev.evPriority = 1 ∨ ev.evPriority = 2 ∨
        ev.evPriority = 3 ∨ ev.evPriority = 4 := by omega
    rcases hcases with h | h | h | h | h <;> simp [EdpEvent.class?, h, Priority.ofInt?]

/-- The workers with the event objects, and the emitters. -/
structure EmitCalls where
  base : DispatchSys
  emits : BlockHeap Emit

namespace EmitCalls

/-- Before the first call. -/
def init : EmitCalls := ⟨.init, .empty⟩

/-- `emit_dispatch(em, ev, cb, data)` of the event object `a`, and what it returns. -/
def emitDispatch (s : EmitCalls) (em a cb data : ℕ) : Option (ℤ × EmitCalls) :=
  match s.emits.get? em with
  | none => none
  | some e =>
    let ev := s.base.events a
    if e.check ev.evType ≠ 0 then some (e.check ev.evType, s)
    else
      (s.base.workers.edpDispatch { ev with
        evCb := cb, evData := data, evHandler := emitEventHandler, evEmit := em }).map fun r =>
          (r.1, ⟨⟨r.2.2, Function.update s.base.events a r.2.1⟩,
            s.emits.modify em Emit.incPendings⟩)

/-- `emit_destroy(em)`, and what it returns. -/
def emitDestroy (s : EmitCalls) (em : ℕ) : Option (ℤ × EmitCalls) :=
  (s.emits.get? em).map fun e =>
    if e.eePendings ≠ 0 then (-22, s)
    else (0, { s with emits := (s.emits.modify em Emit.uninit).free em })

/-- What `emit_event_handler` does to the counter of its emitter, when a worker's step is
the end of it. -/
def handled (s : EmitCalls) : DispatchSys.Act → BlockHeap Emit
  | .work i =>
    match (s.base.workers.wdThreads i).next with
    | some (_, .finish ev) =>
      if ev.evHandler = emitEventHandler ∧
          (s.emits.get? ev.evEmit).any fun e => e.Installed ev.evType then
        s.emits.modify ev.evEmit Emit.decPendings
      else s.emits
    | _ => s.emits
  | _ => s.emits

/-- The calls on emitters, and the steps of the workers and on the event objects. -/
inductive Act
  | base (act : DispatchSys.Act)
  /-- `emit_create`, with the block it gets. -/
  | create (em data : ℕ)
  /-- `emit_add_handler`. -/
  | addHandler (em : ℕ) (type : ℤ) (h : Handler)
  | dispatch (em a cb data : ℕ)
  | destroy (em : ℕ)

/-- One step. -/
def step (s : EmitCalls) : Act → Option EmitCalls
  | .base act => (s.base.step act).map fun b => ⟨b, s.handled act⟩
  | .create em data =>
    if s.emits.get? em ≠ none then none
    else some { s with emits := s.emits.alloc em (emitCreate data) }
  | .addHandler em type h =>
    if type < 0 ∨ kEmitEventTypeMax ≤ type then some s
    else some { s with emits := s.emits.modify em fun e => e.addHandler type h }
  | .dispatch em a cb data => (s.emitDispatch em a cb data).map (·.2)
  | .destroy em => (s.emitDestroy em).map (·.2)

/-- An `emit_dispatch` that returns an error leaves every emitter with its counter, every
worker with its queues, counters and latch, and `wd_round` as they were, and
`emit_destroy` would return what it would have before. -/
def Harmless (s : EmitCalls) (act : Act) : Prop :=
  ∀ em a cb data r t, act = .dispatch em a cb data →
    s.emitDispatch em a cb data = some (r, t) → r ≠ 0 →
      t.emits = s.emits ∧ t.base.workers = s.base.workers ∧
        (t.emitDestroy em).map Prod.fst = (s.emitDestroy em).map Prod.fst

/-- An `emit_dispatch` to an initialised emitter with a handler for the event's type has an
event of a valid priority. -/
def Valid (s : EmitCalls) (act : Act) : Prop :=
  ∀ em a cb data e, act = .dispatch em a cb data → s.emits.get? em = some e →
    e.eeInit = true → e.Installed (s.base.events a).evType →
      0 ≤ (s.base.events a).evPriority ∧ (s.base.events a).evPriority ≤ 4

variable {s t : EmitCalls}

/-- A refusal of the first checks changes nothing. -/
theorem emitDispatch_refused {em a cb data : ℕ} {e : Emit} (he : s.emits.get? em = some e)
    (hc : e.check (s.base.events a).evType ≠ 0) :
    s.emitDispatch em a cb data = some (e.check (s.base.events a).evType, s) := by
  rw [emitDispatch, he]
  dsimp only
  rw [if_pos hc]

/-- Past the first checks the event is counted, and `__edp_dispatch` decides. -/
theorem emitDispatch_counted {em a cb data : ℕ} {e : Emit} {r : ℤ}
    (he : s.emits.get? em = some e) (hc : e.check (s.base.events a).evType = 0)
    (h : s.emitDispatch em a cb data = some (r, t)) :
    t.emits = s.emits.modify em Emit.incPendings ∧
      (((s.base.events a).class? = none ∧ r = -34) ∨
        ((s.base.events a).class? ≠ none ∧ r = 0)) := by
  rw [emitDispatch, he] at h
  dsimp only at h
  rw [if_neg (not_not_intro hc)] at h
  obtain ⟨⟨r', ev', w'⟩, hd, heq⟩ := Option.map_eq_some_iff.1 h
  obtain ⟨rfl, rfl⟩ := Prod.mk.inj heq
  have hret := WorkerArray.edpDispatch_ret hd
  exact ⟨rfl, hret⟩

/-- **One call.** -/
theorem harmless_step_iff {act : Act} (h : step s act = some t) : s.Harmless act ↔ s.Valid act := by
  constructor
  · rintro hh em a cb data e rfl he hi hin
    obtain ⟨⟨r, t'⟩, hd, rfl⟩ := Option.map_eq_some_iff.1 h
    have hc := Emit.check_eq_zero_iff.2 ⟨hin, hi⟩
    obtain ⟨hemits, ⟨hno, hr⟩ | ⟨hclass, -⟩⟩ := emitDispatch_counted he hc hd
    · -- the count of a refused event stays
      have hsame := (hh em a cb data r t' rfl hd (by omega)).1
      have hget : t'.emits.get? em = some e.incPendings := by
        rw [hemits, BlockHeap.get?_modify_self, he]
        rfl
      rw [hsame, he] at hget
      have hpend := congrArg Emit.eePendings (Option.some.inj hget)
      simp [Emit.incPendings] at hpend
    · exact EdpEvent.class?_ne_none_iff.1 hclass
  · rintro hv em a cb data r t' rfl hd hr
    cases he : s.emits.get? em with
    | none => simp [emitDispatch, he] at hd
    | some e =>
      by_cases hc : e.check (s.base.events a).evType = 0
      · obtain ⟨hin, hi⟩ := Emit.check_eq_zero_iff.1 hc
        have hclass := EdpEvent.class?_ne_none_iff.2 (hv em a cb data e rfl he hi hin)
        obtain ⟨-, ⟨hno, -⟩ | ⟨-, hz⟩⟩ := emitDispatch_counted he hc hd
        · exact absurd hno hclass
        · exact absurd hz hr
      · rw [emitDispatch_refused he hc] at hd
        obtain ⟨-, rfl⟩ := Prod.mk.inj (Option.some.inj hd)
        exact ⟨rfl, rfl, rfl⟩

/-- **When refused dispatches are harmless.**  In every run, from any state, every
`emit_dispatch` that returns an error leaves the emitters and workers as they were, if
and only if every call that passes the first checks has an event of a valid priority. -/
theorem harmless_iff {acts : List Act} (hrun : StepSystem.run step s acts = some t) :
    StepSystem.Meets step Harmless s acts ↔ StepSystem.Meets step Valid s acts :=
  StepSystem.meets_iff (I := fun _ => True)
    (fun _ _ _ h => harmless_step_iff (Option.ne_none_iff_exists'.1 h).choose_spec)
    (fun _ _ _ _ _ _ _ => trivial) trivial (StepSystem.meets_possible hrun)

/-- An event of type `1` and priority `9`. -/
def farEvent : EdpEvent := ⟨1, 1, 9, -1, 0, 0, 0, 0⟩

/-- Such an event is dispatched to an emitter without a handler for it. -/
theorem harmless_iff_refused :
    StepSystem.Meets step Harmless init [.base (.init 1 RoundSys.willing), .create 5 0,
        .base (.own farEvent), .dispatch 5 1 0 0] ↔
      StepSystem.Meets step Valid init [.base (.init 1 RoundSys.willing), .create 5 0,
        .base (.own farEvent), .dispatch 5 1 0 0] := by
  have hrun := Eq.refl (StepSystem.run step init [.base (.init 1 RoundSys.willing), .create 5 0,
    .base (.own farEvent), .dispatch 5 1 0 0])
  exact harmless_iff hrun

/-- **Counted and refused.**  With a handler for it, the dispatch of an event of priority
`9` returns `-ERANGE`, and `emit_destroy` fails from then on. -/
theorem refused_counted :
    ¬ ∀ (acts : List Act) (s t : EmitCalls) (act : Act), StepSystem.run step init acts = some s →
      step s act = some t → s.Harmless act := by
  intro hall
  have hrun := Eq.refl (StepSystem.run step init [.base (.init 1 RoundSys.willing), .create 5 0,
    .addHandler 5 1 (.fn 7), .base (.own farEvent)])
  obtain ⟨-, -, hdes⟩ := hall _ _ _ (.dispatch 5 1 0 0) hrun rfl 5 1 0 0 (-34) _ rfl rfl (by decide)
  exact absurd hdes (by decide)

end EmitCalls

end EdpIo
