/-
# The pending counts over a run

In the runs with fresh dispatches `ee_pendings` of an emitter is its load, the calls that
have raised it and not yet queued their event, and a rest `k` for what was raised and never
lowered: by an event that found no handler when it was handled, and by a call whose
event has no valid priority (`balanced_step`).  Without such a step (`Keeps`) the rest
stays zero.  An address that holds no emitter has neither events nor calls (`Homed`).
-/

import EdpIo.Emitter.Fresh

namespace EdpIo

/-- The call has raised the count of `em` and not queued its event. -/
def EmitTask.counts {n : ℕ} (em : ℕ) (c : EmitTask n) : Bool :=
  (match c.call.pc with
    | .queueing => true
    | _ => false) && c.call.em = em

/-- The event in `emit_event_handler` before the tests of its type. -/
def Phase.entered? : Phase → Option EdpEvent
  | .entered ev => some ev
  | _ => none

namespace Emitters

variable {n : ℕ}

/-- `emit_event_handler` will find a handler for the event. -/
def serves (s : Emitters n) (ev : EdpEvent) : Bool :=
  (s.emits.get? ev.evEmit).any fun e => e.Installed ev.evType

theorem known_of_serves {s : Emitters n} {ev : EdpEvent} (h : s.serves ev = true) : s.Known ev := by
  obtain ⟨e, he, hi⟩ := (Option.any_eq_true ..).1 h
  exact ⟨e, he, of_decide_eq_true hi⟩

/-- A load is made of events on their way. -/
theorem exists_carries_of_load {s : Emitters n} {em : ℕ} (h : s.load em ≠ 0) :
    ∃ ev, s.Carries ev ∧ ev.evEmit = em := by
  rw [load, Ne, Finset.sum_eq_zero_iff] at h
  push Not at h
  obtain ⟨i, -, hi⟩ := h
  by_cases hw : (s.workers i).held.countP (EdpEvent.ForEmit em) = 0
  · have howes : (s.phases i).owes em ≠ 0 := fun h0 => hi (by rw [coreLoad, hw, h0, Nat.add_zero])
    rw [Phase.owes] at howes
    obtain ⟨ev, hev, heq⟩ := (Option.any_eq_true ..).1 (by_contra fun h => howes (if_neg h))
    refine ⟨ev, ⟨i, .inr ?_⟩, of_decide_eq_true heq⟩
    cases hph : s.phases i with
    | out | completing ev' errcode =>
      rw [hph] at hev
      cases hev
    | entered ev' | inside ev' | ended ev' errcode =>
      rw [hph] at hev
      exact hev
  · obtain ⟨ev, hev, hfor⟩ := Multiset.countP_pos.1 (Nat.pos_of_ne_zero hw)
    exact ⟨ev, ⟨i, .inl hev⟩, hfor.2⟩

/-- While no worker is in `emit_event_handler` the load is what is on its way. -/
theorem load_eq_flight {s : Emitters n} (hout : ∀ i, s.phases i = .out)
    (hheld : ∀ i, ∀ ev ∈ (s.workers i).held, ev.evHandler = emitEventHandler) (em : ℕ) :
    s.load em = s.flight fun ev => ev.evEmit = em := by
  refine Finset.sum_congr rfl fun i _ => ?_
  have hcount : (s.workers i).held.countP (EdpEvent.ForEmit em) =
      (s.workers i).held.countP fun ev => decide (ev.evEmit = em) = true :=
    Multiset.countP_congr rfl fun ev hev => by simp [EdpEvent.ForEmit, hheld i ev hev]
  rw [coreLoad, coreFlight, hout i, hcount]
  rfl

/-- What `emit_add_handler` and `emit_rmv_watch` leave of an emitter. -/
theorem pendings_emitAddHandler {s : Emitters n} {em em' : ℕ} {type : ℤ} {handler : Handler}
    {e' : Emit} (h : (s.emitAddHandler em type handler).1.emits.get? em' = some e') :
    ∃ e, s.emits.get? em' = some e ∧ e'.eePendings = e.eePendings := by
  unfold emitAddHandler at h
  split at h
  · exact ⟨e', h, rfl⟩
  · have h : (s.emits.modify em fun e => e.addHandler type handler).get? em' = some e' := h
    obtain ⟨e, he, ⟨-, rfl⟩ | ⟨-, rfl⟩⟩ := BlockHeap.get?_modify_eq_some h
    · exact ⟨e, he, rfl⟩
    · exact ⟨e', he, rfl⟩

theorem get?_emitAddHandler {s : Emitters n} {em' : ℕ} (h : s.emits.get? em' ≠ none) (em : ℕ)
    (type : ℤ) (handler : Handler) :
    (s.emitAddHandler em type handler).1.emits.get? em' ≠ none := by
  unfold emitAddHandler
  split
  · exact h
  · exact BlockHeap.get?_modify_ne_none h em fun e => e.addHandler type handler

theorem pendings_emitRmvWatch {s : Emitters n} {em em' : ℕ} {type : ℤ} {e' : Emit}
    (h : (s.emitRmvWatch em type).1.emits.get? em' = some e') :
    ∃ e, s.emits.get? em' = some e ∧ e'.eePendings = e.eePendings := by
  have h : (s.emitAddHandler em type .default).1.emits.get? em' = some e' := h
  exact pendings_emitAddHandler h

end Emitters

namespace EmitSys

variable {n : ℕ}

/-- The calls that have raised the count of `em` and not queued their event. -/
def counted (s : EmitSys n) (em : ℕ) : ℕ := s.calls.countP (EmitTask.counts em)

/-- The step raises no count for nothing. -/
def Keeps (s : EmitSys n) : Act n → Prop
  | .handle i _ => ∀ ev ∈ (s.emit.phases i).entered?, s.emit.serves ev = true
  | .call c _ => c.call.pc = .queueing → (s.mem c.call.ev.addr).class? ≠ none
  | _ => True

instance (s : EmitSys n) : (a : Act n) → Decidable (s.Keeps a)
  | .handle i _ => inferInstanceAs (Decidable (∀ ev ∈ (s.emit.phases i).entered?, _ = true))
  | .call _ _ => inferInstanceAs (Decidable (_ → _))
  | .create _ _ | .addHandler _ _ _ | .rmvWatch _ _ | .initEvent _ _ _ | .dispatch _ _ _ _
  | .work _ | .stop _ | .destroy _ | .close _ => inferInstanceAs (Decidable True)

/-- Events on their way and calls past the tests belong to emitters that were created. -/
structure Homed (s : EmitSys n) : Prop where
  carried : ∀ ev, s.emit.Carries ev → s.emit.emits.get? ev.evEmit ≠ none
  calls : ∀ c ∈ s.calls, c.call.written = true → s.emit.emits.get? c.call.em ≠ none

theorem homed_init : Homed (init : EmitSys n) := by
  refine ⟨fun ev hev => ?_, fun _ hc => absurd hc List.not_mem_nil⟩
  obtain ⟨i, hi | hi⟩ := hev
  · simp [init, Emitters.init, Worker.held, Worker.start] at hi
  · cases hi

/-- An address that holds no emitter has neither load nor calls that count for it. -/
theorem Homed.load_eq_zero {s : EmitSys n} (hs : s.Homed) {em : ℕ}
    (h : s.emit.emits.get? em = none) : s.emit.load em = 0 := by
  by_contra hne
  obtain ⟨ev, hev, rfl⟩ := Emitters.exists_carries_of_load hne
  exact hs.carried ev hev h

theorem written_of_counts {c : EmitTask n} {em : ℕ} (h : c.counts em = true) :
    c.call.written = true ∧ c.call.em = em := by
  obtain ⟨id, e, ev, cb, data, pc⟩ := c
  cases pc <;> simp_all [EmitTask.counts, EmitCall.written]

theorem Homed.counted_eq_zero {s : EmitSys n} (hs : s.Homed) {em : ℕ}
    (h : s.emit.emits.get? em = none) : s.counted em = 0 := by
  refine List.countP_eq_zero.2 fun c hc hcount => ?_
  obtain ⟨hw, rfl⟩ := written_of_counts hcount
  exact hs.calls c hc hw h

/-- Steps that add no event to those on their way and lose no emitter. -/
theorem Homed.of_same {s t : EmitSys n} (hs : s.Homed)
    (hcar : ∀ ev, t.emit.Carries ev → s.emit.Carries ev)
    (hcalls : ∀ c ∈ t.calls, c.call.written = true → s.emit.emits.get? c.call.em ≠ none)
    (hget : ∀ em, s.emit.emits.get? em ≠ none → t.emit.emits.get? em ≠ none) : t.Homed :=
  ⟨fun ev hev => hget _ (hs.carried ev (hcar ev hev)), fun c hc hw => hget _ (hcalls c hc hw)⟩

/-- The emitters of a step in `emit_event_handler`. -/
theorem get?_handle {s t : Emitters n} {i : Fin n} {ret : ℤ} (h : s.Handle i ret t) {em : ℕ}
    (hem : s.emits.get? em ≠ none) : t.emits.get? em ≠ none := by
  cases h with
  | decrement ev errcode hph => exact BlockHeap.get?_modify_ne_none hem _ _
  | refuse ev errcode hph e he hi => exact hem
  | call ev hph e he hi => exact hem
  | returned ev hph => exact hem
  | complete ev errcode hph => exact hem

theorem get?_close {s t : Emitters n} {d : EmitClose} {r : CloseResult} (h : d.Step s t r) {em : ℕ}
    (hem : s.emits.get? em ≠ none) : t.emits.get? em ≠ none := by
  cases h with
  | uninit em => exact BlockHeap.get?_modify_ne_none hem _ _
  | free em =>
    show (s.emits.free em).get? _ ≠ none
    rwa [BlockHeap.get?_free]
  | busy em e he hp => exact hem
  | idle em e he hp => exact hem

/-- **A step of a call.** -/
theorem Homed.call {s : EmitSys n} (hs : s.Homed) (htr : s.Tracked) {c : EmitTask n}
    (hc : c ∈ s.calls) {e : Emitters n} {r : EmitResult n}
    (h : (c.call.fetch s.mem).Step s.emit e r) : (s.advance c e r).Homed := by
  have herase : ∀ d ∈ s.calls.erase c, d.call.written = true →
      s.emit.emits.get? d.call.em ≠ none := fun d hd => hs.calls d (List.mem_of_mem_erase hd)
  cases h with
  | refuse hpc e he hcheck => exact hs.of_same (fun _ => id) herase fun _ => id
  | range hpc hclass => exact hs.of_same (fun _ => id) herase fun _ => id
  | signal w hpc =>
    exact hs.of_same (fun _ => Emitters.carries_of_held (Worker.held_signal _)) herase fun _ => id
  | pass hpc e he hcheck =>
    refine hs.of_same (fun _ => id) (fun d hd hw => ?_) fun _ => id
    rcases List.mem_cons.1 hd with rfl | hd
    · exact fun h => Option.some_ne_none e (he.symm.trans h)
    · exact herase d hd hw
  | count hpc =>
    refine hs.of_same (fun _ => id) (fun d hd hw => ?_)
      fun _ h => BlockHeap.get?_modify_ne_none h _ _
    rcases List.mem_cons.1 hd with rfl | hd
    · exact hs.calls c hc (by rw [EmitCall.written, show c.call.pc = .counting from hpc])
    · exact herase d hd hw
  | queue hpc p hclass w =>
    have hw : c.call.written = true := by
      rw [EmitCall.written, show c.call.pc = .queueing from hpc]
    refine ⟨fun ev hev => ?_, fun d hd hdw => ?_⟩
    · rcases Emitters.carries_enqueue (s := s.emit) hev with rfl | hev
      · -- the event was marked with the emitter of the call
        have hmark : (s.mem c.call.ev.addr).evEmit = c.call.em := by
          rw [← htr.written c hc hw]
          rfl
        show s.emit.emits.get? (s.mem c.call.ev.addr).evEmit ≠ none
        rw [hmark]
        exact hs.calls c hc hw
      · exact hs.carried ev hev
    · rcases List.mem_cons.1 hd with rfl | hd
      · cases hdw
      · exact herase d hd hdw

/-- A call counts for its emitter between `atomic_inc` and its locked section. -/
theorem counts_eq_false {em : ℕ} {c : EmitTask n} (h : c.call.pc ≠ .queueing) :
    c.counts em = false := by
  obtain ⟨id, e, ev, cb, data, pc⟩ := c
  cases pc <;> first | rfl | exact absurd rfl h

theorem counts_queueing {em : ℕ} {c : EmitTask n} (h : c.call.pc = .queueing) :
    c.counts em = decide (c.call.em = em) := by
  rw [EmitTask.counts, h]
  rfl

section

variable {s : EmitSys n} {c : EmitTask n} (hc : c ∈ s.calls) (e : Emitters n) (em : ℕ)
include hc

/-- The calls that count after a step of one that does not, neither before nor after. -/
theorem counted_next {d : EmitCall n} (hpc : c.call.pc ≠ .queueing) (hpd : d.pc ≠ .queueing) :
    (s.advance c e (.next d)).counted em = s.counted em := by
  have h : (s.advance c e (.next d)).counted em + _ = _ + _ :=
    Pool.countP_swap hc (some ⟨c.id, d⟩) (EmitTask.counts em)
  rwa [counts_eq_false hpc, Option.any_some, counts_eq_false hpd] at h

/-- The step raises the count. -/
theorem counted_enter {d : EmitCall n} (hpc : c.call.pc ≠ .queueing) (hpd : d.pc = .queueing)
    (hem : d.em = c.call.em) :
    (s.advance c e (.next d)).counted em =
      s.counted em + if em = c.call.em then 1 else 0 := by
  have h : (s.advance c e (.next d)).counted em + _ = s.counted em + _ :=
    Pool.countP_swap hc (some ⟨c.id, d⟩) (EmitTask.counts em)
  rw [counts_eq_false hpc, Option.any_some, counts_queueing hpd] at h
  simpa [hem, eq_comm] using h

/-- The step queues the event. -/
theorem counted_leave {d : EmitCall n} (hpc : c.call.pc = .queueing) (hpd : d.pc ≠ .queueing) :
    (s.advance c e (.next d)).counted em + (if em = c.call.em then 1 else 0) = s.counted em := by
  have h : (s.advance c e (.next d)).counted em + _ = s.counted em + _ :=
    Pool.countP_swap hc (some ⟨c.id, d⟩) (EmitTask.counts em)
  rw [counts_queueing hpc, Option.any_some, counts_eq_false hpd] at h
  simpa [eq_comm] using h

/-- The call returns. -/
theorem counted_ret (code : ℤ) :
    (s.advance c e (.ret code)).counted em +
        (if c.call.pc = .queueing ∧ em = c.call.em then 1 else 0) = s.counted em := by
  have h : (s.advance c e (.ret code)).counted em + _ = s.counted em + _ :=
    Pool.countP_swap hc none (EmitTask.counts em)
  by_cases hpc : c.call.pc = .queueing
  · rw [counts_queueing hpc] at h
    simpa [hpc, eq_comm] using h
  · rw [counts_eq_false hpc] at h
    simpa [hpc] using h

end

/-- The pending counts, the load, the calls that count and a rest. -/
def Balanced (s : EmitSys n) (k : ℕ → ℕ) : Prop :=
  s.emit.Balanced fun em => s.counted em + k em

/-- Steps that change neither a count, a load nor a call. -/
theorem Balanced.of_same {s t : EmitSys n} {k : ℕ → ℕ} (hb : s.Balanced k)
    (hemits : ∀ em e', t.emit.emits.get? em = some e' →
      ∃ e, s.emit.emits.get? em = some e ∧ e'.eePendings = e.eePendings)
    (hload : ∀ em, t.emit.load em = s.emit.load em) (hcount : ∀ em, t.counted em = s.counted em) :
    t.Balanced k :=
  Emitters.Balanced.of_same hb hemits hload fun em => by rw [hcount]

/-- **A step of a call.**  Only one that is refused for its priority leaves a rest. -/
theorem Balanced.call {s : EmitSys n} {k : ℕ → ℕ} (hb : s.Balanced k) (htr : s.Tracked)
    {c : EmitTask n} (hc : c ∈ s.calls) {e : Emitters n} {r : EmitResult n}
    (h : (c.call.fetch s.mem).Step s.emit e r) :
    ∃ k', (s.advance c e r).Balanced k' ∧
      ((c.call.pc = .queueing → (s.mem c.call.ev.addr).class? ≠ none) → k' = k) := by
  have hsame : ∀ em e', s.emit.emits.get? em = some e' →
      ∃ e, s.emit.emits.get? em = some e ∧ e'.eePendings = e.eePendings :=
    fun em e' he' => ⟨e', he', rfl⟩
  cases h with
  | refuse hpc e he hcheck =>
    have hpc : c.call.pc = .checking := hpc
    refine ⟨k, hb.of_same hsame (fun _ => rfl) fun em => ?_, fun _ => rfl⟩
    simpa [hpc] using counted_ret hc s.emit em (e.check (c.call.fetch s.mem).ev.evType)
  | pass hpc e he hcheck =>
    have hpc : c.call.pc ≠ .queueing := fun h => by simp [EmitCall.fetch, h] at hpc
    exact ⟨k, hb.of_same hsame (fun _ => rfl) fun em => counted_next hc s.emit em hpc (by simp),
      fun _ => rfl⟩
  | count hpc =>
    have hpc : c.call.pc ≠ .queueing := fun h => by simp [EmitCall.fetch, h] at hpc
    refine ⟨k, Emitters.Balanced.count hb fun em => ?_, fun _ => rfl⟩
    have henter := counted_enter hc
      { s.emit with emits := s.emit.emits.modify c.call.em Emit.incPendings } em
      (d := { c.call.fetch s.mem with pc := .queueing }) hpc rfl rfl
    show (s.advance c _ _).counted em + k em = s.counted em + k em + if em = c.call.em then 1 else 0
    rw [Nat.add_right_comm, ← henter]
    rfl
  | range hpc hclass =>
    have hpc : c.call.pc = .queueing := hpc
    refine ⟨fun em => k em + if em = c.call.em then 1 else 0, ?_, fun h => absurd hclass (h hpc)⟩
    refine Emitters.Balanced.of_same hb hsame (fun _ => rfl) fun em => ?_
    have hret := counted_ret hc s.emit em (-34)
    simp only [hpc, true_and] at hret
    show (s.advance c s.emit (.ret (-34))).counted em + (k em + if em = c.call.em then 1 else 0) = _
    omega
  | queue hpc p hclass w =>
    have hpc : c.call.pc = .queueing := hpc
    have hmark := htr.written c hc (by rw [EmitCall.written, hpc])
    have hfor : (s.mem c.call.ev.addr).ForEmit c.call.em := by
      rw [← hmark]
      exact ⟨rfl, rfl⟩
    refine ⟨k, Emitters.Balanced.enqueue hb hfor (fun em => ?_) w p, fun _ => rfl⟩
    have hleave := counted_leave hc (s.emit.enqueue w p (s.mem c.call.ev.addr)) em
      (d := { c.call.fetch s.mem with pc := .signalling w }) hpc (by simp)
    show (s.advance c _ _).counted em + k em + (if em = c.call.em then 1 else 0) =
      s.counted em + k em
    rw [Nat.add_right_comm, ← hleave]
    rfl
  | signal w hpc =>
    have hpc : c.call.pc = .signalling w := hpc
    refine ⟨k, hb.of_same hsame (Emitters.load_signal s.emit w) fun em => ?_, fun _ => rfl⟩
    simpa [hpc] using counted_ret hc (s.emit.signal w) em 0

/-- **One step.** -/
theorem Homed.step {s t : EmitSys n} {a : Act n} (hs : s.Homed) (htr : s.Tracked)
    (h : EmitSys.step s a = some t) : t.Homed := by
  cases step_cases h with
  | create em data _ =>
    exact hs.of_same (fun _ => id) hs.calls fun _ h => BlockHeap.get?_alloc_ne_none h _ _
  | addHandler em type handler =>
    refine hs.of_same (fun ev hev => ?_) hs.calls fun _ h => Emitters.get?_emitAddHandler h _ _ _
    simpa [Emitters.Carries] using hev
  | rmvWatch em type =>
    refine hs.of_same (fun ev hev => ?_) hs.calls
      fun _ h => Emitters.get?_emitAddHandler h em type .default
    simpa [Emitters.Carries] using hev
  | initEvent a type priority => exact hs.of_same (fun _ => id) hs.calls fun _ => id
  | dispatch em a cb data =>
    refine hs.of_same (fun _ => id) (fun c hc hw => ?_) fun _ => id
    rcases List.mem_cons.1 hc with rfl | hc
    · cases hw
    · exact hs.calls c hc hw
  | call c w hc e r hstep => exact hs.call htr hc hstep
  | work i e hwork =>
    rw [htr.fetch] at hwork
    refine hs.of_same (fun _ => Emitters.carries_work hwork) hs.calls fun em h => ?_
    show e.emits.get? em ≠ none
    rwa [(Emitters.load_work hwork em).2]
  | handle i ret e hhandle =>
    rw [htr.fetch] at hhandle
    have hh := Emitters.handle_cases hhandle
    exact hs.of_same (fun _ => Emitters.carries_handle hh) hs.calls fun _ => get?_handle hh
  | stop i =>
    exact hs.of_same (fun _ => Emitters.carries_of_held (Worker.held_stop _)) hs.calls fun _ => id
  | destroy em => exact hs.of_same (fun _ => id) hs.calls fun _ => id
  | close d hd e r hstep =>
    obtain ⟨hw, hp⟩ := hstep.workers
    have hcar : ∀ ev, e.Carries ev → s.emit.Carries ev := by
      rintro ev ⟨i, hi⟩
      rw [hw, hp] at hi
      exact ⟨i, hi⟩
    cases r with
    | next d' => exact hs.of_same hcar hs.calls fun _ => get?_close hstep
    | ret code => exact hs.of_same hcar hs.calls fun _ => get?_close hstep

/-- The counts of an emitter that `emit_destroy` does not test. -/
theorem pendings_close {s t : Emitters n} {d : EmitClose} {r : CloseResult} (h : d.Step s t r)
    {em : ℕ} {e' : Emit} (he' : t.emits.get? em = some e') :
    ∃ e, s.emits.get? em = some e ∧ e'.eePendings = e.eePendings := by
  cases h with
  | busy em e he hp => exact ⟨e', he', rfl⟩
  | idle em e he hp => exact ⟨e', he', rfl⟩
  | uninit em =>
    obtain ⟨e, he, ⟨-, rfl⟩ | ⟨-, rfl⟩⟩ := BlockHeap.get?_modify_eq_some he'
    · exact ⟨e, he, rfl⟩
    · exact ⟨e', he, rfl⟩
  | free em => exact ⟨e', by simpa using he', rfl⟩

/-- **One step.**  The counts keep their account, with no new rest if the step raises none
for nothing. -/
theorem balanced_step {s t : EmitSys n} {a : Act n} {k : ℕ → ℕ} (htr : s.Tracked)
    (hh : s.Homed) (hb : s.Balanced k) (h : EmitSys.step s a = some t) :
    ∃ k', t.Balanced k' ∧ (s.Keeps a → (∀ em, k em = 0) → ∀ em, k' em = 0) := by
  have hsame : ∀ em e', s.emit.emits.get? em = some e' →
      ∃ e, s.emit.emits.get? em = some e ∧ e'.eePendings = e.eePendings :=
    fun em e' he' => ⟨e', he', rfl⟩
  cases step_cases h with
  | create em data hnone =>
    have hget : s.emit.emits.get? em = none := by rw [BlockHeap.get?, hnone]; rfl
    refine ⟨fun x => if x = em then 0 else k x, fun x e he => ?_, fun _ hk x => ?_⟩
    · rcases BlockHeap.get?_alloc_eq_some he with ⟨rfl, rfl⟩ | ⟨hne, he⟩
      · have hl : s.emit.load x = 0 := hh.load_eq_zero hget
        have hc : s.counted x = 0 := hh.counted_eq_zero hget
        show (0 : ℤ) = (s.emit.load x : ℤ) + ((s.counted x + if x = x then 0 else k x : ℕ) : ℤ)
        rw [hl, hc, if_pos rfl]
        rfl
      · have hbx := hb x e he
        show e.eePendings = (s.emit.load x : ℤ) +
          ((s.counted x + if x = em then 0 else k x : ℕ) : ℤ)
        rwa [if_neg hne]
    · show (if x = em then 0 else k x) = 0
      rw [hk x, ite_self]
  | addHandler em type handler =>
    refine ⟨k, hb.of_same (fun _ _ => Emitters.pendings_emitAddHandler) (fun x => ?_)
      fun _ => rfl, fun _ => id⟩
    exact Emitters.load_congr (by simp) (by simp) x
  | rmvWatch em type =>
    refine ⟨k, hb.of_same (fun _ _ => Emitters.pendings_emitRmvWatch) (fun x => ?_)
      fun _ => rfl, fun _ => id⟩
    exact Emitters.load_congr (by simp) (by simp) x
  | initEvent a type priority => exact ⟨k, hb, fun _ => id⟩
  | dispatch em a cb data => exact ⟨k, hb, fun _ => id⟩
  | call c w hc e r hstep =>
    obtain ⟨k', hb', hk⟩ := hb.call htr hc hstep
    exact ⟨k', hb', fun ha => (hk ha).symm ▸ id⟩
  | work i e hwork =>
    rw [htr.fetch] at hwork
    obtain ⟨hload, hemits⟩ : (∀ em, e.load em = s.emit.load em) ∧ e.emits = s.emit.emits :=
      ⟨fun em => (Emitters.load_work hwork em).1, (Emitters.load_work hwork 0).2⟩
    exact ⟨k, hb.of_same (fun em e' he' => ⟨e', hemits ▸ he', rfl⟩) hload fun _ => rfl,
      fun _ => id⟩
  | handle i ret e hhandle =>
    rw [htr.fetch] at hhandle
    obtain ⟨k', hb', hle, hk⟩ := Emitters.Balanced.handle hb hhandle
    refine ⟨fun em => k' em - s.counted em, ?_, fun ha hzero em => ?_⟩
    · intro em e' he'
      have hle : s.counted em + k em ≤ k' em := hle em
      have hsub : s.counted em + (k' em - s.counted em) = k' em := by omega
      show e'.eePendings = (e.load em : ℤ) + ((s.counted em + (k' em - s.counted em) : ℕ) : ℤ)
      rw [hsub]
      exact hb' em e' he'
    · have hk := hk fun ev hph => Emitters.known_of_serves (ha ev (by rw [hph]; rfl))
      have hzero := hzero em
      show k' em - s.counted em = 0
      rw [hk]
      show s.counted em + k em - s.counted em = 0
      omega
  | stop i =>
    exact ⟨k, hb.of_same hsame (Emitters.load_of_held (Worker.held_stop _)) fun _ => rfl,
      fun _ => id⟩
  | destroy em => exact ⟨k, hb, fun _ => id⟩
  | close d hd e r hstep =>
    obtain ⟨hw, hp⟩ := hstep.workers
    cases r with
    | next d' =>
      exact ⟨k, hb.of_same (fun _ _ => pendings_close hstep) (Emitters.load_congr hw hp)
        fun _ => rfl, fun _ => id⟩
    | ret code =>
      exact ⟨k, hb.of_same (fun _ _ => pendings_close hstep) (Emitters.load_congr hw hp)
        fun _ => rfl, fun _ => id⟩

end EmitSys
end EdpIo
