/-
# What ee_pendings is between completions

`ee_pendings` is meant to be the number of events of the emitter that were dispatched and
not completed.  It is not when an event finds no handler for its type any more:
`emit_event_handler` then completes it and leaves by an early return, without
`atomic_dec`, and `emit_destroy` is refused from then on (`pendings_leaked`).

The equation holds of the runs in which every event does find a handler
(`pendings_eq`), with the calls of `emit_dispatch` that have raised the count and not
returned, and once all events of an emitter have completed `emit_destroy` succeeds.
-/

import EdpIo.Emitter.Count

namespace EdpIo

namespace EmitObs

/-- A call of `emit_dispatch(em, ..)` returned `0`. -/
def returnedFor (em : ℕ) : EmitObs → Bool
  | .returned _ e _ _ _ code => e = em && code = 0
  | _ => false

/-- A call of `emit_dispatch(em, ..)` queued its event. -/
def queuedFor (em : ℕ) : EmitObs → Bool
  | .queued _ e _ _ _ => e = em
  | _ => false

/-- The completion of an event of `em` was called. -/
def doneFor (em : ℕ) : EmitObs → Bool
  | .done e _ _ _ _ => e = em
  | _ => false

end EmitObs

/-- The call has queued its event and not returned. -/
def EmitTask.signals {n : ℕ} (em : ℕ) (c : EmitTask n) : Bool :=
  (match c.call.pc with
    | .signalling _ => true
    | _ => false) && c.call.em = em

namespace EmitSys

variable {n : ℕ}

/-- Calls of `emit_dispatch(em, ..)` that returned `0`. -/
def returned (s : EmitSys n) (em : ℕ) : ℕ := s.hist.countP (EmitObs.returnedFor em)

/-- Completions of events of `em`. -/
def done (s : EmitSys n) (em : ℕ) : ℕ := s.hist.countP (EmitObs.doneFor em)

/-- Calls in progress that have queued an event of `em`. -/
def signalling (s : EmitSys n) (em : ℕ) : ℕ := s.calls.countP (EmitTask.signals em)

/-- Calls in progress that have raised the count of `em`. -/
def raised (s : EmitSys n) (em : ℕ) : ℕ := s.counted em + s.signalling em

/-- The runs that dispatch events with valid priorities, none of them again before its
completion, and destroy no emitter. -/
def Proper (s : EmitSys n) : Act n → Prop
  | .dispatch _ a _ _ => s.Idle a ∧ (s.mem a).class? ≠ none
  | .initEvent a _ _ => s.Idle a
  | .destroy _ => False
  | _ => True

/-- An event that is to be handled finds a handler for its type. -/
def Handled (s : EmitSys n) : Act n → Prop
  | .handle i _ => ∀ ev ∈ (s.emit.phases i).entered?, s.emit.serves ev = true
  | _ => True

instance (s : EmitSys n) : (a : Act n) → Decidable (s.Proper a)
  | .dispatch _ _ _ _ => inferInstanceAs (Decidable (_ ∧ _))
  | .initEvent a _ _ => inferInstanceAs (Decidable (s.Idle a))
  | .destroy _ => inferInstanceAs (Decidable False)
  | .create _ _ | .addHandler _ _ _ | .rmvWatch _ _ | .call _ _ | .work _ | .handle _ _ | .stop _
  | .close _ => inferInstanceAs (Decidable True)

instance (s : EmitSys n) : (a : Act n) → Decidable (s.Handled a)
  | .handle i _ => inferInstanceAs (Decidable (∀ ev ∈ (s.emit.phases i).entered?, _ = true))
  | .create _ _ | .addHandler _ _ _ | .rmvWatch _ _ | .initEvent _ _ _ | .dispatch _ _ _ _
  | .call _ _ | .work _ | .stop _ | .destroy _ | .close _ => inferInstanceAs (Decidable True)

theorem fresh_of_proper {s : EmitSys n} {a : Act n} (h : s.Proper a) : s.Fresh a := by
  cases a <;> first | exact h.1 | exact h | trivial

/-- Every call that may still queue its event has a queue for it. -/
def Ranged (s : EmitSys n) : Prop :=
  ∀ c ∈ s.calls, c.call.early = true → (s.mem c.call.ev.addr).class? ≠ none

/-- Events on their way and completed are those queued, and calls returned and about to
return those that queued. -/
structure Tallied (s : EmitSys n) : Prop where
  flight : ∀ em, s.emit.flight (fun ev => ev.evEmit = em) + s.done em =
    s.hist.countP (EmitObs.queuedFor em)
  returned : ∀ em, s.returned em + s.signalling em = s.hist.countP (EmitObs.queuedFor em)

theorem ranged_init : Ranged (init : EmitSys n) := fun _ hc => absurd hc List.not_mem_nil

theorem tallied_init : Tallied (init : EmitSys n) where
  flight em := by
    simp [init, Emitters.init, Emitters.flight, Emitters.total, coreFlight, Worker.held,
      Worker.start, Phase.event?, done]
  returned em := rfl

/-- Steps that write to no event on which a call is about to be queued. -/
theorem Ranged.of_same {s t : EmitSys n} (hs : s.Ranged)
    (hcalls : ∀ c ∈ t.calls, c.call.early = true → ∃ d ∈ s.calls, d.call.early = true ∧
      (t.mem c.call.ev.addr).evPriority = (s.mem d.call.ev.addr).evPriority) : t.Ranged := by
  intro c hc he
  obtain ⟨d, hd, hde, heq⟩ := hcalls c hc he
  rw [EdpEvent.class?, heq]
  exact hs d hd hde

/-- A call that goes on and leaves the event its priority. -/
theorem Ranged.next {s : EmitSys n} (hs : s.Ranged) {c : EmitTask n} (hc : c ∈ s.calls)
    {e : Emitters n} {d : EmitCall n} (haddr : d.ev.addr = c.call.ev.addr)
    (hprio : d.ev.evPriority = (s.mem c.call.ev.addr).evPriority)
    (hearly : c.call.early = true) : (s.advance c e (.next d)).Ranged := by
  have hmem : ∀ b, (Function.update s.mem d.ev.addr d.ev b).evPriority = (s.mem b).evPriority := by
    intro b
    by_cases hb : b = d.ev.addr
    · rw [hb, Function.update_self, hprio, haddr]
    · rw [Function.update_of_ne hb]
  refine hs.of_same fun x hx he => ?_
  rcases List.mem_cons.1 hx with rfl | hx
  · exact ⟨c, hc, hearly, (hmem _).trans (by rw [haddr])⟩
  · exact ⟨x, List.mem_of_mem_erase hx, he, hmem _⟩

theorem Ranged.step {s t : EmitSys n} {a : Act n} (hs : s.Ranged) (htr : s.Tracked)
    (ha : s.Proper a) (h : EmitSys.step s a = some t) : t.Ranged := by
  have hsame : ∀ c ∈ s.calls, c.call.early = true → ∃ d ∈ s.calls, d.call.early = true ∧
      (s.mem c.call.ev.addr).evPriority = (s.mem d.call.ev.addr).evPriority :=
    fun c hc he => ⟨c, hc, he, rfl⟩
  cases step_cases h with
  | initEvent a type priority =>
    refine hs.of_same fun c hc he => ⟨c, hc, he, ?_⟩
    have hca : c.call.ev.addr ≠ a := by
      rintro rfl
      exact calling_ne_zero hc he ha.2
    exact congrArg EdpEvent.evPriority (Function.update_of_ne hca _ _)
  | dispatch em a cb data =>
    intro c hc he
    rcases List.mem_cons.1 hc with rfl | hc
    · show (s.mem (s.mem a).addr).class? ≠ none
      rw [htr.addr]
      exact ha.2
    · exact hs c hc he
  | call c w hc e r hstep =>
    have haddr : (s.mem c.call.ev.addr).addr = c.call.ev.addr := htr.addr c.call.ev.addr
    cases hstep with
    | refuse hpc e he hcheck => exact hs.of_same fun d hd => hsame d (List.mem_of_mem_erase hd)
    | range hpc hclass => exact hs.of_same fun d hd => hsame d (List.mem_of_mem_erase hd)
    | signal w hpc => exact hs.of_same fun d hd => hsame d (List.mem_of_mem_erase hd)
    | pass hpc e he hcheck =>
      exact hs.next hc haddr rfl (by rw [EmitCall.early, show c.call.pc = .checking from hpc])
    | count hpc =>
      exact hs.next hc haddr rfl (by rw [EmitCall.early, show c.call.pc = .counting from hpc])
    | queue hpc p hclass w =>
      exact hs.next hc haddr rfl (by rw [EmitCall.early, show c.call.pc = .queueing from hpc])
  | create em data _ | addHandler em type handler | rmvWatch em type | work i e hwork
  | handle i ret e hhandle | stop i | destroy em => exact hs.of_same hsame
  | close d hd e r hstep => cases r <;> exact hs.of_same hsame

/-- Steps that neither queue nor complete an event, and in which no call returns `0`. -/
theorem Tallied.of_same {s t : EmitSys n} (hs : s.Tallied)
    (hcalls : ∀ em, t.signalling em = s.signalling em)
    (hfl : ∀ q, t.emit.flight q = s.emit.flight q)
    (hhist : ∀ em, t.done em = s.done em ∧ t.returned em = s.returned em ∧
      t.hist.countP (EmitObs.queuedFor em) = s.hist.countP (EmitObs.queuedFor em)) :
    t.Tallied := by
  refine ⟨fun em => ?_, fun em => ?_⟩
  · rw [hfl, (hhist em).1, (hhist em).2.2]
    exact hs.flight em
  · rw [(hhist em).2.1, (hhist em).2.2, hcalls]
    exact hs.returned em

theorem signals_eq_false {em : ℕ} {c : EmitTask n} (h : ∀ w, c.call.pc ≠ .signalling w) :
    c.signals em = false := by
  obtain ⟨id, e, ev, cb, data, pc⟩ := c
  cases pc <;> first | rfl | exact absurd rfl (h _)

theorem signals_signalling {em : ℕ} {c : EmitTask n} {w : Fin n} (h : c.call.pc = .signalling w) :
    c.signals em = decide (c.call.em = em) := by
  rw [EmitTask.signals, h]
  rfl

/-- The calls about to return after a step of one of the calls. -/
theorem signalling_swap {s t : EmitSys n} {c : EmitTask n} (hc : c ∈ s.calls)
    {o : Option (EmitTask n)} (hcalls : t.calls = o.toList ++ s.calls.erase c) (em : ℕ) :
    t.signalling em + (if c.signals em = true then 1 else 0) =
      s.signalling em + if o.any (EmitTask.signals em) = true then 1 else 0 := by
  rw [signalling, hcalls]
  exact Pool.countP_swap hc o (EmitTask.signals em)

theorem signalling_same {s t : EmitSys n} {c : EmitTask n} (hc : c ∈ s.calls)
    (hpc : ∀ w, c.call.pc ≠ .signalling w) {o : Option (EmitTask n)}
    (ho : ∀ em, o.any (EmitTask.signals em) = false)
    (hcalls : t.calls = o.toList ++ s.calls.erase c) (em : ℕ) :
    t.signalling em = s.signalling em := by
  have hswap := signalling_swap hc hcalls em
  rwa [signals_eq_false hpc, ho em] at hswap

/-- A call that is refused. -/
theorem Tallied.refuse {s : EmitSys n} (hs : s.Tallied) {c : EmitTask n} (hc : c ∈ s.calls)
    (hpc : ∀ w, c.call.pc ≠ .signalling w) {code : ℤ} (hcode : code ≠ 0) :
    (s.advance c s.emit (.ret code)).Tallied := by
  refine hs.of_same (signalling_same hc hpc (o := none) (fun _ => rfl) rfl) (fun _ => rfl)
    fun em => ⟨rfl, ?_, rfl⟩
  refine List.countP_cons_of_neg fun h => hcode ?_
  simpa using ((Bool.and_eq_true ..).mp h).2

/-- A call that queues its event. -/
theorem Tallied.queue {s t : EmitSys n} (hs : s.Tallied) {c : EmitTask n} (hc : c ∈ s.calls)
    (hpc : ∀ w, c.call.pc ≠ .signalling w) {w : Fin n} {p : Priority} {ev : EdpEvent} {a : ℕ}
    {d : EmitTask n} (hev : ev.evEmit = c.call.em) (hemit : t.emit = s.emit.enqueue w p ev)
    (hd : d.call.pc = .signalling w) (hem : d.call.em = c.call.em)
    (hcalls : t.calls = (some d).toList ++ s.calls.erase c)
    (hhist : t.hist = .queued c.id c.call.em a c.call.cb c.call.data :: s.hist) : t.Tallied := by
  have hq : ∀ em, t.hist.countP (EmitObs.queuedFor em) =
      s.hist.countP (EmitObs.queuedFor em) + if c.call.em = em then 1 else 0 := by
    intro em
    rw [hhist, List.countP_cons, EmitObs.queuedFor]
    simp
  have hdone : ∀ em, t.done em = s.done em ∧ t.returned em = s.returned em := by
    intro em
    rw [done, EmitSys.returned, hhist]
    exact ⟨rfl, rfl⟩
  refine ⟨fun em => ?_, fun em => ?_⟩
  · have hfl := Emitters.flight_enqueue s.emit w p ev fun ev => ev.evEmit = em
    have hold := hs.flight em
    rw [← hemit] at hfl
    simp only [hev, decide_eq_true_eq] at hfl
    rw [hq, (hdone em).1]
    omega
  · have hswap := signalling_swap hc hcalls em
    have hold := hs.returned em
    rw [signals_eq_false hpc, Option.any_some, signals_signalling hd, hem] at hswap
    simp only [decide_eq_true_eq, Bool.false_eq_true, if_false, Nat.add_zero] at hswap
    rw [hq, (hdone em).2, hswap]
    omega

/-- A call that returns `0`. -/
theorem Tallied.signal {s t : EmitSys n} (hs : s.Tallied) {c : EmitTask n} (hc : c ∈ s.calls)
    {w : Fin n} {a : ℕ} (hpc : c.call.pc = .signalling w)
    (hfl : ∀ q, t.emit.flight q = s.emit.flight q) (hcalls : t.calls = s.calls.erase c)
    (hhist : t.hist = .returned c.id c.call.em a c.call.cb c.call.data 0 :: s.hist) :
    t.Tallied := by
  have hret : ∀ em, t.returned em = s.returned em + if c.call.em = em then 1 else 0 := by
    intro em
    rw [EmitSys.returned, hhist, List.countP_cons, EmitObs.returnedFor]
    simp [EmitSys.returned]
  have hdone : ∀ em, t.done em = s.done em ∧ t.hist.countP (EmitObs.queuedFor em) =
      s.hist.countP (EmitObs.queuedFor em) := by
    intro em
    rw [done, hhist]
    exact ⟨rfl, rfl⟩
  refine ⟨fun em => ?_, fun em => ?_⟩
  · rw [hfl, (hdone em).1, (hdone em).2]
    exact hs.flight em
  · have hswap := signalling_swap (o := none) hc hcalls em
    have hold := hs.returned em
    rw [signals_signalling hpc] at hswap
    simp only [decide_eq_true_eq, Option.any_none, Bool.false_eq_true, if_false, Nat.add_zero]
      at hswap
    rw [hret, (hdone em).2]
    omega

/-- **A step of a call.** -/
theorem Tallied.call {s : EmitSys n} (hs : s.Tallied) (htr : s.Tracked) {c : EmitTask n}
    (hc : c ∈ s.calls) {e : Emitters n} {r : EmitResult n}
    (h : (c.call.fetch s.mem).Step s.emit e r) : (s.advance c e r).Tallied := by
  cases h with
  | refuse hpc e he hcheck =>
    have hpc : c.call.pc = .checking := hpc
    exact hs.refuse hc (by simp [hpc]) hcheck
  | range hpc hclass =>
    have hpc : c.call.pc = .queueing := hpc
    exact hs.refuse hc (by simp [hpc]) (by decide)
  | pass hpc e he hcheck =>
    have hpc : c.call.pc = .checking := hpc
    exact hs.of_same (signalling_same hc (by simp [hpc]) (o := some ⟨c.id, _⟩)
      (fun _ => signals_eq_false (by simp)) rfl) (fun _ => rfl) fun _ => ⟨rfl, rfl, rfl⟩
  | count hpc =>
    have hpc : c.call.pc = .counting := hpc
    exact hs.of_same (signalling_same hc (by simp [hpc]) (o := some ⟨c.id, _⟩)
      (fun _ => signals_eq_false (by simp)) rfl) (fun _ => rfl) fun _ => ⟨rfl, rfl, rfl⟩
  | queue hpc p hclass w =>
    have hpc : c.call.pc = .queueing := hpc
    have hmark : (s.mem c.call.ev.addr).evEmit = c.call.em := by
      rw [← htr.written c hc (by rw [EmitCall.written, hpc])]
      rfl
    exact hs.queue hc (by simp [hpc]) (d := ⟨c.id, { c.call.fetch s.mem with pc := .signalling w }⟩)
      hmark rfl rfl rfl rfl rfl
  | signal w hpc =>
    have hpc : c.call.pc = .signalling w := hpc
    exact hs.signal hc hpc (Emitters.flight_of_held (Worker.held_signal _)) rfl rfl

/-- **A step in `emit_event_handler`.** -/
theorem Tallied.handle {s : EmitSys n} (hs : s.Tallied) {i : Fin n} {ret : ℤ} {e : Emitters n}
    (h : s.emit.handle i ret = some e) :
    Tallied { s with emit := e, hist := (s.emit.phases i).obs ++ s.hist } := by
  have hfl := Emitters.flight_handle (Emitters.handle_cases h)
  cases hph : s.emit.phases i with
  | completing ev errcode =>
    rw [hph] at hfl
    refine ⟨fun em => ?_, fun em => hs.returned em⟩
    have hfl : e.flight _ + _ = _ := hfl fun ev => ev.evEmit = em
    have hdone :=
      List.countP_singleton (p := fun ev : EdpEvent => decide (ev.evEmit = em)) (a := ev)
    have hold := hs.flight em
    show e.flight _ + List.countP _ (.done ev.evEmit _ _ _ errcode :: s.hist) =
      s.hist.countP (EmitObs.queuedFor em)
    rw [List.countP_cons, EmitObs.doneFor]
    rw [Phase.completes?, Option.toList, hdone] at hfl
    rw [EmitSys.done] at hold
    omega
  | out | entered ev | inside ev | ended ev errcode =>
    rw [hph] at hfl
    exact hs.of_same (fun _ => rfl) hfl fun _ => ⟨rfl, rfl, rfl⟩

/-- **One step.** -/
theorem Tallied.step {s t : EmitSys n} {a : Act n} (hs : s.Tallied) (htr : s.Tracked)
    (h : EmitSys.step s a = some t) : t.Tallied := by
  have hsame : ∀ em, s.done em = s.done em ∧ s.returned em = s.returned em ∧
      s.hist.countP (EmitObs.queuedFor em) = s.hist.countP (EmitObs.queuedFor em) :=
    fun _ => ⟨rfl, rfl, rfl⟩
  cases step_cases h with
  | call c w hc e r hstep => exact hs.call htr hc hstep
  | work i e hwork =>
    rw [htr.fetch] at hwork
    refine hs.of_same (fun _ => rfl) (Emitters.flight_work hwork ?_) hsame
    exact fun ev hev => (htr.carried ev ⟨i, .inl hev⟩).2
  | handle i ret e hhandle =>
    rw [htr.fetch] at hhandle
    rw [htr.fetch_phase]
    exact hs.handle hhandle
  | stop i =>
    exact hs.of_same (fun _ => rfl) (Emitters.flight_of_held (Worker.held_stop _)) hsame
  | addHandler em type handler =>
    exact hs.of_same (fun _ => rfl) (Emitters.flight_congr (by simp) (by simp)) hsame
  | rmvWatch em type =>
    exact hs.of_same (fun _ => rfl) (Emitters.flight_congr (by simp) (by simp)) hsame
  | close d hd e r hstep =>
    obtain ⟨hw, hp⟩ := hstep.workers
    have hflight : ∀ q, e.flight q = s.emit.flight q :=
      Emitters.flight_congr (fun j => by rw [hw]) hp
    cases r <;> exact hs.of_same (fun _ => rfl) hflight fun _ => ⟨rfl, rfl, rfl⟩
  | create em data _ | initEvent a type priority | dispatch em a cb data | destroy em =>
    exact hs.of_same (fun _ => rfl) (fun _ => rfl) hsame

/-! ### The account -/

/-- The invariant of the runs in which every event finds a handler. -/
structure Accounted (s : EmitSys n) : Prop where
  tracked : s.Tracked
  homed : s.Homed
  ranged : s.Ranged
  tallied : s.Tallied
  balanced : s.Balanced fun _ => 0

theorem accounted_init : Accounted (init : EmitSys n) :=
  ⟨tracked_init, homed_init, ranged_init, tallied_init, fun _ _ he => by cases he⟩

theorem Accounted.step {s t : EmitSys n} {a : Act n} (hs : s.Accounted) (hp : s.Proper a)
    (hh : s.Handled a) (h : EmitSys.step s a = some t) : t.Accounted := by
  have hkeeps : s.Keeps a := by
    cases a with
    | handle i ret => exact hh
    | call c w =>
      intro hpc
      cases step_cases h with
      | call _ _ hc e r hstep =>
        exact hs.ranged c hc (by rw [EmitCall.early, hpc])
    | _ => trivial
  obtain ⟨k, hb, hk⟩ := balanced_step hs.tracked hs.homed hs.balanced h
  obtain rfl : k = fun _ => 0 := funext (hk hkeeps fun _ => rfl)
  exact ⟨hs.tracked.step (fresh_of_proper hp) h, hs.homed.step hs.tracked h,
    hs.ranged.step hs.tracked hp h, hs.tallied.step hs.tracked h, hb⟩

/-- The steps of a call of `emit_destroy(em)` that finds no event pending. -/
def destroySteps (em : ℕ) : List (Act n) :=
  [.destroy em, .close ⟨em, .testing⟩, .close ⟨em, .uniniting⟩, .close ⟨em, .freeing⟩]

theorem step_close {s : EmitSys n} {d : EmitClose} (hd : d ∈ s.closing) {e : Emitters n}
    {r : CloseResult} (h : d.step s.emit = some (e, r)) :
    step s (.close d) = some (s.closed d e r) := by
  rw [EmitSys.step, if_pos hd, h]
  rfl

/-- With a pending count of zero `emit_destroy` succeeds. -/
theorem run_destroySteps {s : EmitSys n} {em : ℕ} {e : Emit} (he : s.emit.emits.get? em = some e)
    (hp : e.eePendings = 0) :
    ∃ t, StepSystem.run step s (destroySteps em) = some t ∧
      t.hist = .destroyed em 0 :: s.hist := by
  have htest : EmitClose.step s.emit ⟨em, .testing⟩ = some (s.emit, .next ⟨em, .uniniting⟩) := by
    simp [EmitClose.step, he, hp]
  refine ⟨_, StepSystem.run_cons.2 ⟨_, rfl, StepSystem.run_cons.2 ⟨_, step_close ?_ htest,
    StepSystem.run_cons.2 ⟨_, step_close ?_ rfl, StepSystem.run_cons.2 ⟨_, step_close ?_ rfl,
      rfl⟩⟩⟩⟩, rfl⟩ <;> exact List.mem_cons_self

/-- **`ee_pendings` counts what has not completed, where every event finds a handler.**  In
every state of every run of `emit_dispatch` calls with valid priorities, of added and
removed handlers and of workers, in which no event is dispatched again before its
completion and every event that is handled has a handler at that moment: while no worker
is in `emit_event_handler` the count of an emitter is the number of calls that returned
`0`, and of those in progress that have raised it, less the completions; and once these
are none `emit_destroy` succeeds. -/
theorem pendings_eq {acts : List (Act n)} {s : EmitSys n}
    (hc : StepSystem.Meets step (fun s a => s.Proper a ∧ s.Handled a) init acts)
    (hrun : StepSystem.run step init acts = some s) {em : ℕ} {e : Emit}
    (he : s.emit.emits.get? em = some e) :
    ((∀ i, s.emit.phases i = .out) →
        e.eePendings = (s.returned em : ℤ) + s.raised em - s.done em) ∧
      (s.raised em = 0 → s.returned em = s.done em →
        ∃ t, StepSystem.run step s (destroySteps em) = some t ∧
          t.hist = .destroyed em 0 :: s.hist) := by
  have hs : s.Accounted :=
    StepSystem.run_invariant (fun _ _ _ hs ha h => hs.step ha.1 ha.2 h) accounted_init hc hrun
  have hb := hs.balanced em e he
  have hfl := hs.tallied.flight em
  have hret := hs.tallied.returned em
  refine ⟨fun hout => ?_, fun hraised hdone => ?_⟩
  · have hload := Emitters.load_eq_flight hout
      (fun i ev hev => (hs.tracked.carried ev ⟨i, .inl hev⟩).2) em
    rw [hload] at hb
    rw [raised, hb]
    push_cast
    omega
  · rw [raised] at hraised
    have hzero : s.emit.flight (fun ev => ev.evEmit = em) = 0 := by omega
    have hload : s.emit.load em = 0 := by
      by_contra hne
      obtain ⟨ev, hev, heq⟩ := Emitters.exists_carries_of_load hne
      exact Emitters.flight_ne_zero.2 ⟨ev, hev, decide_eq_true heq⟩ hzero
    refine run_destroySteps he ?_
    rw [hb, hload]
    push_cast
    omega

/-- Two events of one emitter, the first of them completed: a run that meets the hypotheses
of `pendings_eq`. -/
theorem pendings_eq_two :
    ∃ acts : List (Act 1), ∃ s e, StepSystem.run step init acts = some s ∧
      s.emit.emits.get? 1 = some e ∧ s.returned 1 = 2 ∧ s.done 1 = 1 ∧
      e.eePendings = (s.returned 1 : ℤ) + s.raised 1 - s.done 1 := by
  let ev : ℕ → ℕ → ℕ → ℕ → EdpEvent := fun a cb em h => ⟨a, 0, 1, -1, cb, 0, em, h⟩
  let calls : ℕ → ℕ → List (Act 1) := fun id a =>
    [.dispatch 1 a 3 0, .call ⟨id, 1, ev a 0 0 0, 3, 0, .checking⟩ none,
      .call ⟨id, 1, ev a 3 1 1, 3, 0, .counting⟩ none,
      .call ⟨id, 1, ev a 3 1 1, 3, 0, .queueing⟩ (some 0),
      .call ⟨id, 1, ev a 3 1 1, 3, 0, .signalling 0⟩ none]
  let acts : List (Act 1) := [Act.create 1 0, .addHandler 1 0 (.fn 7), .initEvent 5 0 1,
    .initEvent 6 0 1] ++ calls 0 5 ++ calls 1 6 ++ List.replicate 10 (Act.work 0) ++
    List.replicate 4 (Act.handle 0 0)
  have hrun : (StepSystem.run step init acts).map (fun s =>
      ((s.emit.emits.get? 1).isSome, s.emit.phases 0, s.returned 1, s.done 1)) =
      some (true, .out, 2, 1) := by decide +kernel
  obtain ⟨s, hs, hh⟩ := Option.map_eq_some_iff.1 hrun
  obtain ⟨hsome, hout, hret, hdone⟩ := by simpa only [Prod.mk.injEq] using hh
  obtain ⟨e, he⟩ := Option.isSome_iff_exists.1 hsome
  have hall : ∀ i, s.emit.phases i = .out := fun i => by rwa [Subsingleton.elim i 0]
  exact ⟨acts, s, e, hs, he, hret, hdone, (pendings_eq (by decide +kernel) hs he).1 hall⟩

/-- **A handler removed too early leaks a count.**  The handler of an event's type is removed
while the event is queued: `emit_event_handler` completes the event and leaves the count,
which is `1` when every event has completed; `emit_destroy` is then refused. -/
theorem pendings_leaked :
    ¬ ∀ (acts : List (Act 1)) s em e, StepSystem.Meets step Proper init acts →
      StepSystem.run step init acts = some s → s.emit.emits.get? em = some e →
      ((∀ i, s.emit.phases i = .out) →
          e.eePendings = (s.returned em : ℤ) + s.raised em - s.done em) ∧
        (s.raised em = 0 → s.returned em = s.done em →
          ∃ t, StepSystem.run step s (destroySteps em) = some t ∧
            t.hist = .destroyed em 0 :: s.hist) := by
  intro h
  let ev : ℕ → ℕ → ℕ → EdpEvent := fun cb em h => ⟨5, 0, 1, -1, cb, 0, em, h⟩
  let acts : List (Act 1) := [Act.create 1 0, .addHandler 1 0 (.fn 7), .initEvent 5 0 1,
    .dispatch 1 5 3 0, .call ⟨0, 1, ev 0 0 0, 3, 0, .checking⟩ none,
    .call ⟨0, 1, ev 3 1 1, 3, 0, .counting⟩ none,
    .call ⟨0, 1, ev 3 1 1, 3, 0, .queueing⟩ (some 0),
    .call ⟨0, 1, ev 3 1 1, 3, 0, .signalling 0⟩ none, .rmvWatch 1 0] ++
    List.replicate 10 (Act.work 0) ++ List.replicate 2 (Act.handle 0 0)
  have hrun : (StepSystem.run step init acts).map (fun s =>
      ((s.emit.emits.get? 1).map Emit.eePendings, s.emit.phases 0, s.returned 1, s.raised 1,
        s.done 1)) = some (some 1, .out, 1, 0, 1) := by decide +kernel
  obtain ⟨s, hs, hh⟩ := Option.map_eq_some_iff.1 hrun
  obtain ⟨hsome, hout, hret, hraised, hdone⟩ := by simpa only [Prod.mk.injEq] using hh
  obtain ⟨e, he, hone⟩ := Option.map_eq_some_iff.1 hsome
  have hall : ∀ i, s.emit.phases i = .out := fun i => by rwa [Subsingleton.elim i 0]
  have heq := (h acts s 1 e (by decide +kernel) hs he).1 hall
  rw [hone, hret, hraised, hdone] at heq
  exact absurd heq (by decide)

end EmitSys
end EdpIo
