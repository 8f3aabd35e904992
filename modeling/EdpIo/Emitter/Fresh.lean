/-
# Events that are dispatched one at a time

The runs in which an event is not dispatched again, nor initialised, between a call of
`emit_dispatch` on it and the call of its completion (`Fresh`).  An event can then be
tracked by its address (`Tracked`): the requests and completions of each address take
turns in the history, it is on its way exactly while one is pending, one call at most
is about to queue it, and what the workers refer to is what the object holds.  The
content of a request is the emitter, the callback and its argument.
-/

import EdpIo.Emitter.Flight
import EdpIo.Emitter.System
import EdpIo.Lib.Rounds

namespace EdpIo

/-- The event with the address `a` is queued, or its completion called. -/
def EmitObs.round (a : ℕ) : EmitObs → Rounds.Kind (ℕ × ℕ × ℕ)
  | .queued _ em b cb data => if b = a then .req (em, cb, data) else .other
  | .done em b cb data _ => if b = a then .ans (em, cb, data) else .other
  | .returned _ _ _ _ _ _ | .destroyed _ _ => .other

/-- The call may still queue its event. -/
def EmitCall.early {n : ℕ} (c : EmitCall n) : Bool :=
  match c.pc with
  | .checking | .counting | .queueing => true
  | .signalling _ => false

/-- The call may still queue the event with the address `a`. -/
def EmitTask.mayQueue {n : ℕ} (a : ℕ) (c : EmitTask n) : Bool :=
  c.call.early && c.call.ev.addr = a

/-- The call has written its arguments to the event. -/
def EmitCall.written {n : ℕ} (c : EmitCall n) : Bool :=
  match c.pc with
  | .counting | .queueing => true
  | .checking | .signalling _ => false

/-- What the call makes of an event, when it has passed the tests. -/
def EmitCall.mark {n : ℕ} (c : EmitCall n) (ev : EdpEvent) : EdpEvent :=
  { ev with evCb := c.cb, evData := c.data, evHandler := emitEventHandler, evEmit := c.em }

/-- What the completion of an event is called with, beside its error. -/
def EdpEvent.payload (ev : EdpEvent) : ℕ × ℕ × ℕ := (ev.evEmit, ev.evCb, ev.evData)

namespace EmitSys

variable {n : ℕ}

/-- What the event with the address `a` was queued with, while its completion has not been
called. -/
def pending (s : EmitSys n) (a : ℕ) : Option (ℕ × ℕ × ℕ) := Rounds.pending (EmitObs.round a) s.hist

/-- The calls that may still queue the event with the address `a`. -/
def calling (s : EmitSys n) (a : ℕ) : ℕ := s.calls.countP (EmitTask.mayQueue a)

/-- The event is neither being dispatched nor waiting for its completion. -/
def Idle (s : EmitSys n) (a : ℕ) : Prop := s.pending a = none ∧ s.calling a = 0

instance (s : EmitSys n) (a : ℕ) : Decidable (s.Idle a) := inferInstanceAs (Decidable (_ ∧ _))

/-- The step dispatches or initialises an event only while it is idle. -/
def Fresh (s : EmitSys n) : Act n → Prop
  | .dispatch _ a _ _ | .initEvent a _ _ => s.Idle a
  | _ => True

instance (s : EmitSys n) : (a : Act n) → Decidable (s.Fresh a)
  | .dispatch _ a _ _ | .initEvent a _ _ => inferInstanceAs (Decidable (s.Idle a))
  | .create _ _ | .addHandler _ _ _ | .rmvWatch _ _ | .call _ _ | .work _ | .handle _ _ | .stop _
  | .destroy _ | .close _ => inferInstanceAs (Decidable True)

/-- What the runs with fresh dispatches keep. -/
structure Tracked (s : EmitSys n) : Prop where
  addr : ∀ a, (s.mem a).addr = a
  carried : ∀ ev, s.emit.Carries ev → s.mem ev.addr = ev ∧ ev.evHandler = emitEventHandler
  written : ∀ c ∈ s.calls, c.call.written = true →
    c.call.mark (s.mem c.call.ev.addr) = s.mem c.call.ev.addr
  solo : ∀ a, s.calling a + (s.pending a).isSome.toNat ≤ 1
  rounds : ∀ a, Rounds.Matched (EmitObs.round a) s.hist
  flight : ∀ a, s.emit.flight (fun ev => ev.addr = a) = (s.pending a).isSome.toNat
  payload : ∀ a k, s.pending a = some k → k = (s.mem a).payload

theorem tracked_init : Tracked (init : EmitSys n) where
  addr _ := rfl
  carried := by
    rintro ev ⟨i, hev | hev⟩
    · simp [init, Emitters.init, Worker.held, Worker.start] at hev
    · cases hev
  written _ hc := absurd hc List.not_mem_nil
  solo _ := Nat.zero_le 1
  rounds _ := trivial
  flight _ := by
    simp [init, Emitters.init, Emitters.flight, Emitters.total, coreFlight, Worker.held,
      Worker.start, Phase.event?, pending, Rounds.pending]
  payload _ _ h := by cases h

/-! ### What the workers see -/

theorem fetch_worker {mem : ℕ → EdpEvent} {w : Worker} (h : ∀ ev ∈ w.held, mem ev.addr = ev) :
    w.fetch mem = w := by
  have hmap : ∀ l : List EdpEvent, (∀ ev ∈ l, ev ∈ w.held) → l.map (EdpEvent.fetch mem) = l :=
    fun l hl => (List.map_congr_left fun ev hev => h ev (hl ev hev)).trans (List.map_id l)
  have hq : ∀ p, (w.queue p).map (EdpEvent.fetch mem) = w.queue p := by
    refine fun p => hmap _ fun ev hev => ?_
    cases p <;> simp [Worker.held, hev]
  have he : w.events.map (EdpEvent.fetch mem) = w.events :=
    hmap _ fun ev hev => by simp [Worker.held, hev]
  rw [Worker.fetch, he, funext hq]

theorem fetch_phase {mem : ℕ → EdpEvent} {p : Phase}
    (h : ∀ ev, p.event? = some ev → mem ev.addr = ev) : p.fetch mem = p := by
  cases p with
  | out => rfl
  | entered ev | inside ev | ended ev errcode | completing ev errcode =>
    have hev := h ev rfl
    simp only [Phase.fetch, EdpEvent.fetch, hev]

theorem Tracked.fetch_phase {s : EmitSys n} (hs : s.Tracked) (i : Fin n) :
    (s.emit.phases i).fetch s.mem = s.emit.phases i :=
  EmitSys.fetch_phase fun ev hev => (hs.carried ev ⟨i, .inr hev⟩).1

/-- **The workers see the events as they were queued.** -/
theorem Tracked.fetch {s : EmitSys n} (hs : s.Tracked) : s.emit.fetch s.mem = s.emit := by
  have hw : ∀ i, (s.emit.workers i).fetch s.mem = s.emit.workers i :=
    fun i => fetch_worker fun ev hev => (hs.carried ev ⟨i, .inl hev⟩).1
  rw [Emitters.fetch, funext hw, funext hs.fetch_phase]

/-- An event that is not pending is not on its way. -/
theorem Tracked.addr_ne {s : EmitSys n} (hs : s.Tracked) {a : ℕ} (h : s.pending a = none)
    {ev : EdpEvent} (hev : s.emit.Carries ev) : ev.addr ≠ a := by
  intro ha
  have hf := hs.flight a
  rw [h] at hf
  exact Emitters.flight_ne_zero.2 ⟨ev, hev, decide_eq_true ha⟩ hf

/-! ### The steps -/

/-- Steps that write to no event and add none to those on their way. -/
theorem Tracked.of_same {s t : EmitSys n} (hs : s.Tracked) (hmem : t.mem = s.mem)
    (hcar : ∀ ev, t.emit.Carries ev → s.emit.Carries ev)
    (hfl : ∀ q, t.emit.flight q = s.emit.flight q)
    (hpend : ∀ a, t.pending a = s.pending a)
    (hrounds : ∀ a, Rounds.Matched (EmitObs.round a) t.hist)
    (hcalling : ∀ a, t.calling a ≤ s.calling a)
    (hcalls : ∀ c ∈ t.calls, c.call.written = true →
      c.call.mark (s.mem c.call.ev.addr) = s.mem c.call.ev.addr) : t.Tracked where
  addr := by
    rw [hmem]
    exact hs.addr
  carried ev hev := by
    rw [hmem]
    exact hs.carried ev (hcar ev hev)
  written := by
    rw [hmem]
    exact hcalls
  solo a := by
    rw [hpend]
    exact Nat.le_trans (Nat.add_le_add_right (hcalling a) _) (hs.solo a)
  rounds := hrounds
  flight a := by
    rw [hfl, hpend]
    exact hs.flight a
  payload a k hk := by
    rw [hpend] at hk
    rw [hmem]
    exact hs.payload a k hk

/-- Steps that change nothing but the emitters. -/
theorem Tracked.of_emits {s t : EmitSys n} (hs : s.Tracked) (hmem : t.mem = s.mem)
    (hcalls : t.calls = s.calls) (hw : t.emit.workers = s.emit.workers)
    (hp : t.emit.phases = s.emit.phases) (hpend : ∀ a, t.pending a = s.pending a)
    (hrounds : ∀ a, Rounds.Matched (EmitObs.round a) t.hist) : t.Tracked := by
  refine hs.of_same hmem (fun ev hev => ?_) (fun q => ?_) hpend hrounds (fun a => ?_)
    fun c hc hcw => hs.written c (hcalls ▸ hc) hcw
  · obtain ⟨i, hi⟩ := hev
    rw [hw, hp] at hi
    exact ⟨i, hi⟩
  · rw [Emitters.flight, Emitters.flight, Emitters.total, Emitters.total, hw, hp]
  · rw [calling, calling, hcalls]

/-- A write to an event on which no other call has written. -/
theorem Tracked.write {s t : EmitSys n} (hs : s.Tracked) {a : ℕ} {v : EdpEvent} (hv : v.addr = a)
    (ha : s.pending a = none) (hmem : t.mem = Function.update s.mem a v) (hemit : t.emit = s.emit)
    (hhist : ∀ b, t.pending b = s.pending b)
    (hrounds : ∀ b, Rounds.Matched (EmitObs.round b) t.hist)
    (hcalling : ∀ b, t.calling b = s.calling b)
    (hcalls : ∀ c ∈ t.calls, c.call.written = true →
      (c ∈ s.calls ∧ c.call.ev.addr ≠ a) ∨ (c.call.ev.addr = a ∧ c.call.mark v = v)) :
    t.Tracked := by
  have hne : ∀ b, b ≠ a → t.mem b = s.mem b := fun b hb => by
    rw [hmem, Function.update_of_ne hb]
  have heq : t.mem a = v := by rw [hmem, Function.update_self]
  refine ⟨fun b => ?_, fun ev hev => ?_, fun c hc hw => ?_, fun b => ?_, hrounds, fun b => ?_,
    fun b k hk => ?_⟩
  · by_cases hb : b = a
    · rw [hb, heq, hv]
    · rw [hne b hb]
      exact hs.addr b
  · rw [hemit] at hev
    rw [hne _ (hs.addr_ne ha hev)]
    exact hs.carried ev hev
  · rcases hcalls c hc hw with ⟨hcs, hca⟩ | ⟨hca, hmark⟩
    · rw [hne _ hca]
      exact hs.written c hcs hw
    · rw [hca, heq, hmark]
  · rw [hcalling, hhist]
    exact hs.solo b
  · rw [hemit, hhist]
    exact hs.flight b
  · rw [hhist] at hk
    have hb : b ≠ a := by
      rintro rfl
      rw [ha] at hk
      cases hk
    rw [hne b hb]
    exact hs.payload b k hk

theorem early_of_written {c : EmitCall n} (h : c.written = true) : c.early = true := by
  unfold EmitCall.written at h
  unfold EmitCall.early
  split at h <;> simp_all

/-- A call that may still queue an event is counted. -/
theorem calling_ne_zero {s : EmitSys n} {c : EmitTask n} (hc : c ∈ s.calls)
    (he : c.call.early = true) : s.calling c.call.ev.addr ≠ 0 :=
  (List.countP_pos_iff.2 ⟨c, hc, by simp [EmitTask.mayQueue, he]⟩).ne'

theorem Tracked.initEvent {s : EmitSys n} (hs : s.Tracked) {a : ℕ} (ha : s.Idle a)
    (type priority : ℤ) :
    Tracked { s with mem := Function.update s.mem a (edpEventInit (s.mem a) type priority) } := by
  refine hs.write (v := edpEventInit (s.mem a) type priority) (hs.addr a) ha.1 rfl rfl
    (fun _ => rfl) hs.rounds (fun _ => rfl)
    fun c hc hw => .inl ⟨hc, ?_⟩
  rintro rfl
  exact calling_ne_zero hc (early_of_written hw) ha.2

/-! ### The steps of a call -/

/-- The beginning of a call on an idle event. -/
theorem Tracked.dispatch {s : EmitSys n} (hs : s.Tracked) {a : ℕ} (ha : s.Idle a)
    (em cb data : ℕ) :
    Tracked { s with calls := ⟨s.begun, em, s.mem a, cb, data, .checking⟩ :: s.calls
                     begun := s.begun + 1 } := by
  refine ⟨hs.addr, hs.carried, fun c hc hw => ?_, fun b => ?_, hs.rounds, hs.flight, hs.payload⟩
  · rcases List.mem_cons.1 hc with rfl | hc
    · cases hw
    · exact hs.written c hc hw
  · have hsolo := hs.solo b
    show List.countP (EmitTask.mayQueue b) (_ :: s.calls) + (s.pending b).isSome.toNat ≤ 1
    rw [List.countP_cons]
    by_cases hb : b = a
    · subst hb
      have hcall : s.calls.countP (EmitTask.mayQueue b) = 0 := ha.2
      rw [hcall, ha.1]
      split <;> decide
    · rw [if_neg (by simp [EmitTask.mayQueue, hs.addr a, Ne.symm hb])]
      exact hsolo

/-- While a call may still queue an event none is pending for it. -/
theorem Tracked.pending_eq_none {s : EmitSys n} (hs : s.Tracked) {c : EmitTask n}
    (hc : c ∈ s.calls) (he : c.call.early = true) : s.pending c.call.ev.addr = none := by
  have hsolo := hs.solo c.call.ev.addr
  have hpos := calling_ne_zero hc he
  cases hp : s.pending c.call.ev.addr with
  | none => rfl
  | some k =>
    rw [hp, Option.isSome_some, Bool.toNat_true] at hsolo
    omega

/-- No other call is about to queue the event. -/
theorem Tracked.addr_ne_of_erase {s : EmitSys n} (hs : s.Tracked) {c d : EmitTask n}
    (hc : c ∈ s.calls) (he : c.call.early = true) (hd : d ∈ s.calls.erase c)
    (hde : d.call.early = true) : d.call.ev.addr ≠ c.call.ev.addr := by
  intro ha
  have hsolo := hs.solo c.call.ev.addr
  have hswap : (s.calls.erase c).countP _ + _ = s.calling c.call.ev.addr + 0 :=
    Pool.countP_swap hc none (EmitTask.mayQueue c.call.ev.addr)
  have hpos : 0 < (s.calls.erase c).countP (EmitTask.mayQueue c.call.ev.addr) :=
    List.countP_pos_iff.2 ⟨d, hd, by simp [EmitTask.mayQueue, hde, ha]⟩
  rw [if_pos (by simp [EmitTask.mayQueue, he])] at hswap
  omega

/-- The calls about to queue an event after a step of one of them. -/
theorem calling_next {s : EmitSys n} {c : EmitTask n} (hc : c ∈ s.calls) (e : Emitters n)
    (c' : EmitCall n) (a : ℕ) :
    (s.advance c e (.next c')).calling a + (if c.mayQueue a = true then 1 else 0) =
      s.calling a + if EmitTask.mayQueue a ⟨c.id, c'⟩ = true then 1 else 0 :=
  Pool.countP_swap hc (some ⟨c.id, c'⟩) (EmitTask.mayQueue a)

theorem calling_ret {s : EmitSys n} {c : EmitTask n} (hc : c ∈ s.calls) (e : Emitters n)
    (code : ℤ) (a : ℕ) :
    (s.advance c e (.ret code)).calling a + (if c.mayQueue a = true then 1 else 0) =
      s.calling a :=
  Pool.countP_swap hc none (EmitTask.mayQueue a)

/-- A call that goes on and may still queue its event. -/
theorem calling_same {s : EmitSys n} {c : EmitTask n} (hc : c ∈ s.calls)
    (he : c.call.early = true) (e : Emitters n) {c' : EmitCall n} (he' : c'.early = true)
    (ha : c'.ev.addr = c.call.ev.addr) (a : ℕ) :
    (s.advance c e (.next c')).calling a = s.calling a := by
  have hnext := calling_next hc e c' a
  have hsame : EmitTask.mayQueue a ⟨c.id, c'⟩ = c.mayQueue a := by
    rw [EmitTask.mayQueue, EmitTask.mayQueue, he, he', ha]
  rw [hsame] at hnext
  exact Nat.add_right_cancel hnext

/-- A call that returns. -/
theorem Tracked.ret {s : EmitSys n} (hs : s.Tracked) {c : EmitTask n} (hc : c ∈ s.calls)
    {e : Emitters n} {code : ℤ} (hcar : ∀ ev, e.Carries ev → s.emit.Carries ev)
    (hfl : ∀ q, e.flight q = s.emit.flight q) : (s.advance c e (.ret code)).Tracked := by
  refine hs.of_same rfl hcar hfl (fun _ => rfl) (fun a => (hs.rounds a).other rfl)
    (fun a => ?_) fun d hd => hs.written d (List.mem_of_mem_erase hd)
  have hret := calling_ret hc e code a
  omega

/-- A call that has passed the tests writes its arguments to the event. -/
theorem Tracked.pass {s : EmitSys n} (hs : s.Tracked) {c : EmitTask n} (hc : c ∈ s.calls)
    (hpc : c.call.pc = .checking) :
    (s.advance c s.emit (.next { c.call.fetch s.mem with
      ev := (c.call.fetch s.mem).event, pc := .counting })).Tracked := by
  have haddr : (s.mem c.call.ev.addr).addr = c.call.ev.addr := hs.addr c.call.ev.addr
  have hearly : c.call.early = true := by rw [EmitCall.early, hpc]
  refine hs.write (v := (c.call.fetch s.mem).event) haddr (hs.pending_eq_none hc hearly) ?_ rfl
    (fun _ => rfl) hs.rounds (calling_same hc hearly s.emit rfl haddr) fun d hd hw => ?_
  · exact congrArg (Function.update s.mem · _) haddr
  · rcases List.mem_cons.1 hd with rfl | hd
    · exact .inr ⟨haddr, rfl⟩
    · exact .inl ⟨List.mem_of_mem_erase hd,
        hs.addr_ne_of_erase hc hearly hd (early_of_written hw)⟩

/-- Writing back what was read changes nothing. -/
theorem Tracked.update_fetch {s : EmitSys n} (hs : s.Tracked) (c : EmitCall n) :
    Function.update s.mem (c.fetch s.mem).ev.addr (c.fetch s.mem).ev = s.mem := by
  have haddr : (s.mem c.ev.addr).addr = c.ev.addr := hs.addr c.ev.addr
  show Function.update s.mem (s.mem c.ev.addr).addr (s.mem c.ev.addr) = s.mem
  rw [haddr, Function.update_eq_self]

/-- `atomic_inc` touches no event. -/
theorem Tracked.count {s : EmitSys n} (hs : s.Tracked) {c : EmitTask n} (hc : c ∈ s.calls)
    (hpc : c.call.pc = .counting) {e : Emitters n} (hw : e.workers = s.emit.workers)
    (hp : e.phases = s.emit.phases) :
    (s.advance c e (.next { c.call.fetch s.mem with pc := .queueing })).Tracked := by
  have haddr : (s.mem c.call.ev.addr).addr = c.call.ev.addr := hs.addr c.call.ev.addr
  have hearly : c.call.early = true := by rw [EmitCall.early, hpc]
  have hwritten : c.call.written = true := by rw [EmitCall.written, hpc]
  refine hs.of_same (hs.update_fetch c.call) (fun ev hev => ?_) (fun q => ?_) (fun _ => rfl)
    hs.rounds (fun a => (calling_same hc hearly e rfl haddr a).le) fun d hd hdw => ?_
  · obtain ⟨i, hi⟩ := hev
    have hi : ev ∈ (e.workers i).held ∨ (e.phases i).event? = some ev := hi
    rw [hw, hp] at hi
    exact ⟨i, hi⟩
  · show ∑ i, coreFlight q (e.workers i) (e.phases i) = _
    rw [hw, hp]
    rfl
  · rcases List.mem_cons.1 hd with rfl | hd
    · show c.call.mark (s.mem (s.mem c.call.ev.addr).addr) = s.mem (s.mem c.call.ev.addr).addr
      rw [haddr]
      exact hs.written c hc hwritten
    · exact hs.written d (List.mem_of_mem_erase hd) hdw

/-- The record of a queued event, for the address of the event and for the others. -/
theorem round_queued_self (id em a cb data : ℕ) :
    (EmitObs.queued id em a cb data).round a = .req (em, cb, data) := if_pos rfl

theorem round_queued_of_ne {a b : ℕ} (h : a ≠ b) (id em cb data : ℕ) :
    (EmitObs.queued id em a cb data).round b = .other := if_neg h

/-- The locked section of `__edp_dispatch` puts the event on its way. -/
theorem Tracked.queue {s t : EmitSys n} (hs : s.Tracked) {c : EmitTask n} (hc : c ∈ s.calls)
    (hpc : c.call.pc = .queueing) {w : Fin n} {p : Priority}
    (hemit : t.emit = s.emit.enqueue w p (s.mem c.call.ev.addr)) (hmem : t.mem = s.mem)
    (hcalls : t.calls = ⟨c.id, { c.call.fetch s.mem with pc := .signalling w }⟩ :: s.calls.erase c)
    (hhist : t.hist =
      .queued c.id c.call.em c.call.ev.addr c.call.cb c.call.data :: s.hist) : t.Tracked := by
  have haddr := hs.addr c.call.ev.addr
  have hearly : c.call.early = true := by rw [EmitCall.early, hpc]
  have hmark := hs.written c hc (by rw [EmitCall.written, hpc])
  have hnone := hs.pending_eq_none hc hearly
  have hpendself : t.pending c.call.ev.addr = some (c.call.em, c.call.cb, c.call.data) := by
    rw [pending, hhist]
    exact Rounds.pending_req (round_queued_self ..)
  have hpend : ∀ b, b ≠ c.call.ev.addr → t.pending b = s.pending b := by
    intro b hb
    rw [pending, hhist]
    exact Rounds.pending_other (round_queued_of_ne (Ne.symm hb) ..)
  have hcalling : ∀ b, t.calling b + (if c.mayQueue b = true then 1 else 0) = s.calling b := by
    intro b
    rw [calling, hcalls]
    exact Pool.countP_swap hc (some ⟨c.id, { c.call.fetch s.mem with pc := .signalling w }⟩)
      (EmitTask.mayQueue b)
  refine ⟨by rw [hmem]; exact hs.addr, fun ev hev => ?_, fun d hd hw => ?_, fun b => ?_,
    fun b => ?_, fun b => ?_, fun b k hk => ?_⟩
  · rw [hemit] at hev
    rw [hmem]
    rcases Emitters.carries_enqueue hev with rfl | hev
    · rw [haddr]
      exact ⟨rfl, by rw [← hmark]; rfl⟩
    · exact hs.carried ev hev
  · rw [hcalls] at hd
    rw [hmem]
    rcases List.mem_cons.1 hd with rfl | hd
    · cases hw
    · exact hs.written d (List.mem_of_mem_erase hd) hw
  · have hsolo := hs.solo b
    have hswap := hcalling b
    by_cases hb : b = c.call.ev.addr
    · subst hb
      rw [if_pos (by simp [EmitTask.mayQueue, hearly])] at hswap
      rw [hpendself, Option.isSome_some, Bool.toNat_true]
      omega
    · rw [hpend b hb]
      omega
  · rw [hhist]
    by_cases hb : b = c.call.ev.addr
    · subst hb
      exact (hs.rounds _).req (round_queued_self ..) hnone
    · exact (hs.rounds b).other (round_queued_of_ne (Ne.symm hb) ..)
  · have hfl := hs.flight b
    rw [hemit, Emitters.flight_enqueue, hfl, haddr]
    by_cases hb : b = c.call.ev.addr
    · subst hb
      rw [hpendself, hnone, if_pos (decide_eq_true rfl)]
      rfl
    · rw [hpend b hb, if_neg (by simpa using Ne.symm hb), Nat.add_zero]
  · rw [hmem]
    by_cases hb : b = c.call.ev.addr
    · subst hb
      rw [hpendself] at hk
      obtain rfl := Option.some.inj hk
      rw [← hmark]
      rfl
    · rw [hpend b hb] at hk
      exact hs.payload b k hk

/-- **A step of a call.** -/
theorem Tracked.call {s : EmitSys n} (hs : s.Tracked) {c : EmitTask n} (hc : c ∈ s.calls)
    {e : Emitters n} {r : EmitResult n} (h : (c.call.fetch s.mem).Step s.emit e r) :
    (s.advance c e r).Tracked := by
  cases h with
  | refuse hpc e he hcheck => exact hs.ret hc (fun _ => id) fun _ => rfl
  | pass hpc e he hcheck => exact hs.pass hc hpc
  | count hpc => exact hs.count hc hpc rfl rfl
  | range hpc hclass => exact hs.ret hc (fun _ => id) fun _ => rfl
  | queue hpc p hclass w =>
    refine hs.queue hc hpc (w := w) (p := p) rfl (hs.update_fetch c.call) rfl ?_
    exact congrArg (fun a => EmitObs.queued _ _ a _ _ :: s.hist) (hs.addr c.call.ev.addr)
  | signal w hpc =>
    have hheld := Worker.held_signal (s.emit.workers w)
    exact hs.ret hc (fun _ => Emitters.carries_of_held hheld) (Emitters.flight_of_held hheld)

/-! ### The steps of the workers -/

/-- A step in `emit_event_handler` that does not complete its event. -/
theorem obs_eq_nil {p : Phase} (h : p.completes? = none) : p.obs = [] := by
  cases p <;> first | rfl | cases h

theorem round_done_self (em a cb data : ℕ) (errcode : ℤ) :
    (EmitObs.done em a cb data errcode).round a = .ans (em, cb, data) := if_pos rfl

theorem round_done_of_ne {a b : ℕ} (h : a ≠ b) (em cb data : ℕ) (errcode : ℤ) :
    (EmitObs.done em a cb data errcode).round b = .other := if_neg h

/-- The call of `edp_event_done`. -/
theorem Tracked.done {s t : EmitSys n} (hs : s.Tracked) {ev : EdpEvent} {errcode : ℤ}
    (hev : s.emit.Carries ev) (hmem : t.mem = s.mem) (hcalls : t.calls = s.calls)
    (hcar : ∀ e, t.emit.Carries e → s.emit.Carries e)
    (hfl : ∀ q, t.emit.flight q + (if q ev = true then 1 else 0) = s.emit.flight q)
    (hhist : t.hist = .done ev.evEmit ev.addr ev.evCb ev.evData errcode :: s.hist) :
    t.Tracked := by
  have hself : s.mem ev.addr = ev := (hs.carried ev hev).1
  -- the request of an event on its way is pending, with what the event holds
  obtain ⟨k, hk⟩ : ∃ k, s.pending ev.addr = some k := by
    cases hp : s.pending ev.addr with
    | some k => exact ⟨k, rfl⟩
    | none => exact absurd rfl (hs.addr_ne hp hev)
  have hpay : k = (ev.evEmit, ev.evCb, ev.evData) := by
    have h := hs.payload ev.addr k hk
    rwa [hself] at h
  have hpendself : t.pending ev.addr = none := by
    rw [pending, hhist]
    exact Rounds.pending_ans (round_done_self ..)
  have hpend : ∀ b, b ≠ ev.addr → t.pending b = s.pending b := by
    intro b hb
    rw [pending, hhist]
    exact Rounds.pending_other (round_done_of_ne (Ne.symm hb) ..)
  have hcalling : ∀ b, t.calling b = s.calling b := fun b => by rw [calling, calling, hcalls]
  refine ⟨by rw [hmem]; exact hs.addr, fun e he => ?_, ?_, fun b => ?_, fun b => ?_, fun b => ?_,
    fun b k' hk' => ?_⟩
  · rw [hmem]
    exact hs.carried e (hcar e he)
  · rw [hmem, hcalls]
    exact hs.written
  · have hsolo := hs.solo b
    rw [hcalling]
    by_cases hb : b = ev.addr
    · subst hb
      rw [hpendself]
      exact Nat.le_trans (Nat.le_add_right _ _) hsolo
    · rw [hpend b hb]
      exact hsolo
  · rw [hhist]
    by_cases hb : b = ev.addr
    · subst hb
      exact (hs.rounds _).ans (round_done_self ..) (hpay ▸ hk)
    · exact (hs.rounds b).other (round_done_of_ne (Ne.symm hb) ..)
  · have hfl := hfl fun e => e.addr = b
    rw [hs.flight b] at hfl
    by_cases hb : b = ev.addr
    · subst hb
      rw [if_pos (decide_eq_true rfl), hk] at hfl
      rw [hpendself]
      exact Nat.add_right_cancel hfl
    · rw [if_neg (by simpa using Ne.symm hb), Nat.add_zero] at hfl
      rw [hpend b hb, hfl]
  · rw [hmem]
    have hb : b ≠ ev.addr := by
      rintro rfl
      rw [hpendself] at hk'
      cases hk'
    rw [hpend b hb] at hk'
    exact hs.payload b k' hk'

/-- **A step in `emit_event_handler`.** -/
theorem Tracked.handle {s : EmitSys n} (hs : s.Tracked) {i : Fin n} {ret : ℤ} {e : Emitters n}
    (h : s.emit.handle i ret = some e) :
    Tracked { s with emit := e, hist := (s.emit.phases i).obs ++ s.hist } := by
  have hh := Emitters.handle_cases h
  have hfl := Emitters.flight_handle hh
  cases hc : (s.emit.phases i).completes? with
  | none =>
    rw [obs_eq_nil hc]
    refine hs.of_same rfl (fun _ => Emitters.carries_handle hh) (fun q => ?_) (fun _ => rfl)
      hs.rounds (fun _ => Nat.le_refl _) hs.written
    have := hfl q
    rwa [hc] at this
  | some ev =>
    obtain ⟨errcode, hph⟩ : ∃ errcode, s.emit.phases i = .completing ev errcode := by
      cases hp : s.emit.phases i with
      | completing ev' errcode =>
        rw [hp] at hc
        obtain rfl : ev' = ev := Option.some.inj hc
        exact ⟨errcode, rfl⟩
      | out | entered ev | inside ev | ended ev errcode =>
        rw [hp] at hc
        cases hc
    have hhist : (s.emit.phases i).obs ++ s.hist =
        .done ev.evEmit ev.addr ev.evCb ev.evData errcode :: s.hist := by
      rw [hph]
      rfl
    refine hs.done ⟨i, .inr (by rw [hph]; rfl)⟩ rfl rfl
      (fun _ => Emitters.carries_handle hh) (fun q => ?_) hhist
    have := hfl q
    rw [hc] at this
    rw [← this]
    exact congrArg (e.flight q + ·) List.countP_singleton.symm

/-- **One step.**  Fresh dispatches keep the events tracked. -/
theorem Tracked.step {s t : EmitSys n} {a : Act n} (hs : s.Tracked) (ha : s.Fresh a)
    (h : EmitSys.step s a = some t) : t.Tracked := by
  cases step_cases h with
  | initEvent a type priority => exact hs.initEvent ha type priority
  | dispatch em a cb data => exact hs.dispatch ha em cb data
  | call c w hc e r hstep => exact hs.call hc hstep
  | work i e hwork =>
    rw [hs.fetch] at hwork
    refine hs.of_same rfl (fun _ => Emitters.carries_work hwork) (Emitters.flight_work hwork ?_)
      (fun _ => rfl) hs.rounds (fun _ => Nat.le_refl _) hs.written
    exact fun ev hev => (hs.carried ev ⟨i, .inl hev⟩).2
  | handle i ret e hhandle =>
    rw [hs.fetch] at hhandle
    rw [hs.fetch_phase]
    exact hs.handle hhandle
  | stop i =>
    have hheld := Worker.held_stop (s.emit.workers i)
    exact hs.of_same rfl (fun _ => Emitters.carries_of_held hheld)
      (Emitters.flight_of_held hheld) (fun _ => rfl) hs.rounds (fun _ => Nat.le_refl _) hs.written
  | create em data _ => exact hs.of_emits rfl rfl rfl rfl (fun _ => rfl) hs.rounds
  | addHandler em type handler =>
    exact hs.of_emits rfl rfl (by simp) (by simp) (fun _ => rfl) hs.rounds
  | rmvWatch em type =>
    exact hs.of_emits rfl rfl (by simp) (by simp) (fun _ => rfl) hs.rounds
  | destroy em => exact hs.of_emits rfl rfl rfl rfl (fun _ => rfl) hs.rounds
  | close d hd e r hstep =>
    obtain ⟨hw, hp⟩ := hstep.workers
    cases r with
    | next d' => exact hs.of_emits rfl rfl hw hp (fun _ => rfl) hs.rounds
    | ret code =>
      exact hs.of_emits rfl rfl hw hp (fun _ => rfl) fun a => (hs.rounds a).other rfl

end EmitSys
end EdpIo
