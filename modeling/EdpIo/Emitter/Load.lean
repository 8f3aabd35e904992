/-
# What the pending count of an emitter counts

`ee_pendings` is raised by `emit_dispatch` before the event is queued and lowered by
`emit_event_handler` after the handler of its type, so it is meant to be the number
of events of the emitter on their way.  `load` is that number for the events that
have been queued: those held by a worker, and those whose worker is in
`emit_event_handler` before `atomic_dec`.  The lemmas here say what the steps of the
workers do to it (`load_work`, `load_handle`, `load_enqueue`).

The count is only lowered by a handler that is called, so the account needs that
the emitters of the events in flight have one for their types (`Served`).
-/

import EdpIo.Emitter.Model

namespace EdpIo

/-- Changing one term of a sum. -/
theorem sum_swap {ι : Type*} [Fintype ι] [DecidableEq ι] {f g : ι → ℕ} {i : ι}
    (h : ∀ j, j ≠ i → f j = g j) : ∑ j, f j + g i = ∑ j, g j + f i := by
  have hf := Finset.add_sum_erase Finset.univ f (Finset.mem_univ i)
  have hg := Finset.add_sum_erase Finset.univ g (Finset.mem_univ i)
  have hfg : ∑ j ∈ Finset.univ.erase i, f j = ∑ j ∈ Finset.univ.erase i, g j :=
    Finset.sum_congr rfl fun j hj => h j (Finset.ne_of_mem_erase hj)
  omega

/-- The event was dispatched by `emit_dispatch(em, ev, ..)`. -/
def EdpEvent.ForEmit (em : ℕ) (ev : EdpEvent) : Prop :=
  ev.evHandler = emitEventHandler ∧ ev.evEmit = em

instance (em : ℕ) : DecidablePred (EdpEvent.ForEmit em) := fun _ =>
  inferInstanceAs (Decidable (_ ∧ _))

/-- The event in the handler before `atomic_dec`, if there is one. -/
def Phase.ev? : Phase → Option EdpEvent
  | .entered ev | .inside ev | .ended ev _ => some ev
  | .out | .completing _ _ => none

/-- Whether a worker at the place still has to lower the count of `em`. -/
def Phase.owes (em : ℕ) (p : Phase) : ℕ := if p.ev?.any fun ev => ev.evEmit = em then 1 else 0

/-- The events of `em` that a worker holds or is handling. -/
def coreLoad (em : ℕ) (w : Worker) (p : Phase) : ℕ :=
  w.held.countP (EdpEvent.ForEmit em) + p.owes em

/-- Starting the handler of an event moves it from the worker's lists to its place. -/
theorem Worker.Step.coreLoad {w w' : Worker} {l : Worker.Label} (h : w.Step l w') (em : ℕ) :
    coreLoad em w' (Emitters.phaseAfter l) = coreLoad em w .out := by
  have hheld := congrArg (Multiset.countP (EdpEvent.ForEmit em)) h.held
  rw [Multiset.countP_add] at hheld
  rw [EdpIo.coreLoad, EdpIo.coreLoad, hheld, Nat.add_comm]
  refine congrArg (· + _) ?_
  cases l with
  | tau => rfl
  | finish ev => rfl
  | start ev =>
    rw [Worker.Label.started, ← Multiset.cons_zero, Multiset.countP_cons, Multiset.countP_zero]
    by_cases hh : ev.evHandler = emitEventHandler <;> by_cases he : ev.evEmit = em <;>
      simp [Emitters.phaseAfter, Phase.owes, Phase.ev?, EdpEvent.ForEmit, hh, he]

namespace Emitters

variable {n : ℕ}

/-- The sum of a number for each worker and its place in the handler. -/
def total (f : Worker → Phase → ℕ) (s : Emitters n) : ℕ := ∑ i, f (s.workers i) (s.phases i)

/-- A step that changes worker `i` only, there and in the handler. -/
theorem total_update (f : Worker → Phase → ℕ) (s : Emitters n) (i : Fin n) (w : Worker) (p : Phase)
    (h : BlockHeap Emit) :
    total f ⟨Function.update s.workers i w, Function.update s.phases i p, h⟩ +
        f (s.workers i) (s.phases i) = s.total f + f w p := by
  have hsum := sum_swap (f := fun j => f (Function.update s.workers i w j)
    (Function.update s.phases i p j)) (g := fun j => f (s.workers j) (s.phases j))
    (i := i) fun j hj => by rw [Function.update_of_ne hj, Function.update_of_ne hj]
  simp only [Function.update_self] at hsum
  exact hsum

/-- A change of a worker that adds `c` to its part. -/
theorem total_add {f : Worker → Phase → ℕ} {s : Emitters n} {i : Fin n} {w : Worker} {c : ℕ}
    (hf : f w (s.phases i) = f (s.workers i) (s.phases i) + c) :
    total f { s with workers := Function.update s.workers i w } = s.total f + c := by
  have hl := total_update f s i w (s.phases i) s.emits
  rw [Function.update_eq_self, hf] at hl
  omega

/-- A change of where a worker is. -/
theorem total_setPhase (f : Worker → Phase → ℕ) (s : Emitters n) (i : Fin n) (p : Phase) :
    total f (s.setPhase i p) + f (s.workers i) (s.phases i) = s.total f + f (s.workers i) p := by
  have hl := total_update f s i (s.workers i) p s.emits
  rw [Function.update_eq_self] at hl
  exact hl

/-- The events of `em` that the workers hold or are handling. -/
def load (s : Emitters n) (em : ℕ) : ℕ := ∑ i, coreLoad em (s.workers i) (s.phases i)

theorem load_update (s : Emitters n) (i : Fin n) (w : Worker) (p : Phase) (h : BlockHeap Emit)
    (em : ℕ) :
    load ⟨Function.update s.workers i w, Function.update s.phases i p, h⟩ em +
        coreLoad em (s.workers i) (s.phases i) =
      s.load em + coreLoad em w p := total_update (coreLoad em) s i w p h

/-- The own steps of a worker keep the load. -/
theorem load_work {s t : Emitters n} {i : Fin n} (h : s.work i = some t) (em : ℕ) :
    t.load em = s.load em ∧ t.emits = s.emits := by
  obtain ⟨hout, w, l, hstep, rfl⟩ := work_cases h
  have hl := load_update s i w (phaseAfter l) s.emits em
  rw [hstep.coreLoad em, hout] at hl
  exact ⟨Nat.add_right_cancel hl, rfl⟩

/-- The locked section of `__edp_dispatch` adds its event. -/
theorem load_enqueue (s : Emitters n) (w : Fin n) (p : Priority) (ev : EdpEvent) (em : ℕ) :
    (s.enqueue w p ev).load em = s.load em + if ev.ForEmit em then 1 else 0 := by
  refine total_add ?_
  rw [coreLoad, coreLoad, Worker.held_enqueue, Multiset.singleton_add, Multiset.countP_cons]
  omega

/-- The load depends on the workers and their places only. -/
theorem load_congr {s t : Emitters n} (hw : t.workers = s.workers) (hp : t.phases = s.phases)
    (em : ℕ) : t.load em = s.load em := by
  rw [load, load, hw, hp]

theorem load_of_held {s : Emitters n} {i : Fin n} {w : Worker} (hw : w.held = (s.workers i).held)
    (em : ℕ) : load { s with workers := Function.update s.workers i w } em = s.load em :=
  total_add (f := coreLoad em) (c := 0) (by rw [coreLoad, coreLoad, hw, Nat.add_zero])

theorem load_signal (s : Emitters n) (w : Fin n) (em : ℕ) : (s.signal w).load em = s.load em :=
  load_of_held (Worker.held_signal _) em

/-- What a step in `emit_event_handler` does to the load, by the places it leads from
and to. -/
theorem load_setPhase (s : Emitters n) (i : Fin n) (p : Phase) (em : ℕ) :
    (s.setPhase i p).load em + (s.phases i).owes em = s.load em + p.owes em := by
  have hl := total_setPhase (coreLoad em) s i p
  rw [coreLoad, coreLoad] at hl
  show (s.setPhase i p).total (coreLoad em) + _ = s.total (coreLoad em) + _
  omega

/-- An emitter without a load runs no handler. -/
theorem owes_eq_zero {s : Emitters n} {em : ℕ} (h : s.load em = 0) (i : Fin n) :
    (s.phases i).owes em = 0 := by
  have := Finset.sum_eq_zero_iff.1 h i (Finset.mem_univ i)
  rw [coreLoad] at this
  omega

/-- An emitter without a load has no event queued. -/
theorem not_forEmit_of_load {s : Emitters n} {em : ℕ} (h : s.load em = 0) (i : Fin n) :
    ∀ ev ∈ (s.workers i).held, ¬ ev.ForEmit em := by
  have := Finset.sum_eq_zero_iff.1 h i (Finset.mem_univ i)
  rw [coreLoad] at this
  exact Multiset.countP_eq_zero.1 (by omega)

/-- The steps in `emit_event_handler` add nothing to a load. -/
theorem load_handle {s t : Emitters n} {i : Fin n} {ret : ℤ} (h : s.handle i ret = some t)
    (em : ℕ) : t.load em ≤ s.load em := by
  have hle : ∀ p : Phase, p.owes em ≤ (s.phases i).owes em →
      (s.setPhase i p).load em ≤ s.load em := by
    intro p hp
    have := load_setPhase s i p em
    omega
  cases handle_cases h with
  | refuse ev errcode hph e he hi => exact hle (.completing ev errcode) (Nat.zero_le _)
  | call ev hph e he hi => exact hle (.inside ev) (by rw [hph]; exact le_rfl)
  | returned ev hph => exact hle (.ended ev ret) (by rw [hph]; exact le_rfl)
  | decrement ev errcode hph => exact hle (.completing ev errcode) (Nat.zero_le _)
  | complete ev errcode hph => exact hle .out (Nat.zero_le _)

/-! ### The emitters of the events in flight -/

/-- `emit_event_handler` will find a handler for the event. -/
def Known (s : Emitters n) (ev : EdpEvent) : Prop :=
  ∃ e, s.emits.get? ev.evEmit = some e ∧ e.Installed ev.evType

/-- It will for every event that the workers hold for it or have called it with. -/
structure Served (s : Emitters n) : Prop where
  held : ∀ i, ∀ ev ∈ (s.workers i).held, ev.evHandler = emitEventHandler → s.Known ev
  phases : ∀ i ev, (s.phases i).ev? = some ev → s.Known ev

/-- No emitter loses a handler. -/
def Keeps (s t : Emitters n) : Prop :=
  ∀ em e, s.emits.get? em = some e → ∃ e', t.emits.get? em = some e' ∧ e'.eeHandler = e.eeHandler

theorem Known.mono {s t : Emitters n} (h : Keeps s t) {ev : EdpEvent} (hev : s.Known ev) :
    t.Known ev := by
  obtain ⟨e, he, h0, hlt, hne⟩ := hev
  obtain ⟨e', he', hh⟩ := h _ e he
  exact ⟨e', he', h0, hlt, by rwa [hh]⟩

theorem Served.work {s t : Emitters n} {i : Fin n} (hs : s.Served) (h : s.work i = some t) :
    t.Served := by
  obtain ⟨-, w, l, hstep, rfl⟩ := work_cases h
  refine ⟨fun j ev hev hh => ?_, fun j ev hev => ?_⟩
  · by_cases hj : j = i
    · subst hj
      exact hs.held j ev (hstep.held_subset (by simpa using hev)) hh
    · exact hs.held j ev (by simpa [hj] using hev) hh
  · by_cases hj : j = i
    · subst hj
      simp only [Function.update_self] at hev
      rcases phaseAfter_cases l with hp | ⟨ev', rfl, hh, hp⟩
      · rw [hp] at hev
        cases hev
      · rw [hp] at hev
        obtain rfl : ev' = ev := Option.some.inj hev
        exact hs.held j ev' hstep.mem_held hh
    · exact hs.phases j ev (by simpa [hj] using hev)

theorem Served.mono {s t : Emitters n} (hs : s.Served) (hk : Keeps s t)
    (hw : t.workers = s.workers) (hp : t.phases = s.phases) : t.Served :=
  ⟨fun i ev hev hh => (hs.held i ev (by rwa [← hw]) hh).mono hk,
    fun i ev hev => (hs.phases i ev (by rwa [← hp])).mono hk⟩

theorem Served.enqueue {s : Emitters n} (hs : s.Served) {ev : EdpEvent}
    (hev : ev.evHandler = emitEventHandler → s.Known ev) (w : Fin n) (p : Priority) :
    (s.enqueue w p ev).Served := by
  refine ⟨fun j e he hh => ?_, hs.phases⟩
  by_cases hj : j = w
  · subst hj
    have he : e ∈ ((s.workers j).enqueue p ev).held := by simpa [Emitters.enqueue] using he
    rw [Worker.held_enqueue, Multiset.singleton_add, Multiset.mem_cons] at he
    rcases he with rfl | he
    · exact hev hh
    · exact hs.held j e he hh
  · exact hs.held j e (by simpa [Emitters.enqueue, hj] using he) hh

theorem Served.signal {s : Emitters n} (hs : s.Served) (w : Fin n) : (s.signal w).Served := by
  refine ⟨fun j e he hh => hs.held j e ?_ hh, hs.phases⟩
  by_cases hj : j = w
  · subst hj
    simpa [Emitters.signal] using he
  · simpa [Emitters.signal, hj] using he

theorem Served.setPhase {s : Emitters n} (hs : s.Served) {i : Fin n} {p : Phase}
    (hp : ∀ ev, p.ev? = some ev → s.Known ev) : (s.setPhase i p).Served := by
  refine ⟨hs.held, fun j ev hev => ?_⟩
  by_cases hj : j = i
  · subst hj
    exact hp ev (by simpa [Emitters.setPhase] using hev)
  · exact hs.phases j ev (by simpa [Emitters.setPhase, hj] using hev)

/-! ### The account -/

/-- The pending count of each emitter is its load and the calls `k` that have raised
it and not queued their event. -/
def Balanced (s : Emitters n) (k : ℕ → ℕ) : Prop :=
  ∀ em e, s.emits.get? em = some e → e.eePendings = s.load em + k em

/-- A core that owes each emitter as much in its new phase keeps the account. -/
theorem Balanced.setPhase {s : Emitters n} {k : ℕ → ℕ} (hb : s.Balanced k) {i : Fin n} {p : Phase}
    (hp : ∀ em, p.owes em = (s.phases i).owes em) : (s.setPhase i p).Balanced k := by
  intro em e he
  have hl := load_setPhase s i p em
  rw [hp] at hl
  rw [Nat.add_right_cancel hl]
  exact hb em e he

/-- The account after `atomic_dec(&ee->ee_pendings)` for the event that ended. -/
theorem Balanced.complete {s : Emitters n} {k : ℕ → ℕ} (hb : s.Balanced k) {i : Fin n}
    {ev : EdpEvent} {errcode : ℤ} (hph : s.phases i = .ended ev errcode) :
    Balanced { s.setPhase i (.completing ev errcode) with
      emits := s.emits.modify ev.evEmit Emit.decPendings } k := by
  intro em e₁ he₁
  have hl : load _ em + _ = _ := load_setPhase s i (.completing ev errcode) em
  rw [hph] at hl
  obtain ⟨e, he, hor⟩ := BlockHeap.get?_modify_eq_some he₁
  have hbe := hb em e he
  show e₁.eePendings = ((s.setPhase i (.completing ev errcode)).load em : ℕ) + k em
  have ho' : (Phase.completing ev errcode).owes em = 0 := rfl
  rcases hor with ⟨rfl, rfl⟩ | ⟨hne, rfl⟩
  · have ho : (Phase.ended ev errcode).owes ev.evEmit = 1 := by simp [Phase.owes, Phase.ev?]
    have hd : e.decPendings.eePendings = e.eePendings - 1 := rfl
    omega
  · have ho : (Phase.ended ev errcode).owes em = 0 := by
      simp [Phase.owes, Phase.ev?, Ne.symm hne]
    omega

/-- The handler's step changes no emitter but the count of one. -/
theorem keeps_modify (s : Emitters n) (em : ℕ) (f : Emit → Emit)
    (hf : ∀ e, (f e).eeHandler = e.eeHandler) (w : Fin n → Worker) (p : Fin n → Phase) :
    Keeps s ⟨w, p, s.emits.modify em f⟩ := by
  intro em' e he
  by_cases h : em' = em
  · subst h
    exact ⟨f e, by simp [he], hf e⟩
  · exact ⟨e, by simpa [BlockHeap.get?_modify_of_ne _ _ h] using he, rfl⟩

theorem Served.handle {s t : Emitters n} {i : Fin n} {ret : ℤ} (hs : s.Served)
    (h : s.handle i ret = some t) : t.Served := by
  cases handle_cases h with
  | refuse ev errcode hph e he hi => exact hs.setPhase fun _ hev => by cases hev
  | call ev hph e he hi =>
    exact hs.setPhase fun ev' hev' => hs.phases i ev' (by rw [hph]; exact hev')
  | returned ev hph =>
    exact hs.setPhase fun ev' hev' => hs.phases i ev' (by rw [hph]; exact hev')
  | decrement ev errcode hph =>
    refine Served.mono (s := s.setPhase i (.completing ev errcode))
      (hs.setPhase fun ev' hev' => by cases hev') ?_ rfl rfl
    exact keeps_modify (s.setPhase i (.completing ev errcode)) ev.evEmit Emit.decPendings
      (fun _ => rfl) _ _
  | complete ev errcode hph => exact hs.setPhase fun _ hev => by cases hev

/-- **One step in `emit_event_handler`.**  The load and the count go down together,
except where the event has no handler: then the count stays, for nothing. -/
theorem Balanced.handle {s t : Emitters n} {k : ℕ → ℕ} {i : Fin n} {ret : ℤ} (hb : s.Balanced k)
    (h : s.handle i ret = some t) :
    ∃ k', t.Balanced k' ∧ (∀ em, k em ≤ k' em) ∧
      ((∀ ev, s.phases i = .entered ev → s.Known ev) → k' = k) := by
  cases handle_cases h with
  | refuse ev errcode hph e he hi =>
    refine ⟨fun em => k em + (s.phases i).owes em, fun em e' he' => ?_,
      fun em => Nat.le_add_right _ _, fun hk => ?_⟩
    · have hl := load_setPhase s i (.completing ev errcode) em
      have hbe := hb em e' he'
      have ho : (Phase.completing ev errcode).owes em = 0 := rfl
      push_cast
      omega
    · obtain ⟨e', he', hi'⟩ := hk ev hph
      obtain rfl : e = e' := Option.some.inj (he.symm.trans he')
      exact absurd hi' hi
  | call ev hph e he hi =>
    exact ⟨k, hb.setPhase fun em => by rw [hph]; rfl, fun _ => le_rfl, fun _ => rfl⟩
  | returned ev hph =>
    exact ⟨k, hb.setPhase fun em => by rw [hph]; rfl, fun _ => le_rfl, fun _ => rfl⟩
  | decrement ev errcode hph => exact ⟨k, hb.complete hph, fun _ => le_rfl, fun _ => rfl⟩
  | complete ev errcode hph =>
    exact ⟨k, hb.setPhase fun em => by rw [hph]; rfl, fun _ => le_rfl, fun _ => rfl⟩

/-- With a handler for every event in flight the load and the count go down together. -/
theorem handle_balanced {s t : Emitters n} {k : ℕ → ℕ} {i : Fin n} {ret : ℤ} (hs : s.Served)
    (hb : s.Balanced k) (h : s.handle i ret = some t) : t.Served ∧ t.Balanced k := by
  obtain ⟨k', hb', -, hk⟩ := hb.handle h
  rw [hk fun ev hph => hs.phases i ev (by rw [hph]; rfl)] at hb'
  exact ⟨hs.handle h, hb'⟩

/-- An address that holds no emitter yet has no load. -/
theorem Served.load_eq_zero {s : Emitters n} (hs : s.Served) {em : ℕ}
    (h : s.emits.get? em = none) : s.load em = 0 := by
  have hknown : ∀ ev, s.Known ev → ev.evEmit ≠ em := by
    rintro ev ⟨e, he, -⟩ rfl
    rw [h] at he
    cases he
  refine Finset.sum_eq_zero fun i _ => ?_
  have hheld : (s.workers i).held.countP (EdpEvent.ForEmit em) = 0 :=
    Multiset.countP_eq_zero.2 fun ev hev hfor => hknown ev (hs.held i ev hev hfor.1) hfor.2
  have howes : (s.phases i).owes em = 0 := by
    rw [Phase.owes, if_neg]
    intro hany
    obtain ⟨ev, hev, heq⟩ := Option.any_eq_true _ _ |>.1 hany
    exact hknown ev (hs.phases i ev hev) (of_decide_eq_true heq)
  rw [coreLoad, hheld, howes, Nat.add_zero]

/-- Steps that change neither a count nor a load. -/
theorem Balanced.of_same {s t : Emitters n} {k k' : ℕ → ℕ} (hb : s.Balanced k)
    (hemits : ∀ em e', t.emits.get? em = some e' →
      ∃ e, s.emits.get? em = some e ∧ e'.eePendings = e.eePendings)
    (hload : ∀ em, t.load em = s.load em) (hk : ∀ em, k' em = k em) : t.Balanced k' := by
  intro em e' he'
  obtain ⟨e, he, hp⟩ := hemits em e' he'
  rw [hp, hb em e he, hload, hk]

/-- `atomic_inc(&ee->ee_pendings)` by a call that is to queue an event. -/
theorem Balanced.count {s : Emitters n} {k k' : ℕ → ℕ} {em : ℕ} (hb : s.Balanced k)
    (hk : ∀ x, k' x = k x + if x = em then 1 else 0) :
    Balanced { s with emits := s.emits.modify em Emit.incPendings } k' := by
  intro x e' he'
  obtain ⟨e, he, hor⟩ := BlockHeap.get?_modify_eq_some he'
  have hbe := hb x e he
  show e'.eePendings = (s.load x : ℕ) + k' x
  rcases hor with ⟨rfl, rfl⟩ | ⟨hne, rfl⟩
  · rw [hk, if_pos rfl]
    show e.eePendings + 1 = _
    omega
  · rw [hk, if_neg hne]
    exact hbe

/-- Its locked section of `__edp_dispatch`. -/
theorem Balanced.enqueue {s : Emitters n} {k k' : ℕ → ℕ} {em : ℕ} {ev : EdpEvent}
    (hb : s.Balanced k) (hev : ev.ForEmit em) (hk : ∀ x, k' x + (if x = em then 1 else 0) = k x)
    (w : Fin n) (p : Priority) : (s.enqueue w p ev).Balanced k' := by
  intro x e he
  have hbe := hb x e he
  rw [load_enqueue, hbe, ← hk x]
  by_cases hx : x = em
  · subst hx
    rw [if_pos rfl, if_pos hev]
    omega
  · rw [if_neg hx, if_neg fun h => hx (h.2.symm.trans hev.2)]
    omega

end Emitters
end EdpIo
