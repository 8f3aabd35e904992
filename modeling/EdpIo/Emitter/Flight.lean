/-
# Events on their way

An event is on its way from the locked section of `__edp_dispatch` to the call of
`edp_event_done`: a worker holds it in a queue or in its local list, or is in
`emit_event_handler` with it.  `flight q` is the number of such events that pass the
test `q`; it is raised by that section and lowered by that call alone, as long as every
event held goes to `emit_event_handler` (`flight_work`).
-/

import EdpIo.Emitter.Load

namespace EdpIo

/-- The event whose completion the handler still has to call. -/
def Phase.event? : Phase → Option EdpEvent
  | .out => none
  | .entered ev | .inside ev | .ended ev _ | .completing ev _ => some ev

/-- The event whose completion the handler calls next. -/
def Phase.completes? : Phase → Option EdpEvent
  | .completing ev _ => some ev
  | _ => none

/-- The events on their way that a worker holds or is handling and that pass the test. -/
def coreFlight (q : EdpEvent → Bool) (w : Worker) (p : Phase) : ℕ :=
  w.held.countP (fun ev => q ev) + p.event?.toList.countP q

namespace Emitters

variable {n : ℕ}

/-- The events on their way that pass the test. -/
def flight (s : Emitters n) (q : EdpEvent → Bool) : ℕ := s.total (coreFlight q)

/-- A worker holds the event or is handling it. -/
def Carries (s : Emitters n) (ev : EdpEvent) : Prop :=
  ∃ i, ev ∈ (s.workers i).held ∨ (s.phases i).event? = some ev

theorem flight_ne_zero {s : Emitters n} {q : EdpEvent → Bool} :
    s.flight q ≠ 0 ↔ ∃ ev, s.Carries ev ∧ q ev = true := by
  rw [flight, total, Ne, Finset.sum_eq_zero_iff]
  constructor
  · intro h
    push Not at h
    obtain ⟨i, -, hi⟩ := h
    by_cases hw : (s.workers i).held.countP (fun ev => q ev) = 0
    · have hp : (s.phases i).event?.toList.countP q ≠ 0 := fun hp =>
        hi (by rw [coreFlight, hw, hp, Nat.add_zero])
      obtain ⟨ev, hev, hq⟩ := List.countP_pos_iff.1 (Nat.pos_of_ne_zero hp)
      exact ⟨ev, ⟨i, .inr (Option.mem_toList.1 hev)⟩, hq⟩
    · obtain ⟨ev, hev, hq⟩ := Multiset.countP_pos.1 (Nat.pos_of_ne_zero hw)
      exact ⟨ev, ⟨i, .inl hev⟩, hq⟩
  · rintro ⟨ev, ⟨i, hi⟩, hq⟩ h0
    have h := h0 i (Finset.mem_univ i)
    rw [coreFlight, Nat.add_eq_zero_iff] at h
    rcases hi with hev | hev
    · exact absurd hq (Multiset.countP_eq_zero.1 h.1 ev hev)
    · exact absurd hq (by simpa using List.countP_eq_zero.1 h.2 ev (Option.mem_toList.2 hev))

/-- The own steps of a worker. -/
theorem carries_work {s t : Emitters n} {i : Fin n} (h : s.work i = some t) {ev : EdpEvent}
    (hev : t.Carries ev) : s.Carries ev := by
  obtain ⟨-, w, l, hstep, rfl⟩ := work_cases h
  obtain ⟨j, hj⟩ := hev
  by_cases hji : j = i
  · subst hji
    simp only [Function.update_self] at hj
    refine ⟨j, .inl ?_⟩
    rcases hj with hj | hj
    · exact hstep.held_subset hj
    · rcases phaseAfter_cases l with hp | ⟨ev', rfl, -, hp⟩
      · rw [hp] at hj
        cases hj
      · rw [hp] at hj
        obtain rfl : ev' = ev := Option.some.inj hj
        exact hstep.mem_held
  · exact ⟨j, by simpa [hji] using hj⟩

/-- A worker's own step takes nothing from the events on their way that pass a test which only
those pass that go to `emit_event_handler`. -/
theorem flight_work_of {s t : Emitters n} {i : Fin n} (h : s.work i = some t) {q : EdpEvent → Bool}
    (hheld : ∀ ev ∈ (s.workers i).held, q ev = true → ev.evHandler = emitEventHandler) :
    t.flight q = s.flight q := by
  obtain ⟨hout, w, l, hstep, rfl⟩ := work_cases h
  have hl := total_update (coreFlight q) s i w (phaseAfter l) s.emits
  have hc : coreFlight q w (phaseAfter l) = coreFlight q (s.workers i) .out := by
    rw [coreFlight, coreFlight, hstep.held, Multiset.countP_add, Nat.add_comm]
    refine congrArg (· + _) ?_
    cases l with
    | tau | finish ev => rfl
    | start ev =>
      have hone : (Worker.Label.start ev).started.countP (fun e => q e) =
          if q ev then 1 else 0 := by
        rw [Worker.Label.started, ← Multiset.cons_zero, Multiset.countP_cons, Multiset.countP_zero,
          Nat.zero_add]
      rw [hone]
      by_cases hq : q ev = true
      · rw [phaseAfter, if_pos (hheld ev hstep.mem_held hq)]
        exact List.countP_singleton
      · rcases phaseAfter_cases (.start ev) with hp | ⟨ev', hev, -, hp⟩
        · rw [hp, if_neg hq]
          rfl
        · obtain rfl := Worker.Label.start.inj hev
          rw [hp]
          exact List.countP_singleton
  rw [hc, hout] at hl
  exact Nat.add_right_cancel hl

theorem flight_work {s t : Emitters n} {i : Fin n} (h : s.work i = some t)
    (hheld : ∀ ev ∈ (s.workers i).held, ev.evHandler = emitEventHandler) (q : EdpEvent → Bool) :
    t.flight q = s.flight q :=
  flight_work_of h fun ev hev _ => hheld ev hev

/-- The locked section of `__edp_dispatch`. -/
theorem carries_enqueue {s : Emitters n} {w : Fin n} {p : Priority} {ev e : EdpEvent}
    (h : (s.enqueue w p e).Carries ev) : ev = e ∨ s.Carries ev := by
  obtain ⟨j, hj | hj⟩ := h
  · by_cases hjw : j = w
    · subst hjw
      have hj : ev ∈ ((s.workers j).enqueue p e).held := by simpa [enqueue] using hj
      rw [Worker.held_enqueue, Multiset.singleton_add, Multiset.mem_cons] at hj
      exact hj.imp_right fun hj => ⟨j, .inl hj⟩
    · exact .inr ⟨j, .inl (by simpa [enqueue, hjw] using hj)⟩
  · exact .inr ⟨j, .inr hj⟩

theorem flight_enqueue (s : Emitters n) (w : Fin n) (p : Priority) (ev : EdpEvent)
    (q : EdpEvent → Bool) :
    (s.enqueue w p ev).flight q = s.flight q + if q ev = true then 1 else 0 := by
  refine total_add ?_
  rw [coreFlight, coreFlight, Worker.held_enqueue, Multiset.singleton_add, Multiset.countP_cons]
  omega

/-- A worker that holds the same events as before. -/
theorem carries_of_held {s : Emitters n} {i : Fin n} {w : Worker}
    (hw : w.held = (s.workers i).held) {ev : EdpEvent}
    (h : Carries { s with workers := Function.update s.workers i w } ev) : s.Carries ev := by
  obtain ⟨j, hj⟩ := h
  exact ⟨j, hj.imp_left fun hj => Worker.held_update s.workers hw j ▸ hj⟩

/-- What is on its way depends on what the workers hold and on their places only. -/
theorem flight_congr {s t : Emitters n} (hw : ∀ j, (t.workers j).held = (s.workers j).held)
    (hp : t.phases = s.phases) (q : EdpEvent → Bool) : t.flight q = s.flight q := by
  rw [flight, flight, total, total, hp]
  exact Finset.sum_congr rfl fun j _ => by rw [coreFlight, coreFlight, hw]

theorem flight_of_held {s : Emitters n} {i : Fin n} {w : Worker}
    (hw : w.held = (s.workers i).held) (q : EdpEvent → Bool) :
    flight { s with workers := Function.update s.workers i w } q = s.flight q := by
  refine flight_congr ?_ ?_ q
  · exact Worker.held_update s.workers hw
  · rfl

/-- A step in `emit_event_handler` to another place in it, or out of it. -/
theorem carries_setPhase {s : Emitters n} {i : Fin n} {p : Phase}
    (hp : p.event? = (s.phases i).event? ∨ p.event? = none) {ev : EdpEvent}
    (h : (s.setPhase i p).Carries ev) : s.Carries ev := by
  obtain ⟨j, hj | hj⟩ := h
  · exact ⟨j, .inl hj⟩
  · by_cases hji : j = i
    · subst hji
      have hj : p.event? = some ev := by simpa [setPhase] using hj
      rcases hp with hp | hp
      · exact ⟨j, .inr (hp ▸ hj)⟩
      · rw [hp] at hj
        cases hj
    · exact ⟨j, .inr (by simpa [setPhase, hji] using hj)⟩

theorem flight_setPhase (s : Emitters n) (i : Fin n) (p : Phase) (q : EdpEvent → Bool) :
    (s.setPhase i p).flight q + (s.phases i).event?.toList.countP q =
      s.flight q + p.event?.toList.countP q := by
  have hl := total_setPhase (coreFlight q) s i p
  rw [coreFlight, coreFlight] at hl
  rw [flight, flight]
  omega

/-- **A step in `emit_event_handler`** takes an event from those on their way exactly when
it calls `edp_event_done`. -/
theorem flight_handle {s t : Emitters n} {i : Fin n} {ret : ℤ} (h : s.Handle i ret t)
    (q : EdpEvent → Bool) :
    t.flight q + (s.phases i).completes?.toList.countP q = s.flight q := by
  -- a step that keeps the event
  have hkeep : ∀ p : Phase, p.event? = (s.phases i).event? →
      (s.setPhase i p).flight q = s.flight q := by
    intro p hp
    have hl := flight_setPhase s i p q
    rw [hp] at hl
    exact Nat.add_right_cancel hl
  cases h with
  | refuse ev errcode hph e he hi =>
    rw [hkeep (.completing ev errcode) (by rw [hph]; rfl), hph]
    rfl
  | call ev hph e he hi =>
    rw [hkeep (.inside ev) (by rw [hph]; rfl), hph]
    rfl
  | returned ev hph =>
    rw [hkeep (.ended ev ret) (by rw [hph]; rfl), hph]
    rfl
  | decrement ev errcode hph =>
    rw [hph]
    exact hkeep (.completing ev errcode) (by rw [hph]; rfl)
  | complete ev errcode hph =>
    have hl := flight_setPhase s i .out q
    rw [hph] at hl
    rw [hph]
    exact hl

theorem carries_handle {s t : Emitters n} {i : Fin n} {ret : ℤ} (h : s.Handle i ret t)
    {ev : EdpEvent} (hev : t.Carries ev) : s.Carries ev := by
  cases h with
  | refuse ev errcode hph e he hi => exact carries_setPhase (.inl (by rw [hph]; rfl)) hev
  | call ev hph e he hi => exact carries_setPhase (.inl (by rw [hph]; rfl)) hev
  | returned ev hph => exact carries_setPhase (.inl (by rw [hph]; rfl)) hev
  | decrement ev errcode hph =>
    have hp : (Phase.completing ev errcode).event? = (s.phases i).event? := by rw [hph]; rfl
    exact carries_setPhase (s := s) (.inl hp) hev
  | complete ev errcode hph => exact carries_setPhase (.inr rfl) hev

end Emitters
end EdpIo
