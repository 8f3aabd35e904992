/-
# Whether the idle loop gives way

The `idle` loop reads `wk_norm_pending` after every handler and goes to the `norm`
section when it is not zero, so that at most one handler of an `IDLE` event starts
while a `NORM` event waits (`PromptAt .norm`).  But that section splices the `NORM`
events behind what is left in the local list, and the `norm` loop takes the `IDLE`
events it finds there first: all that were spliced with the first one go before the
`NORM` event (`norm_overtaken`).

The bound holds of the runs in which no loop but that of `idle` starts an `IDLE`
event while a `NORM` event waits (`norm_prompt`).  The `idle` loop itself cannot
start two: it only runs while the local list holds nothing but `IDLE` events
(`Worker.IdleOnly`), and so the `NORM` event is in its queue and counted.
-/

import EdpIo.Worker.Order
import EdpIo.Worker.Waiting

namespace EdpIo

/-- In the loop of `idle`. -/
def Pc.InIdle : Pc → Prop
  | .loop p | .running p _ | .check p _ => p = .idle
  | _ => False

namespace Worker

/-- What the local list holds of the events of class `idle`, and where: the `idle`
loop is entered with an empty list. -/
structure IdleOnly (w : Worker) : Prop where
  ranged : ∀ ev ∈ w.events, ev.class? ≠ none
  atSect : w.pc = .sect .idle → w.events = []
  inIdle : w.pc.InIdle → ∀ ev ∈ w.events, ev.class? = some .idle

theorem idleOnly_start : start.IdleOnly :=
  ⟨fun _ h => absurd h List.not_mem_nil, (fun h => by cases h), False.elim⟩

theorem inIdle_checkFrom {p : Priority} {q : Option Priority} :
    (checkFrom p q).InIdle ↔ p = .idle := by
  unfold checkFrom
  split
  · split <;> exact Iff.rfl
  · exact Iff.rfl

theorem checkFrom_ne_sect (p r : Priority) (q : Option Priority) : checkFrom p q ≠ .sect r := by
  unfold checkFrom
  split
  · split <;> exact fun h => by cases h
  · exact fun h => by cases h

theorem IdleOnly.signal {w : Worker} (hw : w.IdleOnly) : w.signal.IdleOnly := by
  unfold Worker.signal
  split <;> exact ⟨hw.ranged, hw.atSect, hw.inIdle⟩

theorem IdleOnly.step {w w' : Worker} {l : Label} (hw : w.IdleOnly) (hp : w.Placed)
    (hc : w.Classed) (h : w.Step l w') : w'.IdleOnly := by
  obtain ⟨hr, hsect, hidle⟩ := hw
  cases h with
  | splice p hpc =>
    refine ⟨fun ev hev => ?_, (fun h => by cases h), fun h ev hev => ?_⟩
    · rcases mem_splice_events.1 hev with h | h
      · rw [hc p ev h]
        exact Option.some_ne_none p
      · exact hr ev h
    · obtain rfl : p = .idle := h
      rcases mem_splice_events.1 hev with h | h
      · exact hc .idle ev h
      · rw [hsect hpc] at h
        cases h
  | leave p hpc hl =>
    refine ⟨hr, fun h => ?_, fun h => ?_⟩
    · -- only the `norm` loop leads to the section of `idle`, and it takes every event
      have h : afterLoop p = .sect .idle := h
      obtain rfl : p = .norm := by cases p <;> first | rfl | exact absurd h (by decide)
      rcases hl with hl | ⟨ev, rest, -, hb⟩
      · exact hl
      · cases hb
    · have h : (afterLoop p).InIdle := h
      cases p <;> exact False.elim h
  | start p ev rest hpc hev hb hh =>
    rw [hpc] at hidle
    have hrest : ∀ e ∈ rest, e ∈ w.events := fun e he => hev ▸ List.mem_cons_of_mem _ he
    exact ⟨fun e he => hr e (hrest e he), (fun h => by cases h),
      fun h e he => hidle h e (hrest e he)⟩
  | finish p ev hpc =>
    rw [hpc] at hidle
    exact ⟨hr, fun h => absurd h (checkFrom_ne_sect p .idle (some .crit)),
      fun h => hidle ((inIdle_checkFrom (q := some .crit)).1 h)⟩
  | yield p q hpc _ _ =>
    refine ⟨hr, fun h => ?_, False.elim⟩
    have hup := hp.checksUp
    rw [hpc] at hup
    obtain rfl : q = .idle := by simpa using h
    exact absurd hup (not_lt_of_ge (Priority.idle_le p))
  | resume p q hpc _ ratio =>
    rw [hpc] at hidle
    exact ⟨hr, fun h => absurd h (checkFrom_ne_sect p .idle q.below),
      fun h => hidle ((inIdle_checkFrom (q := q.below)).1 h)⟩
  | back q hpc _ =>
    have hev : w.events = [] := hp.events_eq_nil (by rw [hpc]; exact id)
    exact ⟨hr, fun _ => hev, False.elim⟩
  | stopped hpc _ | enter hpc _ | sleep hpc _ | pass hpc _ | wake hpc | down q q' hpc _ _
  | finished hpc _ => exact ⟨hr, (fun h => by cases h), False.elim⟩

/-- A `NORM` event waits. -/
def NormWaits (w : Worker) : Prop :=
  w.queue .norm ≠ [] ∨ ∃ ev ∈ w.events, ev.class? = some .norm

instance (w : Worker) : Decidable w.NormWaits := inferInstanceAs (Decidable (_ ∨ _))

/-- The loop that the worker is at the head of and the event whose handler it starts
next. -/
def nextStart? (w : Worker) : Option (Priority × EdpEvent) :=
  match w.pc, w.events with
  | .loop q, ev :: _ => if breaksAt q ev then none else some (q, ev)
  | _, _ => none

/-- The next step starts no `IDLE` event from a loop other than that of `idle` while a
`NORM` event waits. -/
def GivesWay (w : Worker) : Prop :=
  ∀ r ∈ w.nextStart?, r.1 = .idle ∨ r.2.class? ≠ some .idle ∨ ¬ w.NormWaits

instance (w : Worker) : Decidable w.GivesWay := inferInstanceAs (Decidable (∀ r ∈ w.nextStart?, _))

/-- A start keeps the wait of a `NORM` event: of the `IDLE` events only the `idle` loop
starts one, and it does not run once the `NORM` event is in the local list. -/
theorem Waiting.start_norm {w : Worker} {q : Priority} {c ev : EdpEvent} {rest : List EdpEvent}
    {k : ℕ} (hk : w.Waiting .norm c k) (hi : w.IdleOnly) (hg : w.GivesWay)
    (hcp : c.evPriority = 1) (hpc : w.pc = .loop q) (hev : w.events = ev :: rest)
    (hb : breaksAt q ev = false) (hne : c ≠ ev) :
    Waiting { w with events := rest, pc := .running q ev } .norm c
      (k + if ev.evPriority < Priority.norm.toNat then 1 else 0) := by
  have hnorm : c.class? = some .norm := EdpEvent.class?_eq_some.2 hcp
  have hlow : ev.evPriority < Priority.norm.toNat → ev.class? = some .idle := by
    intro hlt
    obtain ⟨p, hp⟩ := Option.ne_none_iff_exists'.1 (hi.ranged ev (by simp [hev]))
    have hpn := EdpEvent.class?_eq_some.1 hp
    have h0 : p.toNat = Priority.idle.toNat := by
      have h1 : Priority.norm.toNat = 1 := rfl
      have h2 : Priority.idle.toNat = 0 := rfl
      omega
    rw [hp, Priority.toNat_injective h0]
  have hgive : w.NormWaits → q ≠ .idle → ¬ ev.evPriority < Priority.norm.toNat := by
    intro hn hq hlt
    have hstart : (q, ev) ∈ w.nextStart? := by simp [nextStart?, hpc, hev, hb]
    rcases hg (q, ev) hstart with h | h | h
    · exact hq h
    · exact h (hlow hlt)
    · exact h hn
  obtain ⟨hk1, ⟨hcq, hs⟩ | hce⟩ := hk
  · have hn : w.NormWaits := .inl (List.ne_nil_of_mem hcq)
    rw [hpc] at hs
    by_cases hq : q = .idle
    · -- the section of `norm` is not next, so none has been started before
      subst hq
      have hk0 : k ≠ 1 := fun h1 => not_lt_of_ge (Priority.idle_le .norm) (hs h1)
      refine ⟨?_, .inl ⟨hcq, fun _ h => by cases h⟩⟩
      split <;> omega
    · rw [if_neg (hgive hn hq)]
      exact ⟨hk1, .inl ⟨hcq, fun h1 => (hs h1).ne'⟩⟩
  · have hn : w.NormWaits := .inr ⟨c, hce, hnorm⟩
    have hq : q ≠ .idle := by
      rintro rfl
      have h := hi.inIdle (by rw [hpc]; rfl) c hce
      rw [hnorm] at h
      cases h
    rw [if_neg (hgive hn hq)]
    refine ⟨hk1, .inr ?_⟩
    rw [hev] at hce
    exact (List.mem_cons.1 hce).resolve_left hne

end Worker

namespace WorkerSys

/-- The condition on the worker's own steps. -/
def GivesWay (s : WorkerSys) : Act → Prop
  | .work => s.worker.GivesWay
  | _ => True

instance (s : WorkerSys) : (a : Act) → Decidable (s.GivesWay a)
  | .work => inferInstanceAs (Decidable s.worker.GivesWay)
  | .dispatch _ | .signal _ | .stop => inferInstanceAs (Decidable True)

/-- The invariant of the runs in which the `idle` loop gives way. -/
structure Yielding (s : WorkerSys) : Prop where
  counted : s.worker.Counted
  placed : s.worker.Placed
  classed : s.worker.Classed
  idleOnly : s.worker.IdleOnly
  waits : s.WaitsAt .norm
  prompt : PromptAt .norm s.hist

theorem yielding_init : Yielding init :=
  ⟨Worker.counted_start, Worker.placed_start, Worker.classed_start, Worker.idleOnly_start,
    waitsAt_init .norm, promptAt_init .norm⟩

theorem Yielding.step {s t : WorkerSys} {a : Act} (hs : s.Yielding) (ha : s.GivesWay a)
    (h : WorkerSys.step s a = some t) : t.Yielding := by
  obtain ⟨hwait, hprompt⟩ := hs.waits.step hs.prompt h fun l w hact hw c k hcp hl hk => by
    subst hact
    exact hw.waiting_of_start hs.counted (by decide) hk hl fun q ev rest hpc hev hb hne =>
      hk.start_norm hs.idleOnly ha hcp hpc hev hb hne
  refine ⟨counted_step hs.counted h, placed_step hs.placed h, classed_step hs.classed h, ?_, hwait,
    hprompt⟩
  cases step_cases h with
  | work l w hw => exact hs.idleOnly.step hs.placed hs.classed hw
  | refused ev _ => exact hs.idleOnly
  | dispatch ev p _ => exact ⟨hs.idleOnly.ranged, hs.idleOnly.atSect, hs.idleOnly.inIdle⟩
  | signal ev _ => exact hs.idleOnly.signal
  | stop => exact ⟨hs.idleOnly.ranged, hs.idleOnly.atSect, hs.idleOnly.inIdle⟩

/-- **A `NORM` event is passed by one `IDLE` event at most, where the loops leave the
`IDLE` events alone.**  In every state of every run in which no loop but that of `idle`
starts an `IDLE` event while a `NORM` event waits, at most one handler of an event
below `NORM`, which is an `IDLE` event, has started between the queueing of a `NORM`
event and its start. -/
theorem norm_prompt {acts : List Act} {s : WorkerSys}
    (hg : StepSystem.Meets step GivesWay init acts)
    (hrun : StepSystem.run step init acts = some s) : PromptAt .norm s.hist :=
  have hs : s.Yielding :=
    StepSystem.run_invariant (fun _ _ _ hs ha h => hs.step ha h) yielding_init hg hrun
  hs.prompt

/-- An `IDLE` event and a `NORM` event queued while its handler runs, both handled: a
run that meets the hypotheses of `norm_prompt`. -/
theorem norm_prompt_two :
    ∃ acts s, StepSystem.run step init acts = some s ∧
      Fifo.items (Obs.startedOf .norm) s.hist = [⟨2, 1, 1, -1, 0, 0, 0, 1⟩] ∧
      PromptAt .norm s.hist :=
  have hrun := Eq.refl (StepSystem.run step init
    ([Act.dispatch ⟨1, 0, 0, -1, 0, 0, 0, 1⟩, .signal ⟨1, 0, 0, -1, 0, 0, 0, 1⟩] ++
      List.replicate 12 Act.work ++ [Act.dispatch ⟨2, 1, 1, -1, 0, 0, 0, 1⟩] ++
      List.replicate 7 Act.work))
  ⟨_, _, hrun, by decide, norm_prompt (by decide) hrun⟩

/-- **A `NORM` event waits for all `IDLE` events at hand.**  Three `IDLE` events are
spliced, and while the first is being handled a `NORM` event is queued: the `idle`
loop goes to the `norm` section at once, and the `norm` loop takes the two others
first.  The types of all events are the numbers of their classes. -/
theorem norm_overtaken :
    ¬ ∀ acts s, StepSystem.Meets step OwnType init acts →
      StepSystem.run step init acts = some s → PromptAt .norm s.hist := by
  intro h
  let i : ℕ → EdpEvent := fun a => ⟨a, 0, 0, -1, 0, 0, 0, 1⟩
  let c : EdpEvent := ⟨4, 1, 1, -1, 0, 0, 0, 1⟩
  let l₂ : List Obs := [.started (i 3), .finished (i 2), .started (i 2), .finished (i 1)]
  let l₁ : List Obs :=
    [.started (i 1), .returned (i 1), .queued (i 3), .queued (i 2), .queued (i 1)]
  let acts : List Act := [Act.dispatch (i 1), .dispatch (i 2), .dispatch (i 3), .signal (i 1)] ++
    List.replicate 12 Act.work ++ [Act.dispatch c] ++ List.replicate 12 Act.work
  have hrun : (StepSystem.run step init acts).map hist = some (l₂ ++ .queued c :: l₁) := by decide
  obtain ⟨s, hs, hh⟩ := Option.map_eq_some_iff.1 hrun
  have hle : lowerStarts .norm l₂ ≤ 1 := h acts s (by decide) hs c [] l₂ l₁ rfl hh (by decide)
  exact absurd hle (by decide)

end WorkerSys
end EdpIo
