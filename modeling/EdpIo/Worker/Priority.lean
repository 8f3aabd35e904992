/-
# Urgent events

How long a `CRIT` or `EMRG` event waits once it is queued.  The design is that the
loops of the lower classes read the counters of the higher ones after every
handler, so that at most one lower handler starts before an urgent event's own
(`Prompt`).  The loops of `crit` and `emrg`, which read fewer counters, are meant
to take the events of their class only, but what they compare with the class's
number is `ev_type`, which has nothing to do with `ev_priority`: a `CRIT` event of
another type is left in the local list and `EMRG` events are spliced in front of
it (`crit_overtaken`).

`Prompt` does hold of every run in which the type of each dispatched event is the
number of `CRIT` or `EMRG` exactly when its priority is (`urgent_prompt`).  Then
the local list keeps the urgent events in front (`Ordered`), and a queued event
that has been passed once is spliced before another lower one starts
(`Worker.Waiting`).
-/

import EdpIo.Worker.Waiting

namespace EdpIo

/-- The type of an event says that it is `CRIT` or `EMRG` exactly when its
priority does. -/
def EdpEvent.UrgentTyped (ev : EdpEvent) : Prop :=
  (ev.evType = 4 ↔ ev.evPriority = 4) ∧ (ev.evType = 3 ↔ ev.evPriority = 3)

instance (ev : EdpEvent) : Decidable ev.UrgentTyped := inferInstanceAs (Decidable (_ ∧ _))

/-- From the moment an event of class `p`, `CRIT` or `EMRG`, is queued until its
handler starts, at most one handler of a lower event starts: `l₂` is any stretch
of the history after the queueing that has no start of the event. -/
def Prompt (hist : List Obs) : Prop :=
  ∀ p : Priority, .emrg ≤ p → ∀ (c : EdpEvent) (l₃ l₂ l₁ : List Obs), c.evPriority = p.toNat →
    hist = l₃ ++ (l₂ ++ .queued c :: l₁) → .started c ∉ l₂ → lowerStarts p l₂ ≤ 1

/-- Where the local list may hold events of the urgent class numbered `n`. -/
def Pc.Draining (n : ℤ) : Pc → Prop
  | .sect q | .loop q | .running q _ | .check q _ => n ≤ q.toNat
  | _ => False

namespace Worker

theorem breaksAt_eq_true {p : Priority} {ev : EdpEvent} :
    breaksAt p ev = true ↔ 2 ≤ p.toNat ∧ ev.evType ≠ p.toNat := by
  have hp : splicesFront p = true ↔ 2 ≤ p.toNat := by cases p <;> decide
  rw [breaksAt, Bool.and_eq_true, decide_eq_true_eq, hp]

theorem breaksAt_eq_false {p : Priority} {ev : EdpEvent} :
    breaksAt p ev = false ↔ (2 ≤ p.toNat → ev.evType = p.toNat) := by
  rw [← Bool.not_eq_true, breaksAt_eq_true, not_and, not_not]

theorem draining_checkFrom {n : ℤ} {p : Priority} (q : Option Priority) (h : n ≤ p.toNat) :
    (checkFrom p q).Draining n := by
  unfold checkFrom
  split
  · split <;> exact h
  · exact h

/-- The queues hold events of their class, the local list holds no urgent event
behind one of a lower priority, and urgent events only while the worker is at
their class or above. -/
structure Ordered (w : Worker) : Prop where
  queued : ∀ p, ∀ ev ∈ w.queue p, ev.evPriority = p.toNat ∧ ev.UrgentTyped
  typed : ∀ ev ∈ w.events, ev.UrgentTyped
  sorted : w.events.Pairwise fun a b => 3 ≤ b.evPriority → b.evPriority ≤ a.evPriority
  draining : ∀ ev ∈ w.events, 3 ≤ ev.evPriority → w.pc.Draining ev.evPriority

theorem ordered_start : start.Ordered :=
  ⟨fun _ _ h => absurd h List.not_mem_nil, fun _ h => absurd h List.not_mem_nil, .nil,
    fun _ h => absurd h List.not_mem_nil⟩

theorem Ordered.signal {w : Worker} (hw : w.Ordered) : w.signal.Ordered := by
  unfold Worker.signal
  split <;> exact ⟨hw.queued, hw.typed, hw.sorted, hw.draining⟩

theorem Ordered.enqueue {w : Worker} (hw : w.Ordered) {p : Priority} {ev : EdpEvent}
    (hp : ev.evPriority = p.toNat) (ht : ev.UrgentTyped) : (w.enqueue p ev).Ordered := by
  refine ⟨fun q e he => ?_, hw.typed, hw.sorted, hw.draining⟩
  by_cases hq : q = p
  · subst hq
    have he : e ∈ w.queue q ∨ e = ev := by simpa [Worker.enqueue] using he
    rcases he with he | rfl
    · exact hw.queued q e he
    · exact ⟨hp, ht⟩
  · exact hw.queued q e (by simpa [Worker.enqueue, hq] using he)

/-- Splicing the queue of the class the worker is at keeps the order: what the
local list still holds is not above that class. -/
theorem Ordered.splice {w : Worker} (hw : w.Ordered) {p : Priority} (hpc : w.pc = .sect p) :
    (w.splice p).Ordered := by
  have hle : ∀ ev ∈ w.events, 3 ≤ ev.evPriority → ev.evPriority ≤ p.toNat := by
    intro ev hev h3
    have h := hw.draining ev hev h3
    rwa [hpc] at h
  have hq : ∀ ev ∈ w.queue p, ev.evPriority = p.toNat := fun ev hev => (hw.queued p ev hev).1
  refine ⟨fun q ev hev => ?_, fun ev hev => ?_, ?_, fun ev hev h3 => ?_⟩
  · by_cases h : q = p
    · subst h
      simp [Worker.splice] at hev
    · exact hw.queued q ev (by simpa [Worker.splice, h] using hev)
  · rcases mem_splice_events.1 hev with h | h
    · exact (hw.queued p ev h).2
    · exact hw.typed ev h
  · have hself : (w.queue p).Pairwise fun a b =>
        3 ≤ b.evPriority → b.evPriority ≤ a.evPriority := by
      refine List.pairwise_of_forall_mem_list fun a ha b hb _ => ?_
      rw [hq a ha, hq b hb]
    unfold Worker.splice
    dsimp only
    split
    · refine List.pairwise_append.2 ⟨hself, hw.sorted, fun a ha b hb h3 => ?_⟩
      rw [hq a ha]
      exact hle b hb h3
    · rename_i hf
      -- the classes spliced behind are below the urgent ones
      have hp : p.toNat ≤ 1 := by cases p <;> simp_all [splicesFront, Priority.toNat]
      refine List.pairwise_append.2 ⟨hw.sorted, hself, fun a ha b hb h3 => ?_⟩
      have := hq b hb
      omega
  · rcases mem_splice_events.1 hev with h | h
    · exact le_of_eq (hq ev h)
    · exact hle ev h h3

/-- An urgent event does not stay in the local list when the loop of its class is
left. -/
theorem Ordered.below_of_leave {w : Worker} (hw : w.Ordered) {p : Priority} (hpc : w.pc = .loop p)
    (h : w.events = [] ∨ ∃ ev rest, w.events = ev :: rest ∧ breaksAt p ev = true) {ev : EdpEvent}
    (hev : ev ∈ w.events) (h3 : 3 ≤ ev.evPriority) : ev.evPriority < p.toNat := by
  have hle : ∀ e ∈ w.events, 3 ≤ e.evPriority → e.evPriority ≤ p.toNat := by
    intro e he h3
    have h := hw.draining e he h3
    rwa [hpc] at h
  rcases h with h | ⟨e, rest, h, hb⟩
  · rw [h] at hev
    cases hev
  · have hhead : ev.evPriority ≤ e.evPriority := by
      have hs := hw.sorted
      rw [h] at hs hev
      rcases List.mem_cons.1 hev with rfl | hev
      · exact le_refl _
      · exact (List.pairwise_cons.1 hs).1 ev hev h3
    obtain ⟨h4, h3'⟩ := hw.typed e (by simp [h])
    have he := hle e (by simp [h]) (by omega)
    obtain ⟨-, hb⟩ := breaksAt_eq_true.1 hb
    have h4' := p.toNat_le
    omega

theorem Ordered.step {w w' : Worker} {l : Label} (hw : w.Ordered) (hp : w.Placed)
    (h : w.Step l w') : w'.Ordered := by
  have hd : ∀ ev ∈ w.events, 3 ≤ ev.evPriority → w.pc.Draining ev.evPriority := hw.draining
  cases h with
  | splice p hpc => exact hw.splice hpc
  | leave p hpc hl =>
    refine ⟨hw.queued, hw.typed, hw.sorted, fun ev hev h3 => ?_⟩
    have hlt := hw.below_of_leave hpc hl hev h3
    show (afterLoop p).Draining _
    unfold afterLoop
    split
    · rename_i q hq
      have := Priority.toNat_of_below hq
      show ev.evPriority ≤ q.toNat
      omega
    · rename_i hq
      cases p <;> simp [Priority.below, Priority.toNat] at hq hlt
      omega
  | start p ev rest hpc hev hb hh =>
    rw [hpc] at hd
    refine ⟨hw.queued, fun e he => hw.typed e ?_, ?_, fun e he => hd e ?_⟩
    · rw [hev]
      exact List.mem_cons_of_mem _ he
    · have hs := hw.sorted
      rw [hev] at hs
      exact hs.of_cons
    · rw [hev]
      exact List.mem_cons_of_mem _ he
  | finish p ev hpc =>
    rw [hpc] at hd
    exact ⟨hw.queued, hw.typed, hw.sorted,
      fun e he h3 => draining_checkFrom (some .crit) (hd e he h3)⟩
  | yield p q hpc _ _ =>
    have hup := hp.checksUp
    rw [hpc] at hd hup
    refine ⟨hw.queued, hw.typed, hw.sorted, fun e he h3 => ?_⟩
    have hlt : p.toNat < q.toNat := hup
    have hle : e.evPriority ≤ p.toNat := hd e he h3
    show e.evPriority ≤ q.toNat
    omega
  | resume p q hpc _ ratio =>
    rw [hpc] at hd
    exact ⟨hw.queued, hw.typed, hw.sorted,
      fun e he h3 => draining_checkFrom q.below (hd e he h3)⟩
  | stopped hpc _ | enter hpc _ | sleep hpc _ | pass hpc _ | wake hpc | back q hpc _
  | down q q' hpc _ _ | finished hpc _ =>
    rw [hpc] at hd
    exact ⟨hw.queued, hw.typed, hw.sorted, fun e he h3 => (hd e he h3).elim⟩

/-- A loop only takes events of the urgent class `p` if it is that of `p`, and that
of `p` takes no others. -/
theorem loop_urgent {q : Priority} {ev : EdpEvent} (ht : ev.UrgentTyped)
    (hb : breaksAt q ev = false) (hq : .emrg ≤ q) : ev.evPriority = q.toNat := by
  obtain ⟨h4, h3⟩ := ht
  have hb := breaksAt_eq_false.1 hb
  cases q <;> simp_all [Priority.toNat] <;> exact absurd hq (by decide)

/-- A loop only takes lower events if it is that of a lower class. -/
theorem lt_of_loop {p q : Priority} {ev : EdpEvent} (hp : .emrg ≤ p) (ht : ev.UrgentTyped)
    (hb : breaksAt q ev = false) (hlow : ev.evPriority < p.toNat) : q < p := by
  refine not_le.1 fun hpq => ?_
  have hev := loop_urgent ht hb (le_trans hp hpq)
  have hle : p.toNat ≤ q.toNat := hpq
  omega

/-- The start of a handler in the loop of `q` keeps the wait: a lower one starts only
while the section of `p` is not next, and none does once the event is in the local
list. -/
theorem Waiting.start {w : Worker} {p q : Priority} {c ev : EdpEvent} {rest : List EdpEvent}
    {k : ℕ} (hk : w.Waiting p c k) (hw : w.Ordered) (hp : .emrg ≤ p)
    (hcp : c.evPriority = p.toNat) (hpc : w.pc = .loop q) (hev : w.events = ev :: rest)
    (hb : breaksAt q ev = false) (hne : c ≠ ev) :
    Waiting { w with events := rest, pc := .running q ev } p c
      (k + if ev.evPriority < p.toNat then 1 else 0) := by
  have ht : ev.UrgentTyped := hw.typed ev (by simp [hev])
  obtain ⟨hk1, ⟨hcq, hs⟩ | hce⟩ := hk
  · -- a second lower start would be that of a class above `p`
    have hs : k = 1 → p < q := fun h1 => by
      have h := hs h1
      rwa [hpc] at h
    have hlow : ev.evPriority < p.toNat → q < p := lt_of_loop hp ht hb
    split
    · rename_i hlt
      have hk0 : k ≠ 1 := fun h1 => absurd (hs h1) (lt_asymm (hlow hlt))
      exact ⟨by omega, .inl ⟨hcq, fun _ => (hlow hlt).ne⟩⟩
    · exact ⟨hk1, .inl ⟨hcq, fun h1 => (hs h1).ne'⟩⟩
  · -- an event in the local list is passed by none
    have hd : w.pc.Draining c.evPriority := hw.draining c hce (by
      have hp : 3 ≤ p.toNat := hp
      omega)
    rw [hpc] at hd
    have hpq : p.toNat ≤ q.toNat := by
      have hd : c.evPriority ≤ q.toNat := hd
      omega
    have hlow : ¬ ev.evPriority < p.toNat := fun hlt => not_lt.2 hpq (lt_of_loop hp ht hb hlt)
    have hcr : c ∈ rest := by
      rw [hev] at hce
      exact (List.mem_cons.1 hce).resolve_left hne
    rw [if_neg hlow]
    exact ⟨hk1, .inr hcr⟩

/-- **One step.**  A waiting urgent event goes on waiting as `Waiting` says through
every step of the worker but the start of its own handler. -/
theorem Step.waiting {w w' : Worker} {l : Label} (hw : w.Ordered) (hc : w.Counted) (h : w.Step l w')
    {p : Priority} (hp : .emrg ≤ p) {c : EdpEvent} (hcp : c.evPriority = p.toNat) {k : ℕ}
    (hk : w.Waiting p c k) (hl : l ≠ .start c) : w'.Waiting p c (k + lowerStarts p l.obs) := by
  refine h.waiting_of_start hc ?_ hk hl fun q ev rest hpc hev hb hne =>
    hk.start hw hp hcp hpc hev hb hne
  rintro rfl
  exact absurd hp (by decide)

end Worker

namespace WorkerSys

/-- The condition on the dispatches of events in range. -/
def Typed (_ : WorkerSys) : Act → Prop
  | .dispatch ev => ev.class? ≠ none → ev.UrgentTyped
  | _ => True

instance (s : WorkerSys) : (a : Act) → Decidable (s.Typed a)
  | .dispatch _ => inferInstanceAs (Decidable (_ → _))
  | .work => inferInstanceAs (Decidable True)
  | .signal _ => inferInstanceAs (Decidable True)
  | .stop => inferInstanceAs (Decidable True)

/-- Every urgent event that was queued and has not started since waits. -/
def Waits (s : WorkerSys) : Prop :=
  ∀ p : Priority, .emrg ≤ p → ∀ (c : EdpEvent) (l₂ l₁ : List Obs), c.evPriority = p.toNat →
    s.hist = l₂ ++ .queued c :: l₁ → .started c ∉ l₂ → s.worker.Waiting p c (lowerStarts p l₂)

/-- The invariant of the runs whose dispatches are typed. -/
structure Attentive (s : WorkerSys) : Prop where
  counted : s.worker.Counted
  placed : s.worker.Placed
  ordered : s.worker.Ordered
  waits : s.Waits
  prompt : Prompt s.hist

theorem attentive_init : Attentive init :=
  ⟨Worker.counted_start, Worker.placed_start, Worker.ordered_start,
    fun p _ => waitsAt_init p, fun p _ => promptAt_init p⟩

theorem Attentive.step {s t : WorkerSys} {a : Act} (hs : s.Attentive) (ha : s.Typed a)
    (h : WorkerSys.step s a = some t) : t.Attentive := by
  have hc := counted_step hs.counted h
  have hwait : ∀ p : Priority, .emrg ≤ p → t.WaitsAt p ∧ PromptAt p t.hist := fun p hp =>
    WaitsAt.step (hs.waits p hp) (hs.prompt p hp) h fun l w _ hw c k hcp hl hk =>
      hw.waiting hs.ordered hs.counted hp hcp hk hl
  refine ⟨hc, placed_step hs.placed h, ?_, fun p hp => (hwait p hp).1, fun p hp => (hwait p hp).2⟩
  cases step_cases h with
  | work l w hw => exact hs.ordered.step hs.placed hw
  | refused ev _ => exact hs.ordered
  | dispatch ev p hp =>
    have htyped : ev.UrgentTyped := ha (by rw [hp]; exact Option.some_ne_none p)
    exact hs.ordered.enqueue (EdpEvent.class?_eq_some.1 hp) htyped
  | signal ev _ => exact hs.ordered.signal
  | stop => exact ⟨hs.ordered.1, hs.ordered.2, hs.ordered.3, hs.ordered.4⟩

/-- **Urgent events are prompt when their types say so.**  In every state of every
run in which each dispatched event has the type of `CRIT` or `EMRG` exactly when it
has that priority, at most one handler of a non-`CRIT` event has started between the
queueing of a `CRIT` event and its start, and at most one of an event below `EMRG`
between those of an `EMRG` event. -/
theorem urgent_prompt {acts : List Act} {s : WorkerSys}
    (ht : StepSystem.Meets step Typed init acts)
    (hrun : StepSystem.run step init acts = some s) : Prompt s.hist :=
  have hs : s.Attentive :=
    StepSystem.run_invariant (fun _ _ _ hs ha h => hs.step ha h) attentive_init ht hrun
  hs.prompt

/-- A `CRIT` and two `EMRG` events of their own types, all three handled: a run that
meets the hypotheses of `urgent_prompt`. -/
theorem urgent_prompt_three :
    ∃ acts s, StepSystem.run step init acts = some s ∧
      lowerStarts .crit s.hist = 2 ∧ Prompt s.hist :=
  have hrun := Eq.refl (StepSystem.run step init
    ([.dispatch ⟨1, 4, 4, -1, 0, 0, 0, 1⟩, .dispatch ⟨2, 3, 3, -1, 0, 0, 0, 1⟩,
      .dispatch ⟨3, 3, 3, -1, 0, 0, 0, 1⟩, .signal ⟨1, 4, 4, -1, 0, 0, 0, 1⟩] ++
      List.replicate 12 .work))
  ⟨_, _, hrun, rfl, urgent_prompt (by decide) hrun⟩

/-- **A `CRIT` event is overtaken.**  A `CRIT` event of type `0` is queued and then
two `EMRG` events of type `3`: both `EMRG` handlers start while the `CRIT` event
stays in the local list. -/
theorem crit_overtaken :
    ¬ ∀ acts s, StepSystem.run step init acts = some s → Prompt s.hist := by
  intro h
  let c : EdpEvent := ⟨1, 0, 4, -1, 0, 0, 0, 1⟩
  let e : EdpEvent := ⟨2, 3, 3, -1, 0, 0, 0, 1⟩
  let e' : EdpEvent := ⟨3, 3, 3, -1, 0, 0, 0, 1⟩
  let l₂ : List Obs := [.started e', .finished e, .started e, .returned c, .queued e', .queued e]
  have hrun : (StepSystem.run step init
      ([Act.dispatch c, .dispatch e, .dispatch e', .signal c] ++
        List.replicate 9 Act.work)).map hist = some (l₂ ++ [Obs.queued c]) := by decide
  obtain ⟨s, hs, hh⟩ := Option.map_eq_some_iff.1 hrun
  have hle : lowerStarts .crit l₂ ≤ 1 := h _ s hs .crit (by decide) c [] l₂ [] rfl hh (by decide)
  exact absurd hle (by decide)

end WorkerSys

end EdpIo
