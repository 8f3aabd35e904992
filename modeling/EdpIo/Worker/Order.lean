/-
# The order within a class

Whether the events of one class are handled in the order in which they were
queued.  `line p` is what waits of the class `p`, in the order in which it would be
handled: the events of `p` in the local list, and then its queue.  A start takes the
head of the local list, so the head of a line, and a dispatch puts its event at the
end of its queue, so of its line; what has to be shown is that the sections keep the
lines (`Worker.Step.line`).

`norm` and `idle` are spliced behind what is left of them in the local list, which
keeps their lines whatever the types of the events and whichever loops take them
(`tail_in_order`).  `high`, `emrg` and `crit` are spliced in front, so that a section
taken while the local list still holds events of its class puts the newer ones
first.  That happens when a loop is left for a higher class in the middle of its
events (`emrg_overtaken`); in the runs where it does not, these classes keep their
order as well (`front_in_order`).
-/

import EdpIo.Lib.Fifo
import EdpIo.Worker.System

namespace EdpIo

/-- The event of class `p` that the record says was queued. -/
def Obs.queuedOf (p : Priority) : Obs → Option EdpEvent
  | .queued ev => if ev.class? = some p then some ev else none
  | _ => none

/-- The event of class `p` that the record says had its handler called. -/
def Obs.startedOf (p : Priority) : Obs → Option EdpEvent
  | .started ev => if ev.class? = some p then some ev else none
  | _ => none

/-- The events of class `p` whose handlers have started are the first that were
queued, in the order of their queueing. -/
def InOrder (p : Priority) (hist : List Obs) : Prop :=
  Fifo.items (Obs.startedOf p) hist <+: Fifo.items (Obs.queuedOf p) hist

instance (p : Priority) (hist : List Obs) : Decidable (InOrder p hist) :=
  inferInstanceAs (Decidable (_ <+: _))

namespace Worker

/-- The events of class `p` that wait, in the order in which they will be taken. -/
def line (w : Worker) (p : Priority) : List EdpEvent :=
  (w.events.filter fun ev => ev.class? = some p) ++ w.queue p

/-- The queues hold events of their class. -/
def Classed (w : Worker) : Prop := ∀ p, ∀ ev ∈ w.queue p, ev.class? = some p

/-- The section of `p`, if it is next, does not put events of the class in front of
older ones. -/
def KeepsLine (w : Worker) (p : Priority) : Prop :=
  w.pc = .sect p → splicesFront p = true → w.queue p = [] ∨ ∀ ev ∈ w.events, ev.class? ≠ some p

instance (w : Worker) (p : Priority) : Decidable (w.KeepsLine p) :=
  inferInstanceAs (Decidable (_ → _ → _ ∨ _))

theorem classed_start : start.Classed := fun _ _ h => absurd h List.not_mem_nil

theorem Classed.enqueue {w : Worker} (hw : w.Classed) {p : Priority} {ev : EdpEvent}
    (hp : ev.class? = some p) : (w.enqueue p ev).Classed := by
  intro q e he
  by_cases hq : q = p
  · subst hq
    have he : e ∈ w.queue q ∨ e = ev := by simpa [Worker.enqueue] using he
    rcases he with he | rfl
    · exact hw q e he
    · exact hp
  · exact hw q e (by simpa [Worker.enqueue, hq] using he)

theorem Classed.signal {w : Worker} (hw : w.Classed) : w.signal.Classed := by
  unfold Worker.signal
  split <;> exact hw

theorem Classed.step {w w' : Worker} {l : Label} (hw : w.Classed) (h : w.Step l w') :
    w'.Classed := by
  cases h with
  | splice p hpc =>
    intro q ev hev
    by_cases hq : q = p
    · subst hq
      simp [Worker.splice] at hev
    · exact hw q ev (by simpa [Worker.splice, hq] using hev)
  | _ => exact hw

/-- The queue of a class holds none of another. -/
theorem Classed.filter_of_ne {w : Worker} (hw : w.Classed) {p q : Priority} (h : p ≠ q) :
    ((w.queue q).filter fun ev => ev.class? = some p) = [] := by
  rw [List.filter_eq_nil_iff]
  intro ev hev hp
  exact h (Option.some.inj ((of_decide_eq_true hp).symm.trans (hw q ev hev)))

theorem Classed.filter_self {w : Worker} (hw : w.Classed) (p : Priority) :
    ((w.queue p).filter fun ev => ev.class? = some p) = w.queue p :=
  List.filter_eq_self.2 fun ev hev => decide_eq_true (hw p ev hev)

/-- A section keeps every line that it does not cut into. -/
theorem line_splice {w : Worker} (hw : w.Classed) {p q : Priority}
    (hk : p = q → splicesFront p = true → w.queue p = [] ∨ ∀ ev ∈ w.events, ev.class? ≠ some p) :
    (w.splice q).line p = w.line p := by
  by_cases hpq : p = q
  · subst hpq
    have hq : (w.splice p).queue p = [] := by simp [splice]
    rw [line, line, hq, List.append_nil]
    show List.filter _ (if splicesFront p then _ else _) = _
    split
    · rename_i hf
      rw [List.filter_append, hw.filter_self]
      rcases hk rfl hf with h | h
      · rw [h, List.append_nil]
        rfl
      · rw [List.filter_eq_nil_iff.2 fun ev hev hp => h ev hev (of_decide_eq_true hp),
          List.append_nil]
        rfl
    · rw [List.filter_append, hw.filter_self]
  · have hq : (w.splice q).queue p = w.queue p := by simp [splice, hpq]
    rw [line, line, hq]
    refine congrArg (· ++ _) ?_
    show List.filter _ (if splicesFront q then _ else _) = _
    split <;> rw [List.filter_append, hw.filter_of_ne hpq]
    · rfl
    · exact List.append_nil _

theorem line_enqueue (w : Worker) {p q : Priority} {ev : EdpEvent} (h : ev.class? = some q) :
    (w.enqueue q ev).line p = w.line p ++ (Obs.queuedOf p (.queued ev)).toList := by
  rw [line, line, Obs.queuedOf, h]
  by_cases hpq : p = q
  · subst hpq
    simp [enqueue]
  · simp [enqueue, hpq, Ne.symm hpq]

@[simp] theorem line_signal (w : Worker) (p : Priority) : w.signal.line p = w.line p := by
  unfold signal
  split <;> rfl

/-- The event of class `p` whose handler a step starts. -/
def Label.startedOf (p : Priority) : Label → Option EdpEvent
  | .start ev => if ev.class? = some p then some ev else none
  | _ => none

/-- **One step.**  A step of the worker takes the head of a line, if it starts an event
of the class, and keeps the line otherwise. -/
theorem Step.line {w w' : Worker} {l : Label} (hw : w.Classed) (h : w.Step l w') {p : Priority}
    (hk : w.KeepsLine p) : w.line p = (l.startedOf p).toList ++ w'.line p := by
  cases h with
  | splice q hpc =>
    refine (line_splice hw fun hpq hf => ?_).symm
    exact hk (hpq ▸ hpc) hf
  | start q ev rest hpc hev hb hh =>
    rw [Worker.line, Worker.line, hev, Label.startedOf, List.filter_cons]
    by_cases hp : ev.class? = some p
    · simp [hp]
    · simp [hp]
  | _ => rfl

end Worker

namespace WorkerSys

/-- In every state of every run the queues hold events of their class. -/
theorem classed_step {s t : WorkerSys} {a : Act} (hs : s.worker.Classed)
    (h : WorkerSys.step s a = some t) : t.worker.Classed := by
  cases step_cases h with
  | work l w hw => exact hs.step hw
  | refused ev _ => exact hs
  | dispatch ev p hp => exact hs.enqueue hp
  | signal ev _ => exact hs.signal
  | stop => exact hs

/-- The line of each class is what is left of its events. -/
structure Lined (p : Priority) (s : WorkerSys) : Prop where
  classed : s.worker.Classed
  fifo : Fifo (Obs.queuedOf p) (Obs.startedOf p) (s.worker.line p) s.hist

theorem lined_init (p : Priority) : Lined p init := ⟨Worker.classed_start, rfl⟩

/-- The section of `p` is not taken while the local list holds events of the class,
if it would put others in front of them. -/
def KeepsLine (p : Priority) (s : WorkerSys) : Act → Prop
  | .work => s.worker.KeepsLine p
  | _ => True

instance (p : Priority) (s : WorkerSys) : (a : Act) → Decidable (KeepsLine p s a)
  | .work => inferInstanceAs (Decidable (s.worker.KeepsLine p))
  | .dispatch _ | .signal _ | .stop => inferInstanceAs (Decidable True)

theorem Lined.step {p : Priority} {s t : WorkerSys} {a : Act} (hs : s.Lined p)
    (ha : KeepsLine p s a) (h : WorkerSys.step s a = some t) : t.Lined p := by
  obtain ⟨hc, hf⟩ := hs
  refine ⟨classed_step hc h, ?_⟩
  cases step_cases h with
  | work l w hw =>
    rw [hw.line hc ha] at hf
    cases l with
    | tau => exact hf
    | finish ev => exact hf.skip rfl rfl
    | start ev =>
      by_cases hp : ev.class? = some p
      · rw [Worker.Label.startedOf, if_pos hp] at hf
        exact hf.remove rfl (if_pos hp)
      · rw [Worker.Label.startedOf, if_neg hp] at hf
        exact hf.skip rfl (if_neg hp)
  | refused ev _ => exact hf
  | dispatch ev q hq =>
    rw [Worker.line_enqueue _ hq]
    cases ho : Obs.queuedOf p (.queued ev) with
    | none =>
      rw [Option.toList_none, List.append_nil]
      exact hf.skip ho rfl
    | some e => exact hf.insert ho rfl
  | signal ev _ =>
    rw [Worker.line_signal]
    exact hf.skip rfl rfl
  | stop => exact hf

/-- **The order of the classes spliced in front.**  In every state of every run in
which the section of `p`, `HIGH`, `EMRG` or `CRIT`, is only taken with events in its
queue when the local list holds none of the class, the handlers of its events have
started in the order in which the events were queued. -/
theorem front_in_order {p : Priority} {acts : List Act} {s : WorkerSys}
    (hk : StepSystem.Meets step (KeepsLine p) init acts)
    (hrun : StepSystem.run step init acts = some s) : InOrder p s.hist :=
  have hs : s.Lined p :=
    StepSystem.run_invariant (fun _ _ _ hs ha h => hs.step ha h) (lined_init p) hk hrun
  hs.fifo.isPrefix

/-- Two `EMRG` events, the second queued while the first is being handled: a run that
meets the hypothesis of `front_in_order`. -/
theorem front_in_order_two :
    ∃ acts s, StepSystem.run step init acts = some s ∧
      Fifo.items (Obs.startedOf .emrg) s.hist =
        [⟨1, 3, 3, -1, 0, 0, 0, 1⟩, ⟨2, 3, 3, -1, 0, 0, 0, 1⟩] ∧
      InOrder .emrg s.hist :=
  have hrun := Eq.refl (StepSystem.run step init
    ([Act.dispatch ⟨1, 3, 3, -1, 0, 0, 0, 1⟩, .signal ⟨1, 3, 3, -1, 0, 0, 0, 1⟩] ++
      List.replicate 6 Act.work ++
      [Act.dispatch ⟨2, 3, 3, -1, 0, 0, 0, 1⟩, .signal ⟨2, 3, 3, -1, 0, 0, 0, 1⟩] ++
      List.replicate 20 Act.work))
  ⟨_, _, hrun, by decide, front_in_order (by decide) hrun⟩

/-- **An `EMRG` event is overtaken by a newer one.**  Of two `EMRG` events the first
is being handled when a `CRIT` event and a third `EMRG` event are queued; the loop is
left for the `CRIT` event with the second still in the local list, and the third is
spliced in front of it.  The types of all events are the numbers of their classes. -/
theorem emrg_overtaken :
    ¬ ∀ acts s, StepSystem.Meets step OwnType init acts →
      StepSystem.run step init acts = some s → ∀ p : Priority, .high ≤ p → InOrder p s.hist := by
  intro h
  let e : ℕ → EdpEvent := fun a => ⟨a, 3, 3, -1, 0, 0, 0, 1⟩
  have hrun := Eq.refl (StepSystem.run step init
    ([Act.dispatch (e 1), .dispatch (e 2), .signal (e 1)] ++ List.replicate 6 Act.work ++
      [Act.dispatch ⟨3, 4, 4, -1, 0, 0, 0, 1⟩, .dispatch (e 4)] ++ List.replicate 10 Act.work))
  have hp : InOrder .emrg _ := h _ _ (by decide) hrun .emrg (by decide)
  exact absurd hp (by decide)

/-- **The order of the classes spliced behind.**  In every state of every run, with
events of any types, the handlers of the `NORM` events have started in the order in
which the events were queued, and so have those of the `IDLE` events. -/
theorem tail_in_order {p : Priority} (hp : p ≤ .norm) {acts : List Act} {s : WorkerSys}
    (hrun : StepSystem.run step init acts = some s) : InOrder p s.hist := by
  have hf : Worker.splicesFront p = false := by
    cases p <;> first | rfl | exact absurd hp (by decide)
  have hkeep : ∀ (s : WorkerSys) (a : Act), KeepsLine p s a := fun s a => by
    cases a with
    | work => exact fun _ h => absurd (hf.symm.trans h) Bool.false_ne_true
    | dispatch _ | signal _ | stop => trivial
  have hs : s.Lined p :=
    StepSystem.run_preserves (fun s a _ hs h => hs.step (hkeep s a) h) (lined_init p) hrun
  exact hs.fifo.isPrefix

/-- Two `NORM` events with types of other classes: a `CRIT` event interrupts the `NORM`
loop, and the second is taken by the `EMRG` loop: a run that meets the hypotheses
of `tail_in_order`. -/
theorem tail_in_order_two :
    ∃ acts s, StepSystem.run step init acts = some s ∧
      Fifo.items (Obs.startedOf .norm) s.hist =
        [⟨1, 2, 1, -1, 0, 0, 0, 1⟩, ⟨2, 3, 1, -1, 0, 0, 0, 1⟩] ∧
      InOrder .norm s.hist :=
  have hrun := Eq.refl (StepSystem.run step init
    ([Act.dispatch ⟨1, 2, 1, -1, 0, 0, 0, 1⟩, .dispatch ⟨2, 3, 1, -1, 0, 0, 0, 1⟩,
      .signal ⟨1, 2, 1, -1, 0, 0, 0, 1⟩] ++ List.replicate 10 Act.work ++
      [Act.dispatch ⟨3, 4, 4, -1, 0, 0, 0, 1⟩] ++ List.replicate 9 Act.work))
  ⟨_, _, hrun, by decide, tail_in_order (by decide) hrun⟩

end WorkerSys

end EdpIo
