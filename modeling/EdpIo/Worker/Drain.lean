/-
# The worker drains its queues before it ends

Past its outer loop `worker_routine` reads the counters from `crit` down to `idle`,
goes back into the loop body if one is not zero, and ends with `worker_fini_tls` if
none is.  Nobody else looks at the lists.  After `STOP` only the worker's own handlers
may dispatch to it, and none is running on the way down the counters, so a queue that
was found empty there stays empty (`Stopping.empty`); and a pass that is entered from
there ends with an empty local list like any other (`Worker.Placed`).  So whatever was
dispatched has been handled to the end when the worker is over (`finished_drained`).
-/

import EdpIo.Worker.Conservation

namespace EdpIo

/-- Calls of `worker_do_event` on `a` that have returned. -/
def finishedCount (a : ℕ) (hist : List Obs) : ℕ :=
  hist.countP fun o => match o with | .finished ev => ev.addr = a | _ => false

theorem finishedCount_append (a : ℕ) (l h : List Obs) :
    finishedCount a (l ++ h) = finishedCount a l + finishedCount a h := List.countP_append

/-- Whether the worker is in the handler of the event object `a`. -/
def Pc.handling (a : ℕ) : Pc → ℕ
  | .running _ ev => if ev.addr = a then 1 else 0
  | _ => 0

/-- The worker is in a handler. -/
def Pc.inHandler : Pc → Bool
  | .running _ _ => true
  | _ => false

/-- The worker is past its outer loop. -/
def Pc.Leaving : Pc → Prop
  | .exit _ | .finished => True
  | _ => False

/-- Past its outer loop the worker has found the counter of `p` zero. -/
def Pc.Past (p : Priority) : Pc → Prop
  | .exit q => q < p
  | .finished => True
  | _ => False

theorem Pc.Past.leaving {p : Priority} {pc : Pc} (h : pc.Past p) : pc.Leaving := by
  cases pc <;> first | exact h | trivial

theorem Pc.not_leaving_of_inHandler {pc : Pc} (h : pc.inHandler = true) : ¬ pc.Leaving := by
  cases pc <;> first | exact id | exact absurd h Bool.false_ne_true

theorem Pc.InPass.not_leaving {pc : Pc} (h : pc.InPass) : ¬ pc.Leaving := by
  cases pc <;> first | exact id | exact False.elim h

namespace Worker

theorem handling_checkFrom (a : ℕ) (p : Priority) (q : Option Priority) :
    (checkFrom p q).handling a = 0 := by
  unfold checkFrom
  split
  · split <;> rfl
  · rfl

theorem handling_afterLoop (a : ℕ) (p : Priority) : (afterLoop p).handling a = 0 := by
  unfold afterLoop
  split <;> rfl

/-- A worker is in the handler that it called last and that has not returned. -/
theorem Step.handling {w w' : Worker} {l : Label} (h : w.Step l w') (a : ℕ) :
    w'.pc.handling a + finishedCount a l.obs = w.pc.handling a + calledCount a l.obs := by
  cases h with
  | start p ev rest hpc _ _ _ =>
    rw [hpc]
    simp [Pc.handling, Label.obs, finishedCount, calledCount]
  | finish p ev hpc =>
    rw [hpc, handling_checkFrom]
    simp [Pc.handling, Label.obs, finishedCount, calledCount]
  | leave p hpc _ =>
    rw [hpc]
    exact handling_afterLoop a p
  | resume p q hpc _ ratio =>
    rw [hpc]
    exact handling_checkFrom a p q.below
  | splice p hpc | stopped hpc _ | enter hpc _ | sleep hpc _ | pass hpc _ | wake hpc
  | yield p q hpc _ _ | back q hpc _ | down q q' hpc _ _ | finished hpc _ =>
    rw [hpc]
    rfl

/-- On the way down the counters each queue found empty stays so. -/
theorem Step.leaving {w w' : Worker} {l : Label} (hc : w.Counted) (h : w.Step l w')
    (hs : w.pc.Leaving → w.wkStatus ≠ .running) (he : ∀ p, w.pc.Past p → w.queue p = []) :
    (w'.pc.Leaving → w'.wkStatus ≠ .running) ∧ ∀ p, w'.pc.Past p → w'.queue p = [] := by
  cases h with
  | stopped hpc h =>
    refine ⟨fun _ hr => ?_, fun p hp => absurd hp (not_lt_of_ge (Priority.le_crit p))⟩
    exact absurd (h.symm.trans hr) (by decide)
  | down q q' hpc h hq =>
    rw [hpc] at hs he
    refine ⟨fun _ => hs trivial, fun p hp => ?_⟩
    -- above `q'` there are `q`, whose counter is zero, and those above it
    have hqp : q ≤ p := not_lt.1 fun hlt =>
      not_lt_of_ge ((Priority.lt_iff_le_of_below hq).1 hlt) hp
    rcases lt_or_eq_of_le hqp with hlt | rfl
    · exact he p hlt
    · exact hc.pending_eq_zero.1 h
  | finished hpc h =>
    rw [hpc] at he
    refine ⟨fun _ hr => ?_, fun p _ => ?_⟩
    · cases hr
    · rcases lt_or_eq_of_le (Priority.idle_le p) with hlt | rfl
      · exact he p hlt
      · exact hc.pending_eq_zero.1 h
  | leave p hpc _ =>
    have hl : ¬ (afterLoop p).Leaving := by cases p <;> exact id
    exact ⟨fun h => absurd h hl, fun q h => absurd (Pc.Past.leaving h) hl⟩
  | finish p ev hpc =>
    have hl := (inPass_checkFrom p (some .crit)).not_leaving
    exact ⟨fun h => absurd h hl, fun q h => absurd (Pc.Past.leaving h) hl⟩
  | resume p q hpc _ ratio =>
    have hl := (inPass_checkFrom p q.below).not_leaving
    exact ⟨fun h => absurd h hl, fun q h => absurd (Pc.Past.leaving h) hl⟩
  | splice p hpc | start p ev rest hpc _ _ _ | enter hpc _ | sleep hpc _ | pass hpc _ | wake hpc
  | yield p q hpc _ _ | back q hpc _ => exact ⟨False.elim, fun _ h => False.elim h⟩

end Worker

namespace WorkerSys

/-- Once `wk_status` is `STOP`, the step dispatches nothing but from a handler that the
worker is running. -/
def OwnDispatch (s : WorkerSys) : Act → Prop
  | .dispatch _ => s.worker.wkStatus = .running ∨ s.worker.pc.inHandler = true
  | _ => True

instance (s : WorkerSys) : (a : Act) → Decidable (s.OwnDispatch a)
  | .dispatch _ => inferInstanceAs (Decidable (_ ∨ _))
  | .work | .signal _ | .stop => inferInstanceAs (Decidable True)

/-- The invariant of the runs in which only the handlers dispatch after `STOP`. -/
structure Stopping (s : WorkerSys) : Prop where
  counted : s.worker.Counted
  placed : s.worker.Placed
  status : s.worker.pc.Leaving → s.worker.wkStatus ≠ .running
  empty : ∀ p, s.worker.pc.Past p → s.worker.queue p = []
  queued : ∀ a, queuedCount a s.hist = calledCount a s.hist + s.worker.places a
  called : ∀ a, calledCount a s.hist = finishedCount a s.hist + s.worker.pc.handling a

theorem stopping_init : Stopping init :=
  ⟨Worker.counted_start, Worker.placed_start, False.elim, fun _ h => h.elim, fun _ => rfl,
    fun _ => rfl⟩

theorem Stopping.step {s t : WorkerSys} {a : Act} (hs : s.Stopping) (ha : s.OwnDispatch a)
    (h : WorkerSys.step s a = some t) : t.Stopping := by
  refine ⟨counted_step hs.counted h, placed_step hs.placed h, ?_, ?_,
    fun a => queued_step (hs.queued a) h, fun a => ?_⟩
  · cases step_cases h with
    | work l w hw => exact (hw.leaving hs.counted hs.status hs.empty).1
    | refused ev _ => exact hs.status
    | dispatch ev p _ => exact hs.status
    | signal ev _ =>
      rw [Worker.signal_pc, Worker.signal_wkStatus]
      exact hs.status
    | stop => exact fun _ hr => by cases hr
  · cases step_cases h with
    | work l w hw => exact (hw.leaving hs.counted hs.status hs.empty).2
    | refused ev _ => exact hs.empty
    | dispatch ev p _ =>
      intro q hq
      have hl := Pc.Past.leaving hq
      rcases ha with hr | hr
      · exact absurd hr (hs.status hl)
      · exact absurd hl (Pc.not_leaving_of_inHandler hr)
    | signal ev _ =>
      rw [Worker.signal_pc, Worker.signal_queue]
      exact hs.empty
    | stop => exact hs.empty
  · have hcalled := hs.called a
    cases step_cases h with
    | work l w hw =>
      have hh := hw.handling a
      simp only [calledCount_append, finishedCount_append]
      omega
    | refused ev _ => exact hcalled
    | dispatch ev p _ => simpa [finishedCount, Worker.enqueue] using hcalled
    | signal ev _ => simpa [finishedCount] using hcalled
    | stop => exact hcalled

/-- **Drain on stop.**  In every run in which, once `wk_status` is `STOP`, only the
handlers of the worker dispatch to it: when `worker_routine` is past `worker_fini_tls`,
the five queues and the local list are empty, and each event object has had as many
handler calls come to their end as it was queued times. -/
theorem finished_drained {acts : List Act} {s : WorkerSys}
    (ho : StepSystem.Meets step OwnDispatch init acts)
    (hrun : StepSystem.run step init acts = some s) (hpc : s.worker.pc = .finished) :
    (∀ p, s.worker.queue p = []) ∧ s.worker.events = [] ∧
      ∀ a, queuedCount a s.hist = finishedCount a s.hist := by
  have hs : s.Stopping :=
    StepSystem.run_invariant (fun _ _ _ hs ha h => hs.step ha h) stopping_init ho hrun
  have hq : ∀ p, s.worker.queue p = [] := fun p => hs.empty p (by rw [hpc]; trivial)
  have hev : s.worker.events = [] := hs.placed.events_eq_nil (by rw [hpc]; exact id)
  refine ⟨hq, hev, fun a => ?_⟩
  have hplaces : s.worker.places a = 0 := by simp [Worker.places, hq, hev, occurrences]
  have hcalled := hs.called a
  rw [hpc] at hcalled
  rw [hs.queued a, hplaces, hcalled]
  rfl

/-- A worker that is stopped in the handler of a `NORM` event, which dispatches another
and so makes the worker go back into its loop: a run that meets the hypotheses of
`finished_drained`. -/
theorem finished_drained_two :
    ∃ acts s, StepSystem.run step init acts = some s ∧ finishedCount 2 s.hist = 1 ∧
      (∀ p, s.worker.queue p = []) ∧ s.worker.events = [] ∧
        ∀ a, queuedCount a s.hist = finishedCount a s.hist :=
  have hrun := Eq.refl (StepSystem.run step init
    ([Act.dispatch ⟨1, 0, 1, -1, 0, 0, 0, 1⟩, .signal ⟨1, 0, 1, -1, 0, 0, 0, 1⟩] ++
      List.replicate 10 Act.work ++ [Act.stop, .dispatch ⟨2, 0, 1, -1, 0, 0, 0, 1⟩] ++
      List.replicate 27 Act.work))
  ⟨_, _, hrun, rfl, finished_drained (by decide) hrun rfl⟩

end WorkerSys
end EdpIo
