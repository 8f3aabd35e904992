/-
# No wakeup is lost

`__edp_dispatch` signals after it has released the queue's lock, and the latch
`cv_count` merges any number of signals into one, so a worker may sleep only if
nothing it has to handle was queued since it last looked (`blocked_idle`).  The
invariant is `Awake`: a queue that is not empty is still ahead of the worker in
its pass, or the latch is set, or a dispatcher is about to set it.  Every pass
from the wait goes through the five sections from `crit` to `idle`, and a `goto`
only goes back to an earlier one, so a section once ahead stays ahead until it is
taken.
-/

import EdpIo.Worker.System

namespace EdpIo

/-- The worker will take the section of `p` before it comes to its wait. -/
def Pc.Ahead (p : Priority) : Pc → Prop
  | .sect q => p ≤ q
  | .loop q | .running q _ | .check q _ => p < q
  | _ => False

namespace Worker

/-- From the loop of `p` the same sections are ahead, whatever counter is read next. -/
theorem ahead_checkFrom {p r : Priority} (q : Option Priority) :
    (checkFrom p q).Ahead r ↔ r < p := by
  unfold checkFrom
  split
  · split <;> exact Iff.rfl
  · exact Iff.rfl

/-- A loop is left towards the sections below its class. -/
theorem ahead_afterLoop {p r : Priority} (h : r < p) : (afterLoop p).Ahead r := by
  unfold afterLoop
  split
  · rename_i q hq
    exact (Priority.lt_iff_le_of_below hq).1 h
  · rename_i hq
    exact absurd h (Priority.not_lt_of_below hq)

/-- What is queued is still to be looked for, as far as the worker and its latch
can tell. -/
def Noticed (w : Worker) (p : Priority) : Prop := w.pc.Ahead p ∨ w.cvCount ≠ 0

/-- A step of the worker takes a whole queue or none of it. -/
theorem Step.queue_eq {w w' : Worker} {l : Label} (h : w.Step l w') {p : Priority}
    (hq : w'.queue p ≠ []) : w'.queue p = w.queue p := by
  cases h with
  | splice r hpc =>
    have hpr : p ≠ r := by
      rintro rfl
      exact hq (by simp [Worker.splice])
    simp [Worker.splice, hpr]
  | _ => rfl

/-- Only the return of the wait clears the latch. -/
theorem Step.cvCount_eq {w w' : Worker} {l : Label} (h : w.Step l w') :
    w'.cvCount = w.cvCount ∨ w'.pc = .sect .crit := by
  cases h with
  | pass _ _ | wake _ => exact .inr rfl
  | _ => exact .inl rfl

/-- A section that is ahead stays so until it is taken. -/
theorem Step.ahead {w w' : Worker} {l : Label} (hw : w.Placed) (h : w.Step l w') {p : Priority}
    (hp : w.pc.Ahead p) (hq : w'.queue p ≠ []) : w'.pc.Ahead p := by
  cases h with
  | splice r hpc =>
    have hpr : p ≠ r := by
      rintro rfl
      exact hq (by simp [Worker.splice])
    rw [hpc] at hp
    exact lt_of_le_of_ne hp hpr
  | leave r hpc _ =>
    rw [hpc] at hp
    exact ahead_afterLoop hp
  | start r ev rest hpc _ _ _ =>
    rw [hpc] at hp
    exact hp
  | finish r ev hpc =>
    rw [hpc] at hp
    exact (ahead_checkFrom (some .crit)).2 hp
  | yield r q hpc _ _ =>
    -- the counter read is above the loop's class, so going back leaves more ahead
    have hup := hw.checksUp
    rw [hpc] at hp hup
    exact le_of_lt (lt_trans hp hup)
  | resume r q hpc _ ratio =>
    rw [hpc] at hp
    exact (ahead_checkFrom q.below).2 hp
  | stopped hpc _ | enter hpc _ | sleep hpc _ | pass hpc _ | wake hpc | back q hpc _
  | down q q' hpc _ _ | finished hpc _ =>
    rw [hpc] at hp
    exact hp.elim

/-- A class whose queue is not empty stays noticed through every step of the
worker. -/
theorem Step.noticed {w w' : Worker} {l : Label} (hw : w.Placed) (h : w.Step l w') {p : Priority}
    (hn : w.queue p ≠ [] → w.Noticed p) (hq : w'.queue p ≠ []) : w'.Noticed p := by
  have hold : w.queue p ≠ [] := h.queue_eq hq ▸ hq
  rcases hn hold with hp | hcv
  · exact .inl (h.ahead hw hp hq)
  · rcases h.cvCount_eq with he | he
    · exact .inr (he ▸ hcv)
    · refine .inl ?_
      rw [he]
      exact Priority.le_crit p

theorem noticed_signal (w : Worker) (p : Priority) : w.signal.Noticed p := by
  unfold signal
  split
  · exact .inr ‹_›
  · exact .inr one_ne_zero

end Worker

namespace WorkerSys

/-- Each queue that is not empty is noticed by the worker, or a dispatcher has its
signal still to send. -/
structure Awake (s : WorkerSys) : Prop where
  noticed : ∀ p, s.worker.queue p ≠ [] → s.worker.Noticed p ∨ s.signalling ≠ []
  placed : s.worker.Placed

theorem awake_init : Awake init := ⟨fun _ h => absurd rfl h, Worker.placed_start⟩

theorem Awake.step {s t : WorkerSys} {a : Act} (hs : s.Awake) (h : WorkerSys.step s a = some t) :
    t.Awake := by
  refine ⟨?_, placed_step hs.placed h⟩
  cases step_cases h with
  | work l w hw =>
    intro p hq
    by_cases hsig : s.signalling = []
    · refine .inl (hw.noticed hs.placed (fun hp => ?_) hq)
      exact (hs.noticed p hp).resolve_right fun h => h hsig
    · exact .inr hsig
  | refused ev _ => exact hs.noticed
  | dispatch ev p _ => exact fun _ _ => .inr (List.cons_ne_nil _ _)
  | signal ev _ => exact fun p _ => .inl (Worker.noticed_signal _ p)
  | stop => exact hs.noticed

/-- **No wakeup is lost.**  In every state of every run in which the worker sleeps
in its wait with the latch clear and no dispatcher is between its queue insertion
and the end of its signal, the five queues and the local list are empty. -/
theorem blocked_idle {acts : List Act} {s : WorkerSys}
    (hrun : StepSystem.run step init acts = some s) (hpc : s.worker.pc = .blocked)
    (hcv : s.worker.cvCount = 0) (hsig : s.signalling = []) :
    (∀ p, s.worker.queue p = []) ∧ s.worker.events = [] := by
  have hs : s.Awake := StepSystem.run_preserves (fun _ _ _ hs h => hs.step h) awake_init hrun
  constructor
  · intro p
    refine not_not.1 fun hq => ?_
    rcases hs.noticed p hq with (h | h) | h
    · rw [hpc] at h
      exact h
    · exact h hcv
    · exact h hsig
  · exact hs.placed.events_eq_nil (by rw [hpc]; exact id)

/-- A worker that is sent an event of class `norm`, handles it and sleeps again:
a run that meets the hypotheses of `blocked_idle`. -/
theorem blocked_idle_norm :
    ∃ acts s, StepSystem.run step init acts = some s ∧ s.hist.length = 4 ∧
      (∀ p, s.worker.queue p = []) ∧ s.worker.events = [] :=
  have hrun := Eq.refl (StepSystem.run step init
    ([Act.dispatch ⟨7, 0, 1, -1, 0, 0, 0, 1⟩, .signal ⟨7, 0, 1, -1, 0, 0, 0, 1⟩] ++
      List.replicate 19 Act.work))
  ⟨_, _, hrun, rfl, blocked_idle hrun rfl rfl rfl⟩

end WorkerSys

end EdpIo
