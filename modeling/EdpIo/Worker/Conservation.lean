/-
# No event is lost, duplicated or run twice

Every event that a dispatch has put into a queue is, until its handler is called,
in exactly one place among the five queues and the local list of the worker
(`dispatched_sub_called`).  Splicing in front or behind, leaving a loop early and
going back to a label only move events (`Worker.Step.held`), so the account of
each event changes at two kinds of step only: the locked section of a dispatch
and the call of a handler.

The condition on the runs is the one the callers keep: an event is not
dispatched again before the handler call of its previous dispatch.
-/

import EdpIo.Worker.System

namespace EdpIo

/-- Dispatches of the event object `a` that have passed their locked section. -/
def queuedCount (a : ℕ) (hist : List Obs) : ℕ :=
  hist.countP fun o => match o with | .queued ev => ev.addr = a | _ => false

/-- Dispatches of `a` that have returned `0`. -/
def returnedCount (a : ℕ) (hist : List Obs) : ℕ :=
  hist.countP fun o => match o with | .returned ev => ev.addr = a | _ => false

/-- Calls of `worker_do_event` on `a`. -/
def calledCount (a : ℕ) (hist : List Obs) : ℕ :=
  hist.countP fun o => match o with | .started ev => ev.addr = a | _ => false

/-- How often `a` occurs in a list of events. -/
def occurrences (a : ℕ) (evs : List EdpEvent) : ℕ := evs.countP fun ev => ev.addr = a

/-- How often `a` occurs in the five queues and the local list together. -/
def Worker.places (a : ℕ) (w : Worker) : ℕ :=
  occurrences a (w.queue .crit) + occurrences a (w.queue .emrg) + occurrences a (w.queue .high) +
    occurrences a (w.queue .norm) + occurrences a (w.queue .idle) + occurrences a w.events

namespace WorkerSys

/-- The callers' condition: an event is dispatched only when every earlier
dispatch of it has had its handler called. -/
def NotPending (s : WorkerSys) : Act → Prop
  | .dispatch ev => queuedCount ev.addr s.hist = calledCount ev.addr s.hist
  | _ => True

instance (s : WorkerSys) : (a : Act) → Decidable (s.NotPending a)
  | .dispatch _ => inferInstanceAs (Decidable (_ = _))
  | .work => inferInstanceAs (Decidable True)
  | .signal _ => inferInstanceAs (Decidable True)
  | .stop => inferInstanceAs (Decidable True)

/-- The account of one event object. -/
structure Account (a : ℕ) (s : WorkerSys) : Prop where
  queued : queuedCount a s.hist = calledCount a s.hist + s.worker.places a
  returned : returnedCount a s.hist + occurrences a s.signalling = queuedCount a s.hist
  once : s.worker.places a ≤ 1

end WorkerSys

section Counts

variable (a : ℕ) (ev : EdpEvent) (l h : List Obs)

@[simp] theorem queuedCount_append :
    queuedCount a (l ++ h) = queuedCount a l + queuedCount a h := List.countP_append

@[simp] theorem returnedCount_append :
    returnedCount a (l ++ h) = returnedCount a l + returnedCount a h := List.countP_append

@[simp] theorem calledCount_append :
    calledCount a (l ++ h) = calledCount a l + calledCount a h := List.countP_append

@[simp] theorem queuedCount_queued :
    queuedCount a (.queued ev :: h) = queuedCount a h + if ev.addr = a then 1 else 0 := by
  simp [queuedCount, List.countP_cons]

@[simp] theorem queuedCount_returned : queuedCount a (.returned ev :: h) = queuedCount a h := by
  simp [queuedCount]

@[simp] theorem returnedCount_queued : returnedCount a (.queued ev :: h) = returnedCount a h := by
  simp [returnedCount]

@[simp] theorem returnedCount_returned :
    returnedCount a (.returned ev :: h) = returnedCount a h + if ev.addr = a then 1 else 0 := by
  simp [returnedCount, List.countP_cons]

@[simp] theorem calledCount_queued : calledCount a (.queued ev :: h) = calledCount a h := by
  simp [calledCount]

@[simp] theorem calledCount_returned : calledCount a (.returned ev :: h) = calledCount a h := by
  simp [calledCount]

theorem occurrences_cons (evs : List EdpEvent) :
    occurrences a (ev :: evs) = occurrences a evs + if ev.addr = a then 1 else 0 := by
  simp [occurrences, List.countP_cons]

/-- A worker's step dispatches nothing. -/
@[simp] theorem queuedCount_obs (l : Worker.Label) : queuedCount a l.obs = 0 := by
  cases l <;> rfl

@[simp] theorem returnedCount_obs (l : Worker.Label) : returnedCount a l.obs = 0 := by
  cases l <;> rfl

end Counts

namespace Worker

/-- The places of an event are its occurrences in the bag of held events. -/
theorem places_eq (a : ℕ) (w : Worker) : w.places a = w.held.countP fun ev => ev.addr = a := by
  simp [places, held, occurrences, Multiset.coe_countP, Nat.add_assoc]

/-- Starting a handler takes its event's place away, and no other. -/
theorem Step.places {w w' : Worker} {l : Label} (h : w.Step l w') (a : ℕ) :
    w.places a = calledCount a l.obs + w'.places a := by
  have hl : l.started.countP (fun ev => ev.addr = a) = calledCount a l.obs := by
    cases l with
    | tau => rfl
    | finish ev => rfl
    | start ev =>
      rw [Label.started, ← Multiset.cons_zero, Multiset.countP_cons]
      simp [Label.obs, calledCount]
  rw [places_eq, places_eq, h.held, Multiset.countP_add, hl]

/-- The locked section of a dispatch gives its event a place. -/
theorem places_enqueue (a : ℕ) (w : Worker) (p : Priority) (ev : EdpEvent) :
    (w.enqueue p ev).places a = w.places a + if ev.addr = a then 1 else 0 := by
  rw [places_eq, places_eq, held_enqueue, Multiset.singleton_add, Multiset.countP_cons]

end Worker

namespace WorkerSys

theorem account_init (a : ℕ) : Account a init := ⟨rfl, rfl, Nat.zero_le _⟩

/-- Whoever dispatches what and when, the dispatches of an event are its handler calls
and its places. -/
theorem queued_step {a : ℕ} {s t : WorkerSys} {act : Act}
    (hs : queuedCount a s.hist = calledCount a s.hist + s.worker.places a)
    (h : WorkerSys.step s act = some t) :
    queuedCount a t.hist = calledCount a t.hist + t.worker.places a := by
  cases step_cases h with
  | work l w hw =>
    have hpl := hw.places a
    simp only [queuedCount_append, calledCount_append, queuedCount_obs]
    omega
  | refused ev _ => exact hs
  | dispatch ev p _ =>
    have hpl := Worker.places_enqueue a s.worker p ev
    simp only [queuedCount_queued, calledCount_queued, hpl, hs, Nat.add_assoc]
  | signal ev hev =>
    have hpl : (s.worker.signal).places a = s.worker.places a := by
      rw [Worker.places_eq, Worker.places_eq, Worker.held_signal]
    simp only [queuedCount_returned, calledCount_returned, hpl, hs]
  | stop => exact hs

/-- The account of every event is kept by every step that meets the callers'
condition. -/
theorem Account.step {a : ℕ} {s t : WorkerSys} {act : Act} (hs : Account a s)
    (hp : s.NotPending act) (h : WorkerSys.step s act = some t) : Account a t := by
  obtain ⟨hq, hr, ho⟩ := hs
  refine ⟨queued_step hq h, ?_, ?_⟩
  · cases step_cases h with
    | work l w hw => simpa only [queuedCount_append, returnedCount_append, queuedCount_obs,
        returnedCount_obs, Nat.zero_add] using hr
    | refused ev _ => exact hr
    | dispatch ev p _ =>
      simp only [queuedCount_queued, returnedCount_queued, occurrences_cons, ← hr, Nat.add_assoc]
    | signal ev hev =>
      have hsplit : occurrences a s.signalling =
          occurrences a (s.signalling.erase ev) + if ev.addr = a then 1 else 0 := by
        rw [← occurrences_cons]
        exact (List.perm_cons_erase hev).countP_eq _
      simp only [queuedCount_returned, returnedCount_returned]
      omega
    | stop => exact hr
  · cases step_cases h with
    | work l w hw =>
      have hpl := hw.places a
      show w.places a ≤ 1
      omega
    | refused ev _ => exact ho
    | dispatch ev p _ =>
      show (s.worker.enqueue p ev).places a ≤ 1
      rw [Worker.places_enqueue]
      split
      · rename_i ha
        -- the callers' condition leaves the event no place before the dispatch
        subst ha
        have hp : queuedCount ev.addr s.hist = calledCount ev.addr s.hist := hp
        omega
      · exact ho
    | signal ev hev =>
      show s.worker.signal.places a ≤ 1
      rw [Worker.places_eq, Worker.held_signal, ← Worker.places_eq]
      exact ho
    | stop => exact ho

/-- **Conservation.**  In every state of every run in which no event is dispatched
again before the handler call of its previous dispatch: an event object is in at
most one place among the five queues and the local list, and its dispatches, those
that have returned `0` and those past their locked section that are about to,
exceed its handler calls by exactly its places. -/
theorem dispatched_sub_called {acts : List Act} {s : WorkerSys}
    (hp : StepSystem.Meets step NotPending init acts)
    (hrun : StepSystem.run step init acts = some s) (a : ℕ) :
    ((returnedCount a s.hist + occurrences a s.signalling : ℕ) : ℤ) - calledCount a s.hist =
        s.worker.places a ∧ s.worker.places a ≤ 1 := by
  obtain ⟨hq, hr, ho⟩ : Account a s :=
    StepSystem.run_invariant (fun _ _ _ hs hC h => hs.step hC h) (account_init a) hp hrun
  exact ⟨by omega, ho⟩

/-- An event of class `norm` dispatched to a worker that then runs until it is in
the event's handler: a run that meets the hypotheses of `dispatched_sub_called`. -/
theorem dispatched_sub_called_norm :
    ∃ acts s, StepSystem.run step init acts = some s ∧ calledCount 7 s.hist = 1 ∧
      ((returnedCount 7 s.hist + occurrences 7 s.signalling : ℕ) : ℤ) - calledCount 7 s.hist =
        s.worker.places 7 ∧ s.worker.places 7 ≤ 1 :=
  have hrun := Eq.refl (StepSystem.run step init
    ([Act.dispatch ⟨7, 0, 1, -1, 0, 0, 0, 1⟩, .signal ⟨7, 0, 1, -1, 0, 0, 0, 1⟩] ++
      List.replicate 10 Act.work))
  ⟨_, _, hrun, rfl, dispatched_sub_called (by decide) hrun 7⟩

end WorkerSys

end EdpIo
