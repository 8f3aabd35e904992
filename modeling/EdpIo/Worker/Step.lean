/-
# What a step of the worker can do

`Worker.Step w l w'` lists the steps of `Worker.next` by the place they are taken
from, with the tests that lead to each (`next_step`); every invariant of a worker
is proved by cases on it.  Three facts come first: outside a pass the local list
is empty (`Placed`), the events a worker holds, in its queues and in its local
list, are a bag (`held`) that only a dispatch adds to and only a start takes from
(`Step.held`), and the counter of each class is the length of its queue
(`Counted`).
-/

import EdpIo.Worker.Model
import Mathlib.Algebra.Order.Group.Multiset
import Mathlib.Tactic.Abel

namespace EdpIo

/-- Inside a pass, where the local list may hold events. -/
def Pc.InPass : Pc → Prop
  | .sect _ | .loop _ | .running _ _ | .check _ _ => True
  | _ => False

/-- In the loop of `p` only the counters of higher classes are read. -/
def Pc.ChecksUp : Pc → Prop
  | .check p q => p < q
  | _ => True

namespace Worker

/-- The steps of a worker, one constructor for each way on from a place. -/
inductive Step (w : Worker) : Label → Worker → Prop
  | stopped (hpc : w.pc = .head) (h : w.wkStatus = .stop) : Step w .tau { w with pc := .exit .crit }
  | enter (hpc : w.pc = .head) (h : w.wkStatus ≠ .stop) : Step w .tau { w with pc := .wait }
  | sleep (hpc : w.pc = .wait) (h : w.cvCount = 0) : Step w .tau { w with pc := .blocked }
  | pass (hpc : w.pc = .wait) (h : w.cvCount ≠ 0) :
      Step w .tau { w with cvCount := 0, pc := .sect .crit }
  | wake (hpc : w.pc = .blocked) : Step w .tau { w with cvCount := 0, pc := .sect .crit }
  | splice (p : Priority) (hpc : w.pc = .sect p) : Step w .tau (w.splice p)
  | leave (p : Priority) (hpc : w.pc = .loop p)
      (h : w.events = [] ∨ ∃ ev rest, w.events = ev :: rest ∧ breaksAt p ev = true) :
      Step w .tau { w with pc := afterLoop p }
  | start (p : Priority) (ev : EdpEvent) (rest : List EdpEvent) (hpc : w.pc = .loop p)
      (hev : w.events = ev :: rest) (hb : breaksAt p ev = false) (hh : ev.evHandler ≠ 0) :
      Step w (.start ev) { w with events := rest, pc := .running p ev }
  | finish (p : Priority) (ev : EdpEvent) (hpc : w.pc = .running p ev) :
      Step w (.finish ev) { w with pc := checkFrom p (some .crit) }
  | yield (p q : Priority) (hpc : w.pc = .check p q) (h : w.pending q ≠ 0)
      (hy : w.yields p q = true) : Step w .tau { w with pc := .sect q }
  | resume (p q : Priority) (hpc : w.pc = .check p q)
      (h : w.pending q = 0 ∨ w.yields p q = false) (ratio : ℤ) :
      Step w .tau { w with pc := checkFrom p q.below, ratio := ratio }
  | back (q : Priority) (hpc : w.pc = .exit q) (h : w.pending q ≠ 0) :
      Step w .tau { w with pc := .sect q }
  | down (q q' : Priority) (hpc : w.pc = .exit q) (h : w.pending q = 0) (hq : q.below = some q') :
      Step w .tau { w with pc := .exit q' }
  | finished (hpc : w.pc = .exit .idle) (h : w.pending .idle = 0) :
      Step w .tau { w with wkStatus := .zero, pc := .finished }

/-- **Inversion.**  Every step of `next` is one of `Step`. -/
theorem next_step {w w' : Worker} {l : Label} (h : w.next = some (w', l)) : w.Step l w' := by
  unfold next at h
  split at h
  case h_1 hpc =>
    obtain ⟨rfl, rfl⟩ := by simpa using h
    split
    · exact .stopped hpc ‹_›
    · exact .enter hpc ‹_›
  case h_2 hpc =>
    split at h
    · obtain ⟨rfl, rfl⟩ := by simpa using h
      exact .sleep hpc ‹_›
    · obtain ⟨rfl, rfl⟩ := by simpa using h
      exact .pass hpc ‹_›
  case h_3 hpc =>
    obtain ⟨rfl, rfl⟩ := by simpa using h
    exact .wake hpc
  case h_4 p hpc =>
    obtain ⟨rfl, rfl⟩ := by simpa using h
    exact .splice p hpc
  case h_5 p hpc =>
    split at h
    case h_1 hev =>
      obtain ⟨rfl, rfl⟩ := by simpa using h
      exact .leave p hpc (.inl hev)
    case h_2 ev rest hev =>
      split at h
      · obtain ⟨rfl, rfl⟩ := by simpa using h
        exact .leave p hpc (.inr ⟨ev, rest, hev, ‹_›⟩)
      · split at h
        · cases h
        · obtain ⟨rfl, rfl⟩ := by simpa using h
          exact .start p ev rest hpc hev (by simpa using ‹¬ breaksAt p ev = true›) ‹_›
  case h_6 p ev hpc =>
    obtain ⟨rfl, rfl⟩ := by simpa using h
    exact .finish p ev hpc
  case h_7 p q hpc =>
    split at h
    · rename_i hy
      obtain ⟨rfl, rfl⟩ := by simpa using h
      exact .yield p q hpc hy.1 hy.2
    · rename_i hy
      obtain ⟨rfl, rfl⟩ := by simpa using h
      refine .resume p q hpc ?_ _
      by_cases hp : w.pending q = 0
      · exact .inl hp
      · exact .inr (by simpa [hp] using hy)
  case h_8 q hpc =>
    split at h
    · obtain ⟨rfl, rfl⟩ := by simpa using h
      exact .back q hpc ‹_›
    · split at h
      · obtain ⟨rfl, rfl⟩ := by simpa using h
        exact .down q _ hpc (by simpa using ‹¬ w.pending q ≠ 0›) ‹_›
      · obtain ⟨rfl, rfl⟩ := by simpa using h
        have hq : q = .idle := by
          cases q <;> first | rfl | cases ‹_ = none›
        subst hq
        exact .finished hpc (by simpa using ‹¬ w.pending _ ≠ 0›)
  case h_9 hpc => cases h

/-! ### Passes

A pass leads from the wait through the sections and loops of the classes; the
local list is empty outside it. -/

theorem checksUp_checkFrom (p : Priority) (q : Option Priority) : (checkFrom p q).ChecksUp := by
  unfold checkFrom
  split
  · split
    · assumption
    · trivial
  · trivial

theorem inPass_checkFrom (p : Priority) (q : Option Priority) : (checkFrom p q).InPass := by
  unfold checkFrom
  split
  · split <;> trivial
  · trivial

/-- The local list is empty outside a pass, and a loop only reads counters above
its class. -/
structure Placed (w : Worker) : Prop where
  inPass : w.events ≠ [] → w.pc.InPass
  checksUp : w.pc.ChecksUp

theorem Placed.events_eq_nil {w : Worker} (hw : w.Placed) (h : ¬ w.pc.InPass) : w.events = [] :=
  not_not.1 (mt hw.inPass h)

theorem Placed.step {w w' : Worker} {l : Label} (hw : w.Placed) (h : w.Step l w') : w'.Placed := by
  cases h with
  | splice r hpc => exact ⟨fun _ => trivial, trivial⟩
  | leave r hpc hev =>
    unfold afterLoop
    split
    · exact ⟨fun _ => trivial, trivial⟩
    · rename_i hr
      -- only the `idle` loop leads to the test, and it takes every event
      obtain rfl : r = .idle := by cases r <;> first | rfl | cases hr
      rcases hev with hev | ⟨ev, rest, _, hb⟩
      · exact ⟨fun h => absurd hev h, trivial⟩
      · cases hb
  | start r ev rest hpc _ _ _ => exact ⟨fun _ => trivial, trivial⟩
  | finish r ev hpc =>
    exact ⟨fun _ => inPass_checkFrom r (some .crit), checksUp_checkFrom r (some .crit)⟩
  | yield r q hpc _ _ => exact ⟨fun _ => trivial, trivial⟩
  | resume r q hpc _ ratio =>
    exact ⟨fun _ => inPass_checkFrom r q.below, checksUp_checkFrom r q.below⟩
  | pass hpc _ | wake hpc | back q hpc _ => exact ⟨fun _ => trivial, trivial⟩
  | stopped hpc _ | enter hpc _ | sleep hpc _ | down q q' hpc _ _ | finished hpc _ =>
    exact ⟨fun h => absurd (hw.events_eq_nil (by rw [hpc]; exact id)) h, trivial⟩

theorem placed_start : start.Placed := ⟨fun h => absurd rfl h, trivial⟩

theorem Placed.signal {w : Worker} (hw : w.Placed) : w.signal.Placed := by
  unfold Worker.signal
  split <;> exact ⟨hw.inPass, hw.checksUp⟩

/-! ### The events a worker holds -/

/-- The events in the five queues and in the local list. -/
def held (w : Worker) : Multiset EdpEvent :=
  w.queue .crit + w.queue .emrg + w.queue .high + w.queue .norm + w.queue .idle + w.events

/-- Splicing moves events and keeps them. -/
theorem held_splice (w : Worker) (p : Priority) : (w.splice p).held = w.held := by
  cases p <;> simp [held, splice, splicesFront, -Multiset.coe_add, ← Multiset.coe_add] <;> abel

/-- The locked section of a dispatch adds its event. -/
theorem held_enqueue (w : Worker) (p : Priority) (ev : EdpEvent) :
    (w.enqueue p ev).held = {ev} + w.held := by
  cases p <;>
    simp [held, enqueue, -Multiset.coe_add, ← Multiset.coe_add, -Multiset.singleton_add] <;> abel

@[simp] theorem held_signal (w : Worker) : w.signal.held = w.held := by
  unfold signal
  split <;> rfl

@[simp] theorem held_stop (w : Worker) : w.stop.held = w.held := rfl

/-- A worker is replaced by one that holds the same events. -/
theorem held_update {n : ℕ} (workers : Fin n → Worker) {i : Fin n} {w : Worker}
    (hw : w.held = (workers i).held) (j : Fin n) :
    (Function.update workers i w j).held = (workers j).held := by
  by_cases hj : j = i
  · subst hj
    rw [Function.update_self, hw]
  · rw [Function.update_of_ne hj]

/-- The events that a label takes from the worker. -/
def Label.started : Label → Multiset EdpEvent
  | .start ev => {ev}
  | .tau => 0
  | .finish _ => 0

/-- **A worker only loses the event whose handler it starts.** -/
theorem Step.held {w w' : Worker} {l : Label} (h : w.Step l w') : w.held = l.started + w'.held := by
  cases h with
  | splice p hpc => simp [held_splice, Label.started]
  | start p ev rest hpc hev hb hh =>
    simp only [Worker.held, hev, ← Multiset.cons_coe, ← Multiset.singleton_add, Label.started]
    abel
  | _ => exact (zero_add _).symm

theorem Step.mem_held {w w' : Worker} {ev : EdpEvent} (h : w.Step (.start ev) w') :
    ev ∈ w.held := by
  rw [h.held]
  exact Multiset.mem_add.2 (.inl (Multiset.mem_singleton_self ev))

theorem Step.held_subset {w w' : Worker} {l : Label} (h : w.Step l w') {ev : EdpEvent}
    (hev : ev ∈ w'.held) : ev ∈ w.held := by
  rw [h.held]
  exact Multiset.mem_add.2 (.inr hev)

/-! ### The counters -/

/-- Each counter is the length of its queue. -/
def Counted (w : Worker) : Prop := ∀ p, w.pending p = (w.queue p).length

theorem counted_start : start.Counted := fun _ => rfl

theorem Counted.enqueue {w : Worker} (h : w.Counted) (p : Priority) (ev : EdpEvent) :
    (w.enqueue p ev).Counted := by
  intro q
  by_cases hq : q = p
  · subst hq
    simp [Worker.enqueue, h q]
  · simp [Worker.enqueue, hq, h q]

theorem Counted.signal {w : Worker} (h : w.Counted) : w.signal.Counted := by
  unfold Worker.signal
  split <;> exact h

theorem Counted.step {w w' : Worker} {l : Label} (hw : w.Counted) (h : w.Step l w') :
    w'.Counted := by
  cases h with
  | splice p hpc =>
    intro q
    by_cases hq : q = p
    · subst hq
      simp [Worker.splice]
    · simp [Worker.splice, hq, hw q]
  | _ => exact hw

/-- A counter is zero exactly when its queue is empty. -/
theorem Counted.pending_eq_zero {w : Worker} (h : w.Counted) {p : Priority} :
    w.pending p = 0 ↔ w.queue p = [] := by
  rw [h p, List.length_eq_zero_iff]

end Worker
end EdpIo
