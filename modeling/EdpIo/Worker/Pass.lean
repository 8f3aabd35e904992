/-
# A pass comes to its end

From the return of `__spi_convar_wait` to the next call of it `worker_routine` goes down
through the sections and loops of the classes and, after a handler, back to a label if a
counter above is not zero.  Neither the place nor a list decreases along the way, but the
events held do when a handler starts, and between two starts the worker only goes on: through
the counters, back to a label at most once, and down.  So each event is worth more than the
way from one start to the next (`Worker.weight`), a step of the worker decreases the weight
(`Step.weight_lt`) and only a dispatch increases it.

At the end every event that was queued has been executed once.  An event that a handler
dispatches may be left in its queue, as when a `NORM` event's handler dispatches a `NORM`
event and no `IDLE` event follows (`pass_leaves_event`); the latch is set by then, so the wait
returns at once and the next pass begins with that event (`pass_terminates`).
-/

import EdpIo.Worker.Drain
import EdpIo.Worker.Order
import EdpIo.Worker.Wakeup

namespace EdpIo

/-- In a pass, up to the call of the wait. -/
def Pc.InTurn (pc : Pc) : Prop := pc.InPass ∨ pc = .head

/-- The longest way from a place to the end of the pass if no handler starts; in a loop that
checks the counters the way goes through the label of the highest class. -/
def Pc.rank : Pc → ℕ
  | .head => 1
  | .loop p => 2 * p.toNat + 2
  | .sect p => 2 * p.toNat + 3
  | .check _ q => 12 + q.toNat
  | .running _ _ => 17
  | .wait | .blocked | .exit _ | .finished => 0

namespace Worker

theorem rank_afterLoop (p : Priority) : (afterLoop p).rank < 2 * p.toNat + 2 := by
  cases p <;> decide

/-- The next counter to be read is below the one before. -/
theorem rank_checkFrom (p : Priority) {q : Option Priority} {n : ℕ}
    (hq : ∀ r, q = some r → r.toNat < n) : (checkFrom p q).rank < 12 + n := by
  have hp := p.toNat_le
  unfold checkFrom
  split
  · rename_i r
    have hr := hq r rfl
    split <;> simp only [Pc.rank] <;> omega
  · simp only [Pc.rank]
    omega

/-- What is left to do: an event weighs more than the way between two starts. -/
def weight (w : Worker) : ℕ := 18 * w.held.card + w.pc.rank

theorem weight_enqueue (w : Worker) (p : Priority) (ev : EdpEvent) :
    (w.enqueue p ev).weight = w.weight + 18 := by
  have hpc : (w.enqueue p ev).pc = w.pc := rfl
  rw [weight, weight, held_enqueue, hpc, Multiset.card_add, Multiset.card_singleton]
  omega

theorem weight_signal (w : Worker) : w.signal.weight = w.weight := by
  rw [weight, weight, held_signal, signal_pc]

section

variable {w w' : Worker} {l : Label}

/-- In a pass the worker stays in it until it calls the wait, and nothing stops it. -/
theorem Step.inTurn (h : w.Step l w') (hpc : w.pc.InTurn) (hst : w.wkStatus ≠ .stop) :
    (w'.pc.InTurn ∨ w'.pc = .wait) ∧ w'.wkStatus = w.wkStatus ∧ w'.cvCount = w.cvCount := by
  unfold Pc.InTurn at hpc
  cases h with
  | stopped _ h => exact absurd h hst
  | enter _ _ => exact ⟨.inr rfl, rfl, rfl⟩
  | splice p _ => exact ⟨.inl (.inl trivial), rfl, rfl⟩
  | leave p _ _ =>
    refine ⟨.inl ?_, rfl, rfl⟩
    cases p
    · exact .inr rfl
    all_goals exact .inl trivial
  | start p ev rest _ _ _ _ => exact ⟨.inl (.inl trivial), rfl, rfl⟩
  | finish p ev _ => exact ⟨.inl (.inl (inPass_checkFrom p (some .crit))), rfl, rfl⟩
  | yield p q _ _ _ => exact ⟨.inl (.inl trivial), rfl, rfl⟩
  | resume p q _ _ ratio => exact ⟨.inl (.inl (inPass_checkFrom p q.below)), rfl, rfl⟩
  | sleep h _ | pass h _ | wake h | back _ h _ | down _ _ h _ _ | finished h _ =>
    exact absurd hpc (by simp [Pc.InPass, h])

/-- **A step of the pass decreases the weight.** -/
theorem Step.weight_lt (h : w.Step l w') (hpc : w.pc.InTurn) (hst : w.wkStatus ≠ .stop) :
    w'.weight < w.weight := by
  have hheld := congrArg Multiset.card h.held
  rw [Multiset.card_add] at hheld
  have hrank : w'.pc.rank < 18 * l.started.card + w.pc.rank := by
    unfold Pc.InTurn at hpc
    cases h with
    | stopped _ h => exact absurd h hst
    | enter hpc _ =>
      rw [hpc]
      exact Nat.zero_lt_one
    | splice p hpc =>
      rw [hpc]
      simp only [Worker.splice, Pc.rank]
      omega
    | leave p hpc _ =>
      rw [hpc]
      have hlt := rank_afterLoop p
      show (afterLoop p).rank < 18 * 0 + (2 * p.toNat + 2)
      omega
    | start p ev rest hpc _ _ _ =>
      rw [hpc]
      simp only [Label.started, Multiset.card_singleton, Pc.rank]
      omega
    | finish p ev hpc =>
      rw [hpc]
      have hlt := rank_checkFrom p (q := some .crit) (n := 5) (by rintro _ ⟨⟩; decide)
      show (checkFrom p (some .crit)).rank < 18 * 0 + 17
      omega
    | yield p q hpc _ _ =>
      rw [hpc]
      have hq := q.toNat_le
      simp only [Pc.rank]
      omega
    | resume p q hpc _ ratio =>
      rw [hpc]
      have hlt := rank_checkFrom p (q := q.below) (n := q.toNat) fun r hr => by
        rw [Priority.toNat_of_below hr]
        exact Nat.lt_succ_self _
      show (checkFrom p q.below).rank < 18 * 0 + (12 + q.toNat)
      omega
    | sleep h _ | pass h _ | wake h | back _ h _ | down _ _ h _ _ | finished h _ =>
      exact absurd hpc (by simp [Pc.InPass, h])
  unfold weight
  omega

/-- In a pass of events that have handlers the worker has a next step. -/
theorem next_ne_none (hpc : w.pc.InTurn) (hh : ∀ ev ∈ w.held, ev.evHandler ≠ 0) :
    w.next ≠ none := by
  unfold Pc.InTurn at hpc
  unfold next
  split
  case h_5 p hp =>
    split
    · simp
    · rename_i ev rest hev
      have hmem : ev ∈ w.held := by simp [held, hev]
      split
      · simp
      · simp [hh ev hmem]
  case h_9 hp => exact absurd hpc (by simp [Pc.InPass, hp])
  case h_2 hp => split <;> simp
  case h_7 p q hp => split <;> simp
  case h_8 q hp =>
    split
    · simp
    · split <;> simp
  all_goals simp

end

end Worker

/-! ### Runs of a pass -/

/-- Dispatches of `a` to the queue of `p` that have passed their locked section. -/
def queuedIn (p : Priority) (a : ℕ) (hist : List Obs) : ℕ :=
  hist.countP fun o => match o with | .queued ev => ev.addr = a ∧ ev.class? = some p | _ => false

theorem queuedIn_append (p : Priority) (a : ℕ) (l h : List Obs) :
    queuedIn p a (l ++ h) = queuedIn p a l + queuedIn p a h := List.countP_append

@[simp] theorem queuedIn_queued (p : Priority) (a : ℕ) (ev : EdpEvent) (h : List Obs) :
    queuedIn p a (.queued ev :: h) =
      queuedIn p a h + if ev.addr = a ∧ ev.class? = some p then 1 else 0 := by
  simp [queuedIn, List.countP_cons]

@[simp] theorem queuedIn_returned (p : Priority) (a : ℕ) (ev : EdpEvent) (h : List Obs) :
    queuedIn p a (.returned ev :: h) = queuedIn p a h := by
  simp [queuedIn]

@[simp] theorem queuedIn_obs (p : Priority) (a : ℕ) (l : Worker.Label) :
    queuedIn p a l.obs = 0 := by
  cases l <;> rfl

/-- Each dispatch goes to one queue. -/
theorem queuedIn_add_le (a : ℕ) (hist : List Obs) :
    queuedIn .crit a hist + queuedIn .emrg a hist + queuedIn .high a hist +
      queuedIn .norm a hist + queuedIn .idle a hist ≤ queuedCount a hist := by
  induction hist with
  | nil => exact le_refl 0
  | cons o hist ih =>
    cases o with
    | queued ev =>
      simp only [queuedIn_queued, queuedCount_queued]
      by_cases ha : ev.addr = a
      · cases hp : ev.class? with
        | none => simp [ha]; omega
        | some p => cases p <;> simp [ha] <;> omega
      · simpa [ha] using ih
    | returned ev => simpa using ih
    | started ev => simpa [queuedIn, queuedCount] using ih
    | finished ev => simpa [queuedIn, queuedCount] using ih

namespace WorkerSys

/-- Whether the step is a dispatch that succeeds. -/
def Act.queues : Act → Bool
  | .dispatch ev => ev.class?.isSome
  | .work | .signal _ | .stop => false

/-- The pass is not at its end, nobody dispatches but the handlers, events that have
handlers themselves, and a handler returns when its dispatches have. -/
def Alone (s : WorkerSys) : Act → Prop
  | .work => s.worker.pc ≠ .wait ∧ (s.worker.pc.inHandler = true → s.signalling = [])
  | .dispatch ev => s.worker.pc.inHandler = true ∧ ev.evHandler ≠ 0
  | .signal _ => True
  | .stop => False

instance (s : WorkerSys) : (a : Act) → Decidable (s.Alone a)
  | .work => inferInstanceAs (Decidable (_ ∧ (_ → _)))
  | .dispatch _ => inferInstanceAs (Decidable (_ ∧ _))
  | .signal _ => inferInstanceAs (Decidable True)
  | .stop => inferInstanceAs (Decidable False)

/-- The wait has returned: whatever the queues hold has a handler, the local list is empty,
and nobody is dispatching. -/
structure Entering (s : WorkerSys) : Prop where
  place : s.worker.pc = .sect .crit
  events : s.worker.events = []
  counted : s.worker.Counted
  status : s.worker.wkStatus ≠ .stop
  signalling : s.signalling = []
  handlers : ∀ ev ∈ s.worker.held, ev.evHandler ≠ 0

/-- What a pass that `s` entered keeps; `new` is its record. -/
structure Passing (s t : WorkerSys) (new : List Obs) : Prop where
  hist : t.hist = new ++ s.hist
  place : t.worker.pc.InTurn ∨ t.worker.pc = .wait
  status : t.worker.wkStatus ≠ .stop
  counted : t.worker.Counted
  awake : t.Awake
  handlers : ∀ ev ∈ t.worker.held, ev.evHandler ≠ 0
  alone : t.worker.pc.inHandler = false → t.signalling = []
  queued : ∀ a, calledCount a new + t.worker.places a = s.worker.places a + queuedCount a new
  called : ∀ a, calledCount a new = finishedCount a new + t.worker.pc.handling a
  /-- A queue whose section has been taken holds what was dispatched since. -/
  behind : ∀ p, t.worker.pc.Ahead p ∨
    ∀ a, occurrences a (t.worker.queue p) ≤ queuedIn p a new

/-- What the wait returns from, in any run, is entered like that. -/
theorem entering_of_return {acts : List Act} {s t : WorkerSys}
    (hrun : StepSystem.run step init acts = some s)
    (hpc : s.worker.pc = .wait ∨ s.worker.pc = .blocked) (ht : step s .work = some t)
    (hret : t.worker.pc = .sect .crit) (hst : s.worker.wkStatus ≠ .stop)
    (hsig : s.signalling = []) (hh : ∀ ev ∈ s.worker.held, ev.evHandler ≠ 0) : t.Entering := by
  have hcounted : s.worker.Counted :=
    StepSystem.run_preserves (fun _ _ _ hs h => counted_step hs h) Worker.counted_start hrun
  have hplaced : s.worker.Placed :=
    StepSystem.run_preserves (fun _ _ _ hs h => placed_step hs h) Worker.placed_start hrun
  have hevents : s.worker.events = [] := hplaced.events_eq_nil (by
    rcases hpc with hpc | hpc <;>
    · rw [hpc]
      exact id)
  cases step_cases ht with
  | work l w hw =>
    cases hw with
    | pass _ _ | wake _ => exact ⟨rfl, hevents, hcounted, hst, hsig, hh⟩
    | sleep _ _ => cases hret
    | stopped h _ | enter h _ | splice _ h | leave _ h _ | start _ _ _ h _ _ _ | finish _ _ h
    | yield _ _ h _ _ | resume _ _ h _ _ | back _ h _ | down _ _ h _ _ | finished h _ =>
      rcases hpc with hpc | hpc <;> cases h.symm.trans hpc

theorem Entering.passing {s : WorkerSys} (hs : s.Entering) : Passing s s [] where
  hist := rfl
  place := .inl (.inl (by rw [hs.place]; trivial))
  status := hs.status
  counted := hs.counted
  awake :=
    { noticed := fun p _ => .inl (.inl (by rw [hs.place]; exact Priority.le_crit p))
      placed := ⟨fun h => absurd hs.events h, by rw [hs.place]; trivial⟩ }
  handlers := hs.handlers
  alone _ := hs.signalling
  queued a := by simp [calledCount, queuedCount]
  called a := by
    rw [hs.place]
    rfl
  behind p := .inl (by rw [hs.place]; exact Priority.le_crit p)

section

variable {s t u : WorkerSys} {new : List Obs} {a : Act}

/-- The worker's own step in a pass. -/
theorem Passing.work (ht : Passing s t new) (ha : t.Alone .work) {l : Worker.Label} {w : Worker}
    (hw : t.worker.Step l w) (hu : step t .work = some ⟨w, t.signalling, l.obs ++ t.hist⟩) :
    Passing s ⟨w, t.signalling, l.obs ++ t.hist⟩ (l.obs ++ new) := by
  have hturn : t.worker.pc.InTurn := ht.place.resolve_right ha.1
  obtain ⟨hplace, hstatus, -⟩ := hw.inTurn hturn ht.status
  have hsig : t.signalling = [] := by
    cases hin : t.worker.pc.inHandler with
    | false => exact ht.alone hin
    | true => exact ha.2 hin
  refine ⟨?_, hplace, ?_, ht.counted.step hw, ht.awake.step hu, ?_, fun _ => hsig, fun a => ?_,
    fun a => ?_, fun p => ?_⟩
  · rw [ht.hist, List.append_assoc]
  · show w.wkStatus ≠ .stop
    rw [hstatus]
    exact ht.status
  · exact fun ev hev => ht.handlers ev (hw.held_subset hev)
  · have hplaces := hw.places a
    have hqueued := ht.queued a
    simp only [calledCount_append, queuedCount_append, queuedCount_obs]
    omega
  · have hhandling := hw.handling a
    have hcalled := ht.called a
    simp only [calledCount_append, finishedCount_append]
    omega
  · by_cases hq : w.queue p = []
    · refine .inr fun a => ?_
      show occurrences a (w.queue p) ≤ _
      rw [hq]
      exact Nat.zero_le _
    · rcases ht.behind p with hp | hle
      · exact .inl (hw.ahead ht.awake.placed hp hq)
      · refine .inr fun a => ?_
        show occurrences a (w.queue p) ≤ _
        rw [hw.queue_eq hq, queuedIn_append, queuedIn_obs, Nat.zero_add]
        exact hle a

/-- The locked section of a handler's dispatch. -/
theorem Passing.dispatch (ht : Passing s t new) {ev : EdpEvent} (ha : t.Alone (.dispatch ev))
    {p : Priority} (hp : ev.class? = some p) :
    Passing s ⟨t.worker.enqueue p ev, ev :: t.signalling, .queued ev :: t.hist⟩
      (.queued ev :: new) := by
  have hu : step t (.dispatch ev) =
      some ⟨t.worker.enqueue p ev, ev :: t.signalling, .queued ev :: t.hist⟩ := by
    rw [step, hp]
  refine ⟨by rw [ht.hist]; rfl, ht.place, ht.status, ht.counted.enqueue p ev, ht.awake.step hu,
    fun e he => ?_, fun hin => ?_, fun a => ?_, fun a => ?_, fun q => ?_⟩
  · rw [Worker.held_enqueue] at he
    rcases Multiset.mem_add.1 he with he | he
    · rw [Multiset.mem_singleton.1 he]
      exact ha.2
    · exact ht.handlers e he
  · exact absurd (ha.1.symm.trans hin) (by decide)
  · have hqueued := ht.queued a
    simp only [calledCount_queued, queuedCount_queued, Worker.places_enqueue]
    omega
  · simpa [finishedCount, Worker.enqueue] using ht.called a
  · rcases ht.behind q with hq | hle
    · exact .inl hq
    · refine .inr fun a => ?_
      have hle := hle a
      rw [queuedIn_queued]
      by_cases hqp : q = p
      · subst hqp
        simp only [Worker.enqueue, Function.update_self, occurrences, List.countP_append,
          List.countP_singleton, hp, and_true] at hle ⊢
        simp only [decide_eq_true_eq]
        omega
      · simp only [Worker.enqueue, Function.update_of_ne hqp]
        omega

/-- The signal of a handler's dispatch. -/
theorem Passing.signal (ht : Passing s t new) {ev : EdpEvent} (hev : ev ∈ t.signalling) :
    Passing s ⟨t.worker.signal, t.signalling.erase ev, .returned ev :: t.hist⟩
      (.returned ev :: new) := by
  have hu : step t (.signal ev) =
      some ⟨t.worker.signal, t.signalling.erase ev, .returned ev :: t.hist⟩ := if_pos hev
  refine ⟨by rw [ht.hist]; rfl, ?_, ?_, ht.counted.signal, ht.awake.step hu, ?_, fun hin => ?_,
    fun a => ?_, fun a => ?_, fun p => ?_⟩
  · simpa using ht.place
  · simpa using ht.status
  · simpa using ht.handlers
  · have hnil := ht.alone (by simpa using hin)
    rw [hnil] at hev
    exact absurd hev List.not_mem_nil
  · have hqueued := ht.queued a
    simpa [Worker.places_eq] using hqueued
  · simpa [finishedCount] using ht.called a
  · simpa using ht.behind p

/-- Every step of the pass. -/
theorem Passing.step (ht : Passing s t new) (ha : t.Alone a) (hu : WorkerSys.step t a = some u) :
    ∃ new', Passing s u new' := by
  cases step_cases hu with
  | work l w hw => exact ⟨_, ht.work ha hw hu⟩
  | refused ev _ => exact ⟨new, ht⟩
  | dispatch ev p hp => exact ⟨_, ht.dispatch ha hp⟩
  | signal ev hev => exact ⟨_, ht.signal hev⟩
  | stop => exact ha.elim

/-- A step of the worker takes from the weight, and a dispatch that succeeds adds to it. -/
theorem Passing.weight_step (ht : Passing s t new) (ha : t.Alone a)
    (hu : WorkerSys.step t a = some u) :
    (if a = .work then 1 else 0) + u.worker.weight ≤
      t.worker.weight + 18 * if a.queues then 1 else 0 := by
  cases step_cases hu with
  | work l w hw =>
    have hlt := hw.weight_lt (ht.place.resolve_right ha.1) ht.status
    show 1 + w.weight ≤ t.worker.weight + 18 * 0
    omega
  | refused ev _ => simp
  | dispatch ev p hp =>
    have hw := Worker.weight_enqueue t.worker p ev
    simp [Act.queues, hp, hw]
  | signal ev _ => simp [Worker.weight_signal]
  | stop => exact ha.elim

/-- **The steps of the worker are bounded** by the weight and the dispatches. -/
theorem Passing.work_le {acts : List Act} (ht : Passing s t new)
    (ha : StepSystem.Meets WorkerSys.step Alone t acts)
    (hrun : StepSystem.run WorkerSys.step t acts = some u) :
    acts.count .work + u.worker.weight ≤ t.worker.weight + 18 * acts.countP Act.queues := by
  induction acts generalizing t new with
  | nil =>
    obtain rfl := Option.some.inj hrun
    simp
  | cons a acts ih =>
    obtain ⟨v, hv, hrun⟩ := StepSystem.run_cons.1 hrun
    obtain ⟨ha, hacts⟩ := ha
    rw [hv] at hacts
    obtain ⟨new', hnew⟩ := ht.step ha hv
    have hle := ih hnew hacts hrun
    have hstep := ht.weight_step ha hv
    rw [List.count_cons, List.countP_cons]
    simp only [beq_iff_eq]
    omega

/-- Where the pass has not ended, it has a step that is no dispatch: the signal of a dispatch
that the handler has made, or the worker's own. -/
theorem Passing.exists_step (ht : Passing s t new) (hpc : t.worker.pc ≠ .wait) :
    ∃ a u, t.Alone a ∧ a.queues = false ∧ WorkerSys.step t a = some u ∧
      u.worker.weight + u.signalling.length < t.worker.weight + t.signalling.length := by
  have hturn : t.worker.pc.InTurn := ht.place.resolve_right hpc
  cases hsig : t.signalling with
  | nil =>
    cases hnext : t.worker.next with
    | none => exact absurd hnext (Worker.next_ne_none hturn ht.handlers)
    | some r =>
      refine ⟨.work, ⟨r.1, t.signalling, r.2.obs ++ t.hist⟩, ⟨hpc, fun _ => hsig⟩, rfl, ?_, ?_⟩
      · simp [WorkerSys.step, hnext]
      · have hlt := (Worker.next_step hnext).weight_lt hturn ht.status
        show r.1.weight + t.signalling.length < _
        rw [hsig]
        omega
  | cons ev evs =>
    have hev : ev ∈ t.signalling := by
      rw [hsig]
      exact List.mem_cons_self
    refine ⟨.signal ev, _, trivial, rfl, if_pos hev, ?_⟩
    show t.worker.signal.weight + (t.signalling.erase ev).length < _
    rw [Worker.weight_signal, hsig]
    simp

/-- **The pass can always be brought to its end** without another dispatch. -/
theorem Passing.exists_end (ht : Passing s t new) :
    ∃ rest u, StepSystem.Meets WorkerSys.step Alone t rest ∧ rest.countP Act.queues = 0 ∧
      StepSystem.run WorkerSys.step t rest = some u ∧ u.worker.pc = .wait := by
  induction hn : t.worker.weight + t.signalling.length using Nat.strong_induction_on
    generalizing t new with
  | h n ih =>
    by_cases hpc : t.worker.pc = .wait
    · exact ⟨[], t, trivial, rfl, rfl, hpc⟩
    · obtain ⟨a, v, ha, hq, hv, hlt⟩ := ht.exists_step hpc
      obtain ⟨new', hnew⟩ := ht.step ha hv
      obtain ⟨rest, u, hrest, hcount, hrun, hend⟩ := ih _ (hn ▸ hlt) hnew rfl
      refine ⟨a :: rest, u, ⟨ha, ?_⟩, ?_, StepSystem.run_cons.2 ⟨v, hv, hrun⟩, hend⟩
      · rw [hv]
        exact hrest
      · rw [List.countP_cons, hcount, hq]
        rfl

/-- **What a pass has done** when the worker calls the wait: it has executed all it found in the
queues, and the dispatches of its handlers but those left in their queues, which the next
pass begins with at once. -/
structure Ended (s t : WorkerSys) (new : List Obs) : Prop where
  hist : t.hist = new ++ s.hist
  events : t.worker.events = []
  found : ∀ a, s.worker.places a ≤ finishedCount a new
  executed : ∀ a, finishedCount a new + t.worker.places a = s.worker.places a + queuedCount a new
  dispatched : ∀ a, t.worker.places a ≤ queuedCount a new
  again : (∃ p, t.worker.queue p ≠ []) → ∃ u, WorkerSys.step t .work = some u ∧ u.Entering ∧
    u.worker.queue = t.worker.queue

theorem Passing.ended (ht : Passing s t new) (hpc : t.worker.pc = .wait) : Ended s t new := by
  have hevents : t.worker.events = [] := ht.awake.placed.events_eq_nil (by rw [hpc]; exact id)
  have hbehind (p : Priority) (a : ℕ) :
      occurrences a (t.worker.queue p) ≤ queuedIn p a new := by
    rcases ht.behind p with h | h
    · rw [hpc] at h
      exact h.elim
    · exact h a
  have hsig : t.signalling = [] := ht.alone (by rw [hpc]; rfl)
  have hexecuted (a : ℕ) :
      finishedCount a new + t.worker.places a = s.worker.places a + queuedCount a new := by
    have hcalled := ht.called a
    rw [hpc] at hcalled
    have hqueued := ht.queued a
    simp only [Pc.handling] at hcalled
    omega
  have hdispatched (a : ℕ) : t.worker.places a ≤ queuedCount a new := by
    refine le_trans ?_ (queuedIn_add_le a new)
    have hnil : occurrences a t.worker.events = 0 := by
      rw [hevents]
      rfl
    unfold Worker.places
    have h4 := hbehind .crit a
    have h3 := hbehind .emrg a
    have h2 := hbehind .high a
    have h1 := hbehind .norm a
    have h0 := hbehind .idle a
    omega
  refine ⟨ht.hist, hevents, fun a => ?_, hexecuted, hdispatched, ?_⟩
  · have hleft := hdispatched a
    have hdone := hexecuted a
    omega
  · rintro ⟨p, hp⟩
    have hcv : t.worker.cvCount ≠ 0 := by
      rcases ht.awake.noticed p hp with (h | h) | h
      · rw [hpc] at h
        exact h.elim
      · exact h
      · exact absurd hsig h
    refine ⟨⟨{ t.worker with cvCount := 0, pc := .sect .crit }, t.signalling, t.hist⟩, ?_, ?_, rfl⟩
    · simp [WorkerSys.step, Worker.next, hpc, hcv, Worker.Label.obs]
    · exact ⟨rfl, hevents, ht.counted, ht.status, hsig, ht.handlers⟩

end

/-- **A pass comes to its end.**  From the return of the wait with any contents of the queues,
while nobody but the worker's own handlers dispatches to it: the steps of the worker are
bounded by a number that depends only on the events it found and on the dispatches that
succeed, it can always go on until it calls the wait, and when it does, all is executed as
`Ended` says. -/
theorem pass_terminates {s t : WorkerSys} (hs : s.Entering) {acts : List Act}
    (ha : StepSystem.Meets step Alone s acts) (hrun : StepSystem.run step s acts = some t) :
    acts.count .work ≤ 18 * (s.worker.held.card + acts.countP Act.queues) + 11 ∧
      (∃ rest u, StepSystem.Meets step Alone t rest ∧ rest.countP Act.queues = 0 ∧
        StepSystem.run step t rest = some u ∧ u.worker.pc = .wait) ∧
      (t.worker.pc = .wait → ∃ new, Ended s t new) := by
  have hle := hs.passing.work_le ha hrun
  have hweight : s.worker.weight = 18 * s.worker.held.card + 11 := by
    rw [Worker.weight, hs.place]
    rfl
  obtain ⟨new, ht⟩ : ∃ new, Passing s t new :=
    StepSystem.run_invariant (I := fun u => ∃ new, Passing s u new)
      (fun _ _ _ hu hC h => hu.elim fun _ hu => hu.step hC h) ⟨[], hs.passing⟩ ha hrun
  exact ⟨by omega, ht.exists_end, fun hpc => ⟨new, ht.ended hpc⟩⟩

/-- The wait has returned with one `NORM` event in its queue. -/
def oneNorm : WorkerSys where
  worker := { Worker.start.enqueue .norm ⟨7, 0, 1, -1, 0, 0, 0, 1⟩ with pc := .sect .crit }
  signalling := []
  hist := []

theorem entering_oneNorm : oneNorm.Entering where
  place := rfl
  events := rfl
  counted := Worker.counted_start.enqueue .norm _
  status := by decide
  signalling := rfl
  handlers := by simp [oneNorm, Worker.held, Worker.enqueue, Worker.start]

/-- The pass that executes the event. -/
theorem pass_terminates_norm :
    ∃ t, StepSystem.run step oneNorm (List.replicate 16 .work) = some t ∧
      ∃ new, Ended oneNorm t new :=
  have hrun := Eq.refl (StepSystem.run step oneNorm (List.replicate 16 .work))
  ⟨_, hrun, (pass_terminates entering_oneNorm (by decide) hrun).2.2 rfl⟩

/-- **An event left for the next pass.**  The handler of the `NORM` event dispatches
another. -/
theorem pass_leaves_event :
    ¬ ∀ (s t : WorkerSys) (acts : List Act), s.Entering → StepSystem.Meets step Alone s acts →
      StepSystem.run step s acts = some t → t.worker.pc = .wait →
      ∀ a, ∃ new, t.hist = new ++ s.hist ∧
        finishedCount a new = s.worker.places a + queuedCount a new := by
  intro hall
  let acts : List Act := List.replicate 8 Act.work ++
    [Act.dispatch ⟨8, 0, 1, -1, 0, 0, 0, 1⟩, Act.signal ⟨8, 0, 1, -1, 0, 0, 0, 1⟩] ++
    List.replicate 8 Act.work
  obtain ⟨t, hrun, hpc, hhist⟩ : ∃ t, StepSystem.run step oneNorm acts = some t ∧
      t.worker.pc = .wait ∧ t.hist = [Obs.finished ⟨7, 0, 1, -1, 0, 0, 0, 1⟩,
        .returned ⟨8, 0, 1, -1, 0, 0, 0, 1⟩, .queued ⟨8, 0, 1, -1, 0, 0, 0, 1⟩,
        .started ⟨7, 0, 1, -1, 0, 0, 0, 1⟩] := ⟨_, rfl, rfl, rfl⟩
  obtain ⟨new, hnew, hall⟩ := hall oneNorm t acts entering_oneNorm (by decide) hrun hpc 8
  obtain rfl : t.hist = new := hnew.trans (List.append_nil new)
  rw [hhist] at hall
  exact absurd hall (by decide)

end WorkerSys
end EdpIo
