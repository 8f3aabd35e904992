/-
# How long an event waits

What may start before an event of class `p` does.  The loops below `p` read its
counter after every handler, so once the event is in its queue at most one handler of
a lower event is to start before the worker takes the section of `p`
(`Worker.Waiting`); from then on the event is in the local list.  The steps of the
worker keep that but for the start of a handler (`Worker.Step.waiting_of_start`),
which depends on what the loops take and is left to the classes.  `WaitsAt` and
`PromptAt` carry it to the stretches of the history between the queueing of an event
and its start.
-/

import EdpIo.Worker.System

namespace EdpIo

/-- Handlers of events below `p` that started. -/
def lowerStarts (p : Priority) (hist : List Obs) : ℕ :=
  hist.countP fun o => match o with | .started ev => ev.evPriority < p.toNat | _ => false

/-- From the moment an event of class `p` is queued until its handler starts, at most
one handler of a lower event starts: `l₂` is any stretch of the history after the
queueing that has no start of the event. -/
def PromptAt (p : Priority) (hist : List Obs) : Prop :=
  ∀ (c : EdpEvent) (l₃ l₂ l₁ : List Obs), c.evPriority = p.toNat →
    hist = l₃ ++ (l₂ ++ .queued c :: l₁) → .started c ∉ l₂ → lowerStarts p l₂ ≤ 1

/-- Where the worker comes to the section of `p` before it comes to a lower loop, as
long as its counter is not zero. -/
def Pc.Safe (p : Priority) : Pc → Prop
  | .sect q => p ≤ q
  | .loop q => p < q
  | .running q _ => q ≠ p
  | .check q r => q ≠ p ∧ p ≤ r
  | _ => False

theorem lowerStarts_append (p : Priority) (l h : List Obs) :
    lowerStarts p (l ++ h) = lowerStarts p l + lowerStarts p h := List.countP_append

theorem lowerStarts_started (p : Priority) (ev : EdpEvent) :
    lowerStarts p [.started ev] = if ev.evPriority < p.toNat then 1 else 0 := by
  simp [lowerStarts, List.countP_cons]

namespace Worker

theorem mem_splice_events {w : Worker} {p : Priority} {ev : EdpEvent} :
    ev ∈ (w.splice p).events ↔ ev ∈ w.queue p ∨ ev ∈ w.events := by
  unfold splice
  dsimp only
  split
  · exact List.mem_append
  · exact List.mem_append.trans or_comm

/-- The event `c` of class `p` waits, and `k` handlers of lower events have started
since it was queued: at most one, and none more can before the worker takes the
section of `p`. -/
def Waiting (w : Worker) (p : Priority) (c : EdpEvent) (k : ℕ) : Prop :=
  k ≤ 1 ∧ ((c ∈ w.queue p ∧ (k = 1 → w.pc.Safe p)) ∨ c ∈ w.events)

theorem waiting_enqueue {w : Worker} {p q : Priority} {c : EdpEvent} {k : ℕ} (ev : EdpEvent)
    (h : w.Waiting p c k) : (w.enqueue q ev).Waiting p c k := by
  obtain ⟨hk, ⟨hc, hs⟩ | hc⟩ := h
  · refine ⟨hk, .inl ⟨?_, hs⟩⟩
    by_cases hp : p = q
    · subst hp
      simp [enqueue, hc]
    · simpa [enqueue, hp] using hc
  · exact ⟨hk, .inr hc⟩

theorem waiting_signal {w : Worker} {p : Priority} {c : EdpEvent} {k : ℕ}
    (h : w.Waiting p c k) : w.signal.Waiting p c k := by
  unfold signal
  split <;> exact h

/-- With the section of `p` still to come, reading on towards its counter is safe. -/
theorem safe_checkFrom {p q r : Priority} (hne : q ≠ p) (hr : p ≤ r) :
    (checkFrom q (some r)).Safe p := by
  unfold checkFrom
  dsimp only
  split
  · exact ⟨hne, hr⟩
  · rename_i hqr
    exact lt_of_le_of_ne (le_trans hr (not_lt.1 hqr)) hne.symm

/-- Only the counter of `high` may be passed while it is not zero. -/
theorem yields_of_ne_high {w : Worker} {p q : Priority} (h : q ≠ .high) : w.yields p q = true := by
  cases p <;> cases q <;> first | rfl | exact absurd rfl h

/-- A step that moves nothing keeps the wait if its place is still safe. -/
theorem Waiting.move {w w' : Worker} {p : Priority} {c : EdpEvent} {k : ℕ}
    (hk : w.Waiting p c k) (hq : w'.queue = w.queue) (he : w'.events = w.events)
    (hs : c ∈ w.queue p → w.pc.Safe p → w'.pc.Safe p) : w'.Waiting p c k := by
  refine ⟨hk.1, ?_⟩
  rw [hq, he]
  exact hk.2.imp_left fun ⟨hc, h⟩ => ⟨hc, fun h1 => hs hc (h h1)⟩

/-- After the loop of `q` comes the section of the class below it. -/
theorem safe_afterLoop {p q : Priority} (h : p < q) : (afterLoop q).Safe p := by
  unfold afterLoop
  split
  · rename_i r hr
    exact (Priority.lt_iff_le_of_below hr).1 h
  · rename_i hr
    exact absurd h (Priority.not_lt_of_below hr)

/-- The counter of a class with an event in its queue is not passed. -/
theorem Counted.not_passed {w : Worker} (hw : w.Counted) {p q : Priority} (hp : p ≠ .high)
    {c : EdpEvent} (hc : c ∈ w.queue p) : ¬ (w.pending p = 0 ∨ w.yields q p = false) := by
  rintro (h | h)
  · rw [hw.pending_eq_zero.1 h] at hc
    cases hc
  · rw [yields_of_ne_high hp] at h
    cases h

/-- **One step.**  A waiting event goes on waiting as `Waiting` says through every step
of the worker that starts no handler, and through a start if the loops take what they
should. -/
theorem Step.waiting_of_start {w w' : Worker} {l : Label} (hc : w.Counted) (h : w.Step l w')
    {p : Priority} (hp : p ≠ .high) {c : EdpEvent} {k : ℕ} (hk : w.Waiting p c k)
    (hl : l ≠ .start c)
    (hstart : ∀ (q : Priority) (ev : EdpEvent) (rest : List EdpEvent), w.pc = .loop q →
      w.events = ev :: rest → breaksAt q ev = false → c ≠ ev →
      Waiting { w with events := rest, pc := .running q ev } p c
        (k + if ev.evPriority < p.toNat then 1 else 0)) :
    w'.Waiting p c (k + lowerStarts p l.obs) := by
  cases h with
  | start q ev rest hpc hev hb hh =>
    rw [Label.obs, lowerStarts_started]
    refine hstart q ev rest hpc hev hb ?_
    rintro rfl
    exact hl rfl
  | splice q hpc =>
    obtain ⟨hk1, hin⟩ := hk
    refine ⟨hk1, ?_⟩
    rw [mem_splice_events]
    rcases hin with ⟨hcq, hs⟩ | hce
    · by_cases hpq : p = q
      · subst hpq
        exact .inr (.inl hcq)
      · refine .inl ⟨by simpa [Worker.splice, hpq] using hcq, fun h1 => ?_⟩
        have h := hs h1
        rw [hpc] at h
        exact lt_of_le_of_ne h hpq
    · exact .inr (.inr hce)
  | leave q hpc _ =>
    refine hk.move rfl rfl fun _ hs => ?_
    rw [hpc] at hs
    exact safe_afterLoop hs
  | finish q ev hpc =>
    refine hk.move rfl rfl fun _ hs => ?_
    rw [hpc] at hs
    exact safe_checkFrom hs (Priority.le_crit p)
  | yield q r hpc _ _ =>
    refine hk.move rfl rfl fun _ hs => ?_
    rw [hpc] at hs
    exact hs.2
  | resume q r hpc hr ratio =>
    refine hk.move rfl rfl fun hcq hs => ?_
    rw [hpc] at hs
    obtain ⟨hne, hpr⟩ := hs
    -- the counter of `p` is not zero, so it was not the one read
    have hpr' : p ≠ r := by
      rintro rfl
      exact hc.not_passed hp hcq hr
    have hlt : p < r := lt_of_le_of_ne hpr hpr'
    show (checkFrom q r.below).Safe p
    cases hb : r.below with
    | some r' => exact safe_checkFrom hne ((Priority.lt_iff_le_of_below hb).1 hlt)
    | none => exact absurd hlt (Priority.not_lt_of_below hb)
  | stopped hpc _ | enter hpc _ | sleep hpc _ | pass hpc _ | wake hpc | back q hpc _
  | down q q' hpc _ _ | finished hpc _ =>
    refine hk.move rfl rfl fun _ hs => ?_
    rw [hpc] at hs
    exact hs.elim

end Worker

namespace WorkerSys

/-- Every event of class `p` that was queued and has not started since waits. -/
def WaitsAt (p : Priority) (s : WorkerSys) : Prop :=
  ∀ (c : EdpEvent) (l₂ l₁ : List Obs), c.evPriority = p.toNat →
    s.hist = l₂ ++ .queued c :: l₁ → .started c ∉ l₂ → s.worker.Waiting p c (lowerStarts p l₂)

theorem waitsAt_init (p : Priority) : WaitsAt p init := fun _ l₂ _ _ h => by simp [init] at h

theorem promptAt_init (p : Priority) : PromptAt p init.hist :=
  fun _ l₃ l₂ _ _ h => by simp [init] at h

/-- What one more record does to the stretches of the history. -/
theorem promptAt_cons {p : Priority} {o : Obs} {s t : WorkerSys} (hs : PromptAt p s.hist)
    (ht : t.WaitsAt p) (h : t.hist = o :: s.hist) : PromptAt p t.hist := by
  intro c l₃ l₂ l₁ hc heq hl
  cases l₃ with
  | nil => exact (ht c l₂ l₁ hc heq hl).1
  | cons o' l₃ =>
    rw [h] at heq
    exact hs c l₃ l₂ l₁ hc (List.cons.inj heq).2 hl

theorem WaitsAt.cons {p : Priority} {o : Obs} {s t : WorkerSys} (hs : s.WaitsAt p)
    (h : t.hist = o :: s.hist)
    (hstep : ∀ (c : EdpEvent) (k : ℕ), c.evPriority = p.toNat → o ≠ .started c →
      s.worker.Waiting p c k → t.worker.Waiting p c (k + lowerStarts p [o]))
    (hnew : ∀ c, o = .queued c → c.evPriority = p.toNat → c ∈ t.worker.queue p) :
    t.WaitsAt p := by
  intro c l₂ l₁ hc heq hl
  rw [h] at heq
  cases l₂ with
  | nil =>
    exact ⟨Nat.zero_le _,
      .inl ⟨hnew c (List.cons.inj heq).1 hc, fun h => absurd h Nat.zero_ne_one⟩⟩
  | cons o' l₂ =>
    obtain ⟨rfl, hl₂⟩ := List.cons.inj heq
    rw [List.mem_cons, not_or] at hl
    have hw := hstep c _ hc (Ne.symm hl.1) (hs c l₂ l₁ hc hl₂ hl.2)
    rwa [Nat.add_comm, ← lowerStarts_append] at hw

/-- **One step of the system**, if those of the worker keep the waits. -/
theorem WaitsAt.step {p : Priority} {s t : WorkerSys} {a : Act} (hs : s.WaitsAt p)
    (hp : PromptAt p s.hist) (h : WorkerSys.step s a = some t)
    (hwork : ∀ (l : Worker.Label) (w : Worker), a = .work → s.worker.Step l w →
      ∀ (c : EdpEvent) (k : ℕ), c.evPriority = p.toNat → l ≠ .start c →
        s.worker.Waiting p c k → w.Waiting p c (k + lowerStarts p l.obs)) :
    t.WaitsAt p ∧ PromptAt p t.hist := by
  cases step_cases h with
  | work l w hw =>
    cases l with
    | tau =>
      exact ⟨fun c l₂ l₁ hc heq hl => hwork .tau w rfl hw c _ hc (by simp) (hs c l₂ l₁ hc heq hl),
        hp⟩
    | start ev =>
      have ht : WaitsAt p ⟨w, s.signalling, [Obs.started ev] ++ s.hist⟩ :=
        hs.cons rfl (fun c k hc hne hk => hwork _ w rfl hw c k hc (by simpa using hne) hk)
          (fun c h => by cases h)
      exact ⟨ht, promptAt_cons hp ht rfl⟩
    | finish ev =>
      have ht : WaitsAt p ⟨w, s.signalling, [Obs.finished ev] ++ s.hist⟩ :=
        hs.cons rfl (fun c k hc _ hk => hwork _ w rfl hw c k hc (by simp) hk)
          (fun c h => by cases h)
      exact ⟨ht, promptAt_cons hp ht rfl⟩
  | refused ev _ => exact ⟨hs, hp⟩
  | dispatch ev q hq =>
    have hev := EdpEvent.class?_eq_some.1 hq
    have ht : WaitsAt p ⟨s.worker.enqueue q ev, ev :: s.signalling, .queued ev :: s.hist⟩ := by
      refine hs.cons rfl (fun _ _ _ _ hk => Worker.waiting_enqueue ev hk) fun c hce hc => ?_
      obtain rfl := Obs.queued.inj hce
      obtain rfl : q = p := Priority.toNat_injective (by omega)
      simp [Worker.enqueue]
    exact ⟨ht, promptAt_cons hp ht rfl⟩
  | signal ev _ =>
    have ht : WaitsAt p ⟨s.worker.signal, s.signalling.erase ev, .returned ev :: s.hist⟩ :=
      hs.cons rfl (fun _ _ _ _ hk => Worker.waiting_signal hk) (fun c h => by cases h)
    exact ⟨ht, promptAt_cons hp ht rfl⟩
  | stop => exact ⟨hs, hp⟩

end WorkerSys
end EdpIo
