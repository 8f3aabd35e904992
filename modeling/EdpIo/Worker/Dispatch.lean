/-
# Dispatching an event again

`__edp_dispatch` of `src/worker.c` as one call: the choice of a worker
(`WorkerData.pick`), the queue of the event's priority, the insertion under the
queue's lock and the signal to the worker.

An event whose `ev_cpuid` names a worker is meant to go to that worker again, and to
leave `wd_round` alone (`Pinned`).  The source compares `ev_cpuid` with `wd_round`, not
with the number of workers, so an event of a worker at or past the position of the
round is dealt out anew (`pick_kept_iff`).  `affinity_iff` puts this along a run: all
dispatches of the event go to its worker exactly when each finds `wd_round` past it,
or a single worker.
-/

import EdpIo.Worker.Model
import EdpIo.Worker.Round

namespace EdpIo

namespace WorkerData

/-- **When the choice follows `ev_cpuid`** and leaves `wd_round`: the event's worker is
below `wd_round`, or there is one worker. -/
theorem pick_kept_iff {wd : WorkerData} {ev : EdpEvent} (h0 : 0 ≤ ev.evCpuid)
    (hlt : ev.evCpuid < wd.wdThreadNum) (hr : 0 ≤ wd.wdRound)
    (hmax : wd.wdThreadNum < 2147483648) :
    (wd.pick ev).2.2 = wd ↔ ev.evCpuid < wd.wdRound ∨ wd.wdThreadNum = 1 := by
  by_cases hc : ev.evCpuid < wd.wdRound
  · rw [pick, if_pos ⟨h0, hc⟩]
    exact ⟨fun _ => Or.inl hc, fun _ => rfl⟩
  · rw [pick, if_neg fun h => hc h.2]
    have hnext : toInt (wd.wdRound + 1) = wd.wdRound + 1 := toInt_of_lt (by omega) (by omega)
    constructor
    · intro heq
      have hround : (wd.wdRound + 1).tmod wd.wdThreadNum = wd.wdRound := by
        rw [← hnext]
        exact congrArg wdRound heq
      rw [Int.tmod_eq_emod_of_nonneg (by omega)] at hround
      by_cases hlast : wd.wdRound + 1 < wd.wdThreadNum
      · rw [Int.emod_eq_of_lt (by omega) hlast] at hround
        omega
      · -- the last worker: the round goes back to the first
        have hn : wd.wdThreadNum = wd.wdRound + 1 := by omega
        rw [hn, Int.emod_self] at hround
        omega
    · rintro (h | hn)
      · exact absurd h hc
      · have hz : wd.wdRound = 0 := by omega
        obtain ⟨i, n, r⟩ := wd
        obtain rfl : n = 1 := hn
        obtain rfl : r = 0 := hz
        rfl

/-- Then the event goes to the worker that `ev_cpuid` names, and is as it was. -/
theorem pick_of_kept {wd : WorkerData} {ev : EdpEvent} (h0 : 0 ≤ ev.evCpuid)
    (hlt : ev.evCpuid < wd.wdThreadNum) (hr : 0 ≤ wd.wdRound)
    (h : ev.evCpuid < wd.wdRound ∨ wd.wdThreadNum = 1) : wd.pick ev = (ev.evCpuid, ev, wd) := by
  by_cases hc : ev.evCpuid < wd.wdRound
  · rw [pick, if_pos ⟨h0, hc⟩]
  · have hn := h.resolve_left hc
    have hz : wd.wdRound = 0 := by omega
    have hcz : ev.evCpuid = 0 := by omega
    obtain ⟨i, n, r⟩ := wd
    obtain rfl : n = 1 := hn
    obtain rfl : r = 0 := hz
    obtain ⟨addr, type, priority, cpuid, cb, data, emit, handler⟩ := ev
    obtain rfl : cpuid = 0 := hcz
    rfl

end WorkerData

/-- The numbers as all sequences of calls keep them: `wd_round` may be past the workers
after a restart, but is no negative number. -/
structure WorkerData.Counted (wd : WorkerData) : Prop where
  nonneg : 0 ≤ wd.wdRound
  below : wd.wdRound < 2147483647
  max : wd.wdThreadNum < 2147483648
  workers : wd.wdInit = true → 0 < wd.wdThreadNum

namespace WorkerData.Counted

variable {wd : WorkerData}

theorem zero : WorkerData.zero.Counted :=
  ⟨by decide, by decide, by decide, fun h => by cases h⟩

/-- A start that leaves workers running has returned `0`. -/
theorem workerInit {thread : Int32} {o : InitOracle} (hs : wd.Counted)
    (hu : (wd.workerInit thread o).1.wdInit = true →
      wd.wdInit = true ∨ (wd.workerInit thread o).2 = 0) : (wd.workerInit thread o).1.Counted := by
  rcases wd.workerInit_cases thread o with ⟨heq, -⟩ | ⟨hno, -, heq, hpos⟩
  · rw [heq]
    exact hs
  · have hret : (wd.workerInit thread o).2 = 0 := by
      refine (hu ?_).resolve_left (by simp [hno])
      rw [heq]
    rw [heq]
    exact ⟨hs.nonneg, hs.below, Int32.toInt_lt thread, fun _ => hpos hret⟩

/-- A dispatch moves `wd_round` to one of the workers, if it moves it. -/
theorem pick (hs : wd.Counted) (ev : EdpEvent) (hi : wd.wdInit = true) :
    (wd.pick ev).2.2.Counted ∧ (wd.pick ev).2.2.wdThreadNum = wd.wdThreadNum := by
  obtain ⟨h0, hlt, hmax, hpos⟩ := hs
  by_cases hc : 0 ≤ ev.evCpuid ∧ ev.evCpuid < wd.wdRound
  · rw [WorkerData.pick, if_pos hc]
    exact ⟨⟨h0, hlt, hmax, hpos⟩, rfl⟩
  · rw [WorkerData.pick, if_neg hc, toInt_of_lt (by omega) (by omega)]
    have hge := Int.tmod_nonneg wd.wdThreadNum (show 0 ≤ wd.wdRound + 1 by omega)
    have hlt' := Int.tmod_lt_of_pos (wd.wdRound + 1) (hpos hi)
    exact ⟨⟨hge, Int.lt_of_lt_of_le hlt' (by omega), hmax, hpos⟩, rfl⟩

end WorkerData.Counted

/-- `worker_data_t` with the workers of `wd_threads`. -/
structure WorkerArray where
  data : WorkerData
  wdThreads : ℤ → Worker

namespace WorkerArray

/-- `__edp_dispatch(ev)`: what it returns, the event and the workers after it.  A
division by zero or a worker past the array ends the program. -/
def edpDispatch (w : WorkerArray) (ev : EdpEvent) : Option (ℤ × EdpEvent × WorkerArray) :=
  if w.data.wdThreadNum = 0 ∧ ¬ (0 ≤ ev.evCpuid ∧ ev.evCpuid < w.data.wdRound) then none
  else
    let (cpuid, ev', data) := w.data.pick ev
    match ev'.class? with
    | none => some (-34, ev', { w with data := data })
    | some p =>
      if cpuid < 0 ∨ w.data.wdThreadNum ≤ cpuid then none
      else
        some (0, ev',
          ⟨data, Function.update w.wdThreads cpuid ((w.wdThreads cpuid).enqueue p ev').signal⟩)

/-- `__edp_dispatch(ev)` queues the event on worker `c` and changes neither the event nor
`wd_round`. -/
def Pinned (w : WorkerArray) (ev : EdpEvent) (c : ℤ) : Prop :=
  ∃ p, ev.class? = some p ∧ w.edpDispatch ev = some (0, ev,
    { w with wdThreads := Function.update w.wdThreads c ((w.wdThreads c).enqueue p ev).signal })

/-- **Affinity of one dispatch.** -/
theorem pinned_iff (w : WorkerArray) (ev : EdpEvent) (h0 : 0 ≤ ev.evCpuid)
    (hlt : ev.evCpuid < w.data.wdThreadNum) (hr : 0 ≤ w.data.wdRound)
    (hmax : w.data.wdThreadNum < 2147483648) (hp : ev.class? ≠ none) :
    w.Pinned ev ev.evCpuid ↔ ev.evCpuid < w.data.wdRound ∨ w.data.wdThreadNum = 1 := by
  have hn : ¬ (w.data.wdThreadNum = 0 ∧ ¬ (0 ≤ ev.evCpuid ∧ ev.evCpuid < w.data.wdRound)) := by
    rintro ⟨hz, -⟩
    omega
  constructor
  · rintro ⟨p, _, hd⟩
    refine (WorkerData.pick_kept_iff h0 hlt hr hmax).1 ?_
    rw [edpDispatch, if_neg hn] at hd
    dsimp only at hd
    split at hd
    · simp at hd
    · split at hd
      · cases hd
      · simp only [Option.some.injEq, Prod.mk.injEq, WorkerArray.mk.injEq] at hd
        exact hd.2.2.1
  · intro h
    obtain ⟨p, hp⟩ := Option.ne_none_iff_exists'.1 hp
    refine ⟨p, hp, ?_⟩
    rw [edpDispatch, if_neg hn, WorkerData.pick_of_kept h0 hlt hr h]
    dsimp only
    rw [hp]
    dsimp only
    rw [if_neg (by omega)]

/-- A dispatch is refused exactly when the priority is out of range. -/
theorem edpDispatch_ret {w w' : WorkerArray} {ev ev' : EdpEvent} {r : ℤ}
    (h : w.edpDispatch ev = some (r, ev', w')) :
    (ev.class? = none ∧ r = -34) ∨ (ev.class? ≠ none ∧ r = 0) := by
  have hclass : (w.data.pick ev).2.1.class? = ev.class? := by
    unfold WorkerData.pick
    split <;> rfl
  rw [edpDispatch] at h
  split at h
  · cases h
  · dsimp only at h
    split at h
    · rename_i hno
      simp only [Option.some.injEq, Prod.mk.injEq] at h
      exact Or.inl ⟨hclass ▸ hno, h.1.symm⟩
    · rename_i p hp
      split at h
      · cases h
      · simp only [Option.some.injEq, Prod.mk.injEq] at h
        refine Or.inr ⟨?_, h.1.symm⟩
        rw [← hclass, hp]
        exact Option.some_ne_none p

/-- What a dispatch leaves of the numbers. -/
theorem edpDispatch_data {w w' : WorkerArray} {ev ev' : EdpEvent} {r : ℤ}
    (h : w.edpDispatch ev = some (r, ev', w')) : w'.data = (w.data.pick ev).2.2 := by
  rw [edpDispatch] at h
  split at h
  · cases h
  · dsimp only at h
    split at h
    · simp only [Option.some.injEq, Prod.mk.injEq] at h
      rw [← h.2.2]
    · split at h
      · cases h
      · simp only [Option.some.injEq, Prod.mk.injEq] at h
        rw [← h.2.2]

end WorkerArray

/-! ### Sequences of calls -/

/-- The workers and the event objects, by their addresses. -/
structure DispatchSys where
  workers : WorkerArray
  events : ℕ → EdpEvent

namespace DispatchSys

/-- Before the first call. -/
def init : DispatchSys := ⟨⟨.zero, fun _ => .start⟩, fun a => ⟨a, 0, 0, 0, 0, 0, 0, 0⟩⟩

/-- The calls, one after the other, and the workers' own steps between them. -/
inductive Act
  /-- `worker_init(thread)`. -/
  | init (thread : Int32) (o : WorkerData.InitOracle)
  /-- `worker_fini()`. -/
  | fini
  /-- The next step of worker `i`. -/
  | work (i : ℤ)
  /-- The owner of an event object writes it, by `edp_event_init` or otherwise. -/
  | own (ev : EdpEvent)
  /-- `__edp_dispatch` of the event object `a`. -/
  | dispatch (a : ℕ)

/-- One step. -/
def step (s : DispatchSys) : Act → Option DispatchSys
  | .init thread o =>
    some { s with workers :=
      ⟨(s.workers.data.workerInit thread o).1,
        if (s.workers.data.workerInit thread o).2 = 0 then fun _ => .start
        else s.workers.wdThreads⟩ }
  | .fini => some { s with workers := { s.workers with data := s.workers.data.workerFini } }
  | .work i =>
    if i < 0 ∨ s.workers.data.wdThreadNum ≤ i then none
    else
      (s.workers.wdThreads i).next.map fun r =>
        { s with workers := { s.workers with
          wdThreads := Function.update s.workers.wdThreads i r.1 } }
  | .own ev => some { s with events := Function.update s.events ev.addr ev }
  | .dispatch a =>
    (s.workers.edpDispatch (s.events a)).map fun r =>
      ⟨r.2.2, Function.update s.events a r.2.1⟩

/-- A call that leaves workers running has returned `0`, and events are only dispatched
while there are workers. -/
def Used (s : DispatchSys) : Act → Prop
  | .init thread o =>
    (s.workers.data.workerInit thread o).1.wdInit = true →
      s.workers.data.wdInit = true ∨ (s.workers.data.workerInit thread o).2 = 0
  | .dispatch _ => s.workers.data.wdInit = true
  | .fini | .work _ | .own _ => True

/-- The step starts and stops no worker and does not write the event `a`. -/
def Keeps (a : ℕ) : Act → Prop
  | .init _ _ | .fini => False
  | .own ev => ev.addr ≠ a
  | .work _ | .dispatch _ => True

instance (s : DispatchSys) : (a : Act) → Decidable (s.Used a)
  | .init _ _ => inferInstanceAs (Decidable (_ → _))
  | .dispatch _ => inferInstanceAs (Decidable (_ = _))
  | .fini | .work _ | .own _ => inferInstanceAs (Decidable True)

instance (a : ℕ) : (act : Act) → Decidable (Keeps a act)
  | .init _ _ | .fini => inferInstanceAs (Decidable False)
  | .own _ => inferInstanceAs (Decidable (_ ≠ _))
  | .work _ | .dispatch _ => inferInstanceAs (Decidable True)

/-- The event's worker is below `wd_round`, or there is one worker. -/
def Past (s : DispatchSys) (c : ℤ) : Prop :=
  c < s.workers.data.wdRound ∨ s.workers.data.wdThreadNum = 1

/-- A step that leaves the numbers in order does so in every sequence. -/
theorem counted_step {s t : DispatchSys} {act : Act} (hs : s.workers.data.Counted)
    (hu : s.Used act) (h : step s act = some t) : t.workers.data.Counted := by
  cases act with
  | init thread o =>
    obtain rfl := Option.some.inj h
    exact hs.workerInit hu
  | fini =>
    obtain rfl := Option.some.inj h
    exact ⟨hs.nonneg, hs.below, hs.max, fun h => by cases h⟩
  | work i =>
    rw [step] at h
    split at h
    · cases h
    · obtain ⟨r, _, rfl⟩ := Option.map_eq_some_iff.1 h
      exact hs
  | own ev =>
    obtain rfl := Option.some.inj h
    exact hs
  | dispatch a =>
    obtain ⟨⟨r, ev', w'⟩, hd, rfl⟩ := Option.map_eq_some_iff.1 h
    show w'.data.Counted
    rw [WorkerArray.edpDispatch_data hd]
    exact (hs.pick _ hu).1

/-- An event object with its worker, between its dispatches. -/
structure Settled (s : DispatchSys) (a : ℕ) (c : ℤ) : Prop where
  counted : s.workers.data.Counted
  cpuid : (s.events a).evCpuid = c
  nonneg : 0 ≤ c
  below : c < s.workers.data.wdThreadNum
  valid : (s.events a).class? ≠ none

/-- A step that does not write the event leaves it with its worker, if a dispatch of it
is pinned. -/
theorem Settled.step {s t : DispatchSys} {a : ℕ} {c : ℤ} {act : Act} (hs : s.Settled a c)
    (hu : s.Used act) (hk : Keeps a act)
    (hp : act = .dispatch a → s.workers.Pinned (s.events a) c)
    (h : DispatchSys.step s act = some t) : t.Settled a c := by
  have hcount := counted_step hs.counted hu h
  cases act with
  | init thread o => exact hk.elim
  | fini => exact hk.elim
  | work i =>
    rw [DispatchSys.step] at h
    split at h
    · cases h
    · obtain ⟨r, _, rfl⟩ := Option.map_eq_some_iff.1 h
      exact ⟨hcount, hs.cpuid, hs.nonneg, hs.below, hs.valid⟩
  | own ev =>
    obtain rfl := Option.some.inj h
    have hne : a ≠ ev.addr := Ne.symm hk
    refine ⟨hcount, ?_, hs.nonneg, hs.below, ?_⟩
    · simpa [hne] using hs.cpuid
    · simpa [hne] using hs.valid
  | dispatch b =>
    obtain ⟨hnum, hev⟩ : t.workers.data.wdThreadNum = s.workers.data.wdThreadNum ∧
        t.events a = s.events a := by
      obtain ⟨⟨r, ev', w'⟩, hd, rfl⟩ := Option.map_eq_some_iff.1 h
      refine ⟨?_, ?_⟩
      · show w'.data.wdThreadNum = s.workers.data.wdThreadNum
        rw [WorkerArray.edpDispatch_data hd]
        exact (hs.counted.pick _ hu).2
      · by_cases hb : b = a
        · subst hb
          obtain ⟨p, _, hd'⟩ := hp rfl
          obtain rfl : s.events b = ev' := by
            rw [hd'] at hd
            simp only [Option.some.injEq, Prod.mk.injEq] at hd
            exact hd.2.1
          simp
        · simp [Ne.symm hb]
    exact ⟨hcount, hev ▸ hs.cpuid, hs.nonneg, hnum ▸ hs.below, hev ▸ hs.valid⟩

/-- **When an event keeps its worker.**  From every reachable state with workers, along any
further dispatches and steps in which the event's owner leaves it alone: all dispatches
of an event whose `ev_cpuid` names a worker `c` go to `c` and leave `ev_cpuid` and
`wd_round`, if and only if each of them finds `c` below `wd_round`, or a single worker. -/
theorem affinity_iff {acts more : List Act} {s : DispatchSys} {a : ℕ}
    (hu : StepSystem.Meets step Used init acts) (hrun : StepSystem.run step init acts = some s)
    (h0 : 0 ≤ (s.events a).evCpuid)
    (hlt : (s.events a).evCpuid < s.workers.data.wdThreadNum)
    (hp : (s.events a).class? ≠ none)
    (hk : StepSystem.Meets step (fun u act => u.Used act ∧ Keeps a act) s more) :
    StepSystem.Meets step
        (fun u act => act = .dispatch a →
          u.workers.Pinned (u.events a) (s.events a).evCpuid) s more ↔
      StepSystem.Meets step (fun u act => act = .dispatch a → u.Past (s.events a).evCpuid)
        s more := by
  have hcount : s.workers.data.Counted :=
    StepSystem.run_invariant (I := fun s => s.workers.data.Counted)
      (fun _ _ _ hs hu h => counted_step hs hu h) WorkerData.Counted.zero hu hrun
  refine StepSystem.meets_iff (I := fun u => u.Settled a (s.events a).evCpuid) ?_ ?_
    ⟨hcount, rfl, h0, hlt, hp⟩ hk
  · intro u act hs _
    have hone := WorkerArray.pinned_iff u.workers (u.events a)
      (hs.cpuid ▸ hs.nonneg) (hs.cpuid ▸ hs.below) hs.counted.nonneg hs.counted.max hs.valid
    rw [hs.cpuid] at hone
    exact imp_congr_right fun _ => hone
  · intro u act v hs ha hpin h
    exact hs.step ha.1 ha.2 hpin h

/-- A new event is dispatched to worker `0` of two and then again. -/
theorem affinity_iff_again :
    ∃ s, StepSystem.run step init
        [.init 2 RoundSys.willing, .own RoundSys.freshEvent, .dispatch 1] = some s ∧
      (StepSystem.Meets step
          (fun u act => act = .dispatch 1 →
            u.workers.Pinned (u.events 1) (s.events 1).evCpuid) s [.dispatch 1] ↔
        StepSystem.Meets step (fun u act => act = .dispatch 1 → u.Past (s.events 1).evCpuid)
          s [.dispatch 1]) := by
  have hrun := Eq.refl (StepSystem.run step init
    [.init 2 RoundSys.willing, .own RoundSys.freshEvent, .dispatch 1])
  exact ⟨_, rfl, affinity_iff (by decide) hrun (by decide) (by decide) (by decide)
    (by decide)⟩

/-- **An event of worker `1`.**  The first dispatch among two workers takes an event whose
`ev_cpuid` is `1` to worker `0`. -/
theorem dealt_out_anew :
    ¬ ∀ (acts : List Act) (s : DispatchSys) (a : ℕ), StepSystem.Meets step Used init acts →
      StepSystem.run step init acts = some s → s.workers.data.wdInit = true →
      0 ≤ (s.events a).evCpuid → (s.events a).evCpuid < s.workers.data.wdThreadNum →
      (s.events a).class? ≠ none → s.workers.Pinned (s.events a) (s.events a).evCpuid := by
  intro hall
  have hrun := Eq.refl (StepSystem.run step init
    [.init 2 RoundSys.willing, .own { RoundSys.freshEvent with evCpuid := 1 }])
  obtain ⟨_, _, hd⟩ := hall _ _ 1 (by decide) hrun (by decide) (by decide) (by decide) (by decide)
  have hcpuid : _ = some (1 : ℤ) := congrArg (Option.map fun r => r.2.1.evCpuid) hd
  exact absurd hcpuid (by decide)

end DispatchSys

end EdpIo
