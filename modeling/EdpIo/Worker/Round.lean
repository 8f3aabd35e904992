/-
# Which worker an event goes to

`worker_data_t` of `src/worker.c` and what reads and writes it: `worker_init`,
`worker_fini` and the choice of a worker at the head of `__edp_dispatch`, which takes
`ev_cpuid` if it is below `wd_round` and else the worker at `wd_round`, and then moves
`wd_round` on.  The calls come one after the other here.

Every dispatch takes `wd_round` modulo the number of workers, but `worker_init` leaves it
as the last one did: after a restart with fewer workers it may be past the end of the
new array (`round_left`).  `picked_in_range` holds of every sequence in which each start
finds `wd_round` below its thread count.
-/

import EdpIo.Base.Event
import EdpIo.Lib.Run
import Mathlib.Data.Int.Order.Basic
import Mathlib.Order.Basic

namespace EdpIo

/-- `worker_data_t`. -/
structure WorkerData where
  wdInit : Bool
  wdThreadNum : ℤ
  wdRound : ℤ
deriving DecidableEq, Repr

namespace WorkerData

/-- `__worker_data` when the program starts. -/
def zero : WorkerData := ⟨false, 0, 0⟩

/-- A value stored in an `int`. -/
def toInt (z : ℤ) : ℤ := Int.bmod z 4294967296

/-- A value stored in a `short`. -/
def toShort (z : ℤ) : ℤ := Int.bmod z 65536

theorem toInt_of_lt {z : ℤ} (h : 0 ≤ z) (hlt : z < 2147483648) : toInt z = z := by
  unfold toInt
  rw [Int.bmod_def]
  split <;> omega

/-- What `worker_init` gets from outside: whether `mheap_alloc` succeeds, and the first
error of the three calls that start the thread `i`, or `0`. -/
structure InitOracle where
  mem : Bool
  thread : ℕ → ℤ

/-- The loop of `worker_init` with `k` threads to start from `i` on: where it stops, and
`ret`. -/
def spawn (thread : ℕ → ℤ) : ℕ → ℕ → ℤ → ℕ × ℤ
  | 0, i, ret => (i, ret)
  | k + 1, i, _ => if thread i = 0 then spawn thread k (i + 1) 0 else (i, thread i)

/-- `worker_init(thread)`, with what it returns. -/
def workerInit (wd : WorkerData) (thread : Int32) (o : InitOracle) : WorkerData × ℤ :=
  if wd.wdInit then (wd, -1)
  else if !o.mem then (wd, -12)
  else
    let (i, ret) := spawn o.thread thread.toInt.toNat 0 (-1)
    if i ≠ thread.toInt then (wd, ret)
    else ({ wd with wdInit := true, wdThreadNum := thread.toInt }, ret)

/-- `worker_fini()`, as far as `worker_data_t` goes. -/
def workerFini (wd : WorkerData) : WorkerData := { wd with wdInit := false }

/-- The choice of a worker in `__edp_dispatch(ev)`: its index, the event and the data
after it. -/
def pick (wd : WorkerData) (ev : EdpEvent) : ℤ × EdpEvent × WorkerData :=
  if 0 ≤ ev.evCpuid ∧ ev.evCpuid < wd.wdRound then (ev.evCpuid, ev, wd)
  else
    (wd.wdRound, { ev with evCpuid := toShort wd.wdRound },
      { wd with wdRound := (toInt (wd.wdRound + 1)).tmod wd.wdThreadNum })

/-- The loop starts all threads or stops with an error. -/
theorem spawn_cases (thread : ℕ → ℤ) (k i : ℕ) (ret : ℤ) :
    spawn thread k i ret = (i + k, if k = 0 then ret else 0) ∨
      (spawn thread k i ret).1 < i + k ∧ (spawn thread k i ret).2 ≠ 0 := by
  induction k generalizing i ret with
  | zero => exact .inl rfl
  | succ k ih =>
    rw [spawn]
    by_cases h : thread i = 0
    · rw [if_pos h]
      rcases ih (i + 1) 0 with h' | ⟨hlt, hne⟩
      · refine .inl (h'.trans (Prod.ext ?_ ?_))
        · exact (Nat.add_right_comm i 1 k).trans (Nat.add_assoc i k 1)
        · simp
      · exact .inr ⟨by omega, hne⟩
    · rw [if_neg h]
      exact .inr ⟨by simp, h⟩

/-- **`worker_init` starts all workers or changes nothing.**  It returns `0` only if it
has started one or more. -/
theorem workerInit_cases (wd : WorkerData) (thread : Int32) (o : InitOracle) :
    ((wd.workerInit thread o).1 = wd ∧ (wd.workerInit thread o).2 ≠ 0) ∨
      (wd.wdInit = false ∧ 0 ≤ thread.toInt ∧
        (wd.workerInit thread o).1 = { wd with wdInit := true, wdThreadNum := thread.toInt } ∧
        ((wd.workerInit thread o).2 = 0 → 0 < thread.toInt)) := by
  unfold workerInit
  split
  · exact .inl ⟨rfl, show (-1 : ℤ) ≠ 0 by decide⟩
  · rename_i hinit
    split
    · exact .inl ⟨rfl, show (-12 : ℤ) ≠ 0 by decide⟩
    · rcases spawn_cases o.thread thread.toInt.toNat 0 (-1) with h | ⟨hlt, hne⟩
      · rw [h]
        dsimp only
        split
        · -- a negative count is not reached
          rename_i hi
          rw [if_pos (by omega)]
          exact .inl ⟨rfl, show (-1 : ℤ) ≠ 0 by decide⟩
        · rename_i hi
          refine .inr ⟨by simpa using hinit, by omega, rfl, fun h0 => ?_⟩
          have hk : thread.toInt.toNat ≠ 0 := by
            intro hk
            rw [if_pos hk] at h0
            exact absurd h0 (show (-1 : ℤ) ≠ 0 by decide)
          omega
      · left
        dsimp only
        rw [if_pos (by omega)]
        exact ⟨rfl, hne⟩

/-- The index is in range and `wd_round` stays so. -/
theorem pick_in_range {wd : WorkerData} (ev : EdpEvent) (h0 : 0 ≤ wd.wdRound)
    (hlt : wd.wdRound < wd.wdThreadNum) (hmax : wd.wdThreadNum < 2147483648) :
    (0 ≤ (wd.pick ev).1 ∧ (wd.pick ev).1 < wd.wdThreadNum) ∧
      0 ≤ (wd.pick ev).2.2.wdRound ∧ (wd.pick ev).2.2.wdRound < wd.wdThreadNum ∧
      (wd.pick ev).2.2.wdThreadNum = wd.wdThreadNum ∧ (wd.pick ev).2.2.wdInit = wd.wdInit := by
  unfold pick
  split
  · rename_i h
    exact ⟨⟨h.1, h.2.trans hlt⟩, h0, hlt, rfl, rfl⟩
  · refine ⟨⟨h0, hlt⟩, ?_, ?_, rfl, rfl⟩
    · rw [toInt_of_lt (by omega) (by omega)]
      exact Int.tmod_nonneg _ (by omega)
    · exact Int.tmod_lt_of_pos _ (by omega)

end WorkerData

/-! ### Sequences of calls -/

/-- The data, and the indices that the dispatches picked with the number of workers at
that moment, newest first. -/
structure RoundSys where
  data : WorkerData
  hist : List (ℤ × ℤ)
deriving DecidableEq, Repr

namespace RoundSys

/-- Before the first call. -/
def init : RoundSys := ⟨.zero, []⟩

/-- The calls. -/
inductive Act
  | init (thread : Int32) (o : WorkerData.InitOracle)
  | fini
  | dispatch (ev : EdpEvent)

/-- One call. -/
def step (s : RoundSys) : Act → Option RoundSys
  | .init thread o => some { s with data := (s.data.workerInit thread o).1 }
  | .fini => some { s with data := s.data.workerFini }
  | .dispatch ev =>
    -- a division by zero ends the program
    if s.data.wdThreadNum = 0 ∧ ¬ (0 ≤ ev.evCpuid ∧ ev.evCpuid < s.data.wdRound) then none
    else some ⟨(s.data.pick ev).2.2, ((s.data.pick ev).1, s.data.wdThreadNum) :: s.hist⟩

/-- A call that leaves workers running has returned `0`, and events are only dispatched
while there are workers. -/
def Used (s : RoundSys) : Act → Prop
  | .init thread o =>
    (s.data.workerInit thread o).1.wdInit = true →
      s.data.wdInit = true ∨ (s.data.workerInit thread o).2 = 0
  | .fini => True
  | .dispatch _ => s.data.wdInit = true

/-- A start finds `wd_round` below its thread count. -/
def Fits (s : RoundSys) : Act → Prop
  | .init thread o => (s.data.workerInit thread o).2 = 0 → s.data.wdRound < thread.toInt
  | .fini | .dispatch _ => True

instance (s : RoundSys) : (a : Act) → Decidable (s.Used a)
  | .init _ _ => inferInstanceAs (Decidable (_ → _))
  | .fini => inferInstanceAs (Decidable True)
  | .dispatch _ => inferInstanceAs (Decidable (_ = _))

instance (s : RoundSys) : (a : Act) → Decidable (s.Fits a)
  | .init _ _ => inferInstanceAs (Decidable (_ → _))
  | .fini | .dispatch _ => inferInstanceAs (Decidable True)

/-- Every index picked was one of the workers of its time. -/
def InRange (s : RoundSys) : Prop := ∀ p ∈ s.hist, 0 ≤ p.1 ∧ p.1 < p.2

instance (s : RoundSys) : Decidable s.InRange := inferInstanceAs (Decidable (∀ p ∈ s.hist, _))

/-- What the sequences keep: `wd_round` is one of the workers while there are any. -/
structure Rounded (s : RoundSys) : Prop where
  nonneg : 0 ≤ s.data.wdRound
  below : s.data.wdInit = true → s.data.wdRound < s.data.wdThreadNum
  max : s.data.wdThreadNum < 2147483648
  inRange : s.InRange

theorem rounded_init : Rounded init where
  nonneg := le_refl 0
  below h := by cases h
  max := by decide
  inRange _ hp := absurd hp List.not_mem_nil

theorem Rounded.step {s t : RoundSys} {a : Act} (hs : s.Rounded) (hu : s.Used a) (hf : s.Fits a)
    (h : RoundSys.step s a = some t) : t.Rounded := by
  cases a with
  | init thread o =>
    obtain rfl := Option.some.inj h
    rcases s.data.workerInit_cases thread o with ⟨heq, -⟩ | ⟨hno, -, heq, -⟩
    · show Rounded { s with data := (s.data.workerInit thread o).1 }
      rw [heq]
      exact hs
    · have hret : (s.data.workerInit thread o).2 = 0 := by
        refine (hu ?_).resolve_left (by simp [hno])
        rw [heq]
      show Rounded { s with data := (s.data.workerInit thread o).1 }
      rw [heq]
      exact ⟨hs.nonneg, fun _ => hf hret, Int32.toInt_lt thread, hs.inRange⟩
  | fini =>
    obtain rfl := Option.some.inj h
    exact ⟨hs.nonneg, (fun h => by cases h), hs.max, hs.inRange⟩
  | dispatch ev =>
    rw [RoundSys.step] at h
    split at h
    · cases h
    · obtain rfl := Option.some.inj h
      have hb := hs.below hu
      obtain ⟨hidx, h0, hlt, hnum, -⟩ := WorkerData.pick_in_range ev hs.nonneg hb hs.max
      refine ⟨h0, fun _ => ?_, ?_, fun p hp => ?_⟩
      · rw [hnum]
        exact hlt
      · rw [hnum]
        exact hs.max
      · rcases List.mem_cons.1 hp with rfl | hp
        · exact hidx
        · exact hs.inRange p hp

/-- **Every dispatch picks one of the workers**, whatever `ev_cpuid` says, in every
sequence of `worker_init`, `worker_fini` and `__edp_dispatch` in which events are only
dispatched while there are workers and each start finds `wd_round` below its thread
count. -/
theorem picked_in_range {acts : List Act} {s : RoundSys}
    (ha : StepSystem.Meets step (fun s a => s.Used a ∧ s.Fits a) init acts)
    (hrun : StepSystem.run step init acts = some s) : s.InRange :=
  (StepSystem.run_invariant (I := Rounded) (fun _ _ _ hs ha h => hs.step ha.1 ha.2 h) rounded_init
    ha hrun).inRange

/-- An event that has not been dispatched. -/
def freshEvent : EdpEvent := ⟨1, 1, 1, -1, 0, 0, 0, 1⟩

/-- An oracle that refuses nothing. -/
def willing : WorkerData.InitOracle := ⟨true, fun _ => 0⟩

/-- A restart with as many workers: a run that meets the hypotheses of
`picked_in_range`. -/
theorem picked_in_range_restart :
    ∃ acts s, StepSystem.run step init acts = some s ∧ s.hist = [(1, 2), (0, 2)] ∧ s.InRange :=
  have hrun := Eq.refl (StepSystem.run step init
    [.init 2 willing, .dispatch freshEvent, .fini, .init 2 willing, .dispatch freshEvent])
  ⟨_, _, hrun, rfl, picked_in_range (by decide) hrun⟩

/-- **A start that does not fit** leaves `wd_round` past the workers, where the next dispatch
of a new event picks one. -/
theorem not_inRange {s : RoundSys} {thread : Int32} {o : WorkerData.InitOracle}
    (h : ¬ s.Fits (.init thread o)) :
    ∃ t, StepSystem.run step s [.init thread o, .dispatch freshEvent] = some t ∧ ¬ t.InRange := by
  obtain ⟨hret, hge⟩ := Classical.not_imp.1 h
  rcases s.data.workerInit_cases thread o with ⟨-, hne⟩ | ⟨-, -, heq, hpos⟩
  · exact absurd hret hne
  · have hpos := hpos hret
    let wd : WorkerData := { s.data with wdInit := true, wdThreadNum := thread.toInt }
    have hinit : step s (.init thread o) = some { s with data := wd } := by
      rw [step, heq]
    have hnew : ¬ (0 ≤ freshEvent.evCpuid ∧ freshEvent.evCpuid < wd.wdRound) :=
      fun h => absurd h.1 (by decide)
    have hpick : step { s with data := wd } (.dispatch freshEvent) =
        some ⟨(wd.pick freshEvent).2.2, (s.data.wdRound, thread.toInt) :: s.hist⟩ := by
      rw [step, if_neg fun h => hpos.ne' h.1, WorkerData.pick, if_neg hnew]
    refine ⟨_, StepSystem.run_cons.2 ⟨_, hinit, StepSystem.run_cons.2 ⟨_, hpick, rfl⟩⟩, ?_⟩
    exact fun hin => hge (hin _ List.mem_cons_self).2

/-- **Past the end of the array.**  One dispatch among two workers leaves `wd_round` at
`1`; after a restart with one worker the next dispatch picks worker `1`. -/
theorem round_left :
    ¬ ∀ acts s, StepSystem.Meets step Used init acts → StepSystem.run step init acts = some s →
      s.InRange := by
  intro h
  have hrun := Eq.refl (StepSystem.run step init
    [.init 2 willing, .dispatch freshEvent, .fini, .init 1 willing, .dispatch freshEvent])
  exact absurd (h _ _ (by decide) hrun) (by decide)

end RoundSys
end EdpIo
