/-
# Taking the workers down

`worker_fini` of `src/worker.c` beside `n` running workers.  Its loop goes from
`wd_thread_num` down to zero, so that the first of its `n + 1` turns is one past the end
of `wd_threads`, and it frees the array without waiting for the threads, which only test
`wk_status` between two passes.

The calls of `__spi_convar_fini` come out right for the workers there are
(`finalised_once`), but there is no run in which `worker_fini` stays in the array: what
is asked of it holds exactly until its first access (`fini_safe_iff`).
-/

import EdpIo.Lib.Run
import EdpIo.Worker.Step

namespace EdpIo

/-- Where `worker_fini` is. -/
inductive FiniPc
  /-- Before the test of `wd_init`. -/
  | testing
  /-- Before `__spi_convar_fini(&wd_threads[i].wk_convar)`. -/
  | convar (i : ℕ)
  /-- Before `wd_threads[i].wk_status = kWORKER_STATUS_STOP`. -/
  | stopping (i : ℕ)
  /-- Before `mheap_free(wd_threads)`. -/
  | freeing
  | returned
deriving DecidableEq, Repr

/-- The next turn of the loop after that of `i`, or its end. -/
def FiniPc.below : ℕ → FiniPc
  | 0 => .freeing
  | i + 1 => .convar i

/-- What is recorded. -/
inductive FiniObs
  /-- `worker_fini` accesses `wd_threads[i]`. -/
  | access (i : ℕ)
  /-- It finalises the `wk_convar` of that worker. -/
  | finalised (i : ℕ)
  /-- It frees `wd_threads`. -/
  | freed
  /-- The worker `i` takes a step, on its `worker_t`. -/
  | ran (i : ℕ)
deriving DecidableEq, Repr

/-- `n` workers, `wd_init`, the call of `worker_fini` once it is made, and the history,
newest first. -/
structure FiniSys (n : ℕ) where
  workers : Fin n → Worker
  wdInit : Bool
  fini : Option FiniPc
  hist : List FiniObs

namespace FiniSys

variable {n : ℕ}

/-- Running workers. -/
def init (n : ℕ) : FiniSys n := ⟨fun _ => .start, true, none, []⟩

/-- The steps. -/
inductive Act (n : ℕ)
  /-- A worker's own step. -/
  | work (i : Fin n)
  /-- The locked section of `__edp_dispatch(ev)` on a worker. -/
  | dispatch (i : Fin n) (ev : EdpEvent)
  /-- Its signal. -/
  | signal (i : Fin n)
  /-- The call of `worker_fini`. -/
  | call
  /-- A step of it. -/
  | fini
deriving DecidableEq, Repr

/-- `wk_status = kWORKER_STATUS_STOP` in `wd_threads[i]`, if that is a worker. -/
def stop (workers : Fin n → Worker) (i : ℕ) : Fin n → Worker :=
  if h : i < n then Function.update workers ⟨i, h⟩ (workers ⟨i, h⟩).stop else workers

theorem held_stop (workers : Fin n → Worker) (i : ℕ) (j : Fin n) :
    (stop workers i j).held = (workers j).held := by
  rw [stop]
  split
  · exact Worker.held_update workers (Worker.held_stop _) j
  · rfl

/-- One step of `worker_fini`. -/
def finiStep (s : FiniSys n) : FiniPc → Option (FiniSys n)
  | .testing =>
    some (if s.wdInit then { s with wdInit := false, fini := some (.convar n) }
      else { s with fini := some .returned })
  | .convar i =>
    some { s with fini := some (.stopping i), hist := .finalised i :: .access i :: s.hist }
  | .stopping i =>
    some { s with workers := stop s.workers i
                  fini := some (.below i)
                  hist := .access i :: s.hist }
  | .freeing => some { s with fini := some .returned, hist := .freed :: s.hist }
  | .returned => none

/-- One step. -/
def step (s : FiniSys n) : Act n → Option (FiniSys n)
  | .work i =>
    (s.workers i).next.map fun r =>
      { s with workers := Function.update s.workers i r.1, hist := .ran i :: s.hist }
  | .dispatch i ev =>
    ev.class?.map fun p =>
      { s with workers := Function.update s.workers i ((s.workers i).enqueue p ev) }
  | .signal i =>
    some { s with workers := Function.update s.workers i (s.workers i).signal }
  | .call => if s.fini = none then some { s with fini := some .testing } else none
  | .fini => s.fini.bind s.finiStep

/-- No worker has taken a step after the array was freed. -/
def QuietAfterFree : List FiniObs → Prop
  | [] => True
  | .ran _ :: h => .freed ∉ h ∧ QuietAfterFree h
  | .access _ :: h | .finalised _ :: h | .freed :: h => QuietAfterFree h

instance : (h : List FiniObs) → Decidable (QuietAfterFree h)
  | [] => inferInstanceAs (Decidable True)
  | .ran _ :: h =>
    have := instDecidableQuietAfterFree h
    inferInstanceAs (Decidable (_ ∧ _))
  | .access _ :: h | .finalised _ :: h | .freed :: h => instDecidableQuietAfterFree h

/-- `worker_fini` has only accessed the workers of the array, has finalised the `wk_convar`
of each once when it returns, and no worker goes on after the array is freed. -/
structure Safe (s : FiniSys n) : Prop where
  access : ∀ i, .access i ∈ s.hist → i < n
  once : s.fini = some .returned → ∀ i, i < n → s.hist.count (.finalised i) = 1
  quiet : QuietAfterFree s.hist

/-- `worker_fini` has not accessed the array. -/
def Untouched (s : FiniSys n) : Prop :=
  s.fini = none ∨ s.fini = some .testing ∨ s.fini = some (.convar n)

/-- How many turns `worker_fini` has still to make, counted from the call of
`__spi_convar_fini`. -/
def left (n : ℕ) : Option FiniPc → ℕ
  | none | some .testing => n + 1
  | some (.convar i) => i + 1
  | some (.stopping i) => i
  | some .freeing | some .returned => 0

theorem left_below (n i : ℕ) : left n (some (.below i)) = i := by
  cases i <;> rfl

/-- What the runs keep. -/
structure Turning (s : FiniSys n) : Prop where
  le : ∀ i, s.fini = some (.convar i) ∨ s.fini = some (.stopping i) → i ≤ n
  init : s.fini = none ∨ s.fini = some .testing → s.wdInit = true
  count : ∀ i, s.hist.count (.finalised i) = if left n s.fini ≤ i ∧ i ≤ n then 1 else 0
  /-- The first turn accesses what is not in the array. -/
  access : left n s.fini ≤ n → .access n ∈ s.hist
  before : left n s.fini = n + 1 → ∀ o ∈ s.hist, ∃ i, o = .ran i

theorem turning_init : Turning (init n) where
  le i h := by rcases h with h | h <;> cases h
  init _ := rfl
  count i := by
    rw [if_neg (by rintro ⟨h, h'⟩; exact absurd (Nat.le_trans h h') (Nat.not_succ_le_self n))]
    rfl
  access h := absurd h (Nat.not_succ_le_self n)
  before _ o ho := absurd ho List.not_mem_nil

/-- Steps of the workers and of those that dispatch to them. -/
theorem Turning.of_workers {s : FiniSys n} (hs : s.Turning) (workers : Fin n → Worker)
    {hist : List FiniObs} (h : hist = s.hist ∨ ∃ i, hist = .ran i :: s.hist) :
    Turning { s with workers := workers, hist := hist } := by
  rcases h with rfl | ⟨i, rfl⟩
  · exact ⟨hs.le, hs.init, hs.count, hs.access, hs.before⟩
  · refine ⟨hs.le, hs.init, fun j => ?_, fun h => List.mem_cons_of_mem _ (hs.access h),
      fun h o ho => ?_⟩
    · rw [List.count_cons_of_ne (by exact fun h => by cases h)]
      exact hs.count j
    · rcases List.mem_cons.1 ho with rfl | ho
      · exact ⟨i, rfl⟩
      · exact hs.before h o ho

/-- The call of `__spi_convar_fini` makes a turn. -/
theorem Turning.finalise {s : FiniSys n} {i : ℕ} (hs : s.Turning)
    (hpc : s.fini = some (.convar i)) :
    Turning { s with fini := some (.stopping i), hist := .finalised i :: .access i :: s.hist } := by
  have hle : i ≤ n := hs.le i (.inl hpc)
  refine ⟨fun j hj => ?_, (fun h => by rcases h with h | h <;> cases h), fun j => ?_,
    fun hi => ?_, fun hi => ?_⟩
  · rcases hj with hj | hj <;> cases hj
    exact hle
  · have hcount := hs.count j
    rw [hpc, left] at hcount
    rw [List.count_cons, List.count_cons_of_ne (by exact fun h => by cases h), hcount, left]
    by_cases hij : i = j
    · subst hij
      rw [if_neg (by omega), if_pos (beq_self_eq_true _), if_pos (by omega)]
    · have hne : ¬ (FiniObs.finalised i == .finalised j) = true := by simpa using hij
      rw [if_neg hne, Nat.add_zero]
      exact if_congr (by omega) rfl rfl
  · by_cases hin : i = n
    · subst hin
      exact List.mem_cons_of_mem _ List.mem_cons_self
    · refine List.mem_cons_of_mem _ (List.mem_cons_of_mem _ (hs.access ?_))
      rw [hpc]
      exact Nat.lt_of_le_of_ne hi hin
  · have hi : i = n + 1 := hi
    omega

/-- The steps of `worker_fini`. -/
theorem Turning.fini {s t : FiniSys n} {pc : FiniPc} (hs : s.Turning) (hpc : s.fini = some pc)
    (h : s.finiStep pc = some t) : t.Turning := by
  have hskip : ∀ (o : FiniObs) (j : ℕ), o ≠ .finalised j →
      List.count (.finalised j) (o :: s.hist) = if left n (some pc) ≤ j ∧ j ≤ n then 1 else 0 := by
    intro o j ho
    rw [List.count_cons_of_ne ho, hs.count, hpc]
  cases pc with
  | testing =>
    rw [finiStep, if_pos (hs.init (.inr hpc))] at h
    obtain rfl := Option.some.inj h
    obtain ⟨-, -, hcount, haccess, hbefore⟩ := hs
    rw [hpc] at haccess hbefore
    simp only [hpc] at hcount
    refine ⟨fun i hi => ?_, (fun h => by rcases h with h | h <;> cases h), hcount, haccess, hbefore⟩
    rcases hi with hi | hi <;> cases hi
    exact Nat.le_refl n
  | convar i =>
    obtain rfl := Option.some.inj h
    exact hs.finalise hpc
  | stopping i =>
    obtain rfl := Option.some.inj h
    have hle : i ≤ n := hs.le i (.inr hpc)
    refine ⟨fun j hj => ?_, fun h => ?_, fun j => ?_, fun hi => ?_, fun hi => ?_⟩
    · cases i <;> rcases hj with hj | hj <;> cases hj
      exact Nat.le_of_succ_le hle
    · cases i <;> rcases h with h | h <;> cases h
    · rw [left_below]
      exact hskip _ j (by exact fun h => by cases h)
    · rw [left_below] at hi
      refine List.mem_cons_of_mem _ (hs.access ?_)
      rw [hpc]
      exact hi
    · rw [left_below] at hi
      omega
  | freeing =>
    obtain rfl := Option.some.inj h
    refine ⟨(fun j hj => by rcases hj with hj | hj <;> cases hj),
      (fun h => by rcases h with h | h <;> cases h),
      fun j => hskip _ j (by exact fun h => by cases h), fun _ => ?_, fun h => by cases h⟩
    refine List.mem_cons_of_mem _ (hs.access ?_)
    rw [hpc]
    exact Nat.zero_le n
  | returned => cases h

theorem Turning.step {s t : FiniSys n} {a : Act n} (hs : s.Turning)
    (h : FiniSys.step s a = some t) : t.Turning := by
  cases a with
  | work i =>
    obtain ⟨r, -, rfl⟩ := Option.map_eq_some_iff.1 h
    exact hs.of_workers _ (.inr ⟨i, rfl⟩)
  | dispatch i ev =>
    obtain ⟨p, -, rfl⟩ := Option.map_eq_some_iff.1 h
    exact hs.of_workers _ (.inl rfl)
  | signal i =>
    obtain rfl := Option.some.inj h
    exact hs.of_workers _ (.inl rfl)
  | call =>
    rw [FiniSys.step] at h
    split at h
    · rename_i hnone
      obtain rfl := Option.some.inj h
      obtain ⟨-, hinit, hcount, haccess, hbefore⟩ := hs
      rw [hnone] at haccess hbefore
      simp only [hnone] at hcount
      exact ⟨(fun i hi => by rcases hi with hi | hi <;> cases hi), fun _ => hinit (.inl hnone),
        hcount, haccess, hbefore⟩
    · cases h
  | fini =>
    obtain ⟨pc, hpc, h⟩ := Option.bind_eq_some_iff.1 h
    exact hs.fini hpc h

theorem turning_run {acts : List (Act n)} {s : FiniSys n}
    (hrun : StepSystem.run step (init n) acts = some s) : s.Turning :=
  StepSystem.run_preserves (fun _ _ _ hs h => hs.step h) turning_init hrun

/-- `worker_fini` has finalised the `wk_convar` of each worker once when it returns. -/
theorem finalised_once {acts : List (Act n)} {s : FiniSys n}
    (hrun : StepSystem.run step (init n) acts = some s) (h : s.fini = some .returned) {i : ℕ}
    (hi : i < n) : s.hist.count (.finalised i) = 1 := by
  rw [(turning_run hrun).count, h]
  exact if_pos ⟨Nat.zero_le i, hi.le⟩

/-- Before its first access all turns are still to be made, and only then. -/
theorem Turning.untouched_iff {s : FiniSys n} (hs : s.Turning) :
    s.Untouched ↔ left n s.fini = n + 1 := by
  rw [Untouched]
  cases hpc : s.fini with
  | none => simp [left]
  | some pc =>
    cases pc with
    | testing | freeing | returned => simp [left]
    | convar i => simp [left]
    | stopping i =>
      have hle := hs.le i (.inr hpc)
      simp [left]
      omega

theorem quiet_of_ran {hist : List FiniObs} (h : ∀ o ∈ hist, ∃ i, o = .ran i) :
    QuietAfterFree hist := by
  induction hist with
  | nil => trivial
  | cons o hist ih =>
    obtain ⟨i, rfl⟩ := h _ List.mem_cons_self
    refine ⟨fun hf => ?_, ih fun o ho => h o (List.mem_cons_of_mem _ ho)⟩
    obtain ⟨j, hj⟩ := h _ (List.mem_cons_of_mem _ hf)
    cases hj

/-- **`worker_fini` is safe until its first access, and never after it**: for any number of
workers, in every interleaving of its steps with theirs and with dispatches to them. -/
theorem fini_safe_iff {acts : List (Act n)} {s : FiniSys n}
    (hrun : StepSystem.run step (init n) acts = some s) : s.Safe ↔ s.Untouched := by
  have hs := turning_run hrun
  constructor
  · intro h
    by_contra hu
    have hle : left n s.fini ≤ n := by
      have hne := mt hs.untouched_iff.2 hu
      cases hpc : s.fini with
      | none => exact absurd (.inl hpc) hu
      | some pc =>
        cases pc with
        | testing => exact absurd (.inr (.inl hpc)) hu
        | convar i =>
          rw [hpc] at hne
          exact Nat.lt_of_le_of_ne (hs.le i (.inl hpc)) fun h => hne (congrArg (· + 1) h)
        | stopping i => exact hs.le i (.inr hpc)
        | freeing | returned => exact Nat.zero_le n
    exact Nat.lt_irrefl n (h.access n (hs.access hle))
  · intro hu
    have hran := hs.before (hs.untouched_iff.1 hu)
    refine ⟨fun i hi => ?_, fun hret => ?_, quiet_of_ran hran⟩
    · obtain ⟨j, hj⟩ := hran _ hi
      cases hj
    · rcases hu with h | h | h <;> rw [hret] at h <;> cases h

/-- `worker_fini` has been called and has tested `wd_init`, while the worker goes on: a run that
meets the hypothesis of `fini_safe_iff`. -/
theorem fini_safe_iff_before :
    ∃ acts, ∃ s : FiniSys 1, StepSystem.run step (init 1) acts = some s ∧
      s.fini = some (.convar 1) ∧ s.wdInit = false ∧ s.hist = [.ran 0, .ran 0] ∧ s.Safe :=
  have hrun := Eq.refl (StepSystem.run step (init 1) [.work 0, .call, .fini, .work 0])
  ⟨_, _, hrun, rfl, rfl, rfl, (fini_safe_iff hrun).2 (.inr (.inr rfl))⟩

/-- **Past the end, and on after the free.**  `worker_fini` takes down one worker: it
accesses `wd_threads[1]`, and the worker reads `wk_status` in the freed array. -/
theorem fini_overruns :
    ¬ ∀ n (acts : List (Act n)) s, 1 ≤ n → StepSystem.run step (init n) acts = some s →
      s.Safe := by
  intro h
  have hrun := Eq.refl (StepSystem.run step (init 1)
    [.call, .fini, .fini, .fini, .fini, .fini, .fini, .work 0])
  exact absurd ((h 1 _ _ (Nat.le_refl 1) hrun).quiet) (by decide)

end FiniSys
end EdpIo
