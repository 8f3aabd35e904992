/-
# What `worker_init` leaves behind

`worker_init` of `src/worker.c` once more, with what it acquires and releases: the array of
the workers, and a convar and a thread for each.  A call should either leave all workers
running or nothing (`Settles`).

The loop that undoes a start begins at the worker that failed instead of the one before, so
every start in which a worker fails cancels a thread that was not created or was cancelled
already, and with it finalises a convar twice or one that was never initialised.  With
`thread = 0` and an array of no bytes `wd_init` is set and `-1` returned, and with a negative
`thread` the worker `0` of that array is taken down.  `workerInit_settles_iff`: a call does
what it should exactly if there is no memory for the array, or all of one or more workers
start.
-/

import EdpIo.Base.Threads
import EdpIo.Worker.Round

namespace EdpIo
namespace WorkerData

/-- What `worker_init` gets from outside: whether `mheap_alloc` succeeds, and what the calls
that start each worker return. -/
structure StartOracle where
  mem : Bool
  worker : ℕ → ThreadOracle

/-- `worker_init(thread)` with what it returns, acquires and releases. -/
def workerInitUses (wd : WorkerData) (thread : Int32) (o : StartOracle) :
    WorkerData × ℤ × Startup :=
  if wd.wdInit then (wd, -1, .empty)
  else if !o.mem then (wd, -12, .empty)
  else
    let s := Startup.empty.acquire .block
    let (i, ret, s) := Startup.startLoop o.worker thread.toInt.toNat 0 (-1) s
    if i ≠ thread.toInt then (wd, ret, (s.unwind i).release .block)
    else ({ wd with wdInit := true, wdThreadNum := thread.toInt }, ret, s)

/-- As seen by `workerInit`. -/
def StartOracle.errors (o : StartOracle) : InitOracle := ⟨o.mem, fun k => (o.worker k).ret⟩

/-- The first loop stops where `spawn` does. -/
theorem spawn_eq (o : ℕ → ThreadOracle) (n i : ℕ) (ret : ℤ) (s : Startup) :
    spawn (fun k => (o k).ret) n i ret =
      ((Startup.startLoop o n i ret s).1, (Startup.startLoop o n i ret s).2.1) := by
  induction n generalizing i ret s with
  | zero => rfl
  | succ n ih =>
    rw [spawn, Startup.startLoop]
    by_cases h : (o i).Succeeds
    · rw [Startup.startWorker_started s i h, if_pos ((o i).ret_eq_zero_iff.2 h)]
      exact ih (i + 1) 0 _
    · obtain ⟨hret, hne, -⟩ := Startup.startWorker_failed s i h
      rw [if_neg hne]
      simp [hret, hne]

/-- **The two views of `worker_init` agree.** -/
theorem workerInit_uses (wd : WorkerData) (thread : Int32) (o : StartOracle) :
    wd.workerInit thread o.errors =
      ((wd.workerInitUses thread o).1, (wd.workerInitUses thread o).2.1) := by
  unfold workerInit workerInitUses StartOracle.errors
  rw [spawn_eq _ _ _ _ (Startup.empty.acquire .block)]
  by_cases hinit : wd.wdInit
  · rw [if_pos hinit, if_pos hinit]
  · rw [if_neg hinit, if_neg hinit]
    cases o.mem with
    | false => rfl
    | true =>
      dsimp only [Bool.not_true, Bool.false_eq_true, if_false]
      split_ifs <;> rfl

/-- Returned `0` with `wd_init` set, the array and a convar and a thread for each of
`thread` workers held, and no other thread. -/
structure Running (thread : Int32) (r : WorkerData × ℤ × Startup) : Prop where
  ret : r.2.1 = 0
  wdInit : r.1.wdInit = true
  block : Ledger.Held r.2.2.log .block
  threads : ∀ k : ℕ, Ledger.Held r.2.2.log (.thread k) ↔ (k : ℤ) < thread.toInt
  convars : ∀ k : ℕ, (k : ℤ) < thread.toInt →
    Ledger.Held r.2.2.log (.mutex k) ∧ Ledger.Held r.2.2.log (.cond k)

/-- Returned an error without `wd_init`, with all that was acquired released once, nothing
else released, and no worker accessed that is not one of `thread`. -/
structure Undone (thread : Int32) (r : WorkerData × ℤ × Startup) : Prop where
  ret : r.2.1 ≠ 0
  wdInit : r.1.wdInit = false
  settled : Ledger.Settled r.2.2.log
  accessed : ∀ k ∈ r.2.2.accessed, (k : ℤ) < thread.toInt

/-- **What a start should do.** -/
def Settles (wd : WorkerData) (thread : Int32) (o : StartOracle) : Prop :=
  Running thread (wd.workerInitUses thread o) ∨ Undone thread (wd.workerInitUses thread o)

/-- There is no memory for the array, or there are workers and each starts. -/
def StartsAll (thread : Int32) (o : StartOracle) : Prop :=
  o.mem = false ∨
    0 < thread.toInt ∧ ∀ k : ℕ, (k : ℤ) < thread.toInt → (o.worker k).Succeeds

section

variable {wd : WorkerData} {thread : Int32} {o : StartOracle}

/-- With the array, the call is the two loops. -/
theorem workerInitUses_mem (h : wd.wdInit = false) (hmem : o.mem = true) {i : ℕ} {ret : ℤ}
    {t : Startup}
    (hloop : Startup.startLoop o.worker thread.toInt.toNat 0 (-1)
      (Startup.empty.acquire .block) = (i, ret, t)) :
    wd.workerInitUses thread o =
      if i ≠ thread.toInt then (wd, ret, (t.unwind i).release .block)
      else ({ wd with wdInit := true, wdThreadNum := thread.toInt }, ret, t) := by
  unfold workerInitUses
  rw [h, hmem]
  dsimp only
  rw [hloop]
  rfl

/-- A worker that fails upsets the account. -/
theorem not_settles_failed {i : ℕ} {ret : ℤ} {t : Startup}
    (huses : wd.workerInitUses thread o = (wd, ret, (t.unwind i).release .block))
    (h : wd.wdInit = false) (hbal : Ledger.balance t.log (.thread i) = 0) :
    ¬ Settles wd thread o := by
  unfold Settles
  rw [huses]
  rintro (hrun | hundo)
  · exact Bool.false_ne_true (h.symm.trans hrun.wdInit)
  · have hzero := hundo.settled.balance (.thread i)
    rw [Startup.log_release, Ledger.balance_release, Startup.balance_unwind_self, hbal] at hzero
    simp at hzero

/-- Workers that all start are running. -/
theorem running_started {t : Startup} (hpos : 0 < thread.toInt)
    (ht : Startup.Started (Startup.empty.acquire .block) 0 thread.toInt.toNat t) :
    Running thread ({ wd with wdInit := true, wdThreadNum := thread.toInt }, 0, t) := by
  have hlt (k : ℕ) : k < thread.toInt.toNat ↔ (k : ℤ) < thread.toInt := by omega
  refine ⟨rfl, rfl, ht.held rfl ?_, fun k => ?_, fun k hk => ⟨?_, ?_⟩⟩
  · simp [Ledger.Held, Startup.empty]
  · rw [← hlt k]
    exact ht.held_iff rfl (by simp [Startup.empty]) (by simp [Startup.empty])
  · exact (ht.held_iff rfl (by simp [Startup.empty]) (by simp [Startup.empty])).2 ((hlt k).2 hk)
  · exact (ht.held_iff rfl (by simp [Startup.empty]) (by simp [Startup.empty])).2 ((hlt k).2 hk)

/-- Without the array nothing is acquired. -/
theorem settles_noMem (h : wd.wdInit = false) (hmem : o.mem = false) : Settles wd thread o := by
  have huses : wd.workerInitUses thread o = (wd, -12, .empty) := by
    simp [workerInitUses, h, hmem]
  refine .inr ?_
  rw [huses]
  exact ⟨show (-12 : ℤ) ≠ 0 by decide, h, Ledger.settled_nil, by simp [Startup.empty]⟩

/-- An array of no workers is never right: with `thread = 0` the call sets `wd_init` and returns
`-1`, and below that its second loop takes down worker `0`. -/
theorem not_settles_noWorkers (h : wd.wdInit = false) (hmem : o.mem = true)
    (hthread : thread.toInt ≤ 0) : ¬ Settles wd thread o := by
  have hloop : Startup.startLoop o.worker thread.toInt.toNat 0 (-1)
      (Startup.empty.acquire .block) = (0, -1, Startup.empty.acquire .block) := by
    rw [Int.toNat_of_nonpos hthread]
    rfl
  have huses := workerInitUses_mem h hmem hloop
  rcases hthread.lt_or_eq with hneg | hzero
  · rw [if_pos (by omega)] at huses
    exact not_settles_failed huses h (by simp [Startup.empty])
  · rw [if_neg (by omega)] at huses
    unfold Settles
    rw [huses]
    rintro (hrun | hundo)
    · exact absurd hrun.ret (show (-1 : ℤ) ≠ 0 by decide)
    · exact Bool.false_ne_true hundo.wdInit.symm

end

/-- **When `worker_init` settles.**  Called uninitialised, with any thread count and any
failures, it leaves all workers running or nothing at all if and only if there is no memory
for the array or there are workers and each starts. -/
theorem workerInit_settles_iff {wd : WorkerData} (h : wd.wdInit = false) (thread : Int32)
    (o : StartOracle) : Settles wd thread o ↔ StartsAll thread o := by
  cases hmem : o.mem with
  | false => exact iff_of_true (settles_noMem h hmem) (.inl hmem)
  | true =>
    have hstarts : StartsAll thread o ↔
        0 < thread.toInt ∧ ∀ k : ℕ, (k : ℤ) < thread.toInt → (o.worker k).Succeeds := by
      simp [StartsAll, hmem]
    rw [hstarts]
    rcases lt_or_ge 0 thread.toInt with hpos | hthread
    · rcases Startup.startLoop_cases o.worker thread.toInt.toNat 0 (-1)
        (Startup.empty.acquire .block) with ⟨hall, t, ht, hstart⟩ | ⟨j, t, hj, ht, -, hbal⟩
      · have huses := workerInitUses_mem h hmem ht
        rw [if_neg (by omega), if_neg (by omega)] at huses
        refine iff_of_true (.inl ?_) ⟨hpos, fun k hk => hall k (Nat.zero_le k) (by omega)⟩
        rw [huses]
        exact running_started hpos hstart
      · have huses := workerInitUses_mem h hmem ht
        rw [if_pos (by omega)] at huses
        have ht0 : Ledger.balance t.log (.thread j) = 0 := by
          rw [hbal]
          simp
        exact iff_of_false (not_settles_failed huses h ht0)
          fun hall => hj.2.2 (hall.2 j (by omega))
    · exact iff_of_false (not_settles_noWorkers h hmem hthread)
        fun hall => absurd hall.1 hthread.not_gt

/-- Two workers that start. -/
theorem workerInit_settles_two : Settles zero 2 ⟨true, fun _ => ⟨0, 0, 0, 0⟩⟩ :=
  have hinit : zero.wdInit = false := rfl
  (workerInit_settles_iff hinit 2 ⟨true, fun _ => ⟨0, 0, 0, 0⟩⟩).2
    (.inr ⟨by decide, fun _ _ => ⟨rfl, rfl, rfl, rfl⟩⟩)

/-- **One thread that cannot be created.**  The loop that undoes the start cancels it. -/
theorem workerInit_cancels_uncreated :
    ¬ ∀ (wd : WorkerData) (thread : Int32) (o : StartOracle), wd.wdInit = false →
      Settles wd thread o := by
  intro hall
  -- `pthread_create` returns `EAGAIN`
  rcases hall zero 1 ⟨true, fun _ => ⟨0, 0, 11, 0⟩⟩ rfl with hrun | hundo
  · exact absurd hrun.wdInit (by decide)
  · exact absurd (hundo.settled.balance (.thread 0)) (by decide)

end WorkerData
end EdpIo
