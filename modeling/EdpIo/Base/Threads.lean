/-
# Starting the workers one by one

`worker_init` and `eio_init` start their workers with the same loop: for each index in turn
`__spi_convar_init`, `spi_thread_create` and the wait for the thread's signal.  An iteration
that fails gives back what it has acquired itself and leaves the loop, and a second loop,
`for(; i >= 0; i--)`, cancels the threads and finalises the convars of the indices below.

That loop begins at the index that failed.  Whichever of the three steps it was, the thread
of that index has been acquired as often as it has been released by then
(`startLoop_cases`), and the loop releases it once more (`balance_unwind_self`).
-/

import EdpIo.Lib.Ledger
import Mathlib.Data.Int.Order.Basic
import Mathlib.Data.Nat.Basic
import Mathlib.Order.Nat

namespace EdpIo

/-- What `worker_init` and `eio_init` acquire; the two parts of a convar are its mutex and
its condition variable. -/
inductive StartRes
  | block
  | cache
  | spin
  | hset
  | mutex (k : ℕ)
  | cond (k : ℕ)
  | thread (k : ℕ)
deriving DecidableEq, Repr

/-- The worker that a resource belongs to. -/
def StartRes.worker? : StartRes → Option ℕ
  | .mutex k | .cond k | .thread k => some k
  | .block | .cache | .spin | .hset => none

/-- How many of the workers from `i` to `i + n` a resource belongs to: one or none. -/
def StartRes.among (r : StartRes) (i n : ℕ) : ℕ :=
  match r.worker? with
  | some k => if i ≤ k ∧ k < i + n then 1 else 0
  | none => 0

theorem StartRes.among_zero (r : StartRes) (i : ℕ) : r.among i 0 = 0 := by
  cases r <;> simp [among, worker?]

theorem StartRes.among_succ (r : StartRes) (i n : ℕ) :
    r.among i (n + 1) = (if some i = r.worker? then 1 else 0) + r.among (i + 1) n := by
  cases r <;> simp [among, worker?] <;> split_ifs <;> omega

/-- What `pthread_mutex_init`, `pthread_cond_init`, `pthread_create` and
`__spi_convar_timedwait` return for one worker. -/
structure ThreadOracle where
  mutex : ℤ
  cond : ℤ
  create : ℤ
  wait : ℤ
deriving DecidableEq, Repr

namespace ThreadOracle

/-- The worker starts. -/
def Succeeds (o : ThreadOracle) : Prop := o.mutex = 0 ∧ o.cond = 0 ∧ o.create = 0 ∧ o.wait = 0

instance (o : ThreadOracle) : Decidable o.Succeeds := inferInstanceAs (Decidable (_ ∧ _))

/-- The first error, or `0`. -/
def ret (o : ThreadOracle) : ℤ :=
  if o.mutex ≠ 0 then o.mutex
  else if o.cond ≠ 0 then o.cond
  else if o.create ≠ 0 then o.create
  else o.wait

theorem ret_eq_zero_iff (o : ThreadOracle) : o.ret = 0 ↔ o.Succeeds := by
  unfold ret Succeeds
  split_ifs <;> simp_all

end ThreadOracle

/-- What has been acquired and released, newest first, and the indices of the workers that
have been accessed. -/
structure Startup where
  log : List (Ledger.Use StartRes)
  accessed : List ℕ

namespace Startup

/-- Before the first acquisition. -/
def empty : Startup := ⟨[], []⟩

def acquire (s : Startup) (r : StartRes) : Startup := { s with log := .acquire r :: s.log }

def release (s : Startup) (r : StartRes) : Startup := { s with log := .release r :: s.log }

/-- `wkr = &(wd->wd_threads[k])`, `iwk = &(iod->iod_workers[k])`. -/
def access (s : Startup) (k : ℕ) : Startup := { s with accessed := k :: s.accessed }

/-- `__spi_convar_init` for worker `k`, with what it returns. -/
def convarInit (s : Startup) (k : ℕ) (o : ThreadOracle) : Startup × ℤ :=
  if o.mutex ≠ 0 then (s, o.mutex)
  else if o.cond ≠ 0 then ((s.acquire (.mutex k)).release (.mutex k), o.cond)
  else ((s.acquire (.mutex k)).acquire (.cond k), 0)

/-- `__spi_convar_fini`. -/
def convarFini (s : Startup) (k : ℕ) : Startup := (s.release (.cond k)).release (.mutex k)

/-- `spi_thread_create`, with what it returns. -/
def threadCreate (s : Startup) (k : ℕ) (o : ThreadOracle) : Startup × ℤ :=
  if o.create ≠ 0 then (s, o.create) else (s.acquire (.thread k), 0)

/-- `spi_thread_destroy`. -/
def threadDestroy (s : Startup) (k : ℕ) : Startup := s.release (.thread k)

/-- The body of the first loop, with `ret`; it goes on if that is `0`. -/
def startWorker (s : Startup) (k : ℕ) (o : ThreadOracle) : Startup × ℤ :=
  let (s, ret) := (s.access k).convarInit k o
  if ret ≠ 0 then (s, ret)
  else
    let (s, ret) := s.threadCreate k o
    if ret ≠ 0 then (s.convarFini k, ret)
    else if o.wait ≠ 0 then ((s.threadDestroy k).convarFini k, o.wait)
    else (s, 0)

/-- The first loop with `n` workers to start from `i` on: where it stops, and `ret`. -/
def startLoop (o : ℕ → ThreadOracle) : ℕ → ℕ → ℤ → Startup → ℕ × ℤ × Startup
  | 0, i, ret, s => (i, ret, s)
  | n + 1, i, _, s =>
    let (s, ret) := s.startWorker i (o i)
    if ret ≠ 0 then (i, ret, s) else startLoop o n (i + 1) 0 s

/-- The body of the second loop. -/
def stopWorker (s : Startup) (k : ℕ) : Startup := ((s.access k).threadDestroy k).convarFini k

/-- The second loop from `i` on. -/
def unwind (s : Startup) : ℕ → Startup
  | 0 => s.stopWorker 0
  | i + 1 => (s.stopWorker (i + 1)).unwind i

@[simp] theorem log_empty : empty.log = [] := rfl
@[simp] theorem log_acquire (s : Startup) (r : StartRes) :
    (s.acquire r).log = .acquire r :: s.log := rfl
@[simp] theorem log_release (s : Startup) (r : StartRes) :
    (s.release r).log = .release r :: s.log := rfl
@[simp] theorem log_access (s : Startup) (k : ℕ) : (s.access k).log = s.log := rfl

/-- The state after worker `k` has been started. -/
def started (s : Startup) (k : ℕ) : Startup :=
  (((s.access k).acquire (.mutex k)).acquire (.cond k)).acquire (.thread k)

theorem startWorker_started (s : Startup) (k : ℕ) {o : ThreadOracle} (h : o.Succeeds) :
    s.startWorker k o = (s.started k, 0) := by
  obtain ⟨hmutex, hcond, hcreate, hwait⟩ := h
  simp [startWorker, convarInit, threadCreate, started, hmutex, hcond, hcreate, hwait]

/-- **An iteration that fails gives back what it has acquired.** -/
theorem startWorker_failed (s : Startup) (k : ℕ) {o : ThreadOracle} (h : ¬ o.Succeeds) :
    (s.startWorker k o).2 = o.ret ∧ o.ret ≠ 0 ∧
      ∀ r, Ledger.balance (s.startWorker k o).1.log r = Ledger.balance s.log r := by
  have hret : o.ret ≠ 0 := mt o.ret_eq_zero_iff.1 h
  refine ⟨?_, hret, ?_⟩
  · unfold ThreadOracle.ret at hret ⊢
    unfold startWorker convarInit threadCreate
    split_ifs at hret ⊢ <;> simp_all
  · intro r
    unfold ThreadOracle.ret at hret
    unfold startWorker convarInit threadCreate
    split_ifs at hret ⊢ <;> simp_all [convarFini, threadDestroy]

/-- Starting worker `k` acquires the three resources of that worker. -/
theorem count_acquire_started (s : Startup) (k : ℕ) (r : StartRes) :
    (s.started k).log.count (.acquire r) =
      s.log.count (.acquire r) + if some k = r.worker? then 1 else 0 := by
  cases r <;> simp [started, StartRes.worker?, List.count_cons]

theorem count_release_started (s : Startup) (k : ℕ) (r : StartRes) :
    (s.started k).log.count (.release r) = s.log.count (.release r) := by
  simp [started]

/-- What the first loop has done when all workers from `i` to `i + n` have started. -/
structure Started (s : Startup) (i n : ℕ) (t : Startup) : Prop where
  acquired : ∀ r, t.log.count (.acquire r) = s.log.count (.acquire r) + r.among i n
  released : ∀ r, t.log.count (.release r) = s.log.count (.release r)

/-- One more worker at the front. -/
theorem Started.cons {s t : Startup} {i n : ℕ} (h : Started (s.started i) (i + 1) n t) :
    Started s i (n + 1) t where
  acquired r := by rw [h.acquired r, count_acquire_started, StartRes.among_succ, Nat.add_assoc]
  released r := by rw [h.released r, count_release_started]

/-- What belongs to a worker is held afterwards if it is one of those started. -/
theorem Started.held_iff {s t : Startup} {n k : ℕ} {r : StartRes} (h : Started s 0 n t)
    (hr : r.worker? = some k) (hacq : .acquire r ∉ s.log) (hrel : .release r ∉ s.log) :
    Ledger.Held t.log r ↔ k < n := by
  unfold Ledger.Held
  rw [h.acquired, h.released, List.count_eq_zero.2 hacq, List.count_eq_zero.2 hrel,
    StartRes.among, hr]
  simp

/-- What belongs to none is held as before. -/
theorem Started.held {s t : Startup} {i n : ℕ} {r : StartRes} (h : Started s i n t)
    (hr : r.worker? = none) (hs : Ledger.Held s.log r) : Ledger.Held t.log r := by
  unfold Ledger.Held
  rw [h.acquired, h.released, StartRes.among, hr]
  exact hs

/-- **The first loop** starts all workers, or stops at one that fails with the resources of
the workers from there on as they were. -/
theorem startLoop_cases (o : ℕ → ThreadOracle) (n i : ℕ) (ret : ℤ) (s : Startup) :
    ((∀ k, i ≤ k → k < i + n → (o k).Succeeds) ∧
      ∃ t, startLoop o n i ret s = (i + n, (if n = 0 then ret else 0), t) ∧ Started s i n t) ∨
    ∃ j t, (i ≤ j ∧ j < i + n ∧ ¬ (o j).Succeeds) ∧
      startLoop o n i ret s = (j, (o j).ret, t) ∧ (o j).ret ≠ 0 ∧
      Ledger.balance t.log (.thread j) = Ledger.balance s.log (.thread j) := by
  induction n generalizing i ret s with
  | zero =>
    refine .inl ⟨fun k h h' => absurd h' (by omega), s, rfl, ?_⟩
    exact ⟨fun r => by rw [StartRes.among_zero, Nat.add_zero], fun r => rfl⟩
  | succ n ih =>
    by_cases hi : (o i).Succeeds
    · have hstep : startLoop o (n + 1) i ret s = startLoop o n (i + 1) 0 (s.started i) := by
        rw [startLoop, startWorker_started s i hi]
        simp
      rw [hstep]
      rcases ih (i + 1) 0 (s.started i) with ⟨hall, t, ht, hstart⟩ | ⟨j, t, hj, ht, hret, hbal⟩
      · refine .inl ⟨fun k hk hlt => ?_, t, ?_, hstart.cons⟩
        · rcases Nat.eq_or_lt_of_le hk with rfl | hk
          · exact hi
          · exact hall k hk (by omega)
        · rw [ht, Nat.add_right_comm i 1 n]
          simp [Nat.add_assoc]
      · refine .inr ⟨j, t, ⟨by omega, by omega, hj.2.2⟩, ht, hret, ?_⟩
        rw [hbal]
        have hne : i ≠ j := by omega
        simp [started, hne]
    · obtain ⟨hret, hne, hbal⟩ := startWorker_failed s i hi
      refine .inr ⟨i, (s.startWorker i (o i)).1, ⟨le_refl i, by omega, hi⟩, ?_, hne, hbal _⟩
      simp [startLoop, hret, hne]

/-- The second loop leaves the threads above `i` alone. -/
theorem balance_unwind_of_lt (s : Startup) {i k : ℕ} (h : i < k) :
    Ledger.balance (s.unwind i).log (.thread k) = Ledger.balance s.log (.thread k) := by
  have hone (s : Startup) {j : ℕ} (hj : j ≠ k) :
      Ledger.balance (s.stopWorker j).log (.thread k) = Ledger.balance s.log (.thread k) := by
    simp [stopWorker, threadDestroy, convarFini, hj]
  induction i generalizing s with
  | zero => exact hone s (Nat.ne_of_lt h)
  | succ i ih =>
    rw [unwind, ih _ (Nat.lt_of_succ_lt h)]
    exact hone s (Nat.ne_of_lt h)

/-- **The off-by-one.**  The second loop releases the thread it begins at, and it begins at
the worker that failed. -/
theorem balance_unwind_self (s : Startup) (i : ℕ) :
    Ledger.balance (s.unwind i).log (.thread i) = Ledger.balance s.log (.thread i) - 1 := by
  cases i with
  | zero => simp [unwind, stopWorker, threadDestroy, convarFini]
  | succ i =>
    rw [unwind, balance_unwind_of_lt _ (Nat.lt_succ_self i)]
    simp [stopWorker, threadDestroy, convarFini]

end Startup
end EdpIo
