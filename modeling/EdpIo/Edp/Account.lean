/-
# The account of `edp_init` and `edp_fini`

`edp_init` should start the whole library or leave nothing behind (`Settles`), and its labels
undo the steps in the reverse order.  Two of the functions they call do not give back what they
should: `worker_init` takes down the worker that failed once more (`EdpIo.Worker.Cleanup`), and
`worker_fini` does not cancel the workers' threads and finalises one convar too many.  So a call
does what it should exactly if it fails before the workers, or not at all
(`edpInit_settles_iff`); and if it fails for want of memory for the workers, `hsd_lock` must have
been initialised, because `hset_fini` finalises it.

`edp_account` sums this up over any number of lives of the library, each with its own number of
workers: when all is down, what is out of balance are the threads of all workers there have
been, and for each life one convar that was never initialised.
-/

import EdpIo.Edp.Model
import EdpIo.Lib.Run
import Mathlib.Algebra.BigOperators.Group.List.Basic

namespace EdpIo
namespace EdpData

/-- Nothing is initialised. -/
structure Down (s : EdpData) : Prop where
  logInit : s.logInit = false
  hsdInit : s.hsdInit = false
  hsdSets : s.hsdSets = false
  wdInit : s.wd.wdInit = false
  edInit : s.edInit = false
  eioData : s.eioData = none
  netInit : s.netInit = false

/-- Everything is, with `thread` workers, and `fd` to the log server. -/
structure Up (s : EdpData) (thread fd : Int32) : Prop where
  threads : 0 < thread.toInt
  logInit : s.logInit = true
  logSock : s.logSock = fd
  hsdInit : s.hsdInit = true
  hsdSets : s.hsdSets = true
  wdInit : s.wd.wdInit = true
  wdThreadNum : s.wd.wdThreadNum = thread.toInt
  edInit : s.edInit = true
  eioData : ∃ e, s.eioData = some e ∧ e.iodNum = 1
  netInit : s.netInit = true
  edEvcache : s.edEvcache = true

/-- How often a library that is up has acquired a resource. -/
def need (thread : Int32) (o : EdpOracle) : EdpRes → ℕ
  | .logSock fd => if o.sock = some fd then 1 else 0
  | .worker r => (if r = .block then 1 else 0) + r.among 0 thread.toInt.toNat
  | .eio r =>
    (if r = .block ∨ r = .cache ∨ r = .hset ∨ (r = .spin ∧ o.eio.spin = 0) then 1 else 0) +
      r.among 0 1
  | .hsdLock => if o.hsdSpin = 0 then 1 else 0
  | .edLock => if o.edSpin = 0 then 1 else 0
  | .netLock => if o.netSpin = 0 then 1 else 0
  | .netCache => 1

/-- **What a call should do**, where it adds `part` to the record: everything is up and has been
acquired once, or it returns an error and everything is down and given back. -/
def Settles (s : EdpData) (thread : Int32) (o : EdpOracle) : Prop :=
  ∃ ret t part, s.edpInit thread o = (ret, t) ∧ t.uses = part ++ s.uses ∧
    (ret = 0 ∧ (∃ fd, o.sock = some fd ∧ t.Up thread fd) ∧
        (∀ r, part.count (.acquire r) = need thread o r ∧ part.count (.release r) = 0) ∨
      ret ≠ 0 ∧ t.Down ∧ Ledger.Settled part)

/-- All workers of `worker_init` start. -/
def WorkersStart (thread : Int32) (o : WorkerData.StartOracle) : Prop :=
  o.mem = true ∧ 0 < thread.toInt ∧ ∀ k : ℕ, (k : ℤ) < thread.toInt → (o.worker k).Succeeds

/-- No step of `eio_init(1)` fails. -/
def EioStarts (o : Eio.InitOracle) : Prop :=
  o.iod = true ∧ o.mcache = 0 ∧ o.hset = 0 ∧ (o.worker 0).Succeeds

/-- The call fails before the workers (with `hsd_lock` initialised, if it has come to that), or
no step fails whose result is looked at. -/
def Starts (thread : Int32) (o : EdpOracle) : Prop :=
  o.sock = none ∨ o.connect < 0 ∨ (o.worker.mem = false ∧ o.hsdSpin = 0) ∨
    (WorkersStart thread o.worker ∧ EioStarts o.eio ∧ o.mcache = 0)

/-! ### The records of the parts -/

theorem worker_injective : Function.Injective EdpRes.worker := fun _ _ => EdpRes.worker.inj

theorem eio_injective : Function.Injective EdpRes.eio := fun _ _ => EdpRes.eio.inj

theorem count_spun (p q : EdpRes) (ret : ℤ) :
    (spun p ret).count (.acquire q) = (if p = q ∧ ret = 0 then 1 else 0) ∧
      (spun p ret).count (.release q) = 0 := by
  by_cases hret : ret = 0 <;> by_cases hp : p = q <;> simp [spun, hret, hp]

theorem balance_spun (p q : EdpRes) (ret : ℤ) :
    Ledger.balance (spun p ret) q = if p = q ∧ ret = 0 then 1 else 0 := by
  by_cases hret : ret = 0 <;> simp [spun, hret]

section Parts

variable (l : List (Ledger.Use StartRes)) (q : EdpRes)

theorem count_worker :
    (l.map (Ledger.Use.map .worker)).count (.acquire q) = (match q with
      | .worker r => l.count (.acquire r)
      | _ => 0) ∧
    (l.map (Ledger.Use.map .worker)).count (.release q) = match q with
      | .worker r => l.count (.release r)
      | _ => 0 := by
  cases q with
  | worker r =>
    exact ⟨Ledger.count_acquire_map worker_injective l r,
      Ledger.count_release_map worker_injective l r⟩
  | _ => exact Ledger.count_map_of_ne (by simp) l

theorem count_eio :
    (l.map (Ledger.Use.map .eio)).count (.acquire q) = (match q with
      | .eio r => l.count (.acquire r)
      | _ => 0) ∧
    (l.map (Ledger.Use.map .eio)).count (.release q) = match q with
      | .eio r => l.count (.release r)
      | _ => 0 := by
  cases q with
  | eio r =>
    exact ⟨Ledger.count_acquire_map eio_injective l r, Ledger.count_release_map eio_injective l r⟩
  | _ => exact Ledger.count_map_of_ne (by simp) l

theorem balance_worker :
    Ledger.balance (l.map (Ledger.Use.map .worker)) q = match q with
      | .worker r => Ledger.balance l r
      | _ => 0 := by
  cases q with
  | worker r => exact Ledger.balance_map worker_injective l r
  | _ => exact Ledger.balance_map_of_ne (by simp) l

theorem balance_eio :
    Ledger.balance (l.map (Ledger.Use.map .eio)) q = match q with
      | .eio r => Ledger.balance l r
      | _ => 0 := by
  cases q with
  | eio r => exact Ledger.balance_map eio_injective l r
  | _ => exact Ledger.balance_map_of_ne (by simp) l

end Parts

/-- `worker_init` of workers that are down: there is no memory, its account is upset, or all
workers start. -/
theorem workerInitUses_cases {wd : WorkerData} (h : wd.wdInit = false) (thread : Int32)
    (o : WorkerData.StartOracle) :
    (o.mem = false ∧ wd.workerInitUses thread o = (wd, -12, .empty)) ∨
      (o.mem = true ∧ ¬ WorkersStart thread o ∧ ∃ wd' ret t, ret ≠ 0 ∧
        wd.workerInitUses thread o = (wd', ret, t) ∧ ∃ r, Ledger.balance t.log r ≠ 0) ∨
      (WorkersStart thread o ∧ ∃ t,
        wd.workerInitUses thread o =
          ({ wd with wdInit := true, wdThreadNum := thread.toInt }, 0, t) ∧
        Startup.Started (Startup.empty.acquire .block) 0 thread.toInt.toNat t) := by
  cases hmem : o.mem with
  | false => exact .inl ⟨rfl, by simp [WorkerData.workerInitUses, h, hmem]⟩
  | true =>
    refine .inr ?_
    rcases Startup.startLoop_cases o.worker thread.toInt.toNat 0 (-1)
      (Startup.empty.acquire .block) with ⟨hall, t, ht, hstart⟩ | ⟨j, t, hj, ht, hret, hbal⟩
    · have huses := WorkerData.workerInitUses_mem h hmem ht
      rcases lt_trichotomy 0 thread.toInt with hpos | hzero | hneg
      · rw [if_neg (by omega), if_neg (by omega)] at huses
        exact .inr ⟨⟨hmem, hpos, fun k hk => hall k (Nat.zero_le k) (by omega)⟩, t, huses, hstart⟩
      · -- no worker: the array is not freed
        rw [if_neg (by omega), if_pos (by omega)] at huses
        refine .inl ⟨rfl, fun hs => absurd hs.2.1 (by omega), _, _, _, by decide, huses, .block, ?_⟩
        unfold Ledger.balance
        rw [hstart.acquired, hstart.released]
        simp [Startup.empty, StartRes.among, StartRes.worker?]
      · -- worker `0` of no array is taken down
        rw [if_pos (by omega), if_pos (by omega)] at huses
        refine .inl ⟨rfl, fun hs => absurd hs.2.1 (by omega), _, _, _, by decide, huses,
          .thread (0 + thread.toInt.toNat), ?_⟩
        rw [Startup.log_release, Ledger.balance_release, Startup.balance_unwind_self]
        unfold Ledger.balance
        rw [hstart.acquired, hstart.released]
        simp [Startup.empty, StartRes.among, StartRes.worker?]
    · have huses := WorkerData.workerInitUses_mem h hmem ht
      rw [if_pos (by omega)] at huses
      refine .inl ⟨rfl, fun hs => hj.2.2 (hs.2.2 j (by omega)), _, _, _, hret, huses, .thread j, ?_⟩
      rw [Startup.log_release, Ledger.balance_release, Startup.balance_unwind_self, hbal]
      simp [Startup.empty]

/-- `eio_init(1)` publishes `__eio_data`, or returns an error and leaves it. -/
theorem eioInit_cases (eioData : Option Eio) (o : Eio.InitOracle) :
    (EioStarts o ∧ ∃ t, Eio.eioInit eioData 1 o = (some (Eio.init 1), 0, t) ∧
      Startup.Started (Eio.prepared o) 0 1 t) ∨
    (¬ EioStarts o ∧ ∃ ret t, ret ≠ 0 ∧ Eio.eioInit eioData 1 o = (eioData, ret, t)) := by
  cases hiod : o.iod with
  | false =>
    refine .inr ⟨fun hs => Bool.false_ne_true (hiod.symm.trans hs.1), -12, .empty, by decide, ?_⟩
    simp [Eio.eioInit, hiod]
  | true =>
    by_cases hmcache : o.mcache = 0
    · by_cases hhset : o.hset = 0
      · rcases Startup.startLoop_cases o.worker (1 : Int32).toInt.toNat 0 0 (Eio.prepared o) with
          ⟨hall, t, ht, hstart⟩ | ⟨j, t, hj, ht, hret, -⟩
        · have huses := Eio.eioInit_prepared eioData hiod hmcache hhset ht
          rw [if_neg (by simp)] at huses
          exact .inl ⟨⟨hiod, hmcache, hhset, hall 0 (by omega) (by decide)⟩, t, huses, hstart⟩
        · have huses := Eio.eioInit_prepared eioData hiod hmcache hhset ht
          rw [if_pos hret] at huses
          have hone : (1 : Int32).toInt.toNat = 1 := rfl
          obtain rfl : j = 0 := by omega
          exact .inr ⟨fun hs => hj.2.2 hs.2.2.2, _, _, hret, huses⟩
      · refine .inr ⟨fun hs => hhset hs.2.2.1, o.hset, (Eio.eioInit eioData 1 o).2.2, hhset, ?_⟩
        simp [Eio.eioInit, hiod, hmcache, hhset]
    · refine .inr ⟨fun hs => hmcache hs.2.1, o.mcache, (Eio.eioInit eioData 1 o).2.2, hmcache, ?_⟩
      simp [Eio.eioInit, hiod, hmcache]

/-! ### The call -/

section Init

variable {s t : EdpData} {thread : Int32} {o : EdpOracle} {fd : Int32} {ret : ℤ}

/-- The state before `worker_init`. -/
def logged (s : EdpData) (fd : Int32) (spin : ℤ) : EdpData :=
  hsetInit { acquire { s with logSock := fd } (.logSock fd) with logInit := true } spin

/-- With a connection to the log server, `edp_init` goes on to `worker_init`. -/
theorem edpInit_logged (s : EdpData) (thread : Int32) (hsock : o.sock = some fd)
    (hconn : ¬ o.connect < 0) :
    s.edpInit thread o =
      (let r := (s.logged fd o.hsdSpin).workerInit thread o.worker
       if r.1 ≠ 0 then (r.1, r.2.exitWorker)
       else
        let q := (r.2.emitInit o.edSpin).edpnetInit o.eio o.netSpin o.mcache
        if q.1 ≠ 0 then (q.1, q.2.exitNet) else (0, q.2)) := by
  simp only [edpInit, loggerInit, hsock, if_neg hconn]
  rfl

/-- Without one, there is nothing to undo. -/
theorem settles_unlogged (hs : s.Down) (h : o.sock = none ∨ o.connect < 0) :
    s.Settles thread o := by
  cases hsock : o.sock with
  | none =>
    refine ⟨-1, { s with logSock := -1 }, [], ?_, rfl, .inr ⟨by decide, ?_, Ledger.settled_nil⟩⟩
    · simp [edpInit, loggerInit, hsock]
    · exact ⟨hs.logInit, hs.hsdInit, hs.hsdSets, hs.wdInit, hs.edInit, hs.eioData, hs.netInit⟩
  | some fd =>
    have hconn : o.connect < 0 := by simpa [hsock] using h
    have hnil : Ledger.Settled ([] : List (Ledger.Use EdpRes)) := Ledger.settled_nil
    refine ⟨-1, release (acquire { s with logSock := fd } (.logSock fd)) (.logSock fd),
      [.release (.logSock fd), .acquire (.logSock fd)], ?_, rfl, .inr ⟨by decide, ?_, ?_⟩⟩
    · simp [edpInit, loggerInit, hsock, hconn]
    · exact ⟨hs.logInit, hs.hsdInit, hs.hsdSets, hs.wdInit, hs.edInit, hs.eioData, hs.netInit⟩
    · exact hnil.enclose (by simp)

/-- What is left where `worker_init` fails. -/
theorem edpInit_workers (hs : s.Down) (hsock : o.sock = some fd) (hconn : ¬ o.connect < 0)
    {wd : WorkerData} {u : Startup} (h : s.wd.workerInitUses thread o.worker = (wd, ret, u))
    (hret : ret ≠ 0) :
    s.edpInit thread o = (ret, { s with
      logSock := fd
      wd := wd
      uses := .release (.logSock fd) :: .release .hsdLock ::
        (u.log.map (Ledger.Use.map .worker) ++ (spun .hsdLock o.hsdSpin ++
          .acquire (.logSock fd) :: s.uses)) }) := by
  have hworker : (s.logged fd o.hsdSpin).workerInit thread o.worker =
      (ret, record { s.logged fd o.hsdSpin with wd := wd } .worker u.log) := by
    rw [workerInit, show (s.logged fd o.hsdSpin).wd = s.wd from rfl, h]
  rw [edpInit_logged s thread hsock hconn, hworker]
  obtain ⟨hlog, hhsd, hsets, -, -, -, -⟩ := hs
  obtain ⟨⟩ := s
  subst hlog hhsd hsets
  simp [exitWorker, hsetFini, loggerFini, record, release, acquire, logged, hsetInit, spinInit,
    hret]

/-- An error that leaves something out of balance. -/
theorem not_settles {q : EdpRes} (h : s.edpInit thread o = (ret, t)) (hret : ret ≠ 0)
    (hbal : Ledger.balance t.uses q ≠ Ledger.balance s.uses q) : ¬ s.Settles thread o := by
  rintro ⟨ret', t', part, h', huses, hcases⟩
  obtain ⟨rfl, rfl⟩ := Prod.mk.inj (h.symm.trans h')
  rcases hcases with ⟨hzero, -⟩ | ⟨-, -, hsettled⟩
  · exact hret hzero
  · rw [huses, Ledger.balance_append, hsettled.balance, zero_add] at hbal
    exact hbal rfl

/-! The functions that do not touch what belongs to the workers. -/

section Workers

variable (s : EdpData) (r : StartRes)

theorem balance_record_eio (l : List (Ledger.Use StartRes)) :
    Ledger.balance (s.record .eio l).uses (.worker r) = Ledger.balance s.uses (.worker r) := by
  rw [record, Ledger.balance_append, balance_eio, zero_add]

theorem balance_emitInit (spin : ℤ) : Ledger.balance (s.emitInit spin).uses (.worker r) =
    Ledger.balance s.uses (.worker r) := by
  unfold emitInit
  split <;> simp [spinInit, Ledger.balance_append, balance_spun]

theorem balance_emitFini : Ledger.balance s.emitFini.uses (.worker r) =
    Ledger.balance s.uses (.worker r) := by
  unfold emitFini
  split_ifs <;> simp [release]

theorem balance_eioFini : Ledger.balance s.eioFini.uses (.worker r) =
    Ledger.balance s.uses (.worker r) := by
  unfold eioFini
  split
  · rfl
  · exact balance_record_eio ..

theorem balance_edpnetInit (o : Eio.InitOracle) (spin mcache : ℤ) :
    Ledger.balance (s.edpnetInit o spin mcache).2.uses (.worker r) =
      Ledger.balance s.uses (.worker r) := by
  have heio : Ledger.balance (s.eioInit o).2.uses (.worker r) =
      Ledger.balance s.uses (.worker r) := by
    unfold eioInit
    dsimp only
    split_ifs <;> exact balance_record_eio ..
  unfold edpnetInit
  dsimp only
  split_ifs
  · exact heio
  · rw [balance_eioFini]
    simpa [release, spinInit, Ledger.balance_append, balance_spun] using heio
  · simpa [acquire, spinInit, Ledger.balance_append, balance_spun] using heio

theorem balance_exitWorker : Ledger.balance s.exitWorker.uses (.worker r) =
    Ledger.balance s.uses (.worker r) := by
  unfold exitWorker loggerFini hsetFini
  split_ifs <;> simp [release]

end Workers

/-- `worker_fini` cancels no thread. -/
theorem balance_workerFini_thread (s : EdpData) (k : ℕ) :
    Ledger.balance s.workerFini.uses (.worker (.thread k)) =
      Ledger.balance s.uses (.worker (.thread k)) := by
  unfold workerFini
  split
  · rw [record, Ledger.balance_append, balance_worker]
    simp [balance_finiLoop, Startup.empty]
  · rfl

/-- `edpnet_init` sets everything up, or it returns an error. -/
theorem edpnetInit_cases (s : EdpData) (o : Eio.InitOracle) (spin mcache : ℤ) :
    (EioStarts o ∧ mcache = 0 ∧ ∃ u, Startup.Started (Eio.prepared o) 0 1 u ∧
      s.edpnetInit o spin mcache = (0, { s with
        eioData := some (Eio.init 1)
        hsdSets := true
        netInit := true
        edEvcache := true
        counts := { s.counts with ioes := 0, events := 0 }
        uses := .acquire .netCache :: (spun .netLock spin ++
          (u.log.map (Ledger.Use.map .eio) ++ s.uses)) })) ∨
    (¬ (EioStarts o ∧ mcache = 0) ∧ (s.edpnetInit o spin mcache).1 ≠ 0) := by
  rcases eioInit_cases s.eioData o with ⟨hstart, u, hu, hstarted⟩ | ⟨hstart, ret, u, hret, hu⟩
  · by_cases hmcache : mcache = 0
    · refine .inl ⟨hstart, hmcache, u, hstarted, ?_⟩
      simp [edpnetInit, eioInit, hu, hmcache, acquire, spinInit, record]
    · refine .inr ⟨fun h => hmcache h.2, ?_⟩
      simp [edpnetInit, eioInit, hu, hmcache]
  · refine .inr ⟨fun h => hstart h.1, ?_⟩
    simp [edpnetInit, eioInit, hu, hret]

/-- Where the workers start and `edpnet_init` fails, the thread of worker `0` is not cancelled. -/
theorem not_settles_net (hsock : o.sock = some fd) (hconn : ¬ o.connect < 0)
    (hworkers : WorkersStart thread o.worker) {wd : WorkerData} {u : Startup}
    (h : s.wd.workerInitUses thread o.worker = (wd, 0, u))
    (hstarted : Startup.Started (Startup.empty.acquire .block) 0 thread.toInt.toNat u)
    (hnet : ¬ (EioStarts o.eio ∧ o.mcache = 0)) : ¬ s.Settles thread o := by
  have hworker : (s.logged fd o.hsdSpin).workerInit thread o.worker =
      (0, record { s.logged fd o.hsdSpin with wd := wd } .worker u.log) := by
    rw [workerInit, show (s.logged fd o.hsdSpin).wd = s.wd from rfl, h]
  obtain ⟨x, hx⟩ : ∃ x, (record { s.logged fd o.hsdSpin with wd := wd } .worker u.log).emitInit
      o.edSpin = x := ⟨_, rfl⟩
  obtain ⟨⟨ret, v⟩, hv⟩ : ∃ q, x.edpnetInit o.eio o.netSpin o.mcache = q := ⟨_, rfl⟩
  have hret : ret ≠ 0 := by
    rcases edpnetInit_cases x o.eio o.netSpin o.mcache with ⟨hstart, hmcache, -⟩ | ⟨-, hret⟩
    · exact absurd ⟨hstart, hmcache⟩ hnet
    · rwa [hv] at hret
  refine not_settles (t := v.exitNet) (q := .worker (.thread 0)) ?_ hret ?_
  · rw [edpInit_logged s thread hsock hconn, hworker]
    simp [hx, hv, hret]
  · have hnetbal := balance_edpnetInit x (.thread 0) o.eio o.netSpin o.mcache
    rw [hv, ← hx, balance_emitInit, record, Ledger.balance_append, balance_worker] at hnetbal
    have hone : Ledger.balance u.log (.thread 0) = 1 := by
      have hamong : (StartRes.thread 0).among 0 thread.toInt.toNat = 1 :=
        if_pos ⟨le_rfl, by have := hworkers.2.1; omega⟩
      unfold Ledger.balance
      rw [hstarted.acquired, hstarted.released, hamong]
      simp [Startup.empty]
    rw [exitNet, exitEmit, balance_exitWorker, balance_workerFini_thread, balance_emitFini, hnetbal]
    simp [hone, logged, hsetInit, spinInit, acquire, Ledger.balance_append, balance_spun]

/-- What `edp_init` acquires where it returns `0`: `u` are the records of `worker_init` and `v`
those of `eio_init`. -/
def upRecord (o : EdpOracle) (fd : Int32) (u v : Startup) : List (Ledger.Use EdpRes) :=
  .acquire .netCache :: (spun .netLock o.netSpin ++ (v.log.map (Ledger.Use.map .eio) ++
    (spun .edLock o.edSpin ++ (u.log.map (Ledger.Use.map .worker) ++
      (spun .hsdLock o.hsdSpin ++ [.acquire (.logSock fd)])))))

theorem count_prepared (o : Eio.InitOracle) (r : StartRes) :
    (Eio.prepared o).log.count (.acquire r) =
        (if r = .block ∨ r = .cache ∨ r = .hset ∨ (r = .spin ∧ o.spin = 0) then 1 else 0) ∧
      (Eio.prepared o).log.count (.release r) = 0 := by
  by_cases hspin : o.spin = 0 <;> cases r <;> simp [Eio.prepared, Startup.empty, hspin]

/-- Each resource has been acquired as often as it is needed. -/
theorem count_upRecord (hsock : o.sock = some fd) {u v : Startup}
    (hu : Startup.Started (Startup.empty.acquire .block) 0 thread.toInt.toNat u)
    (hv : Startup.Started (Eio.prepared o.eio) 0 1 v) (r : EdpRes) :
    (upRecord o fd u v).count (.acquire r) = need thread o r ∧
      (upRecord o fd u v).count (.release r) = 0 := by
  obtain ⟨hwacq, hwrel⟩ := count_worker u.log r
  obtain ⟨heacq, herel⟩ := count_eio v.log r
  have hspun (p : EdpRes) (ret : ℤ) := count_spun p r ret
  unfold upRecord
  cases r with
  | logSock fd' =>
    by_cases hfd : fd = fd' <;> simp [hwacq, heacq, hwrel, herel, hspun, need, hsock, hfd]
  | hsdLock | edLock | netLock | netCache => simp [hwacq, heacq, hwrel, herel, hspun, need]
  | worker r =>
    by_cases hr : StartRes.block = r
    · simp [hwacq, heacq, hwrel, herel, hspun, need, hu.acquired, hu.released, Startup.empty, hr]
    · simp [hwacq, heacq, hwrel, herel, hspun, need, hu.acquired, hu.released, Startup.empty, hr,
        Ne.symm hr]
  | eio r =>
    obtain ⟨hacq, hrel⟩ := count_prepared o.eio r
    simp [hwacq, heacq, hwrel, herel, hspun, need, hv.acquired, hv.released, hacq, hrel]

/-- Where no step fails whose result is looked at, everything is up. -/
theorem settles_up (hs : s.Down) (hsock : o.sock = some fd) (hconn : ¬ o.connect < 0)
    (hpos : 0 < thread.toInt) {u : Startup}
    (h : s.wd.workerInitUses thread o.worker =
      ({ s.wd with wdInit := true, wdThreadNum := thread.toInt }, 0, u))
    (hstarted : Startup.Started (Startup.empty.acquire .block) 0 thread.toInt.toNat u)
    (hstart : EioStarts o.eio) (hmcache : o.mcache = 0) : s.Settles thread o := by
  have hworker : (s.logged fd o.hsdSpin).workerInit thread o.worker =
      (0, record { s.logged fd o.hsdSpin with
        wd := { s.wd with wdInit := true, wdThreadNum := thread.toInt } } .worker u.log) := by
    rw [workerInit, show (s.logged fd o.hsdSpin).wd = s.wd from rfl, h]
  obtain ⟨x, hx⟩ : ∃ x, (record { s.logged fd o.hsdSpin with
      wd := { s.wd with wdInit := true, wdThreadNum := thread.toInt } } .worker u.log).emitInit
        o.edSpin = x := ⟨_, rfl⟩
  rcases edpnetInit_cases x o.eio o.netSpin o.mcache with ⟨-, -, v, hv, hnet⟩ | ⟨hnot, -⟩
  · have hedp : s.edpInit thread o = x.edpnetInit o.eio o.netSpin o.mcache := by
      rw [edpInit_logged s thread hsock hconn, hworker]
      simp [hx, hnet]
    rw [hnet, ← hx] at hedp
    refine ⟨0, _, upRecord o fd u v, hedp, ?_,
      .inl ⟨rfl, ⟨fd, hsock, ?_⟩, count_upRecord hsock hstarted hv⟩⟩
    · simp [upRecord, emitInit, record, logged, hsetInit, spinInit, acquire, hs.edInit]
    · refine ⟨hpos, ?_, ?_, ?_, rfl, ?_, ?_, ?_, ⟨_, rfl, rfl⟩, rfl, rfl⟩ <;>
        simp [emitInit, record, logged, hsetInit, spinInit, acquire, hs.edInit]
  · exact absurd ⟨hstart, hmcache⟩ hnot

/-- Where there is no memory for the workers, what was acquired before is given back. -/
theorem settles_noMem (hs : s.Down) (hsock : o.sock = some fd) (hconn : ¬ o.connect < 0)
    (hspin : o.hsdSpin = 0) (h : s.wd.workerInitUses thread o.worker = (s.wd, -12, .empty)) :
    s.Settles thread o := by
  have hnil : Ledger.Settled ([] : List (Ledger.Use EdpRes)) := Ledger.settled_nil
  have hhsd := hnil.enclose (r := .hsdLock) (by simp)
  refine ⟨-12, _, [.release (.logSock fd), .release .hsdLock, .acquire .hsdLock,
    .acquire (.logSock fd)], edpInit_workers hs hsock hconn h (by decide), by simp [spun, hspin],
    .inr ⟨by decide, ?_, hhsd.enclose (by simp)⟩⟩
  exact ⟨hs.logInit, hs.hsdInit, hs.hsdSets, hs.wdInit, hs.edInit, hs.eioData, hs.netInit⟩

/-- An error before the workers is undone, and so is none. -/
theorem settles_of_starts (hs : s.Down) (h : Starts thread o) : s.Settles thread o := by
  by_cases hlog : o.sock = none ∨ o.connect < 0
  · exact settles_unlogged hs hlog
  · obtain ⟨hnone, hconn⟩ := not_or.1 hlog
    obtain ⟨fd, hsock⟩ := Option.ne_none_iff_exists'.1 hnone
    have h : (o.worker.mem = false ∧ o.hsdSpin = 0) ∨ (WorkersStart thread o.worker ∧
        EioStarts o.eio ∧ o.mcache = 0) := by simpa [Starts, hnone, hconn] using h
    rcases workerInitUses_cases hs.wdInit thread o.worker with
      ⟨hmem, huses⟩ | ⟨hmem, hnot, -⟩ | ⟨⟨hmem, hpos, -⟩, u, huses, hu⟩
    · rcases h with ⟨-, hspin⟩ | ⟨⟨hmem', -⟩, -⟩
      · exact settles_noMem hs hsock hconn hspin huses
      · exact absurd (hmem.symm.trans hmem') (by decide)
    · rcases h with ⟨h, -⟩ | ⟨h, -⟩
      · exact absurd (hmem.symm.trans h) (by decide)
      · exact absurd h hnot
    · rcases h with ⟨h, -⟩ | ⟨-, heio, hmcache⟩
      · exact absurd (hmem.symm.trans h) (by decide)
      · exact settles_up hs hsock hconn hpos huses hu heio hmcache

/-- Any other error is not. -/
theorem not_settles_of_failed (hs : s.Down) (h : ¬ Starts thread o) : ¬ s.Settles thread o := by
  obtain ⟨hnone, hconn, hmem, hnot⟩ : o.sock ≠ none ∧ ¬ o.connect < 0 ∧
      ¬ (o.worker.mem = false ∧ o.hsdSpin = 0) ∧
      ¬ (WorkersStart thread o.worker ∧ EioStarts o.eio ∧ o.mcache = 0) := by
    simpa only [Starts, not_or] using h
  obtain ⟨fd, hsock⟩ := Option.ne_none_iff_exists'.1 hnone
  rcases workerInitUses_cases hs.wdInit thread o.worker with
    ⟨hmem', huses⟩ | ⟨-, -, wd, ret, u, hret, huses, r, hbal⟩ | ⟨hall, u, huses, hu⟩
  · -- `hsd_lock` is finalised and has not been initialised
    have hspin : o.hsdSpin ≠ 0 := fun h => hmem ⟨hmem', h⟩
    have hret : (-12 : ℤ) ≠ 0 := by decide
    refine not_settles (q := .hsdLock) (edpInit_workers hs hsock hconn huses hret) hret ?_
    simp [Ledger.balance_append, balance_spun, hspin, Startup.empty]
  · refine not_settles (q := .worker r) (edpInit_workers hs hsock hconn huses hret) hret ?_
    simpa [Ledger.balance_append, balance_worker, balance_spun] using hbal
  · exact not_settles_net hsock hconn hall huses hu fun h => hnot ⟨hall, h⟩

end Init

/-- **When `edp_init` settles.**  Called while everything is down, with any thread count and any
failures, it leaves everything up or everything given back if and only if it returns an error
before there are workers, with `hsd_lock` initialised if that is for want of memory for them, or
returns none. -/
theorem edpInit_settles_iff {s : EdpData} (hs : s.Down) (thread : Int32) (o : EdpOracle) :
    s.Settles thread o ↔ Starts thread o := by
  constructor
  · intro h
    by_contra hnot
    exact not_settles_of_failed hs hnot h
  · exact settles_of_starts hs

/-- A start in which nothing fails. -/
def EdpOracle.ok (fd : Int32) : EdpOracle :=
  ⟨some fd, 0, 0, ⟨true, fun _ => ⟨0, 0, 0, 0⟩⟩, 0, ⟨true, 0, 0, 0, fun _ => ⟨0, 0, 0, 0⟩⟩, 0, 0⟩

theorem starts_ok {thread : Int32} (h : 0 < thread.toInt) (fd : Int32) :
    Starts thread (EdpOracle.ok fd) :=
  .inr (.inr (.inr
    ⟨⟨rfl, h, fun _ _ => ⟨rfl, rfl, rfl, rfl⟩⟩, ⟨rfl, rfl, rfl, rfl, rfl, rfl, rfl⟩, rfl⟩))

theorem start_down : start.Down := ⟨rfl, rfl, rfl, rfl, rfl, rfl, rfl⟩

/-- Two workers that start. -/
theorem edpInit_settles_two : start.Settles 2 (EdpOracle.ok 3) :=
  (edpInit_settles_iff start_down 2 (EdpOracle.ok 3)).2 (starts_ok (by decide) 3)

/-! ### One life after the other -/

/-- What a life with `thread` workers leaves out of balance. -/
def leak (thread : Int32) : EdpRes → ℤ
  | .worker (.thread k) => if (k : ℤ) < thread.toInt then 1 else 0
  | .worker (.mutex k) | .worker (.cond k) => if (k : ℤ) = thread.toInt then -1 else 0
  | .worker .block | .worker .cache | .worker .spin | .worker .hset | .logSock _ | .hsdLock
  | .edLock | .eio _ | .netLock | .netCache => 0

/-- The locks are initialised. -/
def SpinsInit (o : EdpOracle) : Prop :=
  o.hsdSpin = 0 ∧ o.edSpin = 0 ∧ o.eio.spin = 0 ∧ o.netSpin = 0

/-- What `edp_fini` releases with nothing in use, where `n` is `wd_thread_num`. -/
def downRecord (fd : Int32) (n : ℕ) : List (Ledger.Use EdpRes) :=
  .release (.logSock fd) :: .release .hsdLock ::
    (((finiLoop .empty n).release .block).log.map (Ledger.Use.map .worker) ++ .release .edLock ::
      .release .netCache :: .release .netLock ::
        (((((stopLoop .empty 1 0).release .hset).release .spin).release .cache).release
          .block).log.map (Ledger.Use.map .eio))

theorem edpFini_up {s : EdpData} {thread fd : Int32} (hs : s.Up thread fd)
    (hcounts : s.counts = ⟨0, 0, 0⟩) :
    ∃ t, s.edpFini = some t ∧ t.Down ∧ t.uses = downRecord fd thread.toInt.toNat ++ s.uses := by
  obtain ⟨e, he, hnum⟩ := hs.eioData
  have hone : e.iodNum.toInt.toNat = 1 := by
    rw [hnum]
    rfl
  obtain ⟨-, hlog, hsock, hhsd, hsets, hwd, hthreads, hed, -, hnet, hcache⟩ := hs
  obtain ⟨_, logSock, _, _, wd, _, _, _, _, _, uses⟩ := s
  dsimp only at *
  subst hlog hsock hhsd hsets hed hnet hcache hcounts he
  refine ⟨⟨false, logSock, false, false, wd.workerFini, false, none, false, true, ⟨0, 0, 0⟩,
    downRecord logSock thread.toInt.toNat ++ uses⟩, ?_, ⟨rfl, rfl, rfl, rfl, rfl, rfl, rfl⟩, rfl⟩
  simp [edpFini, edpnetFini, eioFini, emitFini, workerFini, hsetFini, loggerFini, record, release,
    downRecord, hone, hwd, hthreads]

/-- That is what is needed less the leak. -/
theorem balance_downRecord {thread fd : Int32} (hpos : 0 < thread.toInt) {o : EdpOracle}
    (hsock : o.sock = some fd) (hspins : SpinsInit o) (r : EdpRes) :
    Ledger.balance (downRecord fd thread.toInt.toNat) r + need thread o r = leak thread r := by
  obtain ⟨hhsd, hed, hiod, hnet⟩ := hspins
  unfold downRecord
  rw [Ledger.balance_release, Ledger.balance_release, Ledger.balance_append, balance_worker,
    Ledger.balance_release, Ledger.balance_release, Ledger.balance_release, balance_eio]
  cases r with
  | logSock fd' => by_cases hfd : fd = fd' <;> simp [need, leak, hsock, hfd]
  | hsdLock | edLock | netLock | netCache => simp [need, leak, hhsd, hed, hnet]
  | worker r =>
    have hn : (thread.toInt.toNat : ℤ) = thread.toInt := Int.toNat_of_nonneg hpos.le
    unfold need leak
    generalize thread.toInt.toNat = n at hn ⊢
    cases r with
    | block | cache | spin | hset =>
      simp [balance_finiLoop, Startup.empty, StartRes.among, StartRes.worker?]
    | mutex k | cond k =>
      -- one more than there are
      simp [balance_finiLoop, Startup.empty, StartRes.among, StartRes.worker?]
      split_ifs <;> omega
    | thread k =>
      simp [balance_finiLoop, Startup.empty, StartRes.among, StartRes.worker?]
      split_ifs <;> omega
  | eio r =>
    cases r <;> simp [need, leak, balance_stopLoop, Startup.empty, StartRes.among, StartRes.worker?,
      hiod]

/-- The library and the numbers of workers it has been started with, newest first. -/
structure Run where
  lib : EdpData
  lives : List Int32

namespace Run

/-- `edp_init`, `edp_fini`, and what the application does in between. -/
inductive Act
  | init (thread : Int32) (o : EdpOracle)
  | use (counts : EdpCounts)
  | fini

/-- One step. -/
def step (s : Run) : Act → Option Run
  | .init thread o =>
    let (ret, t) := s.lib.edpInit thread o
    some ⟨t, if ret = 0 then thread :: s.lives else s.lives⟩
  | .use counts => some { s with lib := { s.lib with counts := counts } }
  | .fini => s.lib.edpFini.map fun t => { s with lib := t }

/-- `edp_init` is called while everything is down, and does what it should with its locks
initialised; `edp_fini` with everything up and nothing in use. -/
def Proper (s : Run) : Act → Prop
  | .init thread o => s.lib.Down ∧ Starts thread o ∧ SpinsInit o
  | .use _ => True
  | .fini => s.lib.netInit = true ∧ s.lib.counts = ⟨0, 0, 0⟩

/-- The leaks of some lives. -/
def leaks (lives : List Int32) (r : EdpRes) : ℤ := (lives.map fun thread => leak thread r).sum

/-- The library is down, or it is up for the last of its lives, and the record is that of its
lives. -/
def Accounted (s : Run) : Prop :=
  (s.lib.Down ∧ ∀ r, Ledger.balance s.lib.uses r = leaks s.lives r) ∨
    ∃ thread lives fd o, s.lives = thread :: lives ∧ s.lib.Up thread fd ∧
      o.sock = some fd ∧ SpinsInit o ∧
      ∀ r, Ledger.balance s.lib.uses r = need thread o r + leaks lives r

/-- Every call keeps the account. -/
theorem Accounted.step {s t : Run} (hs : s.Accounted) {a : Act} (hC : s.Proper a)
    (h : s.step a = some t) : t.Accounted := by
  rcases a with ⟨thread, o⟩ | counts | _
  · obtain ⟨hdown, hstarts, hspins⟩ := hC
    obtain ⟨ret, u, part, hinit, huses, hcases⟩ := settles_of_starts hdown hstarts
    have hbal : ∀ r, Ledger.balance s.lib.uses r = leaks s.lives r := by
      rcases hs with ⟨-, hbal⟩ | ⟨thread', lives, fd, o', -, hup, -⟩
      · exact hbal
      · exact absurd (hdown.netInit.symm.trans hup.netInit) (by decide)
    simp only [Run.step, hinit, Option.some.injEq] at h
    subst h
    rcases hcases with ⟨rfl, ⟨fd, hsock, hup⟩, hpart⟩ | ⟨hret, hdown', hpart⟩
    · refine .inr ⟨thread, s.lives, fd, o, rfl, hup, hsock, hspins, fun r => ?_⟩
      show Ledger.balance u.uses r = _
      rw [huses, Ledger.balance_append, hbal, Ledger.balance, (hpart r).1, (hpart r).2]
      simp
    · refine .inl ⟨hdown', fun r => ?_⟩
      show Ledger.balance u.uses r = leaks (if ret = 0 then thread :: s.lives else s.lives) r
      rw [if_neg hret, huses, Ledger.balance_append, hpart.balance, zero_add, hbal]
  · obtain rfl := Option.some.inj h
    rcases hs with ⟨hdown, hbal⟩ | ⟨thread, lives, fd, o, hlives, hup, hrest⟩
    · exact .inl ⟨⟨hdown.1, hdown.2, hdown.3, hdown.4, hdown.5, hdown.6, hdown.7⟩, hbal⟩
    · refine .inr ⟨thread, lives, fd, o, hlives, ?_, hrest⟩
      exact ⟨hup.1, hup.2, hup.3, hup.4, hup.5, hup.6, hup.7, hup.8, hup.9, hup.10, hup.11⟩
  · obtain ⟨hnet, hcounts⟩ := hC
    obtain ⟨u, hfini, rfl⟩ := Option.map_eq_some_iff.1 h
    rcases hs with ⟨hdown, -⟩ | ⟨thread, lives, fd, o, hlives, hup, hsock, hspins, hbal⟩
    · exact absurd (hdown.netInit.symm.trans hnet) (by decide)
    · obtain ⟨v, hv, hdown, huses⟩ := edpFini_up hup hcounts
      obtain rfl := Option.some.inj (hfini.symm.trans hv)
      refine .inl ⟨hdown, fun r => ?_⟩
      have hrecord := balance_downRecord hup.threads hsock hspins r
      have hcons : leaks s.lives r = leak thread r + leaks lives r := by
        rw [hlives]
        exact List.sum_cons
      show Ledger.balance u.uses r = leaks s.lives r
      rw [huses, Ledger.balance_append, hbal, hcons]
      omega

/-- **The account over all lives of the library.**  Whenever it is down, however often it has
been started, with how many workers, and with how many starts that failed early: out of balance
are the threads of all the workers there have been, and for each life with `n` workers the convar
`n`, finalised and never initialised. -/
theorem edp_account {as : List Act} {s : Run}
    (hC : StepSystem.Meets Run.step Proper ⟨start, []⟩ as)
    (hrun : StepSystem.run Run.step ⟨start, []⟩ as = some s) (hdown : s.lib.Down) (r : EdpRes) :
    Ledger.balance s.lib.uses r = leaks s.lives r := by
  have hstart : Accounted ⟨start, []⟩ := .inl ⟨start_down, fun r => Ledger.balance_nil r⟩
  rcases StepSystem.run_invariant (fun _ _ _ hs hC h => Accounted.step hs hC h) hstart hC hrun with
    ⟨-, hbal⟩ | ⟨thread, lives, fd, o, -, hup, -⟩
  · exact hbal r
  · exact absurd (hdown.netInit.symm.trans hup.netInit) (by decide)

/-- Two lives with two workers and one, and a start without a log server. -/
theorem edp_account_two :
    ∃ s : Run, s.lives = [1, 2] ∧ Ledger.balance s.lib.uses (.worker (.thread 0)) = 2 ∧
      ∀ r, Ledger.balance s.lib.uses r = leaks s.lives r := by
  have hrun := Eq.refl (StepSystem.run Run.step ⟨start, []⟩
    [.init 2 (EdpOracle.ok 3), .use ⟨1, 2, 0⟩, .use ⟨0, 0, 0⟩, .fini,
      .init 2 { EdpOracle.ok 3 with connect := -1 }, .init 1 (EdpOracle.ok 4), .fini])
  have hC : StepSystem.Meets Run.step Proper ⟨start, []⟩
      [.init 2 (EdpOracle.ok 3), .use ⟨1, 2, 0⟩, .use ⟨0, 0, 0⟩, .fini,
        .init 2 { EdpOracle.ok 3 with connect := -1 }, .init 1 (EdpOracle.ok 4), .fini] :=
    ⟨⟨start_down, starts_ok (by decide) 3, rfl, rfl, rfl, rfl⟩, trivial, trivial, ⟨rfl, rfl⟩,
      ⟨⟨rfl, rfl, rfl, rfl, rfl, rfl, rfl⟩, .inr (.inl (by decide)), rfl, rfl, rfl, rfl⟩,
      ⟨⟨rfl, rfl, rfl, rfl, rfl, rfl, rfl⟩, starts_ok (by decide) 4, rfl, rfl, rfl, rfl⟩,
      ⟨rfl, rfl⟩, trivial⟩
  exact ⟨_, rfl, rfl, edp_account hC hrun ⟨rfl, rfl, rfl, rfl, rfl, rfl, rfl⟩⟩

end Run

end EdpData
end EdpIo
