/-
# `edp_init` and `edp_fini`

`src/edp.c` over the functions it calls: `logger_init` and `logger_fini` of `posix/logger.c`,
`hset_init` and `hset_fini`, `worker_init` and `worker_fini`, `emit_init` and `emit_fini`,
`edpnet_init` and `edpnet_fini` of `posix/edpnet.c`, and in these `eio_init` and `eio_fini`.
`mcache_init` and `mcache_fini` return `0` and do nothing.

`worker_init` and `eio_init` are those of `EdpIo.Worker.Cleanup` and `EdpIo.Eio.Init`; what they
acquire and release goes into the library's record under their names.  What the sockets, the
heap, the locks and the threads do is an input of `edp_init`; what a thread acquires for itself
(`eio_init_tls`) is not in the record.  Nobody looks at what `spi_spin_init` returns: a lock is
finalised whether or not it has been initialised.  Between the two calls the number of emitters
and of events changes as the application uses the library.
-/

import EdpIo.Eio.Init
import EdpIo.Worker.Cleanup

namespace EdpIo

/-- What `edp_init` acquires. -/
inductive EdpRes
  /-- `log_sock`. -/
  | logSock (fd : Int32)
  | hsdLock
  | worker (r : StartRes)
  | edLock
  | eio (r : StartRes)
  /-- `ed_lock` and `ed_evcache` of `__edpnet_data`. -/
  | netLock
  | netCache
deriving DecidableEq

/-- What is in use: the emitters in `ed_emits`, the events of `iod_evcache` and those of
`ed_evcache`. -/
structure EdpCounts where
  emits : ℕ
  ioes : ℕ
  events : ℕ
deriving DecidableEq, Repr

/-- The library's data and its record, newest first. -/
structure EdpData where
  logInit : Bool
  logSock : Int32
  hsdInit : Bool
  /-- The set of `eio` is in `hsd_sets`, which has no other. -/
  hsdSets : Bool
  wd : WorkerData
  /-- `ed_init` of `__emit_data`, and below of `__edpnet_data`. -/
  edInit : Bool
  eioData : Option Eio
  netInit : Bool
  /-- `ed_evcache` is not `NULL`. -/
  edEvcache : Bool
  counts : EdpCounts
  uses : List (Ledger.Use EdpRes)

/-- What `edp_init` gets from outside: what `socket` and `connect` return, what `worker_init` and
`eio_init` get, what the last `mcache_create` returns, and what `spi_spin_init` does for
`hsd_lock` and for the `ed_lock` of `__emit_data` and of `__edpnet_data`. -/
structure EdpOracle where
  sock : Option Int32
  connect : ℤ
  hsdSpin : ℤ
  worker : WorkerData.StartOracle
  edSpin : ℤ
  eio : Eio.InitOracle
  netSpin : ℤ
  mcache : ℤ

namespace EdpData

/-- At the start of the program. -/
def start : EdpData :=
  ⟨false, 0, false, false, .zero, false, none, false, false, ⟨0, 0, 0⟩, []⟩

def acquire (s : EdpData) (r : EdpRes) : EdpData := { s with uses := .acquire r :: s.uses }

def release (s : EdpData) (r : EdpRes) : EdpData := { s with uses := .release r :: s.uses }

/-- What `spi_spin_init` adds to the record, where it returns `ret`. -/
def spun (r : EdpRes) (ret : ℤ) : List (Ledger.Use EdpRes) := if ret = 0 then [.acquire r] else []

/-- `spi_spin_init`, whose result is not looked at. -/
def spinInit (s : EdpData) (r : EdpRes) (ret : ℤ) : EdpData :=
  { s with uses := spun r ret ++ s.uses }

/-- A part has made the record `l`. -/
def record (s : EdpData) (f : StartRes → EdpRes) (l : List (Ledger.Use StartRes)) : EdpData :=
  { s with uses := l.map (Ledger.Use.map f) ++ s.uses }

/-- `logger_init`. -/
def loggerInit (s : EdpData) (sock : Option Int32) (connect : ℤ) : ℤ × EdpData :=
  match sock with
  | none => (-1, { s with logSock := -1 })
  | some fd =>
    let s := acquire { s with logSock := fd } (.logSock fd)
    if connect < 0 then (-1, s.release (.logSock fd)) else (0, { s with logInit := true })

/-- `logger_fini`. -/
def loggerFini (s : EdpData) : EdpData :=
  if s.logInit then release { s with logInit := false } (.logSock s.logSock) else s

/-- `hset_init`, which returns `0`. -/
def hsetInit (s : EdpData) (spin : ℤ) : EdpData :=
  { s.spinInit .hsdLock spin with hsdInit := true, hsdSets := false }

/-- `hset_fini`. -/
def hsetFini (s : EdpData) : EdpData :=
  if !s.hsdInit then s
  else if s.hsdSets then s
  else release { s with hsdInit := false } .hsdLock

/-- `worker_init(thread)`. -/
def workerInit (s : EdpData) (thread : Int32) (o : WorkerData.StartOracle) : ℤ × EdpData :=
  let (wd, ret, t) := s.wd.workerInitUses thread o
  (ret, record { s with wd := wd } .worker t.log)

/-- The loop of `worker_fini` from `i` down. -/
def finiLoop (t : Startup) : ℕ → Startup
  | 0 => (t.access 0).convarFini 0
  | i + 1 => finiLoop ((t.access (i + 1)).convarFini (i + 1)) i

/-- `worker_fini`; while `wd_init` is set `wd_thread_num` is not negative. -/
def workerFini (s : EdpData) : EdpData :=
  if s.wd.wdInit then
    record { s with wd := s.wd.workerFini } .worker
      ((finiLoop .empty s.wd.wdThreadNum.toNat).release .block).log
  else s

/-- `emit_init`, which returns `0`. -/
def emitInit (s : EdpData) (spin : ℤ) : EdpData :=
  if s.edInit then s
  else
    let s := spinInit { s with edInit := true } .edLock spin
    { s with counts := { s.counts with emits := 0 } }

/-- `emit_fini`. -/
def emitFini (s : EdpData) : EdpData :=
  if !s.edInit then s
  else if s.counts.emits ≠ 0 then s
  else release { s with edInit := false } .edLock

/-- `eio_init(1)`, after `hset_init`. -/
def eioInit (s : EdpData) (o : Eio.InitOracle) : ℤ × EdpData :=
  let (eioData, ret, t) := Eio.eioInit s.eioData 1 o
  let s := record { s with eioData := eioData } .eio t.log
  if ret ≠ 0 then (ret, s)
  else (0, { s with hsdSets := true, counts := { s.counts with ioes := 0 } })

/-- The loop of `eio_fini` with `n` workers to go from `i` on. -/
def stopLoop (t : Startup) : ℕ → ℕ → Startup
  | 0, _ => t
  | n + 1, i => stopLoop (t.stopWorker i) n (i + 1)

/-- `eio_fini`; `hset_destroy` refuses no set, since `hs_items` stays `0`, and `mcache_destroy` a
cache with events that are not freed. -/
def eioFini (s : EdpData) : EdpData :=
  match s.eioData with
  | none => s
  | some e =>
    let t := ((stopLoop .empty e.iodNum.toInt.toNat 0).release .hset).release .spin
    let t := if s.counts.ioes ≠ 0 then t else t.release .cache
    record { s with eioData := none, hsdSets := false } .eio (t.release .block).log

/-- `edpnet_init`. -/
def edpnetInit (s : EdpData) (o : Eio.InitOracle) (spin mcache : ℤ) : ℤ × EdpData :=
  let (ret, s) := s.eioInit o
  if ret ≠ 0 then (-1, s)
  else
    let s := s.spinInit .netLock spin
    if mcache ≠ 0 then (-1, (s.release .netLock).eioFini)
    else
      (0, acquire { s with
        netInit := true
        edEvcache := true
        counts := { s.counts with events := 0 } } .netCache)

/-- `edpnet_fini`; `none` where `mcache_destroy` fails its assertion. -/
def edpnetFini (s : EdpData) : Option EdpData :=
  let s := release { s.eioFini with netInit := false } .netLock
  if !s.edEvcache then none
  else if s.counts.events ≠ 0 then some s
  else some (s.release .netCache)

/-- From `exit_worker` on. -/
def exitWorker (s : EdpData) : EdpData := s.hsetFini.loggerFini

/-- From `exit_emit` on. -/
def exitEmit (s : EdpData) : EdpData := s.workerFini.exitWorker

/-- From `exit_net` on. -/
def exitNet (s : EdpData) : EdpData := s.emitFini.exitEmit

/-- `edp_init(thread_num)`. -/
def edpInit (s : EdpData) (thread : Int32) (o : EdpOracle) : ℤ × EdpData :=
  let (ret, s) := s.loggerInit o.sock o.connect
  if ret ≠ 0 then (ret, s)
  else
    let (ret, s) := (s.hsetInit o.hsdSpin).workerInit thread o.worker
    if ret ≠ 0 then (ret, s.exitWorker)
    else
      let (ret, s) := (s.emitInit o.edSpin).edpnetInit o.eio o.netSpin o.mcache
      if ret ≠ 0 then (ret, s.exitNet) else (0, s)

/-- `edp_fini`. -/
def edpFini (s : EdpData) : Option EdpData :=
  s.edpnetFini.map fun s => s.emitFini.workerFini.hsetFini.loggerFini

/-! ### The records of the loops -/

/-- The loop of `worker_fini` finalises the convars of the workers up to `i`, that of `i` among
them. -/
theorem balance_finiLoop (t : Startup) (i : ℕ) (r : StartRes) :
    Ledger.balance (finiLoop t i).log r =
      Ledger.balance t.log r - match r with
        | .mutex k | .cond k => if k ≤ i then 1 else 0
        | .block | .cache | .spin | .hset | .thread _ => 0 := by
  induction i generalizing t with
  | zero => cases r <;> simp [finiLoop, Startup.convarFini, eq_comm]
  | succ i ih =>
    rw [finiLoop, ih]
    cases r with
    | mutex k | cond k =>
      simp only [Startup.convarFini, Startup.log_release, Startup.log_access,
        Ledger.balance_release, reduceCtorEq, if_false, StartRes.mutex.injEq, StartRes.cond.injEq]
      split_ifs <;> omega
    | block | cache | spin | hset | thread => simp [Startup.convarFini]

/-- The loop of `eio_fini` takes down the workers from `i` to `i + n`. -/
theorem balance_stopLoop (t : Startup) (n i : ℕ) (r : StartRes) :
    Ledger.balance (stopLoop t n i).log r = Ledger.balance t.log r - r.among i n := by
  induction n generalizing t i with
  | zero => simp [stopLoop, StartRes.among_zero]
  | succ n ih =>
    rw [stopLoop, ih, StartRes.among_succ]
    cases r <;>
      simp [Startup.stopWorker, Startup.threadDestroy, Startup.convarFini, StartRes.worker?,
        eq_comm] <;> omega

end EdpData
end EdpIo
