/-
# The registry of watched fds

`eio_data_t` of `posix/eio-epoll.c` and `eio_addfd`, `eio_delfd` and
`worker_lightload`.  One fact, that an fd is watched, is kept in four places: the hash
set `iod_fds`, the event object from `iod_evcache`, the registration in the kernel and
the worker's counter `iwk_fds`.

The hash set is the finite map it is meant to be.  A worker is named by its index in
`iod_workers`, and its `iwk_epoll` with it.  What the kernel and the heap decide are
inputs: the block `mcache_alloc` gets and what `epoll_ctl` returns, `0` for success.
-/

import EdpIo.Base.Mcache
import EdpIo.Hset.Map
import EdpIo.Lib.Run
import Mathlib.Algebra.BigOperators.Group.Finset.Basic
import Mathlib.Order.Interval.Finset.Defs
import Mathlib.Data.Int.Interval
import Mathlib.Data.Set.Function

namespace EdpIo

/-- `EPOLL_MAX_EVENTS`. -/
def epollMaxEvents : ℕ := 32

/-- `eio_event_t`, with the `hse_hash` of its entry. -/
structure IoEvent where
  hseHash : UInt32
  ioeFd : Int32
  ioeWorker : ℤ
  ioeCb : ℕ
  ioeData : ℕ
deriving DecidableEq, Repr

/-- `eio_data_t`, with the `iwk_fds` of each worker and what the kernel watches for it:
the pointer registered for each fd. -/
structure Eio where
  iodNum : Int32
  iodRound : Int32
  iodEvcache : MemCache IoEvent
  iodFds : HsetMap
  iwkFds : ℤ → ℤ
  epoll : ℤ → Int32 → Option ℕ

namespace Eio

/-- `eio_init(thread_num)`. -/
def init (threadNum : Int32) : Eio :=
  ⟨threadNum, 0, .create, .empty, fun _ => 0, fun _ _ => none⟩

/-- `worker_lightload`: the index of the worker. -/
def workerLightload (s : Eio) : ℤ × Eio :=
  ((s.iodRound % s.iodNum).toInt, { s with iodRound := s.iodRound + 1 })

/-- `epoll_ctl(iwk_epoll, EPOLL_CTL_ADD, fd, ..)` with `ptr` in the event, returning
`ret`. -/
def epollAdd (s : Eio) (iwk : ℤ) (fd : Int32) (ptr : ℕ) (ret : ℤ) : Eio :=
  if ret ≠ 0 then s
  else { s with epoll := Function.update s.epoll iwk (Function.update (s.epoll iwk) fd (some ptr)) }

/-- `epoll_ctl(iwk_epoll, EPOLL_CTL_DEL, fd, NULL)`, returning `ret`. -/
def epollDel (s : Eio) (iwk : ℤ) (fd : Int32) (ret : ℤ) : Eio :=
  if ret ≠ 0 then s
  else { s with epoll := Function.update s.epoll iwk (Function.update (s.epoll iwk) fd none) }

/-- `atomic_inc(&iwk->iwk_fds)`. -/
def incFds (s : Eio) (iwk : ℤ) : Eio :=
  { s with iwkFds := Function.update s.iwkFds iwk (s.iwkFds iwk + 1) }

/-- `atomic_dec(&iwk->iwk_fds)`. -/
def decFds (s : Eio) (iwk : ℤ) : Eio :=
  { s with iwkFds := Function.update s.iwkFds iwk (s.iwkFds iwk - 1) }

/-- `mcache_free(iod->iod_evcache, ioe)`. -/
def freeIoe (s : Eio) (ioe : ℕ) : Eio := { s with iodEvcache := s.iodEvcache.mcacheFree ioe }

/-- `eio_addfd(fd, cb, data)` with what it returns. -/
def eioAddfd (s : Eio) (fd : Int32) (cb data : ℕ) (ptr : Option ℕ) (ctl : ℤ) : Eio × ℤ :=
  let (iwk, s) := s.workerLightload
  match ptr with
  | none => (s, -12)
  | some ioe =>
    let ev : IoEvent := ⟨fd.toUInt32, fd, iwk, cb, data⟩
    let s := { s with iodEvcache := s.iodEvcache.mcacheAlloc ioe ev }
    let ((ret, _), fds) := s.iodFds.apply (.add ioe ev.hseHash)
    let s := { s with iodFds := fds }
    if ret ≠ 0 then (s.freeIoe ioe, -17)
    else
      let s := s.epollAdd iwk fd ioe ctl
      if ctl ≠ 0 then
        let (_, fds) := s.iodFds.apply (.del fd.toUInt32)
        (freeIoe { s with iodFds := fds } ioe, ctl)
      else (s.incFds iwk, 0)

/-- `eio_delfd(fd)` with what it returns; `none` if the entry found is no event. -/
def eioDelfd (s : Eio) (fd : Int32) (ctl : ℤ) : Option (Eio × ℤ) :=
  match (s.iodFds.lookup fd.toUInt32).2 with
  | none => some (s, -2)
  | some ioe =>
    let (_, fds) := s.iodFds.apply (.del fd.toUInt32)
    let s := { s with iodFds := fds }
    (s.iodEvcache.mem.get? ioe).map fun ev =>
      let s := s.epollDel ev.ioeWorker fd ctl
      if ctl ≠ 0 then (s, -2) else ((s.decFds ev.ioeWorker).freeIoe ioe, 0)

/-- The calls, with what they get from outside. -/
inductive Op
  | addfd (fd : Int32) (cb data : ℕ) (ptr : Option ℕ) (ctl : ℤ)
  | delfd (fd : Int32) (ctl : ℤ)
deriving DecidableEq, Repr

/-- One call with what it returns; the heap gives no block that is in use. -/
def exec (s : Eio) : Op → Option (Eio × ℤ)
  | .addfd fd cb data ptr ctl =>
    if ptr.any s.iodEvcache.isLive then none else some (s.eioAddfd fd cb data ptr ctl)
  | .delfd fd ctl => s.eioDelfd fd ctl

/-- One call. -/
def step (s : Eio) (op : Op) : Option Eio := (s.exec op).map Prod.fst

/-- The event that `eio_addfd` makes for `fd`. -/
def newEvent (s : Eio) (fd : Int32) (cb data : ℕ) : IoEvent :=
  ⟨fd.toUInt32, fd, s.workerLightload.1, cb, data⟩

/-- The calls, one constructor for each way they return. -/
inductive Exec (s : Eio) : Op → Eio → ℤ → Prop
  | noMem (fd : Int32) (cb data : ℕ) (ctl : ℤ) :
      Exec s (.addfd fd cb data none ctl) s.workerLightload.2 (-12)
  | exists (fd : Int32) (cb data ioe : ℕ) (ctl : ℤ) (hfree : s.iodEvcache.isLive ioe = false)
      (a : ℕ) (hin : s.iodFds fd.toUInt32 = some a) :
      Exec s (.addfd fd cb data (some ioe) ctl)
        { s.workerLightload.2 with
          iodEvcache := (s.iodEvcache.mcacheAlloc ioe (s.newEvent fd cb data)).mcacheFree ioe }
        (-17)
  | addFailed (fd : Int32) (cb data ioe : ℕ) (ctl : ℤ) (hfree : s.iodEvcache.isLive ioe = false)
      (hin : s.iodFds fd.toUInt32 = none) (hctl : ctl ≠ 0) :
      Exec s (.addfd fd cb data (some ioe) ctl)
        { s.workerLightload.2 with
          iodEvcache := (s.iodEvcache.mcacheAlloc ioe (s.newEvent fd cb data)).mcacheFree ioe } ctl
  | added (fd : Int32) (cb data ioe : ℕ) (hfree : s.iodEvcache.isLive ioe = false)
      (hin : s.iodFds fd.toUInt32 = none) :
      Exec s (.addfd fd cb data (some ioe) 0)
        (incFds (epollAdd { s.workerLightload.2 with
          iodEvcache := s.iodEvcache.mcacheAlloc ioe (s.newEvent fd cb data)
          iodFds := Function.update s.iodFds fd.toUInt32 (some ioe) }
          s.workerLightload.1 fd ioe 0) s.workerLightload.1) 0
  | absent (fd : Int32) (ctl : ℤ) (hout : s.iodFds fd.toUInt32 = none) :
      Exec s (.delfd fd ctl) s (-2)
  | delFailed (fd : Int32) (ctl : ℤ) (ioe : ℕ) (hin : s.iodFds fd.toUInt32 = some ioe)
      (hctl : ctl ≠ 0) :
      Exec s (.delfd fd ctl) { s with iodFds := Function.update s.iodFds fd.toUInt32 none } (-2)
  | deleted (fd : Int32) (ioe : ℕ) (hin : s.iodFds fd.toUInt32 = some ioe) (ev : IoEvent)
      (hev : s.iodEvcache.mem.get? ioe = some ev) :
      Exec s (.delfd fd 0)
        (freeIoe (decFds (epollDel { s with iodFds := Function.update s.iodFds fd.toUInt32 none }
          ev.ioeWorker fd 0) ev.ioeWorker) ioe) 0

section

variable (s : Eio) (fd : Int32) (cb data : ℕ) (ctl : ℤ)

theorem epollAdd_epoll (iwk : ℤ) (ptr : ℕ) (i : ℤ) (fd' : Int32) :
    (s.epollAdd iwk fd ptr 0).epoll i fd' =
      if i = iwk ∧ fd' = fd then some ptr else s.epoll i fd' := by
  rw [epollAdd, if_neg (not_not_intro rfl)]
  by_cases hi : i = iwk
  · subst hi
    by_cases hfd : fd' = fd <;> simp [hfd]
  · simp [hi]

theorem epollDel_epoll (iwk : ℤ) (i : ℤ) (fd' : Int32) :
    (s.epollDel iwk fd 0).epoll i fd' =
      if i = iwk ∧ fd' = fd then none else s.epoll i fd' := by
  rw [epollDel, if_neg (not_not_intro rfl)]
  by_cases hi : i = iwk
  · subst hi
    by_cases hfd : fd' = fd <;> simp [hfd]
  · simp [hi]

/-- What a failed `eio_addfd` puts into the hash set it takes out again. -/
theorem apply_del_add {m : HsetMap} {k : UInt32} (hk : m k = none) (e : ℕ) :
    (HsetMap.apply (Function.update m k (some e)) (.del k)).2 = m := by
  simp only [HsetMap.apply, Function.update_self, Function.update_idem]
  rw [← hk, Function.update_eq_self]

theorem eioAddfd_exists {a : ℕ} (ioe : ℕ) (hin : s.iodFds fd.toUInt32 = some a) :
    s.eioAddfd fd cb data (some ioe) ctl =
      ({ s.workerLightload.2 with
         iodEvcache := (s.iodEvcache.mcacheAlloc ioe (s.newEvent fd cb data)).mcacheFree ioe },
        -17) := by
  simp only [eioAddfd, workerLightload, HsetMap.apply, hin]
  rfl

theorem eioAddfd_addFailed {ctl : ℤ} (ioe : ℕ) (hin : s.iodFds fd.toUInt32 = none)
    (hctl : ctl ≠ 0) :
    s.eioAddfd fd cb data (some ioe) ctl =
      ({ s.workerLightload.2 with
         iodEvcache := (s.iodEvcache.mcacheAlloc ioe (s.newEvent fd cb data)).mcacheFree ioe },
        ctl) := by
  have hadd : s.iodFds.apply (.add ioe fd.toUInt32) =
      ((0, none), Function.update s.iodFds fd.toUInt32 (some ioe)) := by
    rw [HsetMap.apply, hin]
  simp only [eioAddfd, workerLightload, hadd, epollAdd, if_pos hctl, ne_eq, not_true_eq_false,
    if_false, apply_del_add hin]
  rfl

theorem eioAddfd_added (ioe : ℕ) (hin : s.iodFds fd.toUInt32 = none) :
    s.eioAddfd fd cb data (some ioe) 0 =
      (incFds (epollAdd { s.workerLightload.2 with
        iodEvcache := s.iodEvcache.mcacheAlloc ioe (s.newEvent fd cb data)
        iodFds := Function.update s.iodFds fd.toUInt32 (some ioe) }
        s.workerLightload.1 fd ioe 0) s.workerLightload.1, 0) := by
  simp only [eioAddfd, workerLightload, HsetMap.apply, hin]
  rfl

theorem eioDelfd_present {ioe : ℕ} (hin : s.iodFds fd.toUInt32 = some ioe) :
    s.eioDelfd fd ctl = (s.iodEvcache.mem.get? ioe).map fun ev =>
      let s := epollDel { s with iodFds := Function.update s.iodFds fd.toUInt32 none }
        ev.ioeWorker fd ctl
      if ctl ≠ 0 then (s, -2) else ((s.decFds ev.ioeWorker).freeIoe ioe, 0) := by
  simp only [eioDelfd, HsetMap.lookup, HsetMap.apply, hin]

end

theorem exec_cases {s t : Eio} {op : Op} {ret : ℤ} (h : s.exec op = some (t, ret)) :
    s.Exec op t ret := by
  cases op with
  | addfd fd cb data ptr ctl =>
    rw [exec] at h
    split at h
    · cases h
    · rename_i hfree
      have h := Option.some.inj h
      cases ptr with
      | none =>
        obtain ⟨rfl, rfl⟩ := Prod.mk.inj h
        exact .noMem fd cb data ctl
      | some ioe =>
        have hfree : s.iodEvcache.isLive ioe = false := by simpa using hfree
        cases hin : s.iodFds fd.toUInt32 with
        | some a =>
          rw [eioAddfd_exists s fd cb data ctl ioe hin] at h
          obtain ⟨rfl, rfl⟩ := Prod.mk.inj h
          exact .exists fd cb data ioe ctl hfree a hin
        | none =>
          by_cases hctl : ctl = 0
          · rw [hctl, eioAddfd_added s fd cb data ioe hin] at h
            obtain ⟨rfl, rfl⟩ := Prod.mk.inj h
            rw [hctl]
            exact .added fd cb data ioe hfree hin
          · rw [eioAddfd_addFailed s fd cb data ioe hin hctl] at h
            obtain ⟨rfl, rfl⟩ := Prod.mk.inj h
            exact .addFailed fd cb data ioe ctl hfree hin hctl
  | delfd fd ctl =>
    rw [exec] at h
    cases hin : s.iodFds fd.toUInt32 with
    | none =>
      simp only [eioDelfd, HsetMap.lookup, hin] at h
      obtain ⟨rfl, rfl⟩ := Prod.mk.inj (Option.some.inj h)
      exact .absent fd ctl hin
    | some ioe =>
      rw [eioDelfd_present s fd ctl hin] at h
      obtain ⟨ev, hev, h⟩ := Option.map_eq_some_iff.1 h
      by_cases hctl : ctl = 0
      · subst hctl
        obtain ⟨rfl, rfl⟩ := Prod.mk.inj h
        exact .deleted fd ioe hin ev hev
      · simp only [epollDel, if_pos hctl] at h
        obtain ⟨rfl, rfl⟩ := Prod.mk.inj h
        exact .delFailed fd ctl ioe hin hctl

end Eio
end EdpIo
