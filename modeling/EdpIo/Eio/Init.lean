/-
# What `eio_init` leaves behind

`eio_init` of `posix/eio-epoll.c`: the block with the data and the workers, the event cache,
the spin lock, the hash set, and a convar and a thread for each worker, undone in the reverse
order from the label that fits the step that failed.  A call should either publish
`__eio_data` with all workers running or undo everything (`Settles`).

The labels are right, but the loop at `exit_thread` begins at the worker that failed, as in
`worker_init`, and so it releases one thread and one convar too many whichever step of
whichever worker failed.  `eioInit_settles_iff` gives the exact condition.  The result of
`spi_spin_init` is not looked at: the lock is destroyed at `exit_hset` either way.
-/

import EdpIo.Base.Threads
import EdpIo.Eio.Model

namespace EdpIo
namespace Eio

/-- What `eio_init` gets from outside: whether there is memory for `iod`, what
`mcache_create`, `spi_spin_init` and `hset_create` return, and what the calls that start
each worker return. -/
structure InitOracle where
  iod : Bool
  mcache : ℤ
  spin : ℤ
  hset : ℤ
  worker : ℕ → ThreadOracle

/-- From `exit_mcache` on. -/
def exitMcache (s : Startup) : Startup := s.release .block

/-- From `exit_hset` on. -/
def exitHset (s : Startup) : Startup := exitMcache ((s.release .spin).release .cache)

/-- From `exit_thread` on, where worker `i` has failed. -/
def exitThread (s : Startup) (i : ℕ) : Startup := exitHset ((s.unwind i).release .hset)

/-- What `eio_init` has acquired before the first worker. -/
def prepared (o : InitOracle) : Startup :=
  let s := (Startup.empty.acquire .block).acquire .cache
  (if o.spin = 0 then s.acquire .spin else s).acquire .hset

/-- `eio_init(thread_num)` with what it returns, acquires and releases; `eioData` is what
`__eio_data` points to. -/
def eioInit (eioData : Option Eio) (threadNum : Int32) (o : InitOracle) :
    Option Eio × ℤ × Startup :=
  if !o.iod then (eioData, -12, .empty)
  else
    let s := Startup.empty.acquire .block
    if o.mcache ≠ 0 then (eioData, o.mcache, exitMcache s)
    else
      let s := s.acquire .cache
      let s := if o.spin = 0 then s.acquire .spin else s
      if o.hset ≠ 0 then (eioData, o.hset, exitHset s)
      else
        let (i, ret, s) := Startup.startLoop o.worker threadNum.toInt.toNat 0 0 (s.acquire .hset)
        if ret ≠ 0 then (eioData, ret, exitThread s i)
        else (some (Eio.init threadNum), 0, s)

/-- Returned `0` with `__eio_data` published, what it needs held, and a convar and a thread
for each of `thread_num` workers and no other. -/
structure Published (threadNum : Int32) (r : Option Eio × ℤ × Startup) : Prop where
  ret : r.2.1 = 0
  data : r.1 = some (Eio.init threadNum)
  block : Ledger.Held r.2.2.log .block
  cache : Ledger.Held r.2.2.log .cache
  hset : Ledger.Held r.2.2.log .hset
  threads : ∀ k : ℕ, Ledger.Held r.2.2.log (.thread k) ↔ (k : ℤ) < threadNum.toInt
  convars : ∀ k : ℕ, (k : ℤ) < threadNum.toInt →
    Ledger.Held r.2.2.log (.mutex k) ∧ Ledger.Held r.2.2.log (.cond k)

/-- Returned an error with `__eio_data` as before, all that was acquired released once and
nothing else released. -/
structure Undone (eioData : Option Eio) (r : Option Eio × ℤ × Startup) : Prop where
  ret : r.2.1 ≠ 0
  data : r.1 = eioData
  settled : Ledger.Settled r.2.2.log

/-- **What a start should do.** -/
def Settles (eioData : Option Eio) (threadNum : Int32) (o : InitOracle) : Prop :=
  Published threadNum (eioInit eioData threadNum o) ∨
    Undone eioData (eioInit eioData threadNum o)

/-- A step before the workers fails (after the lock, if it is `hset_create`), or all workers
start. -/
def StartsAll (threadNum : Int32) (o : InitOracle) : Prop :=
  o.iod = false ∨ o.mcache ≠ 0 ∨ (o.hset ≠ 0 ∧ o.spin = 0) ∨
    (o.hset = 0 ∧ ∀ k : ℕ, (k : ℤ) < threadNum.toInt → (o.worker k).Succeeds)

section

variable {eioData : Option Eio} {threadNum : Int32} {o : InitOracle}

/-- Workers that all start are running. -/
theorem published_started {t : Startup}
    (ht : Startup.Started (prepared o) 0 threadNum.toInt.toNat t) :
    Published threadNum (some (Eio.init threadNum), 0, t) := by
  have hnone {r : StartRes} {k : ℕ} (hr : r.worker? = some k) :
      .acquire r ∉ (prepared o).log ∧ .release r ∉ (prepared o).log := by
    unfold prepared
    split <;> cases r <;> simp_all [StartRes.worker?, Startup.empty]
  have hlt (k : ℕ) : k < threadNum.toInt.toNat ↔ (k : ℤ) < threadNum.toInt := by omega
  have hheld {r : StartRes} {k : ℕ} (hr : r.worker? = some k) :
      Ledger.Held t.log r ↔ (k : ℤ) < threadNum.toInt := by
    rw [← hlt k]
    exact ht.held_iff hr (hnone hr).1 (hnone hr).2
  refine ⟨rfl, rfl, ht.held rfl ?_, ht.held rfl ?_, ht.held rfl ?_, fun k => hheld rfl,
    fun k hk => ⟨(hheld rfl).2 hk, (hheld rfl).2 hk⟩⟩ <;>
  · unfold prepared
    split <;> simp [Ledger.Held, Startup.empty]

/-- Where all steps before the workers succeed, the call is the two loops. -/
theorem eioInit_prepared (eioData : Option Eio) (hiod : o.iod = true) (hmcache : o.mcache = 0)
    (hhset : o.hset = 0) {i : ℕ} {ret : ℤ} {t : Startup}
    (hloop : Startup.startLoop o.worker threadNum.toInt.toNat 0 0 (prepared o) = (i, ret, t)) :
    eioInit eioData threadNum o =
      if ret ≠ 0 then (eioData, ret, exitThread t i) else (some (Eio.init threadNum), 0, t) := by
  have huses : eioInit eioData threadNum o =
      (let r := Startup.startLoop o.worker threadNum.toInt.toNat 0 0 (prepared o)
       if r.2.1 ≠ 0 then (eioData, r.2.1, exitThread r.2.2 r.1)
       else (some (Eio.init threadNum), 0, r.2.2)) := by
    unfold eioInit
    rw [hiod, hmcache, hhset]
    rfl
  rw [huses, hloop]

/-- A worker that fails upsets the account. -/
theorem not_settles_failed {i : ℕ} {ret : ℤ} {t : Startup} (hret : ret ≠ 0)
    (huses : eioInit eioData threadNum o = (eioData, ret, exitThread t i))
    (hbal : Ledger.balance t.log (.thread i) = 0) : ¬ Settles eioData threadNum o := by
  unfold Settles
  rw [huses]
  rintro (hpub | hundo)
  · exact hret hpub.ret
  · have hzero := hundo.settled.balance (.thread i)
    simp [exitThread, exitHset, exitMcache, Startup.balance_unwind_self, hbal] at hzero

/-- A hash set that fails after the lock has. -/
theorem not_settles_spin (hiod : o.iod = true) (hmcache : o.mcache = 0) (hspin : o.spin ≠ 0)
    (hhset : o.hset ≠ 0) : ¬ Settles eioData threadNum o := by
  have huses : eioInit eioData threadNum o =
      (eioData, o.hset, exitHset ((Startup.empty.acquire .block).acquire .cache)) := by
    simp [eioInit, hiod, hmcache, hspin, hhset]
  unfold Settles
  rw [huses]
  rintro (hpub | hundo)
  · exact hhset hpub.ret
  · have hzero := hundo.settled.balance .spin
    simp [exitHset, exitMcache, Startup.empty] at hzero

/-- The errors before the workers undo everything. -/
theorem settles_early
    (h : o.iod = false ∨ o.mcache ≠ 0 ∨ (o.hset ≠ 0 ∧ o.spin = 0)) :
    Settles eioData threadNum o := by
  have hnil : Ledger.Settled ([] : List (Ledger.Use StartRes)) := Ledger.settled_nil
  have hspin := hnil.enclose (r := .spin) (by simp)
  have hcache := hspin.enclose (r := .cache) (by simp)
  have hall := hcache.enclose (r := .block) (by simp)
  have hblock := hnil.enclose (r := .block) (by simp)
  right
  cases hiod : o.iod with
  | false =>
    have huses : eioInit eioData threadNum o = (eioData, -12, .empty) := by simp [eioInit, hiod]
    rw [huses]
    exact ⟨show (-12 : ℤ) ≠ 0 by decide, rfl, hnil⟩
  | true =>
    by_cases hmcache : o.mcache = 0
    · obtain ⟨hhset, hspin⟩ : o.hset ≠ 0 ∧ o.spin = 0 := by simpa [hiod, hmcache] using h
      have huses : eioInit eioData threadNum o =
          (eioData, o.hset,
            exitHset (((Startup.empty.acquire .block).acquire .cache).acquire .spin)) := by
        simp [eioInit, hiod, hmcache, hspin, hhset]
      rw [huses]
      exact ⟨hhset, rfl, hall⟩
    · have huses : eioInit eioData threadNum o =
          (eioData, o.mcache, exitMcache (Startup.empty.acquire .block)) := by
        simp [eioInit, hiod, hmcache]
      rw [huses]
      exact ⟨hmcache, rfl, hblock⟩

end

/-- **When `eio_init` settles.**  With any thread count and any failures it publishes
`__eio_data` with all workers running, or leaves it and undoes everything, if and only if a
step before the workers fails (and the lock is there, if that is `hset_create`) or every
worker starts. -/
theorem eioInit_settles_iff (eioData : Option Eio) (threadNum : Int32) (o : InitOracle) :
    Settles eioData threadNum o ↔ StartsAll threadNum o := by
  by_cases hearly : o.iod = false ∨ o.mcache ≠ 0 ∨ (o.hset ≠ 0 ∧ o.spin = 0)
  · refine iff_of_true (settles_early hearly) ?_
    rcases hearly with h | h | h
    · exact .inl h
    · exact .inr (.inl h)
    · exact .inr (.inr (.inl h))
  · obtain ⟨hiod, hmcache, hhset⟩ :
        o.iod = true ∧ o.mcache = 0 ∧ (o.hset ≠ 0 → o.spin ≠ 0) := by
      simpa [not_or] using hearly
    have hstarts : StartsAll threadNum o ↔
        o.hset = 0 ∧ ∀ k : ℕ, (k : ℤ) < threadNum.toInt → (o.worker k).Succeeds := by
      refine ⟨fun h => ?_, fun h => .inr (.inr (.inr h))⟩
      rcases h with h | h | h | h
      · exact absurd (.inl h) hearly
      · exact absurd (.inr (.inl h)) hearly
      · exact absurd (.inr (.inr h)) hearly
      · exact h
    rw [hstarts]
    by_cases hh : o.hset = 0
    · rcases Startup.startLoop_cases o.worker threadNum.toInt.toNat 0 0 (prepared o) with
        ⟨hall, t, ht, hstart⟩ | ⟨j, t, hj, ht, hret, hbal⟩
      · have huses := eioInit_prepared eioData hiod hmcache hh ht
        rw [if_neg (by simp)] at huses
        refine iff_of_true (.inl ?_) ⟨hh, fun k hk => hall k (Nat.zero_le k) (by omega)⟩
        rw [huses]
        exact published_started hstart
      · have huses := eioInit_prepared eioData hiod hmcache hh ht
        rw [if_pos hret] at huses
        have hbal0 : Ledger.balance t.log (.thread j) = 0 := by
          rw [hbal]
          unfold prepared
          split <;> simp [Startup.empty]
        exact iff_of_false (not_settles_failed hret huses hbal0)
          fun h => hj.2.2 (h.2 j (by omega))
    · exact iff_of_false (not_settles_spin hiod hmcache (hhset hh) hh) fun h => hh h.1

/-- **One thread that cannot be created.**  It is cancelled all the same. -/
theorem eioInit_cancels_uncreated :
    ¬ ∀ (eioData : Option Eio) (threadNum : Int32) (o : InitOracle), 1 ≤ threadNum.toInt →
      Settles eioData threadNum o := by
  intro hall
  -- `pthread_create` returns `EAGAIN`
  rcases hall none 1 ⟨true, 0, 0, 0, fun _ => ⟨0, 0, 11, 0⟩⟩ (by decide) with hpub | hundo
  · exact absurd hpub.ret (by decide)
  · exact absurd (hundo.settled.balance (.thread 0)) (by decide)

end Eio
end EdpIo
