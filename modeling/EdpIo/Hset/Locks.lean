/-
# The bucket locks of a hash set

Threads that call `hset_add`, `hset_del` and `hset_get` on one set, each call in three
steps that the other threads may come between: `spi_spin_lock(lock)`, the access to
the bucket, `spi_spin_unlock(lock)`.

A call takes the lock of its hash modulo `HSET_LOCK_NUM` and accesses the bucket of its
hash modulo `hs_size`.  The locks themselves work: the thread inside is the holder of
its lock (`Locked.holds`).  They protect the buckets exactly when two hashes of one
bucket have one lock, which depends on the size alone (`sameLock_iff`);
`buckets_locked_iff` is the same for all interleavings of all calls.
-/

import EdpIo.Hset.Model
import EdpIo.Lib.Run

namespace EdpIo

/-- `HSET_LOCK_NUM`. -/
def hsetLockNum : UInt32 := 16

/-- The hash that a call is about. -/
def HsetOp.hash : HsetOp → UInt32
  | .add _ k => k
  | .del k => k
  | .get k => k

/-- Where a call is: before `spi_spin_lock`, before the access, before
`spi_spin_unlock`. -/
inductive HsetPc
  | lock
  | access
  | unlock
deriving DecidableEq

/-- A set with its `hs_locks`, each with the thread that holds it, and the call each
thread is in. -/
structure HsetShared where
  set : Hset
  hsLocks : UInt32 → Option ℕ
  calls : ℕ → Option (HsetPc × HsetOp)

/-- A step of thread `t`: it calls an operation, takes the lock, accesses the bucket,
releases the lock and returns. -/
inductive HsetAct
  | call (t : ℕ) (op : HsetOp)
  | lock (t : ℕ)
  | access (t : ℕ)
  | unlock (t : ℕ)
deriving DecidableEq

namespace HsetShared

/-- The lock of a hash, `&(h->hs_locks[hash % HSET_LOCK_NUM])`. -/
def lockOf (hash : UInt32) : UInt32 := hash % hsetLockNum

/-- The threads before their first call, on the set after `hset_create`. -/
def init (n : UInt32) (l : Links HsetAddr) (hash : ℕ → UInt32) : HsetShared where
  set := hsetCreate n l hash
  hsLocks := fun _ => none
  calls := fun _ => none

/-- The state after a step, if the step is possible: `spi_spin_lock` waits for the lock. -/
def step (fuel : ℕ) (s : HsetShared) : HsetAct → Option HsetShared
  | .call t op =>
    match s.calls t with
    | none => some { s with calls := Function.update s.calls t (some (.lock, op)) }
    | some _ => none
  | .lock t =>
    match s.calls t with
    | some (.lock, op) =>
      match s.hsLocks (lockOf op.hash) with
      | none => some { s with
          hsLocks := Function.update s.hsLocks (lockOf op.hash) (some t)
          calls := Function.update s.calls t (some (.access, op)) }
      | some _ => none
    | _ => none
  | .access t =>
    match s.calls t with
    | some (.access, op) => (op.exec fuel s.set).map fun r => { s with
        set := r.2
        calls := Function.update s.calls t (some (.unlock, op)) }
    | _ => none
  | .unlock t =>
    match s.calls t with
    | some (.unlock, op) => some { s with
        hsLocks := Function.update s.hsLocks (lockOf op.hash) none
        calls := Function.update s.calls t none }
    | _ => none

/-- Thread `t` is in its critical section. -/
def Inside (s : HsetShared) (t : ℕ) (op : HsetOp) : Prop :=
  s.calls t = some (.access, op) ∨ s.calls t = some (.unlock, op)

/-- No two calls on one bucket are in their critical sections at once. -/
def Exclusive (s : HsetShared) : Prop :=
  ∀ t t' op op', t ≠ t' → s.Inside t op → s.Inside t' op' →
    s.set.bucket op.hash ≠ s.set.bucket op'.hash

/-- Hashes of one of `n` buckets have one lock. -/
def SameLock (n : UInt32) : Prop := ∀ k k', k % n = k' % n → lockOf k = lockOf k'

/-- **One lock for a bucket, as arithmetic.** -/
theorem sameLock_iff {n : UInt32} : SameLock n ↔ 16 ∣ n.toNat := by
  constructor
  · intro hs
    have hmod : (0 : UInt32) % n = n % n := by
      rw [UInt32.zero_mod, UInt32.mod_self]
    have hlock := congrArg UInt32.toNat (hs 0 n hmod)
    exact Nat.dvd_of_mod_eq_zero (by simpa [lockOf, hsetLockNum] using hlock.symm)
  · intro hd k k' hkk
    have hmod : k.toNat % n.toNat = k'.toNat % n.toNat := by
      simpa using congrArg UInt32.toNat hkk
    refine UInt32.toNat_inj.1 ?_
    calc (lockOf k).toNat
      _ = k.toNat % n.toNat % 16 := by simp [lockOf, hsetLockNum, Nat.mod_mod_of_dvd _ hd]
      _ = k'.toNat % n.toNat % 16 := by rw [hmod]
      _ = (lockOf k').toNat := by simp [lockOf, hsetLockNum, Nat.mod_mod_of_dvd _ hd]

variable {fuel : ℕ} {s s' : HsetShared} {n : UInt32}

/-- What a step can do. -/
inductive Step (fuel : ℕ) (s : HsetShared) : HsetAct → HsetShared → Prop
  | call (t : ℕ) (op : HsetOp) (ht : s.calls t = none) : Step fuel s (.call t op)
      { s with calls := Function.update s.calls t (some (.lock, op)) }
  | lock (t : ℕ) (op : HsetOp) (ht : s.calls t = some (.lock, op))
      (hfree : s.hsLocks (lockOf op.hash) = none) : Step fuel s (.lock t) { s with
        hsLocks := Function.update s.hsLocks (lockOf op.hash) (some t)
        calls := Function.update s.calls t (some (.access, op)) }
  | access (t : ℕ) (op : HsetOp) (r : (ℤ × Option ℕ) × Hset)
      (ht : s.calls t = some (.access, op)) (hr : op.exec fuel s.set = some r) :
      Step fuel s (.access t) { s with
        set := r.2
        calls := Function.update s.calls t (some (.unlock, op)) }
  | unlock (t : ℕ) (op : HsetOp) (ht : s.calls t = some (.unlock, op)) :
      Step fuel s (.unlock t) { s with
        hsLocks := Function.update s.hsLocks (lockOf op.hash) none
        calls := Function.update s.calls t none }

/-- **The inversion lemma of the calls.** -/
theorem step_cases {a : HsetAct} (hst : s.step fuel a = some s') : Step fuel s a s' := by
  cases a with
  | call t op =>
    rcases ht : s.calls t with _ | c
    · simp only [step, ht, Option.some.injEq] at hst
      exact hst ▸ .call t op ht
    · simp [step, ht] at hst
  | lock t =>
    rcases ht : s.calls t with _ | ⟨_ | _ | _, op⟩
    · simp [step, ht] at hst
    · cases hl : s.hsLocks (lockOf op.hash) with
      | none =>
        simp only [step, ht, hl, Option.some.injEq] at hst
        exact hst ▸ .lock t op ht hl
      | some _ => simp [step, ht, hl] at hst
    · simp [step, ht] at hst
    · simp [step, ht] at hst
  | access t =>
    rcases ht : s.calls t with _ | ⟨_ | _ | _, op⟩
    · simp [step, ht] at hst
    · simp [step, ht] at hst
    · simp only [step, ht] at hst
      obtain ⟨r, hr, rfl⟩ := Option.map_eq_some_iff.1 hst
      exact .access t op r ht hr
    · simp [step, ht] at hst
  | unlock t =>
    rcases ht : s.calls t with _ | ⟨_ | _ | _, op⟩
    · simp [step, ht] at hst
    · simp [step, ht] at hst
    · simp [step, ht] at hst
    · simp only [step, ht, Option.some.injEq] at hst
      exact hst ▸ .unlock t op ht

/-- No operation changes the size. -/
theorem exec_hsSize {h : Hset} {op : HsetOp} {r : (ℤ × Option ℕ) × Hset}
    (hr : op.exec fuel h = some r) : r.2.hsSize = h.hsSize := by
  cases op with
  | add e k =>
    obtain ⟨x, hx, rfl⟩ := Option.map_eq_some_iff.1 hr
    obtain ⟨found, _, rfl⟩ := Option.map_eq_some_iff.1 hx
    cases found <;> rfl
  | del k =>
    obtain ⟨x, hx, rfl⟩ := Option.map_eq_some_iff.1 hr
    obtain ⟨found, _, rfl⟩ := Option.map_eq_some_iff.1 hx
    cases found <;> rfl
  | get k =>
    obtain ⟨x, _, rfl⟩ := Option.map_eq_some_iff.1 hr
    rfl

/-- The spinlocks: a thread in its critical section holds the lock of its hash. -/
structure Locked (n : UInt32) (s : HsetShared) : Prop where
  size : s.set.hsSize = n
  holds : ∀ t op, s.Inside t op → s.hsLocks (lockOf op.hash) = some t

theorem init_locked (n : UInt32) (l : Links HsetAddr) (hash : ℕ → UInt32) :
    (init n l hash).Locked n :=
  ⟨rfl, fun t op h => by rcases h with h | h <;> cases h⟩

/-- A thread whose call is not touched is inside as it was. -/
theorem inside_update {t t' : ℕ} {op : HsetOp} {c : Option (HsetPc × HsetOp)} (hne : t' ≠ t)
    (h : ({ s with calls := Function.update s.calls t c } : HsetShared).Inside t' op) :
    s.Inside t' op := by
  simpa [Inside, hne] using h

theorem Locked.step (hs : s.Locked n) {a : HsetAct} (hst : s.step fuel a = some s') :
    s'.Locked n := by
  obtain ⟨hsize, hold⟩ := hs
  cases step_cases hst with
  | call t op ht =>
    refine ⟨hsize, fun t' op' hin => ?_⟩
    by_cases htt : t' = t
    · simp [Inside, htt] at hin
    · exact hold t' op' (inside_update htt hin)
  | lock t op ht hfree =>
    refine ⟨hsize, fun t' op' hin => ?_⟩
    by_cases htt : t' = t
    · obtain rfl : op = op' := by simpa [Inside, htt] using hin
      simp [htt]
    · have hl := hold t' op' (inside_update htt hin)
      -- the lock just taken was free, so it is not the one `t'` holds
      have hne : lockOf op'.hash ≠ lockOf op.hash := by
        intro he
        rw [he, hfree] at hl
        cases hl
      simpa [hne] using hl
  | access t op r ht hr =>
    refine ⟨(exec_hsSize hr).trans hsize, fun t' op' hin => ?_⟩
    by_cases htt : t' = t
    · obtain rfl : op = op' := by simpa [Inside, htt] using hin
      exact htt ▸ hold t op (Or.inl ht)
    · exact hold t' op' (by simpa [Inside, htt] using hin)
  | unlock t op ht =>
    refine ⟨hsize, fun t' op' hin => ?_⟩
    by_cases htt : t' = t
    · simp [Inside, htt] at hin
    · have hl := hold t' op' (inside_update htt hin)
      have hl' := hold t op (Or.inr ht)
      have hne : lockOf op'.hash ≠ lockOf op.hash := by
        intro he
        rw [he, hl'] at hl
        exact htt (Option.some.inj hl).symm
      simpa [hne] using hl

/-- Two threads inside hold different locks, so with one lock for a bucket they are at
different buckets. -/
theorem Locked.exclusive (hs : s.Locked n) (hn : SameLock n) : s.Exclusive := by
  intro t t' op op' htt hin hin' hb
  have hkk : op.hash % n = op'.hash % n := by
    simpa [Hset.bucket, hs.size] using hb
  have hl := hs.holds t op hin
  rw [hn _ _ hkk, hs.holds t' op' hin'] at hl
  exact htt (Option.some.inj hl).symm

/-- Two threads that look up hashes of different locks are both inside after they have
taken them. -/
theorem both_inside (l : Links HsetAddr) (hash : ℕ → UInt32) (fuel : ℕ) {k k' : UInt32}
    (hkk : lockOf k' ≠ lockOf k) :
    ∃ s, StepSystem.run (step fuel) (init n l hash)
        [.call 0 (.get k), .lock 0, .call 1 (.get k'), .lock 1] = some s ∧
      s.set = hsetCreate n l hash ∧ s.Inside 0 (.get k) ∧ s.Inside 1 (.get k') := by
  refine ⟨{
    set := hsetCreate n l hash
    hsLocks := Function.update (Function.update (fun _ => none) (lockOf k) (some 0))
      (lockOf k') (some 1)
    calls := Function.update (Function.update (Function.update (Function.update
      (fun _ => none) 0 (some (.lock, .get k))) 0 (some (.access, .get k)))
      1 (some (.lock, .get k'))) 1 (some (.access, .get k')) }, ?_, rfl, Or.inl ?_, Or.inl ?_⟩
  · simp [StepSystem.run, step, init, HsetOp.hash, hkk]
  · simp
  · simp

/-- **When the locks protect the buckets.**  In every interleaving of calls on a set of
`n` buckets, two calls on one bucket are never both in their critical sections, if and
only if `n` is a multiple of `16`; this is also when two hashes of one bucket always
have one lock. -/
theorem buckets_locked_iff {n : UInt32} (l : Links HsetAddr) (hash : ℕ → UInt32) (fuel : ℕ) :
    ((∀ acts s, StepSystem.run (step fuel) (init n l hash) acts = some s → s.Exclusive) ↔
        16 ∣ n.toNat) ∧
      (SameLock n ↔ 16 ∣ n.toNat) := by
  refine ⟨⟨fun hall => ?_, fun hd acts s hrun => ?_⟩, sameLock_iff⟩
  · -- two threads that look up the hashes `0` and `n`, both of bucket `0`
    by_contra hd
    have hlock : lockOf n ≠ lockOf 0 := by
      intro he
      refine hd (Nat.dvd_of_mod_eq_zero ?_)
      simpa [lockOf, hsetLockNum] using congrArg UInt32.toNat he
    obtain ⟨s, hrun, hset, h0, h1⟩ := both_inside (n := n) l hash fuel hlock
    refine hall _ s hrun 0 1 _ _ (by decide) h0 h1 ?_
    simp [hset, Hset.bucket, hsetCreate, HsetOp.hash]
  · have hs : s.Locked n :=
      StepSystem.run_preserves (fun _ _ _ h hst => h.step hst) (init_locked n l hash) hrun
    exact hs.exclusive (sameLock_iff.2 hd)

/-- **A set of one bucket.**  Threads `0` and `1` look up the hashes `0` and `1` in a set of
size `1`, and both are in their critical sections at once. -/
theorem bucket_shared :
    ¬ ∀ (n : UInt32) (fuel : ℕ) (acts : List HsetAct) (s : HsetShared), n ≠ 0 →
      StepSystem.run (step fuel) (init n ⟨id, id⟩ fun _ => 0) acts = some s → s.Exclusive := by
  intro hall
  have hone := hall 1 2 [.call 0 (.get 0), .lock 0, .call 1 (.get 1), .lock 1] _ (by decide) rfl
  exact hone 0 1 (.get 0) (.get 1) (by decide) (Or.inl rfl) (Or.inl rfl) (by decide)

end HsetShared

end EdpIo
