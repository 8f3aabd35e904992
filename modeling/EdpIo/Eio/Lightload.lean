/-
# Past the end of `iod_round`

`worker_lightload` takes `iod_round++ % iod_num` and never reduces `iod_round`, an `int`
(`__edp_dispatch` reduces `wd_round` each time).  After `m` calls of `eio_addfd` it is `m` in
32 bits with a sign (`iodRound_run`), and C's remainder has the sign of the dividend
(`tmod_in_range_iff`): after `2 ^ 31` calls the index of the worker is negative, unless the
number of workers divides the counter.  `lightload_in_range_iff` is the exact condition on
`m`.
-/

import EdpIo.Eio.Model
import Mathlib.Data.Int.Order.Basic

namespace EdpIo.Eio

/-- A call of `eio_addfd`. -/
def Op.isAddfd : Op → Bool
  | .addfd .. => true
  | .delfd .. => false

variable {s t : Eio}

/-- `eio_addfd` moves `iod_round` on, whatever it returns. -/
theorem iodRound_step {op : Op} (h : s.step op = some t) :
    t.iodRound = s.iodRound + Int32.ofNat (if op.isAddfd then 1 else 0) ∧
      t.iodNum = s.iodNum := by
  obtain ⟨⟨u, ret⟩, hr, rfl⟩ := Option.map_eq_some_iff.1 h
  cases exec_cases hr with
  | noMem | «exists» | addFailed => exact ⟨rfl, rfl⟩
  | added => exact ⟨rfl, rfl⟩
  | absent | delFailed | deleted => exact ⟨(Int32.add_zero _).symm, rfl⟩

/-- `iod_round` counts the calls of `eio_addfd`, in 32 bits. -/
theorem iodRound_run {ops : List Op} (h : StepSystem.run step s ops = some t) :
    t.iodRound = s.iodRound + Int32.ofNat (ops.countP Op.isAddfd) ∧ t.iodNum = s.iodNum := by
  induction ops generalizing s with
  | nil =>
    obtain rfl := Option.some.inj h
    exact ⟨(Int32.add_zero _).symm, rfl⟩
  | cons op ops ih =>
    obtain ⟨u, hu, h⟩ := StepSystem.run_cons.1 h
    obtain ⟨hround, hnum⟩ := ih h
    obtain ⟨hround', hnum'⟩ := iodRound_step hu
    refine ⟨?_, hnum.trans hnum'⟩
    rw [hround, hround', List.countP_cons, Int32.add_assoc, Nat.add_comm, Int32.ofNat_add]

/-- C's remainder by a positive number is one of the indices exactly if the dividend is not
negative or a multiple. -/
theorem tmod_in_range_iff {r n : ℤ} (hn : 0 < n) :
    (0 ≤ r.tmod n ∧ r.tmod n < n) ↔ 0 ≤ r ∨ n ∣ r := by
  have hlt := Int.tmod_lt_of_pos r hn
  constructor
  · rintro ⟨h0, -⟩
    rcases lt_or_ge r 0 with hneg | hpos
    · -- the remainder of a negative number is not positive
      have hle : 0 ≤ (-r).tmod n := Int.tmod_nonneg n (by omega)
      rw [Int.neg_tmod] at hle
      exact .inr (Int.dvd_iff_tmod_eq_zero.2 (by omega))
    · exact .inl hpos
  · rintro (hpos | hdvd)
    · exact ⟨Int.tmod_nonneg n hpos, hlt⟩
    · rw [Int.dvd_iff_tmod_eq_zero.1 hdvd] at hlt ⊢
      exact ⟨le_refl 0, hlt⟩

/-- The value of `iod_round` after `m` calls. -/
theorem toInt_ofNat_eq (m : ℕ) :
    (Int32.ofNat m).toInt =
      if m % 2 ^ 32 < 2 ^ 31 then ((m % 2 ^ 32 : ℕ) : ℤ) else (m % 2 ^ 32 : ℕ) - 2 ^ 32 := by
  rw [Int32.toInt_ofNat', Int.bmod_def]
  simp only [Int32.size]
  split_ifs <;> omega

/-- The index after any calls. -/
theorem lightload_eq {num : Int32} {ops : List Op}
    (hrun : StepSystem.run step (Eio.init num) ops = some s) :
    s.workerLightload.1 = (Int32.ofNat (ops.countP Op.isAddfd)).toInt.tmod num.toInt := by
  obtain ⟨hround, hnum⟩ := iodRound_run hrun
  show (s.iodRound % s.iodNum).toInt = _
  rw [Int32.toInt_mod, hround, hnum]
  simp [init]

/-- **When `worker_lightload` selects a worker.**  After any calls of `eio_addfd` and
`eio_delfd`, `m` of them `eio_addfd`, the index is one of the workers if and only if `m` in 32
bits is below `2 ^ 31` or its distance to `2 ^ 32` is a multiple of the number of workers. -/
theorem lightload_in_range_iff {num : Int32} (hnum : 1 ≤ num.toInt) {ops : List Op}
    (hrun : StepSystem.run step (Eio.init num) ops = some s) :
    (0 ≤ s.workerLightload.1 ∧ s.workerLightload.1 < num.toInt) ↔
      ops.countP Op.isAddfd % 2 ^ 32 < 2 ^ 31 ∨
        num.toInt ∣ 2 ^ 32 - (ops.countP Op.isAddfd % 2 ^ 32 : ℕ) := by
  rw [lightload_eq hrun, tmod_in_range_iff (by omega), toInt_ofNat_eq]
  split_ifs with h
  · exact iff_of_true (.inl (by omega)) (.inl h)
  · rw [or_iff_right h, or_iff_right (by omega), ← Int.dvd_neg, Int.neg_sub]

/-- Five calls on two workers. -/
theorem lightload_in_range_five :
    ∃ s, StepSystem.run step (Eio.init 2) (List.replicate 5 (.addfd 7 0 0 none 0)) = some s ∧
      0 ≤ s.workerLightload.1 ∧ s.workerLightload.1 < (2 : Int32).toInt :=
  have hrun := Eq.refl
    (StepSystem.run step (Eio.init 2) (List.replicate 5 (.addfd 7 0 0 none 0)))
  ⟨_, hrun, (lightload_in_range_iff (by decide) hrun).2 (.inl (by decide))⟩

/-- Any number of calls is possible. -/
theorem run_addfd (s : Eio) (m : ℕ) :
    ∃ t, StepSystem.run step s (List.replicate m (.addfd 7 0 0 none 0)) = some t := by
  induction m generalizing s with
  | zero => exact ⟨s, rfl⟩
  | succ m ih => exact ih s.workerLightload.2

/-- **An index below the workers.**  With three workers, after `2 ^ 31` calls. -/
theorem lightload_below_range :
    ¬ ∀ (num : Int32) (ops : List Op) (s : Eio), 1 ≤ num.toInt →
      StepSystem.run step (Eio.init num) ops = some s →
      0 ≤ s.workerLightload.1 ∧ s.workerLightload.1 < num.toInt := by
  intro hall
  obtain ⟨s, hs⟩ := run_addfd (Eio.init 3) (2 ^ 31)
  have hidx := (hall 3 _ s (by decide) hs).1
  rw [lightload_eq hs, List.countP_replicate, if_pos (show Op.isAddfd _ = true from rfl),
    toInt_ofNat_eq] at hidx
  exact absurd hidx (by decide)

end EdpIo.Eio
