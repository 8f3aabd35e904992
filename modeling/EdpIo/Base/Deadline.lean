/-
# The deadline of `__spi_convar_timedwait`

`__spi_convar_timedwait(cv, ms)` of `posix/edp_sys.h` reads the time and passes
`tv_nsec = (tv_usec + ms) * 1000` with the `tv_sec` it read to `pthread_cond_timedwait`: it
adds milliseconds to microseconds, and does not carry into the seconds.  The deadline is
normalised and `ms` milliseconds away exactly for `ms = 0` (`deadline_exact_iff`).

`worker_init` and `eio_init` ask for 1000 ms and get 1 ms.  In the last millisecond of each
second `tv_nsec` is `10 ^ 9` or more, for which `pthread_cond_timedwait` returns `EINVAL`, and
the start fails unless the thread has signalled by then (`convarTimedwait_lastMs`).
-/

import Mathlib.Data.Int.Order.Basic
import Mathlib.Data.UInt

namespace EdpIo

/-- `struct timeval`. -/
structure Timeval where
  tvSec : ℤ
  tvUsec : ℤ
deriving DecidableEq, Repr

/-- `struct timespec`. -/
structure Timespec where
  tvSec : ℤ
  tvNsec : ℤ
deriving DecidableEq, Repr

/-- What `gettimeofday` gives. -/
def Timeval.Valid (tv : Timeval) : Prop := 0 ≤ tv.tvUsec ∧ tv.tvUsec < 1000000

def Timeval.nanos (tv : Timeval) : ℤ := tv.tvSec * 1000000000 + tv.tvUsec * 1000

/-- What `pthread_cond_timedwait` takes. -/
def Timespec.Normalised (ts : Timespec) : Prop := 0 ≤ ts.tvNsec ∧ ts.tvNsec < 1000000000

instance (ts : Timespec) : Decidable ts.Normalised := inferInstanceAs (Decidable (_ ∧ _))

def Timespec.nanos (ts : Timespec) : ℤ := ts.tvSec * 1000000000 + ts.tvNsec

/-- The `ts` of `__spi_convar_timedwait`. -/
def deadline (tv : Timeval) (ms : UInt32) : Timespec :=
  ⟨tv.tvSec, (tv.tvUsec + ms.toNat) * 1000⟩

/-- `__spi_convar_timedwait(cv, ms)` with what it returns and `cv_count` after it; `wait` is what
`pthread_cond_timedwait` returns for the deadline. -/
def convarTimedwait (cvCount : ℤ) (tv : Timeval) (ms : UInt32) (wait : Timespec → ℤ) : ℤ × ℤ :=
  if cvCount = 0 then
    if wait (deadline tv ms) ≠ 0 then (-110, cvCount) else (0, 0)
  else (0, 0)

/-- **What the deadline should be.** -/
def ExactDeadline (tv : Timeval) (ms : UInt32) : Prop :=
  (deadline tv ms).Normalised ∧ (deadline tv ms).nanos = tv.nanos + ms.toNat * 1000000

variable {tv : Timeval}

/-- `tv_nsec` is computed without overflow. -/
theorem deadline_lt (htv : tv.Valid) (ms : UInt32) : (deadline tv ms).tvNsec < 2 ^ 63 := by
  have hms := ms.toNat_lt
  obtain ⟨-, hlt⟩ := htv
  show (tv.tvUsec + ms.toNat) * 1000 < 2 ^ 63
  omega

/-- The deadline is normalised while the sum stays below a second, taken in microseconds. -/
theorem deadline_normalised_iff (htv : tv.Valid) (ms : UInt32) :
    (deadline tv ms).Normalised ↔ tv.tvUsec + ms.toNat < 1000000 := by
  obtain ⟨h0, -⟩ := htv
  show 0 ≤ (tv.tvUsec + ms.toNat) * 1000 ∧ (tv.tvUsec + ms.toNat) * 1000 < 1000000000 ↔ _
  constructor
  · rintro ⟨-, hlt⟩
    omega
  · intro hlt
    exact ⟨by omega, by omega⟩

/-- **When the deadline is the one asked for**: for no wait at all. -/
theorem deadline_exact_iff (htv : tv.Valid) (ms : UInt32) : ExactDeadline tv ms ↔ ms = 0 := by
  constructor
  · rintro ⟨-, hnanos⟩
    have hms : ms.toNat = 0 := by
      simp only [Timespec.nanos, Timeval.nanos, deadline] at hnanos
      omega
    exact UInt32.toNat_inj.1 hms
  · rintro rfl
    refine ⟨(deadline_normalised_iff htv 0).2 ?_, ?_⟩
    · simpa using htv.2
    · simp [Timespec.nanos, Timeval.nanos, deadline]

/-- **The last millisecond of a second.**  A worker that has not signalled yet has not
started, where `pthread_cond_timedwait` refuses a deadline that is not normalised. -/
theorem convarTimedwait_lastMs (htv : tv.Valid) (hlast : 999000 ≤ tv.tvUsec)
    {wait : Timespec → ℤ} (hwait : ∀ ts, ¬ ts.Normalised → wait ts = 22) :
    (convarTimedwait 0 tv 1000 wait).1 = -110 := by
  have hnorm : ¬ (deadline tv 1000).Normalised := by
    rw [deadline_normalised_iff htv]
    show ¬ tv.tvUsec + 1000 < 1000000
    omega
  simp [convarTimedwait, hwait _ hnorm]

/-- The time 1 s 500 ms, no wait. -/
theorem deadline_exact_zero : ExactDeadline ⟨1, 500000⟩ 0 :=
  have htv : Timeval.Valid ⟨1, 500000⟩ := ⟨by decide, by decide⟩
  (deadline_exact_iff htv 0).2 rfl

/-- **A second is a millisecond.** -/
theorem deadline_inexact :
    ¬ ∀ (tv : Timeval) (ms : UInt32), tv.Valid → ExactDeadline tv ms := by
  intro hall
  exact absurd (hall ⟨0, 0⟩ 1000 ⟨by decide, by decide⟩).2 (by decide)

end EdpIo
