/-
# Accounts of what is acquired and released

A program writes down, newest first, what it acquires and releases.  A stretch of the
record is `Settled` when everything acquired in it was acquired once and released once,
and nothing else released.  Work that is done inside an acquisition and its release is
settled if it is settled itself (`Settled.enclose`), which is how code that takes
several things one after the other and gives them back is settled; a resource that is
acquired and not released shows in the record (`not_settled`).  The `balance` of a
resource is how often it was acquired less how often it was released, `0` where the record
is settled.  The record of a part of a program goes into that of the whole under other names
(`Use.map`).
-/

import Mathlib.Data.List.Count
import Mathlib.Logic.Function.Basic
import Mathlib.Data.Int.Notation

namespace Ledger

/-- A record of the account. -/
inductive Use (ρ : Type*)
  | acquire (r : ρ)
  | release (r : ρ)
deriving DecidableEq

variable {ρ : Type*} [DecidableEq ρ] {l : List (Use ρ)} {r : ρ}

/-- Everything acquired was acquired once and released once, and nothing else released. -/
def Settled (l : List (Use ρ)) : Prop :=
  ∀ r, l.count (.acquire r) ≤ 1 ∧ l.count (.release r) = l.count (.acquire r)

/-- Acquired once and not released. -/
def Held (l : List (Use ρ)) (r : ρ) : Prop := l.count (.acquire r) = 1 ∧ l.count (.release r) = 0

/-- The acquisitions of a resource less its releases. -/
def balance (l : List (Use ρ)) (r : ρ) : ℤ := l.count (.acquire r) - l.count (.release r)

@[simp] theorem balance_nil (r : ρ) : balance [] r = 0 := by simp [balance]

@[simp] theorem balance_acquire (l : List (Use ρ)) (q r : ρ) :
    balance (.acquire q :: l) r = balance l r + if q = r then 1 else 0 := by
  by_cases h : q = r <;> simp [balance, h]
  omega

@[simp] theorem balance_release (l : List (Use ρ)) (q r : ρ) :
    balance (.release q :: l) r = balance l r - if q = r then 1 else 0 := by
  by_cases h : q = r <;> simp [balance, h]
  omega

theorem Settled.balance (h : Settled l) (r : ρ) : balance l r = 0 := by
  have := (h r).2
  unfold Ledger.balance
  omega

theorem settled_nil : Settled ([] : List (Use ρ)) := fun _ => ⟨by simp, by simp⟩

/-- The release of one thing after that of another. -/
theorem Settled.enclose (h : Settled l) (hr : .acquire r ∉ l) :
    Settled (.release r :: (l ++ [Use.acquire r])) := by
  intro q
  obtain ⟨hone, heq⟩ := h q
  by_cases hq : r = q
  · subst hq
    have hzero : l.count (Use.acquire r) = 0 := List.count_eq_zero.2 hr
    simp [heq, hzero]
  · simp [heq, hone, hq]

/-- What was acquired and not released is missing. -/
theorem not_settled (hin : .acquire r ∈ l) (hout : .release r ∉ l) : ¬ Settled l := by
  intro h
  have hpos := List.count_pos_iff.2 hin
  have hzero : l.count (Use.release r) = 0 := List.count_eq_zero.2 hout
  have heq := (h r).2
  omega

theorem balance_append (l l' : List (Use ρ)) (r : ρ) :
    balance (l ++ l') r = balance l r + balance l' r := by
  simp only [balance, List.count_append]
  omega

/-! ### The account of a part -/

/-- The record under the resource's name in a larger program. -/
def Use.map {σ : Type*} (f : ρ → σ) : Use ρ → Use σ
  | .acquire r => .acquire (f r)
  | .release r => .release (f r)

section Map

variable {σ : Type*} [DecidableEq σ] {f : ρ → σ} {q : σ}

omit [DecidableEq ρ] [DecidableEq σ] in
theorem Use.map_injective (hf : Function.Injective f) : Function.Injective (Use.map f) := by
  rintro (a | a) (b | b) h
  · exact congrArg _ (hf (Use.acquire.inj h))
  · cases h
  · cases h
  · exact congrArg _ (hf (Use.release.inj h))

theorem count_acquire_map (hf : Function.Injective f) (l : List (Use ρ)) (r : ρ) :
    (l.map (Use.map f)).count (.acquire (f r)) = l.count (.acquire r) :=
  List.count_map_of_injective l _ (Use.map_injective hf) (.acquire r)

theorem count_release_map (hf : Function.Injective f) (l : List (Use ρ)) (r : ρ) :
    (l.map (Use.map f)).count (.release (f r)) = l.count (.release r) :=
  List.count_map_of_injective l _ (Use.map_injective hf) (.release r)

omit [DecidableEq ρ] in
/-- What the part has no name for. -/
theorem count_map_of_ne (h : ∀ r, f r ≠ q) (l : List (Use ρ)) :
    (l.map (Use.map f)).count (.acquire q) = 0 ∧ (l.map (Use.map f)).count (.release q) = 0 := by
  constructor
  · refine List.count_eq_zero.2 fun hin => ?_
    obtain ⟨a | a, -, ha⟩ := List.mem_map.1 hin
    · exact h a (Use.acquire.inj ha)
    · cases ha
  · refine List.count_eq_zero.2 fun hin => ?_
    obtain ⟨a | a, -, ha⟩ := List.mem_map.1 hin
    · cases ha
    · exact h a (Use.release.inj ha)

theorem balance_map (hf : Function.Injective f) (l : List (Use ρ)) (r : ρ) :
    balance (l.map (Use.map f)) (f r) = balance l r := by
  unfold balance
  rw [count_acquire_map hf, count_release_map hf]

omit [DecidableEq ρ] in
theorem balance_map_of_ne (h : ∀ r, f r ≠ q) (l : List (Use ρ)) :
    balance (l.map (Use.map f)) q = 0 := by
  obtain ⟨hacq, hrel⟩ := count_map_of_ne h l
  simp [balance, hacq, hrel]

end Map

end Ledger
