/-
# Heaps whose blocks keep their contents

A heap of objects of one type, for programs whose correctness is about when an
object is freed.  A block that is freed keeps its last contents and may still be
read and written, so that a use after free is a step like any other and the
theorems have to exclude it.  An address is given out once: an object can then be
named by its address for the whole of a run.
-/

import Mathlib.Data.Nat.Notation
import Mathlib.Logic.Function.Basic

/-- An object and whether it is still allocated. -/
structure BlockHeap.Block (α : Type*) where
  val : α
  live : Bool

/-- A heap of objects, by address. -/
abbrev BlockHeap (α : Type*) := ℕ → Option (BlockHeap.Block α)

namespace BlockHeap

variable {α : Type*}

/-- Nothing has been allocated. -/
def empty : BlockHeap α := fun _ => none

/-- The contents of a block, live or freed. -/
def get? (h : BlockHeap α) (a : ℕ) : Option α := (h a).map Block.val

/-- The block is allocated and not freed. -/
def isLive (h : BlockHeap α) (a : ℕ) : Bool := (h a).any Block.live

/-- A new block at the address `a`. -/
def alloc (h : BlockHeap α) (a : ℕ) (v : α) : BlockHeap α := Function.update h a (some ⟨v, true⟩)

/-- The block is freed. -/
def free (h : BlockHeap α) (a : ℕ) : BlockHeap α :=
  Function.update h a ((h a).map fun b => { b with live := false })

/-- A write to the block. -/
def modify (h : BlockHeap α) (a : ℕ) (f : α → α) : BlockHeap α :=
  Function.update h a ((h a).map fun b => { b with val := f b.val })

section

variable (h : BlockHeap α) (a b : ℕ) (v : α) (f : α → α)

@[simp] theorem get?_empty : (empty : BlockHeap α).get? a = none := rfl

@[simp] theorem isLive_empty : (empty : BlockHeap α).isLive a = false := rfl

@[simp] theorem get?_alloc_self : (h.alloc a v).get? a = some v := by
  simp [get?, alloc]

@[simp] theorem isLive_alloc_self : (h.alloc a v).isLive a = true := by
  simp [isLive, alloc]

@[simp] theorem get?_free : (h.free a).get? b = h.get? b := by
  by_cases hb : b = a
  · subst hb
    cases hb : h b <;> simp [get?, free, hb]
  · simp [get?, free, hb]

@[simp] theorem isLive_free_self : (h.free a).isLive a = false := by
  cases ha : h a <;> simp [isLive, free, ha]

@[simp] theorem get?_modify_self : (h.modify a f).get? a = (h.get? a).map f := by
  cases ha : h a <;> simp [get?, modify, ha]

@[simp] theorem isLive_modify : (h.modify a f).isLive b = h.isLive b := by
  by_cases hb : b = a
  · subst hb
    cases hb : h b <;> simp [isLive, modify, hb]
  · simp [isLive, modify, hb]

variable {a b}

theorem get?_alloc_of_ne (hb : b ≠ a) : (h.alloc a v).get? b = h.get? b := by
  simp [get?, alloc, hb]

theorem isLive_alloc_of_ne (hb : b ≠ a) : (h.alloc a v).isLive b = h.isLive b := by
  simp [isLive, alloc, hb]

theorem isLive_free_of_ne (hb : b ≠ a) : (h.free a).isLive b = h.isLive b := by
  simp [isLive, free, hb]

theorem get?_modify_of_ne (hb : b ≠ a) : (h.modify a f).get? b = h.get? b := by
  simp [get?, modify, hb]

end

/-- A live block has contents. -/
theorem exists_get?_of_isLive {h : BlockHeap α} {a : ℕ} (ha : h.isLive a = true) :
    ∃ v, h.get? a = some v := by
  cases hb : h a with
  | none => simp [isLive, hb] at ha
  | some b => exact ⟨b.val, by simp [get?, hb]⟩

/-- No block is lost by an allocation or a write. -/
theorem get?_alloc_ne_none {h : BlockHeap α} {b : ℕ} (hb : h.get? b ≠ none) (a : ℕ) (v : α) :
    (h.alloc a v).get? b ≠ none := by
  by_cases hba : b = a
  · subst hba
    simp
  · rwa [get?_alloc_of_ne h v hba]

theorem get?_modify_ne_none {h : BlockHeap α} {b : ℕ} (hb : h.get? b ≠ none) (a : ℕ)
    (f : α → α) : (h.modify a f).get? b ≠ none := by
  by_cases hba : b = a
  · subst hba
    simpa using hb
  · rwa [get?_modify_of_ne h f hba]

/-- What an address holds after an allocation was there before, unless the address is
the new one. -/
theorem get?_alloc_eq_some {h : BlockHeap α} {a b : ℕ} {v w : α}
    (hb : (h.alloc a v).get? b = some w) : (b = a ∧ w = v) ∨ (b ≠ a ∧ h.get? b = some w) := by
  by_cases hba : b = a
  · subst hba
    rw [get?_alloc_self] at hb
    exact .inl ⟨rfl, (Option.some.inj hb).symm⟩
  · rw [get?_alloc_of_ne h v hba] at hb
    exact .inr ⟨hba, hb⟩

/-- What an address holds after a write is what it held, written if it is the one. -/
theorem get?_modify_eq_some {h : BlockHeap α} {a b : ℕ} {f : α → α} {w : α}
    (hb : (h.modify a f).get? b = some w) :
    ∃ v, h.get? b = some v ∧ ((b = a ∧ w = f v) ∨ (b ≠ a ∧ w = v)) := by
  by_cases hba : b = a
  · subst hba
    rw [get?_modify_self] at hb
    obtain ⟨v, hv, rfl⟩ := Option.map_eq_some_iff.1 hb
    exact ⟨v, hv, .inl ⟨rfl, rfl⟩⟩
  · rw [get?_modify_of_ne h f hba] at hb
    exact ⟨w, hb, .inr ⟨hba, rfl⟩⟩

/-- An address keeps what it holds in a write, written if it is the one. -/
theorem get?_modify_of_get? {h : BlockHeap α} {b : ℕ} {v : α} (hb : h.get? b = some v) (a : ℕ)
    (f : α → α) : (h.modify a f).get? b = some (if b = a then f v else v) := by
  by_cases hba : b = a
  · subst hba
    rw [get?_modify_self, hb, if_pos rfl]
    rfl
  · rw [get?_modify_of_ne h f hba, hb, if_neg hba]

end BlockHeap
