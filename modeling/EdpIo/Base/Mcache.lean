/-
# Object caches

`struct mem_cache` of `posix/mcache.c` and `mcache_alloc`, `mcache_free` and
`mcache_destroy`.  The cache holds no memory of its own: it counts what it takes from the
C library's heap and gives back, and `mcache_destroy` refuses while the two counts
differ.
-/

import EdpIo.Lib.BlockHeap
import Mathlib.Data.Int.Notation

namespace EdpIo

/-- `struct mem_cache`, with the objects allocated from it. -/
structure MemCache (α : Type*) where
  mcAllocs : ℤ
  mcFrees : ℤ
  mem : BlockHeap α

namespace MemCache

variable {α : Type*}

/-- `mcache_create`. -/
def create : MemCache α := ⟨0, 0, .empty⟩

/-- `mcache_alloc` where `posix_memalign` gives the block `ptr`, and the caller's first
writes to it. -/
def mcacheAlloc (m : MemCache α) (ptr : ℕ) (v : α) : MemCache α :=
  { m with mcAllocs := m.mcAllocs + 1, mem := m.mem.alloc ptr v }

/-- `mcache_free`. -/
def mcacheFree (m : MemCache α) (ptr : ℕ) : MemCache α :=
  { m with mcFrees := m.mcFrees + 1, mem := m.mem.free ptr }

/-- What `mcache_destroy` returns. -/
def mcacheDestroy (m : MemCache α) : ℤ := if m.mcAllocs ≠ m.mcFrees then -22 else 0

/-- An object from the cache that is not freed. -/
def isLive (m : MemCache α) (a : ℕ) : Bool := m.mem.isLive a

section

variable (m : MemCache α) {a b : ℕ} (v : α)

@[simp] theorem isLive_mcacheAlloc_self : (m.mcacheAlloc a v).isLive a = true :=
  m.mem.isLive_alloc_self a v

@[simp] theorem isLive_mcacheFree_self : (m.mcacheFree a).isLive a = false :=
  m.mem.isLive_free_self a

@[simp] theorem get?_mcacheAlloc_self : (m.mcacheAlloc a v).mem.get? a = some v :=
  m.mem.get?_alloc_self a v

@[simp] theorem get?_mcacheFree : (m.mcacheFree a).mem.get? b = m.mem.get? b :=
  m.mem.get?_free a b

variable {v}

theorem isLive_mcacheAlloc_of_ne (h : b ≠ a) : (m.mcacheAlloc a v).isLive b = m.isLive b :=
  m.mem.isLive_alloc_of_ne v h

theorem isLive_mcacheFree_of_ne (h : b ≠ a) : (m.mcacheFree a).isLive b = m.isLive b :=
  m.mem.isLive_free_of_ne h

theorem get?_mcacheAlloc_of_ne (h : b ≠ a) :
    (m.mcacheAlloc a v).mem.get? b = m.mem.get? b := m.mem.get?_alloc_of_ne v h

/-- An object that is allocated and freed at once leaves the same objects live. -/
theorem isLive_free_alloc (h : m.isLive a = false) (b : ℕ) :
    ((m.mcacheAlloc a v).mcacheFree a).isLive b = m.isLive b := by
  by_cases hb : b = a
  · subst hb
    rw [isLive_mcacheFree_self, h]
  · rw [isLive_mcacheFree_of_ne _ hb, isLive_mcacheAlloc_of_ne _ hb]

end

end MemCache
end EdpIo
