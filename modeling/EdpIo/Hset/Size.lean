/-
# The block of a hash set

`hset_create(size)` computes `sizeof(*h) + size*sizeof(struct list_head)` in 64 bits and
stores it in the `uint32_t` `memsize`, the bytes it allocates.  With 8-byte pointers:

| offset | field | bytes |
| ---: | --- | ---: |
| 0 | `hs_init` | 4, 4 unused |
| 8 | `hs_node` | 16 |
| 24 | `hs_locks[16]` | 64 |
| 88 | `hs_items` | 8 |
| 96 | `hs_size` | 4, 4 unused |
| 104 | `hs_ents[i]` | 16 each |

`block_fits_iff`: the header, the buckets that the loop of `hset_create` initialises and those that
`hset_add`, `hset_del` and `hset_get` access are inside the block exactly if the sum is below
`2 ^ 32`.  From `size = 268435450` on the block is too small, and past `2 ^ 31` the loop's
index, an `int`, is negative as well.
-/

import EdpIo.Hset.Model
import Mathlib.Data.Int.Order.Basic

namespace EdpIo
namespace Hset

/-- `memsize` in `hset_create(size)`. -/
def memsize (size : UInt32) : UInt32 := (104 + size.toUInt64 * 16).toUInt32

/-- The index of `h->hs_ents[i]` in round `k` of `for(i = 0; i < size; i++)`, with `int i`.  The
comparison is one of unsigned numbers, so there are `size` rounds. -/
def initIndex (k : ℕ) : ℤ := (Int32.ofNat k).toInt

/-- The index of a bucket that is accessed later. -/
def entIndex : HsetAddr → Option ℤ
  | .ent i => some i.toNat
  | .node _ | .poison1 | .poison2 => none

/-- `hs_ents[i]` is inside the block. -/
def EntInside (size : UInt32) (i : ℤ) : Prop :=
  104 ≤ 104 + 16 * i ∧ 104 + 16 * i + 16 ≤ (memsize size).toNat

/-- **What the block is for.**  It contains the header and all of `hs_ents`, and every access
to a bucket is inside. -/
structure Fits (size : UInt32) : Prop where
  header : 104 ≤ (memsize size).toNat
  ents : ∀ i < size.toNat, EntInside size i
  init : ∀ k < size.toNat, EntInside size (initIndex k)
  access : ∀ (l : Links HsetAddr) (hseHash : ℕ → UInt32) (hash : UInt32),
    ∃ i, entIndex ((hsetCreate size l hseHash).bucket hash) = some i ∧ EntInside size i

/-- `memsize` keeps 32 bits. -/
theorem memsize_toNat (size : UInt32) :
    (memsize size).toNat = (104 + 16 * size.toNat) % 2 ^ 32 := by
  have hlt := size.toNat_lt
  simp [memsize]
  omega

/-- Below `2 ^ 31` the loop's index is the round. -/
theorem initIndex_of_lt {k : ℕ} (h : k < 2 ^ 31) : initIndex k = k := by
  rw [initIndex, Int32.toInt_ofNat', Int.bmod_def]
  simp only [Int32.size]
  split_ifs <;> omega

/-- **When the block is large enough.** -/
theorem block_fits_iff {size : UInt32} (h : size ≠ 0) :
    Fits size ↔ 104 + 16 * size.toNat < 2 ^ 32 := by
  have hpos : 0 < size.toNat := by
    rw [Nat.pos_iff_ne_zero]
    exact fun h0 => h (UInt32.toNat_inj.1 h0)
  constructor
  · intro hfit
    -- the last bucket ends where the whole sum says
    have hlast := (hfit.ents (size.toNat - 1) (by omega)).2
    rw [memsize_toNat] at hlast
    have hlt := Nat.mod_lt (104 + 16 * size.toNat) (show 0 < 2 ^ 32 by decide)
    omega
  · intro hlt
    have hmem : (memsize size).toNat = 104 + 16 * size.toNat := by
      rw [memsize_toNat, Nat.mod_eq_of_lt hlt]
    have hents : ∀ i : ℕ, i < size.toNat → EntInside size i := by
      intro i hi
      unfold EntInside
      omega
    refine ⟨by omega, hents, fun k hk => ?_, fun l hseHash hash => ?_⟩
    · rw [initIndex_of_lt (by omega)]
      exact hents k hk
    · refine ⟨(hash % size).toNat, rfl, hents _ ?_⟩
      rw [UInt32.toNat_mod]
      exact Nat.mod_lt _ hpos

/-- The `EPOLL_MAX_EVENTS` buckets of `eio_init`. -/
theorem block_fits_epoll : Fits 32 := (block_fits_iff (by decide)).2 (by decide)

/-- **A block of the header alone**, for `2 ^ 28` buckets. -/
theorem block_too_small : ¬ ∀ size : UInt32, size ≠ 0 → Fits size := by
  intro hall
  have hend := ((hall 268435456 (by decide)).ents 0 (by decide)).2
  rw [memsize_toNat] at hend
  exact absurd hend (by decide)

end Hset
end EdpIo
