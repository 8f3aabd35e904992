/-
# The hash set of `src/hset.c`

`struct hset_struct` with its buckets `hs_ents[]`, each the head of a circular
doubly linked list of `hset_entry_t`s, and `hset_create`, `hset_add`, `hset_del`
and `hset_get` on the links themselves.  An entry is named by a number; the
address of its `hse_node` is `.node e`, that of bucket `i` is `.ent i`.

The loops over a bucket (`list_for_each_entry`) run on fuel and give `none` when
it is used up, or when the links lead to an address that is no entry; the
theorems say how much is enough.  The bucket locks are not in this model: one
call runs at a time.
-/

import EdpIo.Base.ListHead
import Mathlib.Data.UInt

namespace EdpIo

/-- The addresses of list heads: `&h->hs_ents[i]`, `&e->hse_node` and the two
poison values. -/
inductive HsetAddr
  | ent (i : UInt32)
  | node (e : ℕ)
  | poison1
  | poison2
deriving DecidableEq

instance : ListPoison HsetAddr := ⟨.poison1, .poison2⟩

/-- `struct hset_struct`, with the links of its buckets and of the entries, and
the `hse_hash` of every entry. -/
structure Hset where
  hsItems : ℤ
  hsSize : UInt32
  links : Links HsetAddr
  hseHash : ℕ → UInt32

/-- The loop of `hset_create` over the buckets: `INIT_LIST_HEAD` on each. -/
def initBuckets (l : Links HsetAddr) : ℕ → Links HsetAddr
  | 0 => l
  | i + 1 => initListHead (initBuckets l i) (.ent (UInt32.ofNat i))

/-- `hset_create` with enough memory, from any contents `l`, `hash` of it. -/
def hsetCreate (size : UInt32) (l : Links HsetAddr) (hash : ℕ → UInt32) : Hset where
  hsItems := 0
  hsSize := size
  links := initBuckets l size.toNat
  hseHash := hash

namespace Hset

/-- The bucket of a hash, `&(h->hs_ents[hash % h->hs_size])`. -/
def bucket (h : Hset) (hash : UInt32) : HsetAddr := .ent (hash % h.hsSize)

/-- The search loop `list_for_each_entry(pos, lh, hse_node)` that the three
operations share, from `pos`: the first entry with this hash, if there is one. -/
def find (h : Hset) (lh : HsetAddr) (hash : UInt32) : ℕ → HsetAddr → Option (Option ℕ)
  | 0, _ => none
  | fuel + 1, pos =>
    if pos = lh then some none
    else
      match pos with
      | .node e =>
        if h.hseHash e = hash then some (some e) else find h lh hash fuel (h.links.next pos)
      | _ => none

/-- The search of the bucket of `hash` from its first entry. -/
def search (fuel : ℕ) (h : Hset) (hash : UInt32) : Option (Option ℕ) :=
  h.find (h.bucket hash) hash fuel (h.links.next (h.bucket hash))

/-- `hset_add`.  The source passes the bucket as the new entry and the new entry
as the list head: `list_add_tail(lh, &hse->hse_node)`. -/
def hsetAdd (fuel : ℕ) (h : Hset) (hse : ℕ) : Option (ℤ × Hset) :=
  (h.search fuel (h.hseHash hse)).map fun
    | some _ => (-1, h)
    | none =>
      (0, { h with
        links := listAddTail (initListHead h.links (.node hse)) (h.bucket (h.hseHash hse))
          (.node hse) })

/-- `hset_del`. -/
def hsetDel (fuel : ℕ) (h : Hset) (hash : UInt32) : Option (ℤ × Hset) :=
  (h.search fuel hash).map fun
    | some e => (0, { h with links := listDel h.links (.node e) })
    | none => (-1, h)

/-- `hset_get`: its result and the entry it stores in `*hse`, if it does. -/
def hsetGet (fuel : ℕ) (h : Hset) (hash : UInt32) : Option (ℤ × Option ℕ) :=
  (h.search fuel hash).map fun
    | some e => (0, some e)
    | none => (-1, none)

/-- The caller's `hse->hse_hash = hash` before `hset_add(hs, hse)`. -/
def setHash (h : Hset) (hse : ℕ) (hash : UInt32) : Hset :=
  { h with hseHash := Function.update h.hseHash hse hash }

end Hset

/-- A call on the set.  `add e k` is `hset_add` of the entry object `e`, whose
hash the caller has set to `k`. -/
inductive HsetOp
  | add (hse : ℕ) (hash : UInt32)
  | del (hash : UInt32)
  | get (hash : UInt32)
deriving DecidableEq

/-- What the call returns (and what `hset_get` stores), and the set after it. -/
def HsetOp.exec (fuel : ℕ) (h : Hset) : HsetOp → Option ((ℤ × Option ℕ) × Hset)
  | .add e k => ((h.setHash e k).hsetAdd fuel e).map fun r => ((r.1, none), r.2)
  | .del k => (h.hsetDel fuel k).map fun r => ((r.1, none), r.2)
  | .get k => (h.hsetGet fuel k).map fun r => (r, h)

/-- The links of an empty bucket after `hset_create`. -/
theorem initBuckets_isRing (l : Links HsetAddr) {n : ℕ} {i : UInt32} (hi : i.toNat < n) :
    (initBuckets l n).IsRing (.ent i) [] := by
  induction n with
  | zero => omega
  | succ n ih =>
    by_cases h : UInt32.ofNat n = i
    · exact h ▸ initListHead_isRing _ _
    · have hin : i.toNat ≠ n := fun e => h (by simp [← e])
      have hne : HsetAddr.ent (UInt32.ofNat n) ∉ [HsetAddr.ent i] := by simpa using h
      exact ((ih (by omega)).setNext hne).setPrev hne

end EdpIo
