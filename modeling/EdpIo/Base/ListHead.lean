/-
# The list heads of `include/list.h`

The functions of `include/list.h` that the library calls, on the links of any
address type, statement by statement.  An address type has the two values that
`list_del` leaves in a deleted entry (`LIST_POISON1`, `LIST_POISON2`).

On a ring each does what its comment in the header says
(`listAddTail_isRing`, `listDel_isRing`), provided its arguments come in the order
the header declares them: `list_add_tail(new, head)`.  Called with the two
swapped on a fresh entry it makes the old head a ring of that one entry, and
what the ring held before is no longer reachable
(`listAddTail_swapped_isRing`).
-/

import EdpIo.Lib.DLinked

namespace EdpIo

/-- `LIST_POISON1` and `LIST_POISON2`: addresses that no list entry has. -/
class ListPoison (α : Type*) where
  poison1 : α
  poison2 : α

variable {α : Type*} [DecidableEq α]

/-- `INIT_LIST_HEAD`. -/
def initListHead (l : Links α) (list : α) : Links α := (l.setNext list list).setPrev list list

/-- `__list_add`: insert `new` between two known consecutive entries. -/
def _listAdd (l : Links α) (new prev next : α) : Links α :=
  (((l.setPrev next new).setNext new next).setPrev new prev).setNext prev new

/-- `list_add(new, head)`: insert `new` after `head`. -/
def listAdd (l : Links α) (new head : α) : Links α := _listAdd l new head (l.next head)

/-- `list_add_tail(new, head)`: insert `new` before `head`. -/
def listAddTail (l : Links α) (new head : α) : Links α := _listAdd l new (l.prev head) head

/-- `__list_del`: make `prev` and `next` point to each other. -/
def _listDel (l : Links α) (prev next : α) : Links α := (l.setPrev next prev).setNext prev next

/-- `list_del`. -/
def listDel [ListPoison α] (l : Links α) (entry : α) : Links α :=
  ((_listDel l (l.prev entry) (l.next entry)).setNext entry ListPoison.poison1).setPrev entry
    ListPoison.poison2

/-- `list_empty`. -/
def listEmpty (l : Links α) (head : α) : Bool := l.next head = head

variable {l : Links α} {h n a : α} {xs ys : List α}

theorem initListHead_isRing (l : Links α) (h : α) : (initListHead l h).IsRing h [] := by
  simp [initListHead, Links.isRing_nil]

/-- The four stores of `__list_add` are two links when `new` is neither of the
neighbours. -/
theorem _listAdd_eq_link {p q : α} (hp : n ≠ p) (hq : n ≠ q) :
    _listAdd l n p q = (l.link p n).link n q := by
  simp only [_listAdd, Links.link, Links.setNext, Links.setPrev, Links.mk.injEq]
  exact ⟨Function.update_comm hp _ _ _, Function.update_comm hq.symm _ _ _⟩

/-- `list_add_tail` appends a new entry. -/
theorem listAddTail_isRing (H : l.IsRing h xs) (hn : n ∉ h :: xs) :
    (listAddTail l n h).IsRing h (xs ++ [n]) := by
  have hp : n ≠ l.prev h := fun e => hn (e ▸ H.prev_mem)
  have hh : n ≠ h := fun e => hn (by simp [e])
  rw [listAddTail, _listAdd_eq_link hp hh]
  exact H.insert_tail hn

/-- **The arguments swapped.**  `list_add_tail(h, n)` on a fresh entry `n` leaves
`h` the head of a ring that holds `n` alone, whatever it held before. -/
theorem listAddTail_swapped_isRing (hn : l.IsRing n []) (hne : h ≠ n) :
    (listAddTail l h n).IsRing h [n] := by
  have H : (listAddTail l h n).IsRing n ([] ++ h :: []) :=
    listAddTail_isRing hn (by simpa using hne)
  exact H.rotate

/-- On a head that is alone, before it and after it are the same place. -/
theorem listAdd_eq_listAddTail (hn : l.IsRing n []) : listAdd l h n = listAddTail l h n := by
  obtain ⟨h₁, h₂⟩ := Links.isRing_nil.1 hn
  rw [listAdd, listAddTail, h₁, h₂]

/-- `list_empty` is true exactly of the head of an empty ring. -/
theorem listEmpty_iff (H : l.IsRing h xs) : listEmpty l h = true ↔ xs = [] := by
  rw [listEmpty, decide_eq_true_eq]
  cases xs with
  | nil => simp [(Links.isRing_nil.1 H).1]
  | cons x xs =>
    have hne : x ≠ h := fun e => (List.nodup_cons.1 H.1).1 (e ▸ List.mem_cons_self)
    simp [H.2.1.1, hne]

/-- `list_del` takes an entry out of its ring. -/
theorem listDel_isRing [ListPoison α] (H : l.IsRing h (xs ++ a :: ys)) :
    (listDel l a).IsRing h (xs ++ ys) := by
  have ha : a ∉ h :: (xs ++ ys) := by
    have hp : (h :: (xs ++ a :: ys)).Perm (a :: (h :: (xs ++ ys))) :=
      @List.perm_middle _ a (h :: xs) ys
    exact (List.nodup_cons.1 (hp.nodup_iff.1 H.1)).1
  have hl : _listDel l (l.prev a) (l.next a) = l.link (l.prev a) (l.next a) := rfl
  rw [listDel, hl]
  exact (H.unlink.setNext ha).setPrev ha

/-- Rings that hold neither the entry nor its neighbours are kept by `list_del`. -/
theorem listDel_frame [ListPoison α] (H : l.IsRing h xs) (ha : a ∉ h :: xs)
    (hp : l.prev a ∉ h :: xs) (hn : l.next a ∉ h :: xs) : (listDel l a).IsRing h xs :=
  (((H.setPrev hn).setNext hp).setNext ha).setPrev ha

/-- Rings that hold neither `h` nor `n` are kept when `list_add_tail` is called with
the arguments swapped on a fresh entry. -/
theorem listAddTail_swapped_frame {k : α} (H : l.IsRing k xs) (hn : l.IsRing n [])
    (hh : h ∉ k :: xs) (hnk : n ∉ k :: xs) : (listAddTail l h n).IsRing k xs := by
  rw [listAddTail, (Links.isRing_nil.1 hn).2, _listAdd]
  exact (((H.setPrev hnk).setNext hh).setPrev hh).setNext hnk

end EdpIo
