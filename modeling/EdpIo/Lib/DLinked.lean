/-
# Circular doubly linked lists

Links between addresses of any type `α`: each address has a `next` and a `prev`.
`l.IsRing h xs` says that from `h` the `next` links visit the addresses `xs` in
order and come back to `h`, that the `prev` links run the other way, and that
no address occurs twice.  A ring is a closed `Seg`; the ways of changing one are
all made of `link p q`, which points `p` and `q` at each other:

* `IsRing.insert_tail` puts a new address before `h`;
* `IsRing.unlink` takes an address out;
* `IsRing.rotate` takes any address of the ring as its head, which turns the
  results about the place before `h` into results about every place.

`IsRing.congr` is the frame rule: links of other addresses do not matter.
-/

import Mathlib.Logic.Function.Basic
import Mathlib.Data.List.Nodup

/-- The two link fields of every address. -/
structure Links (α : Type*) where
  next : α → α
  prev : α → α

namespace Links

variable {α : Type*}

section Write

variable [DecidableEq α]

/-- Write the `next` field of `a`. -/
def setNext (l : Links α) (a b : α) : Links α := { l with next := Function.update l.next a b }

/-- Write the `prev` field of `a`. -/
def setPrev (l : Links α) (a b : α) : Links α := { l with prev := Function.update l.prev a b }

/-- Make `p` and `q` neighbours: `p.next = q` and `q.prev = p`. -/
def link (l : Links α) (p q : α) : Links α := (l.setNext p q).setPrev q p

@[simp] theorem setNext_prev (l : Links α) (a b : α) : (l.setNext a b).prev = l.prev := rfl

@[simp] theorem setPrev_next (l : Links α) (a b : α) : (l.setPrev a b).next = l.next := rfl

@[simp] theorem setNext_next (l : Links α) (a b : α) :
    (l.setNext a b).next = Function.update l.next a b := rfl

@[simp] theorem setPrev_prev (l : Links α) (a b : α) :
    (l.setPrev a b).prev = Function.update l.prev a b := rfl

@[simp] theorem link_next (l : Links α) (p q : α) :
    (l.link p q).next = Function.update l.next p q := rfl

@[simp] theorem link_prev (l : Links α) (p q : α) :
    (l.link p q).prev = Function.update l.prev q p := rfl

end Write

/-- The links lead from `a` through `xs` to `b`, and back. -/
def Seg (l : Links α) (a : α) : List α → α → Prop
  | [], b => l.next a = b ∧ l.prev b = a
  | x :: xs, b => (l.next a = x ∧ l.prev x = a) ∧ Seg l x xs b

/-- The ring of head `h` that holds `xs`. -/
def IsRing (l : Links α) (h : α) (xs : List α) : Prop := (h :: xs).Nodup ∧ l.Seg h xs h

theorem seg_append {l : Links α} {a b y : α} {xs ys : List α} :
    l.Seg a (xs ++ y :: ys) b ↔ l.Seg a xs y ∧ l.Seg y ys b := by
  induction xs generalizing a with
  | nil => exact Iff.rfl
  | cons x xs ih => simp only [List.cons_append, Seg, ih, and_assoc]

/-- A segment depends on the `next` links of all but its last address and on
the `prev` links of all but its first. -/
theorem Seg.congr {l l' : Links α} {a b : α} {xs : List α} (h : l.Seg a xs b)
    (hn : ∀ z ∈ a :: xs, l'.next z = l.next z) (hp : ∀ z ∈ xs ++ [b], l'.prev z = l.prev z) :
    l'.Seg a xs b := by
  induction xs generalizing a with
  | nil =>
    obtain ⟨h₁, h₂⟩ := h
    exact ⟨(hn a (by simp)).trans h₁, (hp b (by simp)).trans h₂⟩
  | cons x xs ih =>
    obtain ⟨⟨h₁, h₂⟩, h⟩ := h
    refine ⟨⟨(hn a (by simp)).trans h₁, (hp x (by simp)).trans h₂⟩, ih h ?_ ?_⟩
    · exact fun z hz => hn z (List.mem_cons_of_mem _ hz)
    · exact fun z hz => hp z (List.mem_cons_of_mem _ hz)

theorem Seg.prev_mem {l : Links α} {a b : α} {xs : List α} (h : l.Seg a xs b) :
    l.prev b ∈ a :: xs := by
  induction xs generalizing a with
  | nil => simp [h.2]
  | cons x xs ih => exact List.mem_cons_of_mem _ (ih h.2)

/-- What lies between two addresses is read off the `next` links. -/
theorem Seg.unique {l : Links α} {a b : α} {xs ys : List α} (h : l.Seg a xs b)
    (h' : l.Seg a ys b) (hx : b ∉ xs) (hy : b ∉ ys) : xs = ys := by
  induction xs generalizing a ys with
  | nil =>
    cases ys with
    | nil => rfl
    | cons y ys =>
      have hyb : y = b := h'.1.1.symm.trans h.1
      exact absurd List.mem_cons_self (hyb ▸ hy)
  | cons x xs ih =>
    cases ys with
    | nil =>
      have hxb : x = b := h.1.1.symm.trans h'.1
      exact absurd List.mem_cons_self (hxb ▸ hx)
    | cons y ys =>
      obtain rfl : x = y := h.1.1.symm.trans h'.1.1
      exact congrArg (x :: ·) (ih h.2 h'.2 (fun hm => hx (List.mem_cons_of_mem _ hm))
        fun hm => hy (List.mem_cons_of_mem _ hm))

section IsRing

variable {l : Links α} {h a : α} {xs ys : List α}

/-- A head has one ring. -/
theorem IsRing.unique (H : l.IsRing h xs) (H' : l.IsRing h ys) : xs = ys :=
  H.2.unique H'.2 (List.nodup_cons.1 H.1).1 (List.nodup_cons.1 H'.1).1

/-- **The frame rule**: only the links of its own addresses make a ring. -/
theorem IsRing.congr {l' : Links α} (H : l.IsRing h xs)
    (hn : ∀ z ∈ h :: xs, l'.next z = l.next z) (hp : ∀ z ∈ h :: xs, l'.prev z = l.prev z) :
    l'.IsRing h xs :=
  ⟨H.1, H.2.congr hn fun z hz => hp z (by simpa [or_comm] using hz)⟩

theorem isRing_nil : l.IsRing h [] ↔ l.next h = h ∧ l.prev h = h := by
  simp [IsRing, Seg]

theorem isRing_singleton : l.IsRing h [a] ↔
    h ≠ a ∧ (l.next h = a ∧ l.prev a = h) ∧ l.next a = h ∧ l.prev h = a := by
  simp [IsRing, Seg]

theorem IsRing.prev_mem (H : l.IsRing h xs) : l.prev h ∈ h :: xs := H.2.prev_mem

/-- Any address of a ring can be taken as its head. -/
theorem IsRing.rotate (H : l.IsRing h (xs ++ a :: ys)) : l.IsRing a (ys ++ h :: xs) := by
  obtain ⟨hn, hs⟩ := H
  obtain ⟨h₁, h₂⟩ := seg_append.1 hs
  refine ⟨?_, seg_append.2 ⟨h₂, h₁⟩⟩
  have hp : (h :: (xs ++ a :: ys)).Perm (a :: (ys ++ h :: xs)) :=
    @List.perm_append_comm _ (h :: xs) (a :: ys)
  exact hp.nodup_iff.1 hn

end IsRing

section Update

variable [DecidableEq α] {l : Links α} {h a n : α} {xs ys : List α}

/-- Pointing the last address of a segment elsewhere moves the segment's end. -/
theorem Seg.relink {l : Links α} {a b q : α} {xs : List α} (h : l.Seg a xs b)
    (hn : (a :: xs).Nodup) (hq : q ∉ xs) : (l.link (l.prev b) q).Seg a xs q := by
  induction xs generalizing a with
  | nil =>
    obtain ⟨_, h₂⟩ := h
    simp [Seg, h₂]
  | cons x xs ih =>
    obtain ⟨⟨h₁, h₂⟩, h⟩ := h
    obtain ⟨ha, hx⟩ := List.nodup_cons.1 hn
    have hap : a ≠ l.prev b := fun e => ha (e ▸ h.prev_mem)
    have hxq : x ≠ q := fun e => hq (by simp [e])
    refine ⟨⟨?_, ?_⟩, ih h hx fun hm => hq (List.mem_cons_of_mem _ hm)⟩
    · simpa [hap] using h₁
    · simpa [hxq] using h₂

theorem IsRing.setNext (H : l.IsRing h xs) {b : α} (ha : a ∉ h :: xs) :
    (l.setNext a b).IsRing h xs :=
  H.congr (fun z hz => by simp [show z ≠ a from fun e => ha (e ▸ hz)]) fun _ _ => rfl

theorem IsRing.setPrev (H : l.IsRing h xs) {b : α} (ha : a ∉ h :: xs) :
    (l.setPrev a b).IsRing h xs :=
  H.congr (fun _ _ => rfl) fun z hz => by simp [show z ≠ a from fun e => ha (e ▸ hz)]

/-- A new address between the last one and the head. -/
theorem IsRing.insert_tail (H : l.IsRing h xs) (hn : n ∉ h :: xs) :
    ((l.link (l.prev h) n).link n h).IsRing h (xs ++ [n]) := by
  obtain ⟨hnh, hnx⟩ : n ≠ h ∧ n ∉ xs := by simpa using hn
  obtain ⟨hhx, hxs⟩ := List.nodup_cons.1 H.1
  have hnd : (h :: (xs ++ [n])).Nodup := by
    have hp : (n :: h :: xs).Perm (h :: (xs ++ [n])) :=
      @List.perm_append_comm _ [n] (h :: xs)
    exact hp.nodup_iff.1 (List.nodup_cons.2 ⟨hn, H.1⟩)
  refine ⟨hnd, seg_append.2 ⟨?_, ?_⟩⟩
  · refine (H.2.relink H.1 hnx).congr (fun z hz => ?_) fun z hz => ?_
    · have : z ≠ n := fun e => hn (e ▸ hz)
      simp [this]
    · have : z ≠ h := by
        rintro rfl
        rcases List.mem_append.1 hz with hz | hz
        · exact hhx hz
        · exact hnh (List.mem_singleton.1 hz).symm
      simp [this]
  · simp [Seg]

/-- Joining the neighbours of an address takes it out of the ring. -/
theorem IsRing.unlink (H : l.IsRing h (xs ++ a :: ys)) :
    (l.link (l.prev a) (l.next a)).IsRing h (xs ++ ys) := by
  obtain ⟨hn, hs⟩ := H
  obtain ⟨h₁, h₂⟩ := seg_append.1 hs
  have hnd : (h :: (xs ++ ys)).Nodup :=
    hn.sublist (((List.sublist_cons_self a ys).append_left xs).cons_cons h)
  have hpm : l.prev a ∈ h :: xs := h₁.prev_mem
  have hndx : (h :: xs).Nodup := hnd.sublist ((List.sublist_append_left xs ys).cons_cons h)
  refine ⟨hnd, ?_⟩
  cases ys with
  | nil =>
    rw [h₂.1, List.append_nil]
    exact h₁.relink hndx (List.nodup_cons.1 hndx).1
  | cons y ys =>
    obtain ⟨⟨hy, _⟩, h₂⟩ := h₂
    rw [hy]
    have hdis : ∀ z ∈ h :: xs, z ∉ y :: ys := fun z hz =>
      @List.disjoint_of_nodup_append _ (h :: xs) (y :: ys) hnd z hz
    have hyy : y ∉ ys := (List.nodup_cons.1 (hnd.sublist
      ((List.sublist_append_right xs (y :: ys)).trans (List.sublist_cons_self _ _)))).1
    refine seg_append.2 ⟨h₁.relink hndx fun hm => ?_, h₂.congr (fun z hz => ?_) fun z hz => ?_⟩
    · exact hdis y (List.mem_cons_of_mem _ hm) List.mem_cons_self
    · have : z ≠ l.prev a := fun e => hdis _ hpm (e ▸ hz)
      simp [this]
    · have : z ≠ y := by
        rintro rfl
        rcases List.mem_append.1 hz with hz | hz
        · exact hyy hz
        · exact hdis h List.mem_cons_self (by simp_all)
      simp [this]

end Update

end Links
