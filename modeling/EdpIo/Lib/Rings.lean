/-
# Joining, cutting and keeping apart circular lists

`EdpIo.Lib.DLinked` changes one ring.  Here two rings become one (`IsRing.splice`), one becomes
two (`IsRing.cut`) and an address takes another's place (`IsRing.replace`), again by `link`
alone.

`l.Rings head xs` says that the rings of a family of heads hold the lists `xs` and have no
address in common.  A change of some addresses (`AgreeOff`) is one of the family if it leaves
the other rings alone: `Rings.update` for a change of one ring and `Rings.update₂` for one of
two.  What the links of a family say about its lists is at the end: a ring is empty, has one
address, or ends in an address exactly when two links are equal.
-/

import EdpIo.Lib.DLinked
import Mathlib.Data.List.Perm.Basic

namespace Links

variable {α : Type*}

/-- The links of the addresses outside `s` are the same. -/
def AgreeOff (l l' : Links α) (s : List α) : Prop :=
  ∀ z, z ∉ s → l'.next z = l.next z ∧ l'.prev z = l.prev z

section AgreeOff

variable {l l' l'' : Links α} {s s' : List α}

theorem AgreeOff.refl (l : Links α) (s : List α) : l.AgreeOff l s := fun _ _ => ⟨rfl, rfl⟩

theorem AgreeOff.trans (h : l.AgreeOff l' s) (h' : l'.AgreeOff l'' s) : l.AgreeOff l'' s :=
  fun z hz => ⟨(h' z hz).1.trans (h z hz).1, (h' z hz).2.trans (h z hz).2⟩

/-- A ring without the addresses of `s` is kept. -/
theorem AgreeOff.isRing {h : α} {xs : List α} (hl : l.AgreeOff l' s) (H : l.IsRing h xs)
    (hs : ∀ z ∈ h :: xs, z ∉ s) : l'.IsRing h xs :=
  H.congr (fun z hz => (hl z (hs z hz)).1) fun z hz => (hl z (hs z hz)).2

variable [DecidableEq α]

theorem agreeOff_link {p q : α} (hp : p ∈ s) (hq : q ∈ s) : l.AgreeOff (l.link p q) s := by
  intro z hz
  have hzp : z ≠ p := fun e => hz (e ▸ hp)
  have hzq : z ≠ q := fun e => hz (e ▸ hq)
  simp [hzp, hzq]

theorem agreeOff_setNext {a b : α} (ha : a ∈ s) : l.AgreeOff (l.setNext a b) s := by
  intro z hz
  have hza : z ≠ a := fun e => hz (e ▸ ha)
  simp [hza]

theorem agreeOff_setPrev {a b : α} (ha : a ∈ s) : l.AgreeOff (l.setPrev a b) s := by
  intro z hz
  have hza : z ≠ a := fun e => hz (e ▸ ha)
  simp [hza]

end AgreeOff

/-- Both links of `a` are written. -/
def put [DecidableEq α] (l : Links α) (a n p : α) : Links α := (l.setNext a n).setPrev a p

section Put

variable [DecidableEq α] {l : Links α} {a n p z v : α}

theorem put_next_of_ne (h : z ≠ a) : (l.put a n p).next z = l.next z := by simp [put, h]

theorem put_prev_of_ne (h : z ≠ a) : (l.put a n p).prev z = l.prev z := by simp [put, h]

theorem agreeOff_put (l : Links α) (a n p : α) : l.AgreeOff (l.put a n p) [a] :=
  (agreeOff_setNext (by simp)).trans (agreeOff_setPrev (by simp))

/-- Writes of different addresses. -/
theorem put_setNext (h : z ≠ a) : (l.put a n p).setNext z v = (l.setNext z v).put a n p := by
  simp only [put, setNext, setPrev]
  rw [Function.update_comm h]

theorem put_setPrev (h : z ≠ a) : (l.put a n p).setPrev z v = (l.setPrev z v).put a n p := by
  simp only [put, setNext, setPrev]
  rw [Function.update_comm h]

end Put

/-- The end of a segment follows its last address. -/
theorem Seg.next_prev {l : Links α} {a b : α} {xs : List α} (h : l.Seg a xs b) :
    l.next (l.prev b) = b := by
  induction xs generalizing a with
  | nil => rw [h.2, h.1]
  | cons x xs ih => exact ih h.2

theorem Seg.next_mem {l : Links α} {a b : α} {xs : List α} (h : l.Seg a xs b) :
    l.next a ∈ xs ++ [b] := by
  cases xs with
  | nil => simp [h.1]
  | cons x xs => simp [h.1.1]

/-- The neighbours of an address of a ring are in the ring. -/
theorem IsRing.next_mem_of_mem {l : Links α} {h a : α} {xs : List α} (H : l.IsRing h xs)
    (ha : a ∈ h :: xs) : l.next a ∈ h :: xs := by
  rcases List.mem_cons.1 ha with rfl | ha
  · simpa [or_comm] using H.2.next_mem
  · obtain ⟨as, bs, rfl⟩ := List.append_of_mem ha
    have hmem := H.rotate.2.next_mem
    simp only [List.mem_append, List.mem_cons, List.not_mem_nil, or_false] at hmem ⊢
    tauto

theorem IsRing.next_mem {l : Links α} {h : α} {xs : List α} (H : l.IsRing h xs) :
    l.next h ∈ h :: xs := H.next_mem_of_mem List.mem_cons_self

theorem IsRing.prev_mem_of_mem {l : Links α} {h a : α} {xs : List α} (H : l.IsRing h xs)
    (ha : a ∈ h :: xs) : l.prev a ∈ h :: xs := by
  rcases List.mem_cons.1 ha with rfl | ha
  · exact H.prev_mem
  · obtain ⟨as, bs, rfl⟩ := List.append_of_mem ha
    have hmem := H.rotate.prev_mem
    simp only [List.mem_append, List.mem_cons] at hmem ⊢
    tauto

section Change

variable [DecidableEq α] {l : Links α} {h g a n : α} {xs ys : List α}

/-- Starting at another address moves the start of a segment. -/
theorem Seg.relink_head {a b p : α} (h : l.Seg a xs b) (hn : (xs ++ [b]).Nodup) (hp : p ∉ xs) :
    (l.link p (l.next a)).Seg p xs b := by
  cases xs with
  | nil =>
    obtain ⟨h₁, _⟩ := h
    simp [Seg, h₁]
  | cons x xs =>
    obtain ⟨⟨h₁, _⟩, h⟩ := h
    have hx : x ∉ xs ++ [b] := (List.nodup_cons.1 hn).1
    rw [h₁]
    refine ⟨by simp, h.congr (fun z hz => ?_) fun z hz => ?_⟩
    · have : z ≠ p := fun e => hp (e ▸ hz)
      simp [this]
    · have : z ≠ x := fun e => hx (e ▸ hz)
      simp [this]

omit [DecidableEq α] in
theorem IsRing.rotate_cons (H : l.IsRing h (n :: xs)) : l.IsRing n (xs ++ [h]) := by
  have H : l.IsRing h ([] ++ n :: xs) := H
  exact H.rotate

/-- A new address between the head and the first one. -/
theorem IsRing.insert_head (H : l.IsRing h xs) (hn : n ∉ h :: xs) :
    ((l.link h n).link n (l.next h)).IsRing h (n :: xs) := by
  cases xs with
  | nil =>
    -- on an empty ring the two places are one
    have hnext := (isRing_nil.1 H).1
    have hprev := (isRing_nil.1 H).2
    have hins := H.insert_tail hn
    rw [hprev] at hins
    rw [hnext]
    exact hins
  | cons x xs =>
    have hx : l.next h = x := H.2.1.1
    have hh : l.prev x = h := H.2.1.2
    have hrot : l.IsRing x (xs ++ [h]) := H.rotate_cons
    have hnx : n ∉ x :: (xs ++ [h]) := fun hm => hn (by simpa [or_left_comm, or_comm] using hm)
    have hins := hrot.insert_tail hnx
    rw [hh] at hins
    rw [hx]
    rw [List.append_assoc] at hins
    exact hins.rotate

/-- **Two rings become one**: what the ring of `g` holds is put between the last address of
the ring of `h` and `h`.  The links of `g` itself are left as they are. -/
theorem IsRing.splice (H : l.IsRing h xs) (G : l.IsRing g ys) (hne : ys ≠ [])
    (hd : List.Disjoint (h :: xs) (g :: ys)) :
    ((l.link (l.prev h) (l.next g)).link (l.prev g) h).IsRing h (xs ++ ys) := by
  obtain ⟨y, ys, rfl⟩ := List.exists_cons_of_ne_nil hne
  have hy : l.next g = y := G.2.1.1
  obtain ⟨hgy, hys⟩ := List.nodup_cons.1 G.1
  obtain ⟨hyy, -⟩ := List.nodup_cons.1 hys
  have hgne : g ≠ y := fun e => hgy (e ▸ List.mem_cons_self)
  have hlast : l.prev g ∈ y :: ys := G.2.2.prev_mem
  have hp : l.prev h ∈ h :: xs := H.prev_mem
  have hdis : ∀ z ∈ h :: xs, z ∉ y :: ys := fun z hz hz' => hd hz (List.mem_cons_of_mem _ hz')
  have hhys : h ∉ y :: ys := hdis h List.mem_cons_self
  have hnd : (h :: (xs ++ y :: ys)).Nodup := by
    rw [← List.cons_append, List.nodup_append']
    exact ⟨H.1, hys, hdis⟩
  rw [hy]
  refine ⟨hnd, seg_append.2 ⟨?_, ?_⟩⟩
  · -- up to the first address of the second ring
    have hyx : y ∉ xs := fun hm => hdis y (List.mem_cons_of_mem _ hm) List.mem_cons_self
    refine (H.2.relink H.1 hyx).congr (fun z hz => ?_) fun z hz => ?_
    · have : z ≠ l.prev g := fun e => hdis z hz (e ▸ hlast)
      simp [this]
    · have : z ≠ h := by
        rintro rfl
        rcases List.mem_append.1 hz with hz | hz
        · exact (List.nodup_cons.1 H.1).1 hz
        · exact hhys (List.mem_singleton.1 hz ▸ List.mem_cons_self)
      simp [this]
  · -- and from there to the head of the first
    have hseg : (l.link (l.prev h) y).Seg y ys g := by
      refine G.2.2.congr (fun z hz => ?_) fun z hz => ?_
      · have : z ≠ l.prev h := fun e => hdis _ hp (e ▸ hz)
        simp [this]
      · have : z ≠ y := by
          rintro rfl
          rcases List.mem_append.1 hz with hz | hz
          · exact hyy hz
          · exact hgne (List.mem_singleton.1 hz).symm
        simp [this]
    have hprev : (l.link (l.prev h) y).prev g = l.prev g := by simp [hgne]
    rw [← hprev]
    exact hseg.relink hys fun hm => hhys (List.mem_cons_of_mem _ hm)

/-- What the ring of `g` holds is put between `h` and its first address. -/
theorem IsRing.splice_head (H : l.IsRing h xs) (G : l.IsRing g ys) (hne : ys ≠ [])
    (hd : List.Disjoint (h :: xs) (g :: ys)) :
    ((l.link h (l.next g)).link (l.prev g) (l.next h)).IsRing h (ys ++ xs) := by
  cases xs with
  | nil =>
    have hsplice := H.splice G hne hd
    rw [(isRing_nil.1 H).2] at hsplice
    rw [(isRing_nil.1 H).1, List.append_nil]
    exact hsplice
  | cons x xs =>
    have hrot : l.IsRing x (xs ++ [h]) := H.rotate_cons
    have hd' : List.Disjoint (x :: (xs ++ [h])) (g :: ys) := by
      intro z hz
      exact hd (by simpa [or_comm, or_assoc, or_left_comm] using hz)
    have hsplice := hrot.splice G hne hd'
    rw [H.2.1.2, List.append_assoc] at hsplice
    rw [H.2.1.1]
    exact hsplice.rotate

/-- **A ring becomes two**: the addresses up to `a` go to the ring of `g`, the others stay. -/
theorem IsRing.cut (H : l.IsRing h (xs ++ a :: ys)) (hg : g ∉ h :: (xs ++ a :: ys)) :
    (((l.link g (l.next h)).link a g).link h (l.next a)).IsRing g (xs ++ [a]) ∧
      (((l.link g (l.next h)).link a g).link h (l.next a)).IsRing h ys := by
  obtain ⟨hn, hs⟩ := H
  obtain ⟨h₁, h₂⟩ := seg_append.1 hs
  have hfirst : l.next h ∈ xs ++ [a] := h₁.next_mem
  have hsecond : l.next a ∈ ys ++ [h] := h₂.next_mem
  have hsplit : xs ++ a :: ys = (xs ++ [a]) ++ ys := by simp
  rw [hsplit] at hn hg
  obtain ⟨hh, hn⟩ := List.nodup_cons.1 hn
  obtain ⟨hxa, hys, hdis⟩ := List.nodup_append'.1 hn
  obtain ⟨hgh, hg⟩ := not_or.1 (mt List.mem_cons.2 hg)
  rw [List.mem_append, not_or] at hg hh
  have haway : ∀ z ∈ ys ++ [h], z ∉ xs ++ [a] := by
    intro z hz hm
    rcases List.mem_append.1 hz with hz | hz
    · exact hdis hm hz
    · exact hh.1 (List.mem_singleton.1 hz ▸ hm)
  have hga : g ≠ a := fun e => hg.1 (by simp [e])
  have hha : h ≠ a := fun e => hh.1 (by simp [e])
  have hgsecond : g ≠ l.next a := by
    rintro rfl
    rcases List.mem_append.1 hsecond with hm | hm
    · exact hg.2 hm
    · exact hgh (List.mem_singleton.1 hm)
  refine ⟨⟨List.nodup_cons.2 ⟨hg.1, hxa⟩, seg_append.2 ⟨?_, ?_⟩⟩,
    ⟨List.nodup_cons.2 ⟨hh.2, hys⟩, ?_⟩⟩
  · have hseg : (l.link g (l.next h)).Seg g xs a :=
      h₁.relink_head hxa fun hm => hg.1 (List.mem_append_left _ hm)
    have hax : a ∉ xs := fun hm =>
      (List.nodup_append'.1 hxa).2.2 hm (List.mem_singleton_self a)
    refine hseg.congr (fun z hz => ?_) fun z hz => ?_
    · have hza : z ≠ a := by
        rintro rfl
        rcases List.mem_cons.1 hz with e | hz
        · exact hga e.symm
        · exact hax hz
      have hzh : z ≠ h := by
        rintro rfl
        rcases List.mem_cons.1 hz with e | hz
        · exact hgh e.symm
        · exact hh.1 (List.mem_append_left _ hz)
      simp [hza, hzh]
    · have hzg : z ≠ g := fun e => hg.1 (e ▸ hz)
      have hzs : z ≠ l.next a := fun e => haway _ hsecond (e ▸ hz)
      simp [hzg, hzs]
  · simp [Seg, hha.symm, hgsecond]
  · have hseg : (l.link h (l.next a)).Seg h ys h := by
      refine h₂.relink_head ?_ hh.2
      rw [List.nodup_append']
      exact ⟨hys, List.nodup_singleton h, by simpa using hh.2⟩
    refine hseg.congr (fun z hz => ?_) fun z hz => ?_
    · by_cases hzh : z = h
      · simp [hzh]
      · have hz : z ∈ ys := (List.mem_cons.1 hz).resolve_left hzh
        have hza : z ≠ a := fun e => hdis (by simp [e]) hz
        have hzg : z ≠ g := fun e => hg.2 (e ▸ hz)
        simp [hzh, hza, hzg]
    · by_cases hzs : z = l.next a
      · simp [hzs]
      · have hzf : z ≠ l.next h := fun e => haway z hz (e ▸ hfirst)
        have hzg : z ≠ g := by
          rintro rfl
          rcases List.mem_append.1 hz with hz | hz
          · exact hg.2 hz
          · exact hgh (List.mem_singleton.1 hz)
        simp [hzs, hzf, hzg]

/-- **An address takes the place of another**, whatever the ring holds. -/
theorem IsRing.replace (H : l.IsRing a xs) (hn : n ∉ a :: xs) :
    ((l.link n (l.next a)).link ((l.link n (l.next a)).prev a) n).IsRing n xs := by
  obtain ⟨hna, hnx⟩ := not_or.1 (mt List.mem_cons.2 hn)
  obtain ⟨hax, hxs⟩ := List.nodup_cons.1 H.1
  have hnd : (n :: xs).Nodup := List.nodup_cons.2 ⟨hnx, hxs⟩
  have hseg : (l.link n (l.next a)).Seg n xs a := by
    refine H.2.relink_head ?_ hnx
    rw [List.nodup_append']
    exact ⟨hxs, List.nodup_singleton a, by simpa using hax⟩
  exact ⟨hnd, hseg.relink hnd hnx⟩

end Change

section Rings

variable {ι : Type*}

/-- The rings of the heads hold the lists and have no address in common. -/
structure Rings (l : Links α) (head : ι → α) (xs : ι → List α) : Prop where
  ring : ∀ i, l.IsRing (head i) (xs i)
  apart : ∀ i j, i ≠ j → List.Disjoint (head i :: xs i) (head j :: xs j)

/-- The address is in none of the rings. -/
def Fresh (head : ι → α) (xs : ι → List α) (n : α) : Prop := ∀ i, n ∉ head i :: xs i

variable {l l' : Links α} {head : ι → α} {xs : ι → List α} {s : List α}

/-- An address is in one ring at most. -/
theorem Rings.index_unique (H : l.Rings head xs) {i j : ι} {z : α} (hi : z ∈ head i :: xs i)
    (hj : z ∈ head j :: xs j) : i = j :=
  Classical.byContradiction fun hne => H.apart i j hne hi hj

/-- **A change of some rings**: those in `T` hold the lists `ys` afterwards, and neither the
addresses that change nor those of `ys` are in another ring. -/
theorem Rings.change (H : l.Rings head xs) {ys : ι → List α} (T : Set ι)
    (hoff : l.AgreeOff l' s) (hs : ∀ z ∈ s, ∀ k ∉ T, z ∉ head k :: xs k)
    (hsame : ∀ k ∉ T, ys k = xs k) (hring : ∀ i ∈ T, l'.IsRing (head i) (ys i))
    (hys : ∀ i ∈ T, ∀ z ∈ ys i, ∀ k ∉ T, z ∉ head k :: xs k)
    (hd : ∀ i ∈ T, ∀ j ∈ T, i ≠ j → List.Disjoint (head i :: ys i) (head j :: ys j)) :
    l'.Rings head ys := by
  have hcross : ∀ i ∈ T, ∀ k ∉ T, List.Disjoint (head i :: ys i) (head k :: xs k) := by
    intro i hi k hk z hz hm
    rcases List.mem_cons.1 hz with rfl | hz
    · exact H.apart i k (fun e => hk (e ▸ hi)) List.mem_cons_self hm
    · exact hys i hi z hz k hk hm
  constructor
  · intro k
    by_cases hk : k ∈ T
    · exact hring k hk
    · rw [hsame k hk]
      exact hoff.isRing (H.ring k) fun z hz hm => hs z hm k hk hz
  · intro i k hik
    by_cases hi : i ∈ T
    · by_cases hk : k ∈ T
      · exact hd i hi k hk hik
      · rw [hsame k hk]
        exact hcross i hi k hk
    · rw [hsame i hi]
      by_cases hk : k ∈ T
      · exact List.disjoint_symm (hcross k hk i hi)
      · rw [hsame k hk]
        exact H.apart i k hik

/-- Addresses of no ring may change. -/
theorem Rings.fresh_change (H : l.Rings head xs) (hoff : l.AgreeOff l' s)
    (hs : ∀ z ∈ s, Fresh head xs z) : l'.Rings head xs :=
  H.change ∅ hoff (fun z hz k _ => hs z hz k) (fun _ _ => rfl) (fun _ h => h.elim)
    (fun _ h => h.elim) fun _ h => h.elim

variable [DecidableEq ι]

/-- **A change of one ring**, of its own addresses and of fresh ones. -/
theorem Rings.update (H : l.Rings head xs) {i : ι} {ys : List α} (hoff : l.AgreeOff l' s)
    (hs : ∀ z ∈ s, z ∈ head i :: xs i ∨ Fresh head xs z) (hring : l'.IsRing (head i) ys)
    (hys : ∀ z ∈ ys, z ∈ head i :: xs i ∨ Fresh head xs z) :
    l'.Rings head (Function.update xs i ys) := by
  have haway : ∀ z, (z ∈ head i :: xs i ∨ Fresh head xs z) → ∀ k ≠ i, z ∉ head k :: xs k := by
    rintro z (hz | hz) k hk hm
    · exact hk (H.index_unique hm hz)
    · exact hz k hm
  refine H.change {i} hoff (fun z hz => haway z (hs z hz)) ?_ ?_ ?_ ?_
  · exact fun k hk => Function.update_of_ne hk _ _
  · rintro k rfl
    rwa [Function.update_self]
  · rintro k rfl z hz
    rw [Function.update_self] at hz
    exact haway z (hys z hz)
  · rintro j rfl k rfl hne
    exact absurd rfl hne

/-- What is taken out of a ring is in none. -/
theorem Rings.fresh_erase (H : l.Rings head xs) {i : ι} {a : α} {as bs : List α}
    (h : xs i = as ++ a :: bs) : Fresh head (Function.update xs i (as ++ bs)) a := by
  intro j hm
  by_cases hj : j = i
  · subst hj
    rw [Function.update_self] at hm
    have hnd := (H.ring j).1
    rw [h] at hnd
    have hp : (head j :: (as ++ a :: bs)).Perm (a :: (head j :: (as ++ bs))) :=
      @List.perm_middle _ a (head j :: as) bs
    exact (List.nodup_cons.1 (hp.nodup_iff.1 hnd)).1 hm
  · rw [Function.update_of_ne hj] at hm
    have hi : a ∈ head i :: xs i := by simp [h]
    exact hj (H.index_unique hm hi)

/-- **A change of two rings**, of their addresses and of fresh ones. -/
theorem Rings.update₂ (H : l.Rings head xs) {i j : ι} (hij : i ≠ j) {ys zs : List α}
    (hoff : l.AgreeOff l' s)
    (hs : ∀ z ∈ s, z ∈ head i :: xs i ∨ z ∈ head j :: xs j ∨ Fresh head xs z)
    (hi : l'.IsRing (head i) ys) (hj : l'.IsRing (head j) zs)
    (hsub : ∀ z ∈ ys ++ zs, z ∈ xs i ∨ z ∈ xs j ∨ Fresh head xs z)
    (hd : List.Disjoint ys zs) :
    l'.Rings head (Function.update (Function.update xs i ys) j zs) := by
  have haway : ∀ z, (z ∈ head i :: xs i ∨ z ∈ head j :: xs j ∨ Fresh head xs z) →
      ∀ k ∉ ({i, j} : Set ι), z ∉ head k :: xs k := by
    rintro z (hz | hz | hz) k hk hm
    · exact hk (.inl (H.index_unique hm hz))
    · exact hk (.inr (H.index_unique hm hz))
    · exact hz k hm
  have hyi : Function.update (Function.update xs i ys) j zs i = ys := by
    rw [Function.update_of_ne hij, Function.update_self]
  have hyj : Function.update (Function.update xs i ys) j zs j = zs := Function.update_self ..
  -- a head is no entry
  have hhead : ∀ k ∈ ({i, j} : Set ι), ∀ z ∈ ys ++ zs, z ≠ head k := by
    rintro k hk z hz rfl
    rcases hsub _ hz with hm | hm | hm
    · obtain rfl := H.index_unique (i := k) List.mem_cons_self (List.mem_cons_of_mem _ hm)
      exact (List.nodup_cons.1 (H.ring k).1).1 hm
    · obtain rfl := H.index_unique (i := k) List.mem_cons_self (List.mem_cons_of_mem _ hm)
      exact (List.nodup_cons.1 (H.ring k).1).1 hm
    · exact hm k List.mem_cons_self
  have hdij : List.Disjoint (head i :: ys) (head j :: zs) := by
    intro z hz hm
    rcases List.mem_cons.1 hz with rfl | hz
    · rcases List.mem_cons.1 hm with e | hm
      · exact H.apart i j hij List.mem_cons_self (e ▸ List.mem_cons_self)
      · exact hhead i (.inl rfl) _ (List.mem_append_right _ hm) rfl
    · rcases List.mem_cons.1 hm with rfl | hm
      · exact hhead j (.inr rfl) _ (List.mem_append_left _ hz) rfl
      · exact hd hz hm
  refine H.change {i, j} hoff (fun z hz => haway z (hs z hz)) ?_ ?_ ?_ ?_
  · intro k hk
    obtain ⟨hki, hkj⟩ := not_or.1 hk
    rw [Function.update_of_ne hkj, Function.update_of_ne hki]
  · rintro k (rfl | rfl)
    · rwa [hyi]
    · rwa [hyj]
  · have hsub' : ∀ z ∈ ys ++ zs, z ∈ head i :: xs i ∨ z ∈ head j :: xs j ∨ Fresh head xs z :=
      fun z hz => (hsub z hz).imp (List.mem_cons_of_mem _) (.imp_left (List.mem_cons_of_mem _))
    rintro k (rfl | rfl) z hz
    · rw [hyi] at hz
      exact haway z (hsub' z (List.mem_append_left _ hz))
    · rw [hyj] at hz
      exact haway z (hsub' z (List.mem_append_right _ hz))
  · rintro a (rfl | rfl) b (rfl | rfl) hne
    · exact absurd rfl hne
    · rwa [hyi, hyj]
    · rw [hyi, hyj]
      exact List.disjoint_symm hdij
    · exact absurd rfl hne

end Rings

/-! ### Reading a ring -/

section Read

variable {l : Links α} {h a b : α} {xs : List α}

/-- The links taken backwards. -/
def flip (l : Links α) : Links α := ⟨l.prev, l.next⟩

theorem Seg.flip (H : l.Seg a xs b) : l.flip.Seg b xs.reverse a := by
  induction xs generalizing a with
  | nil => exact ⟨H.2, H.1⟩
  | cons x xs ih =>
    rw [List.reverse_cons]
    exact seg_append.2 ⟨ih H.2, H.1.2, H.1.1⟩

/-- Backwards a ring holds its list reversed. -/
theorem IsRing.flip (H : l.IsRing h xs) : l.flip.IsRing h xs.reverse := by
  refine ⟨?_, H.2.flip⟩
  obtain ⟨hh, hx⟩ := List.nodup_cons.1 H.1
  exact List.nodup_cons.2 ⟨by simpa using hh, List.nodup_reverse.2 hx⟩

/-- The addresses met from `p` on by following `next`, before `h` or `n` steps. -/
def walk [DecidableEq α] (next : α → α) (h : α) : ℕ → α → List α
  | 0, _ => []
  | n + 1, p => if p = h then [] else p :: walk next h n (next p)

theorem Seg.walk [DecidableEq α] (H : l.Seg a xs h) (hh : h ∉ xs) {n : ℕ} (hn : xs.length < n) :
    Links.walk l.next h n (l.next a) = xs := by
  induction xs generalizing a n with
  | nil =>
    obtain ⟨n, rfl⟩ := Nat.exists_eq_add_of_lt hn
    simp [Links.walk, H.1]
  | cons x xs ih =>
    obtain ⟨n, rfl⟩ := Nat.exists_eq_succ_of_ne_zero (Nat.ne_zero_of_lt hn)
    have hx : x ≠ h := fun e => hh (by simp [e])
    rw [Links.walk, H.1.1, if_neg hx, ih H.2 (fun hm => hh (List.mem_cons_of_mem _ hm))]
    simpa using hn

/-- **A walk along a ring meets what it holds, in order.** -/
theorem IsRing.walk [DecidableEq α] (H : l.IsRing h xs) {n : ℕ} (hn : xs.length < n) :
    Links.walk l.next h n (l.next h) = xs := H.2.walk (List.nodup_cons.1 H.1).1 hn

theorem Seg.links_eq {l' : Links α} (H : l.Seg a xs b) (H' : l'.Seg a xs b) :
    (∀ z ∈ a :: xs, l'.next z = l.next z) ∧ ∀ z ∈ xs ++ [b], l'.prev z = l.prev z := by
  induction xs generalizing a with
  | nil =>
    simp only [List.mem_singleton, List.nil_append, forall_eq]
    exact ⟨H'.1.trans H.1.symm, H'.2.trans H.2.symm⟩
  | cons x xs ih =>
    obtain ⟨hn, hp⟩ := ih H.2 H'.2
    refine ⟨fun z hz => ?_, fun z hz => ?_⟩
    · rcases List.mem_cons.1 hz with rfl | hz
      · exact H'.1.1.trans H.1.1.symm
      · exact hn z hz
    · rcases List.mem_cons.1 hz with rfl | hz
      · exact H'.1.2.trans H.1.2.symm
      · exact hp z hz

/-- What a ring holds determines its links. -/
theorem IsRing.links_eq {l' : Links α} (H : l.IsRing h xs) (H' : l'.IsRing h xs) {z : α}
    (hz : z ∈ h :: xs) : l'.next z = l.next z ∧ l'.prev z = l.prev z := by
  obtain ⟨hn, hp⟩ := H.2.links_eq H'.2
  exact ⟨hn z hz, hp z (by simpa [or_comm] using hz)⟩

/-- The head follows the last address and no other. -/
theorem IsRing.next_eq_head_iff (H : l.IsRing h xs) (ha : a ∈ xs) :
    l.next a = h ↔ xs.getLast? = some a := by
  obtain ⟨as, bs, rfl⟩ := List.append_of_mem ha
  obtain ⟨hn, hs⟩ := H
  have hseg := (seg_append.1 hs).2
  cases bs with
  | nil => simp [hseg.1]
  | cons b bs =>
    have hbh : b ≠ h := by
      rintro rfl
      exact (List.nodup_cons.1 hn).1 (by simp)
    have hnd : (a :: b :: bs).Nodup := (List.nodup_append'.1 (List.nodup_cons.1 hn).2).2.1
    have hlast : (b :: bs).getLast? ≠ some a := fun e =>
      (List.nodup_cons.1 hnd).1 (List.mem_of_getLast? e)
    simpa [hseg.1.1, hbh] using hlast

/-- The two neighbours of a head are one other address exactly where the ring holds one. -/
theorem IsRing.singular_iff (H : l.IsRing h xs) :
    l.next h ≠ h ∧ l.next h = l.prev h ↔ ∃ a, xs = [a] := by
  cases xs with
  | nil => simp [(isRing_nil.1 H).1]
  | cons x xs =>
    have hxh : x ≠ h := fun e => (List.nodup_cons.1 H.1).1 (by simp [e])
    rw [H.2.1.1]
    constructor
    · rintro ⟨-, hprev⟩
      have hlast : l.next x = h := hprev ▸ H.2.next_prev
      have hget := (H.next_eq_head_iff List.mem_cons_self).1 hlast
      cases xs with
      | nil => exact ⟨x, rfl⟩
      | cons y ys =>
        rw [List.getLast?_cons_cons] at hget
        have hxy : x ∉ y :: ys := (List.nodup_cons.1 (List.nodup_cons.1 H.1).2).1
        exact absurd (List.mem_of_getLast? hget) hxy
    · rintro ⟨a, ha⟩
      obtain ⟨rfl, rfl⟩ := List.cons.inj ha
      exact ⟨hxh, H.2.2.2.symm⟩

end Read

end Links
