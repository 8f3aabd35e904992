/-
# Every list of a program that calls `include/list.h`

The functions of `include/list.h` on whole lists and on moving entries, statement by statement,
and the program's lists all at once: the heads are a family, their rings have no entry in
common (`Links.Rings`), and a call changes the lists as its comment in the header says
(`ListCall.Spec`).  Each call is right by itself (`Spec.rings`), from which a whole run of calls
is (`run_rings`): the lists can be walked both ways and every test of the header tells the truth
about them.

Two calls are undone by another exactly: what `list_cut_position` takes off a list,
`list_splice_init` puts back with every link as it was (`cut_splice`).
-/

import EdpIo.Base.ListHead
import EdpIo.Lib.Rings
import Mathlib.Data.List.Rotate

namespace EdpIo

variable {α : Type*} [DecidableEq α]

/-- `__list_del_entry`. -/
def _listDelEntry (l : Links α) (entry : α) : Links α := _listDel l (l.prev entry) (l.next entry)

/-- `list_replace(old, new)`. -/
def listReplace (l : Links α) (old new : α) : Links α :=
  let l := l.setNext new (l.next old)
  let l := l.setPrev (l.next new) new
  let l := l.setPrev new (l.prev old)
  l.setNext (l.prev new) new

/-- `list_replace_init(old, new)`. -/
def listReplaceInit (l : Links α) (old new : α) : Links α :=
  initListHead (listReplace l old new) old

/-- `list_del_init`. -/
def listDelInit (l : Links α) (entry : α) : Links α := initListHead (_listDelEntry l entry) entry

/-- `list_move(list, head)`. -/
def listMove (l : Links α) (list head : α) : Links α := listAdd (_listDelEntry l list) list head

/-- `list_move_tail(list, head)`. -/
def listMoveTail (l : Links α) (list head : α) : Links α :=
  listAddTail (_listDelEntry l list) list head

/-- `list_is_last(list, head)`. -/
def listIsLast (l : Links α) (list head : α) : Bool := l.next list = head

/-- `list_empty_careful`. -/
def listEmptyCareful (l : Links α) (head : α) : Bool :=
  let next := l.next head
  next = head && next = l.prev head

/-- `list_is_singular`. -/
def listIsSingular (l : Links α) (head : α) : Bool :=
  !listEmpty l head && decide (l.next head = l.prev head)

/-- `list_rotate_left`. -/
def listRotateLeft (l : Links α) (head : α) : Links α :=
  if !listEmpty l head then listMoveTail l (l.next head) head else l

/-- `__list_cut_position`. -/
def _listCutPosition (l : Links α) (list head entry : α) : Links α :=
  let newFirst := l.next entry
  let l := l.setNext list (l.next head)
  let l := l.setPrev (l.next list) list
  let l := l.setPrev list entry
  let l := l.setNext entry list
  let l := l.setNext head newFirst
  l.setPrev newFirst head

/-- `list_cut_position(list, head, entry)`. -/
def listCutPosition (l : Links α) (list head entry : α) : Links α :=
  if listEmpty l head then l
  else if listIsSingular l head && (l.next head ≠ entry && head ≠ entry) then l
  else if entry = head then initListHead l list
  else _listCutPosition l list head entry

/-- `__list_splice`. -/
def _listSplice (l : Links α) (list prev next : α) : Links α :=
  let first := l.next list
  let last := l.prev list
  let l := l.setPrev first prev
  let l := l.setNext prev first
  let l := l.setNext last next
  l.setPrev next last

/-- `list_splice_init(list, head)`. -/
def listSpliceInit (l : Links α) (list head : α) : Links α :=
  if !listEmpty l list then initListHead (_listSplice l list head (l.next head)) list else l

/-- `list_splice_tail_init(list, head)`. -/
def listSpliceTailInit (l : Links α) (list head : α) : Links α :=
  if !listEmpty l list then initListHead (_listSplice l list (l.prev head) head) list else l

/-- `list_for_each`: the entries it meets in at most `n` turns. -/
def listForEach (l : Links α) (head : α) (n : ℕ) : List α := Links.walk l.next head n (l.next head)

/-- `list_for_each_prev`. -/
def listForEachPrev (l : Links α) (head : α) (n : ℕ) : List α :=
  Links.walk l.prev head n (l.prev head)

/-! ### The calls -/

/-- A call of a function that changes lists. -/
inductive ListCall (α : Type*)
  | init (list : α)
  | add (new head : α)
  | addTail (new head : α)
  | del (entry : α)
  | delInit (entry : α)
  | replace (old new : α)
  | replaceInit (old new : α)
  | move (list head : α)
  | moveTail (list head : α)
  | rotateLeft (head : α)
  | cutPosition (list head entry : α)
  | spliceInit (list head : α)
  | spliceTailInit (list head : α)

namespace ListCall

/-- What a call does to the links. -/
def exec [ListPoison α] (l : Links α) : ListCall α → Links α
  | .init list => initListHead l list
  | .add new head => listAdd l new head
  | .addTail new head => listAddTail l new head
  | .del entry => listDel l entry
  | .delInit entry => listDelInit l entry
  | .replace old new => listReplace l old new
  | .replaceInit old new => listReplaceInit l old new
  | .move list head => listMove l list head
  | .moveTail list head => listMoveTail l list head
  | .rotateLeft head => listRotateLeft l head
  | .cutPosition list head entry => listCutPosition l list head entry
  | .spliceInit list head => listSpliceInit l list head
  | .spliceTailInit list head => listSpliceTailInit l list head

variable {ι : Type*} [DecidableEq ι]

open Links (Fresh)

/-- **What a call is for**: the lists of the heads before it and after it, where it is called
as the header says. -/
inductive Spec (head : ι → α) (xs : ι → List α) : ListCall α → (ι → List α) → Prop
  | init (i : ι) : Spec head xs (.init (head i)) (Function.update xs i [])
  | add (i : ι) (n : α) (hn : Fresh head xs n) :
      Spec head xs (.add n (head i)) (Function.update xs i (n :: xs i))
  | addTail (i : ι) (n : α) (hn : Fresh head xs n) :
      Spec head xs (.addTail n (head i)) (Function.update xs i (xs i ++ [n]))
  | del (i : ι) (a : α) (as bs : List α) (h : xs i = as ++ a :: bs) :
      Spec head xs (.del a) (Function.update xs i (as ++ bs))
  | delInit (i : ι) (a : α) (as bs : List α) (h : xs i = as ++ a :: bs) :
      Spec head xs (.delInit a) (Function.update xs i (as ++ bs))
  | replace (i : ι) (a n : α) (as bs : List α) (h : xs i = as ++ a :: bs)
      (hn : Fresh head xs n) : Spec head xs (.replace a n) (Function.update xs i (as ++ n :: bs))
  | replaceInit (i : ι) (a n : α) (as bs : List α) (h : xs i = as ++ a :: bs)
      (hn : Fresh head xs n) :
      Spec head xs (.replaceInit a n) (Function.update xs i (as ++ n :: bs))
  | move (i j : ι) (a : α) (as bs : List α) (h : xs i = as ++ a :: bs) :
      Spec head xs (.move a (head j)) (Function.update (Function.update xs i (as ++ bs)) j
        (a :: Function.update xs i (as ++ bs) j))
  | moveTail (i j : ι) (a : α) (as bs : List α) (h : xs i = as ++ a :: bs) :
      Spec head xs (.moveTail a (head j)) (Function.update (Function.update xs i (as ++ bs)) j
        (Function.update xs i (as ++ bs) j ++ [a]))
  | rotateLeft (i : ι) :
      Spec head xs (.rotateLeft (head i)) (Function.update xs i ((xs i).rotate 1))
  /-- The entries up to `a` go to the list of `i`, which loses what it had. -/
  | cut (i j : ι) (hij : i ≠ j) (a : α) (as bs : List α) (h : xs j = as ++ a :: bs) :
      Spec head xs (.cutPosition (head i) (head j) a)
        (Function.update (Function.update xs i (as ++ [a])) j bs)
  | cutNone (i j : ι) (h : xs j ≠ []) :
      Spec head xs (.cutPosition (head i) (head j) (head j)) (Function.update xs i [])
  /-- An empty list is not cut, and the list of `i` is left as it is. -/
  | cutEmpty (i j : ι) (a : α) (h : xs j = []) :
      Spec head xs (.cutPosition (head i) (head j) a) xs
  | splice (i j : ι) (hij : i ≠ j) :
      Spec head xs (.spliceInit (head i) (head j))
        (Function.update (Function.update xs j (xs i ++ xs j)) i [])
  | spliceTail (i j : ι) (hij : i ≠ j) :
      Spec head xs (.spliceTailInit (head i) (head j))
        (Function.update (Function.update xs j (xs j ++ xs i)) i [])

/-! ### One list

Each function is `link`s on the addresses it reads. -/

section One

variable {l : Links α} {h n a : α} {xs as bs : List α}

theorem initListHead_eq_link (l : Links α) (list : α) :
    initListHead l list = l.link list list := rfl

theorem _listSplice_eq_link (l : Links α) (list prev next : α) :
    _listSplice l list prev next = (l.link prev (l.next list)).link (l.prev list) next := rfl

theorem listReplace_eq_link (l : Links α) (old new : α) :
    listReplace l old new =
      (l.link new (l.next old)).link ((l.link new (l.next old)).prev old) new := by
  simp [listReplace, Links.link, Links.setNext, Links.setPrev]

theorem _listCutPosition_eq_link (l : Links α) (list head entry : α) :
    _listCutPosition l list head entry =
      ((l.link list (l.next head)).link entry list).link head (l.next entry) := by
  simp [_listCutPosition, Links.link, Links.setNext, Links.setPrev]

/-- `list_add` puts a new entry in front. -/
theorem listAdd_isRing (H : l.IsRing h xs) (hn : n ∉ h :: xs) :
    (listAdd l n h).IsRing h (n :: xs) := by
  have hh : n ≠ h := fun e => hn (by simp [e])
  have hnext : n ≠ l.next h := fun e => hn (e ▸ H.next_mem)
  rw [listAdd, _listAdd_eq_link hh hnext]
  exact H.insert_head hn

/-- `list_replace` puts the new entry where the old one is. -/
theorem listReplace_isRing (H : l.IsRing h (as ++ a :: bs)) (hn : n ∉ h :: (as ++ a :: bs)) :
    (listReplace l a n).IsRing h (as ++ n :: bs) := by
  have hrot : l.IsRing a (bs ++ h :: as) := H.rotate
  have hn' : n ∉ a :: (bs ++ h :: as) := by
    simp only [List.mem_append, List.mem_cons, not_or] at hn ⊢
    tauto
  rw [listReplace_eq_link]
  exact (hrot.replace hn').rotate

/-! The functions look at the entries they are given and at their neighbours: a write to another
address may come before or after. -/

section Put

variable {x e q v w : α}

theorem listAddTail_put (hn : n ≠ x) (hh : h ≠ x) (hp : l.prev h ≠ x) :
    listAddTail (l.put x v w) n h = (listAddTail l n h).put x v w := by
  simp only [listAddTail, _listAdd, Links.put_prev_of_ne hh, Links.put_setNext hn,
    Links.put_setPrev hn, Links.put_setNext hp, Links.put_setPrev hh]

theorem listDel_put [ListPoison α] (he : e ≠ x) (hn : l.next e ≠ x) (hp : l.prev e ≠ x) :
    listDel (l.put x v w) e = (listDel l e).put x v w := by
  simp only [listDel, _listDel, Links.put_next_of_ne he, Links.put_prev_of_ne he,
    Links.put_setPrev hn, Links.put_setNext hp, Links.put_setNext he, Links.put_setPrev he]

theorem _listSplice_put (hn : l.next e ≠ x) (hp : l.prev e ≠ x) (he : e ≠ x) (hq : q ≠ x)
    (ha : a ≠ x) :
    initListHead (_listSplice (l.put x v w) e q a) e =
      (initListHead (_listSplice l e q a) e).put x v w := by
  simp only [initListHead, _listSplice, Links.put_next_of_ne he, Links.put_prev_of_ne he,
    Links.put_setPrev hn, Links.put_setNext hq, Links.put_setNext hp, Links.put_setPrev ha,
    Links.put_setNext he, Links.put_setPrev he]

end Put

/-- `list_is_singular` is true exactly of the head of a ring of one entry. -/
theorem listIsSingular_iff (H : l.IsRing h xs) : listIsSingular l h = true ↔ ∃ a, xs = [a] := by
  rw [← H.singular_iff]
  simp [listIsSingular, listEmpty]

/-- Where the entry is on the list the guards of `list_cut_position` let it through. -/
theorem listCutPosition_eq (H : l.IsRing h (as ++ a :: bs)) (g : α) :
    listCutPosition l g h a = ((l.link g (l.next h)).link a g).link h (l.next a) := by
  have hempty : listEmpty l h = false := by
    rw [Bool.eq_false_iff, Ne, listEmpty_iff H]
    simp
  have hah : a ≠ h := fun e => (List.nodup_cons.1 H.1).1 (by simp [← e])
  have hguard : (listIsSingular l h && (l.next h ≠ a && h ≠ a)) = false := by
    cases hs : listIsSingular l h with
    | false => rfl
    | true =>
      obtain ⟨b, hb⟩ := (listIsSingular_iff H).1 hs
      have hab : a = b := by
        have hm : a ∈ as ++ a :: bs := by simp
        rw [hb] at hm
        exact List.mem_singleton.1 hm
      rw [hb] at H
      simp [H.2.1.1, hab]
  rw [listCutPosition, hempty, hguard, if_neg (by simp), if_neg (by simp), if_neg hah,
    _listCutPosition_eq_link]

theorem listCutPosition_agreeOff (H : l.IsRing h (as ++ a :: bs)) (g : α) :
    l.AgreeOff (listCutPosition l g h a) [g, l.next h, a, h, l.next a] := by
  rw [listCutPosition_eq H g]
  exact ((Links.agreeOff_link (by simp) (by simp)).trans
    (Links.agreeOff_link (by simp) (by simp))).trans (Links.agreeOff_link (by simp) (by simp))

theorem listSpliceInit_agreeOff (l : Links α) (g h : α) :
    l.AgreeOff (listSpliceInit l g h) [g, h, l.next g, l.prev g, l.next h] := by
  unfold listSpliceInit
  split
  · rw [_listSplice_eq_link, initListHead_eq_link]
    exact ((Links.agreeOff_link (by simp) (by simp)).trans
      (Links.agreeOff_link (by simp) (by simp))).trans (Links.agreeOff_link (by simp) (by simp))
  · exact .refl l _

end One

/-! ### All lists -/

section All

variable {l : Links α} {head : ι → α} {xs : ι → List α} {i j : ι} {a n : α} {as bs : List α}

theorem init_rings (H : l.Rings head xs) (i : ι) :
    (initListHead l (head i)).Rings head (Function.update xs i []) :=
  H.update (s := [head i]) (Links.agreeOff_link (by simp) (by simp)) (by simp)
    (initListHead_isRing l (head i)) (by simp)

omit [DecidableEq ι] in
/-- An entry of no list may be initialised. -/
theorem init_fresh (H : l.Rings head xs) (hn : Fresh head xs n) :
    (initListHead l n).Rings head xs :=
  H.fresh_change (s := [n]) (Links.agreeOff_link (by simp) (by simp)) (by simpa using hn)

theorem add_rings (H : l.Rings head xs) (hn : Fresh head xs n) (i : ι) :
    (listAdd l n (head i)).Rings head (Function.update xs i (n :: xs i)) := by
  have hring := H.ring i
  have hh : n ≠ head i := fun e => hn i (by simp [e])
  have hnext : n ≠ l.next (head i) := fun e => hn i (e ▸ hring.next_mem)
  have hoff : l.AgreeOff (listAdd l n (head i)) [head i, n, l.next (head i)] := by
    rw [listAdd, _listAdd_eq_link hh hnext]
    exact (Links.agreeOff_link (by simp) (by simp)).trans
      (Links.agreeOff_link (by simp) (by simp))
  refine H.update hoff ?_ (listAdd_isRing hring (hn i)) ?_
  · simpa [hn] using Or.inl (List.mem_cons.1 hring.next_mem)
  · rintro z hz
    rcases List.mem_cons.1 hz with rfl | hz
    · exact .inr hn
    · exact .inl (List.mem_cons_of_mem _ hz)

theorem addTail_rings (H : l.Rings head xs) (hn : Fresh head xs n) (i : ι) :
    (listAddTail l n (head i)).Rings head (Function.update xs i (xs i ++ [n])) := by
  have hring := H.ring i
  have hh : n ≠ head i := fun e => hn i (by simp [e])
  have hprev : n ≠ l.prev (head i) := fun e => hn i (e ▸ hring.prev_mem)
  have hoff : l.AgreeOff (listAddTail l n (head i)) [l.prev (head i), n, head i] := by
    rw [listAddTail, _listAdd_eq_link hprev hh]
    exact (Links.agreeOff_link (by simp) (by simp)).trans
      (Links.agreeOff_link (by simp) (by simp))
  refine H.update hoff ?_ (listAddTail_isRing hring (hn i)) ?_
  · simpa [hn] using Or.inl (List.mem_cons.1 hring.prev_mem)
  · rintro z hz
    rcases List.mem_append.1 hz with hz | hz
    · exact .inl (List.mem_cons_of_mem _ hz)
    · exact .inr (List.mem_singleton.1 hz ▸ hn)

/-- `__list_del_entry` takes an entry out of its list, and so do the functions made of it. -/
theorem unlink_rings (H : l.Rings head xs) (h : xs i = as ++ a :: bs) :
    (_listDelEntry l a).Rings head (Function.update xs i (as ++ bs)) := by
  have hring := H.ring i
  have ha : a ∈ head i :: xs i := by simp [h]
  have hprev := hring.prev_mem_of_mem ha
  have hnext := hring.next_mem_of_mem ha
  refine H.update (s := [l.prev a, l.next a]) (Links.agreeOff_link (by simp) (by simp)) ?_ ?_ ?_
  · rintro z hz
    rcases List.mem_pair.1 hz with rfl | rfl
    · exact .inl hprev
    · exact .inl hnext
  · rw [h] at hring
    exact hring.unlink
  · intro z hz
    rw [h]
    refine .inl (List.mem_cons_of_mem _ ?_)
    exact ((List.sublist_cons_self a bs).append_left as).subset hz

theorem del_rings [ListPoison α] (H : l.Rings head xs) (h : xs i = as ++ a :: bs) :
    (listDel l a).Rings head (Function.update xs i (as ++ bs)) := by
  have hfresh := H.fresh_erase h
  refine (unlink_rings H h).fresh_change (s := [a]) ?_ (by simpa using hfresh)
  exact (Links.agreeOff_setNext (by simp)).trans (Links.agreeOff_setPrev (by simp))

theorem delInit_rings (H : l.Rings head xs) (h : xs i = as ++ a :: bs) :
    (listDelInit l a).Rings head (Function.update xs i (as ++ bs)) :=
  init_fresh (unlink_rings H h) (H.fresh_erase h)

theorem replace_rings (H : l.Rings head xs) (h : xs i = as ++ a :: bs) (hn : Fresh head xs n) :
    (listReplace l a n).Rings head (Function.update xs i (as ++ n :: bs)) := by
  have hring := H.ring i
  have ha : a ∈ head i :: xs i := by simp [h]
  have hprev : (l.link n (l.next a)).prev a ∈ [n, l.next a, l.prev a] := by
    rw [Links.link_prev, Function.update_apply]
    split <;> simp
  have hoff : l.AgreeOff (listReplace l a n) [n, l.next a, l.prev a] := by
    rw [listReplace_eq_link]
    exact (Links.agreeOff_link (by simp) (by simp)).trans (Links.agreeOff_link hprev (by simp))
  refine H.update hoff ?_ ?_ ?_
  · simpa [hn] using ⟨.inl (List.mem_cons.1 (hring.next_mem_of_mem ha)),
      .inl (List.mem_cons.1 (hring.prev_mem_of_mem ha))⟩
  · have hni := hn i
    rw [h] at hring hni
    exact listReplace_isRing hring hni
  · rintro z hz
    rcases List.mem_append.1 hz with hz | hz
    · exact .inl (by simp [h, hz])
    · rcases List.mem_cons.1 hz with rfl | hz
      · exact .inr hn
      · exact .inl (by simp [h, hz])

theorem replaceInit_rings (H : l.Rings head xs) (h : xs i = as ++ a :: bs)
    (hn : Fresh head xs n) :
    (listReplaceInit l a n).Rings head (Function.update xs i (as ++ n :: bs)) := by
  refine init_fresh (replace_rings H h hn) fun j hm => ?_
  have hna : a ≠ n := by
    rintro rfl
    exact hn i (by simp [h])
  by_cases hj : j = i
  · subst hj
    rw [Function.update_self] at hm
    have hgone := H.fresh_erase h j
    rw [Function.update_self] at hgone
    simp only [List.mem_cons, List.mem_append, not_or] at hm hgone
    tauto
  · rw [Function.update_of_ne hj] at hm
    exact hj (H.index_unique hm (by simp [h]))

theorem rotateLeft_rings (H : l.Rings head xs) (i : ι) :
    (listRotateLeft l (head i)).Rings head (Function.update xs i ((xs i).rotate 1)) := by
  have hring := H.ring i
  unfold listRotateLeft
  cases hx : xs i with
  | nil =>
    have hempty : listEmpty l (head i) = true := (listEmpty_iff hring).2 hx
    rw [hempty, List.rotate_nil, ← hx, Function.update_eq_self]
    exact H
  | cons x ys =>
    have hempty : listEmpty l (head i) = false := by
      rw [Bool.eq_false_iff, Ne, listEmpty_iff hring, hx]
      exact List.cons_ne_nil x ys
    have hnext : l.next (head i) = x := by
      rw [hx] at hring
      exact hring.2.1.1
    rw [hempty, hnext, List.rotate_cons_succ, List.rotate_zero]
    have hx : xs i = [] ++ x :: ys := hx
    have hadd := addTail_rings (unlink_rings H hx) (H.fresh_erase hx) i
    simpa [listMoveTail] using hadd

/-- What `list_cut_position` does to the two lists. -/
theorem cut_rings (H : l.Rings head xs) (hij : i ≠ j) (h : xs j = as ++ a :: bs) :
    (listCutPosition l (head i) (head j) a).Rings head
      (Function.update (Function.update xs i (as ++ [a])) j bs) := by
  have hring := H.ring j
  have ha : a ∈ head j :: xs j := by simp [h]
  have hnext := hring.next_mem_of_mem ha
  have hfirst := hring.next_mem
  have hi : head i ∉ head j :: xs j := fun hm =>
    hij (H.index_unique List.mem_cons_self hm)
  rw [h] at hring hi
  have hcut := hring.cut hi
  rw [← listCutPosition_eq hring (head i)] at hcut
  refine H.update₂ hij (listCutPosition_agreeOff hring (head i)) ?_ hcut.1 hcut.2 ?_ ?_
  · simp only [List.forall_mem_cons]
    exact ⟨.inl List.mem_cons_self, .inr (.inl hfirst), .inr (.inl ha),
      .inr (.inl List.mem_cons_self), .inr (.inl hnext), by simp⟩
  · intro z hz
    refine .inr (.inl ?_)
    rw [h]
    simpa using hz
  · have hnd : (as ++ a :: bs).Nodup := (List.nodup_cons.1 hring.1).2
    have hsplit : as ++ a :: bs = (as ++ [a]) ++ bs := by simp
    rw [hsplit] at hnd
    exact (List.nodup_append'.1 hnd).2.2

/-- Both splices: `l'` is `l` with what the ring of `i` holds put into that of `j`. -/
theorem splice_rings (H : l.Rings head xs) (hij : i ≠ j) {l' : Links α} {ys : List α}
    (hoff : l.AgreeOff l' [head j, l.next (head i), l.prev (head i), l.next (head j),
      l.prev (head j)])
    (hring : l'.IsRing (head j) ys) (hys : ∀ z ∈ ys, z ∈ xs i ∨ z ∈ xs j) :
    (initListHead l' (head i)).Rings head (Function.update (Function.update xs j ys) i []) := by
  have hi := H.ring i
  have hj := H.ring j
  have hhead : head i ∉ head j :: ys := by
    intro hm
    rcases List.mem_cons.1 hm with e | hm
    · exact H.apart i j hij List.mem_cons_self (e ▸ List.mem_cons_self)
    · rcases hys _ hm with hm | hm
      · exact (List.nodup_cons.1 hi.1).1 hm
      · exact H.apart i j hij List.mem_cons_self (List.mem_cons_of_mem _ hm)
  have hkeep : (initListHead l' (head i)).IsRing (head j) ys :=
    (Links.agreeOff_link (s := [head i]) (by simp) (by simp)).isRing hring
      fun z hz hm => hhead (List.mem_singleton.1 hm ▸ hz)
  refine H.update₂ (s := [head i, head j, l.next (head i), l.prev (head i), l.next (head j),
    l.prev (head j)]) hij.symm ?_ ?_ hkeep (initListHead_isRing l' (head i)) ?_
    (List.disjoint_nil_right _)
  · refine Links.AgreeOff.trans (fun z hz => hoff z fun hm => hz (List.mem_cons_of_mem _ hm)) ?_
    exact Links.agreeOff_link (by simp) (by simp)
  · simp only [List.forall_mem_cons]
    exact ⟨.inr (.inl List.mem_cons_self), .inl List.mem_cons_self, .inr (.inl hi.next_mem),
      .inr (.inl hi.prev_mem), .inl hj.next_mem, .inl hj.prev_mem, by simp⟩
  · intro z hz
    rw [List.append_nil] at hz
    rcases hys z hz with hm | hm
    · exact .inr (.inl hm)
    · exact .inl hm

omit [DecidableEq α] in
/-- A splice of an empty list changes nothing. -/
theorem splice_nil (hx : xs i = []) :
    Function.update (Function.update xs j (xs j)) i [] = xs := by
  rw [Function.update_eq_self, ← hx, Function.update_eq_self]

theorem spliceInit_rings (H : l.Rings head xs) (hij : i ≠ j) :
    (listSpliceInit l (head i) (head j)).Rings head
      (Function.update (Function.update xs j (xs i ++ xs j)) i []) := by
  have hi := H.ring i
  unfold listSpliceInit
  by_cases hx : xs i = []
  · rw [(listEmpty_iff hi).2 hx, hx, List.nil_append, splice_nil hx]
    exact H
  · rw [Bool.eq_false_iff.2 (mt (listEmpty_iff hi).1 hx)]
    refine splice_rings H hij ?_ ((H.ring j).splice_head hi hx (H.apart j i hij.symm)) ?_
    · rw [_listSplice_eq_link]
      exact (Links.agreeOff_link (by simp) (by simp)).trans
        (Links.agreeOff_link (by simp) (by simp))
    · exact fun z hz => List.mem_append.1 hz

theorem spliceTailInit_rings (H : l.Rings head xs) (hij : i ≠ j) :
    (listSpliceTailInit l (head i) (head j)).Rings head
      (Function.update (Function.update xs j (xs j ++ xs i)) i []) := by
  have hi := H.ring i
  unfold listSpliceTailInit
  by_cases hx : xs i = []
  · rw [(listEmpty_iff hi).2 hx, hx, List.append_nil, splice_nil hx]
    exact H
  · rw [Bool.eq_false_iff.2 (mt (listEmpty_iff hi).1 hx)]
    refine splice_rings H hij ?_ ((H.ring j).splice hi hx (H.apart j i hij.symm)) ?_
    · rw [_listSplice_eq_link]
      exact (Links.agreeOff_link (by simp) (by simp)).trans
        (Links.agreeOff_link (by simp) (by simp))
    · exact fun z hz => (List.mem_append.1 hz).symm

/-- **A call does what it is for.** -/
theorem Spec.rings [ListPoison α] {ys : ι → List α} {c : ListCall α} (H : l.Rings head xs)
    (h : Spec head xs c ys) : (exec l c).Rings head ys := by
  cases h with
  | init i => exact init_rings H i
  | add i n hn => exact add_rings H hn i
  | addTail i n hn => exact addTail_rings H hn i
  | del i a as bs h => exact del_rings H h
  | delInit i a as bs h => exact delInit_rings H h
  | replace i a n as bs h hn => exact replace_rings H h hn
  | replaceInit i a n as bs h hn => exact replaceInit_rings H h hn
  | move i j a as bs h => exact add_rings (unlink_rings H h) (H.fresh_erase h) j
  | moveTail i j a as bs h => exact addTail_rings (unlink_rings H h) (H.fresh_erase h) j
  | rotateLeft i => exact rotateLeft_rings H i
  | cut i j hij a as bs h => exact cut_rings H hij h
  | cutNone i j h =>
    have hempty : listEmpty l (head j) = false :=
      Bool.eq_false_iff.2 (mt (listEmpty_iff (H.ring j)).1 h)
    have hexec : exec l (.cutPosition (head i) (head j) (head j)) = initListHead l (head i) := by
      simp [exec, listCutPosition, hempty]
    rw [hexec]
    exact init_rings H i
  | cutEmpty i j a h =>
    have hempty : listEmpty l (head j) = true := (listEmpty_iff (H.ring j)).2 h
    have hexec : exec l (.cutPosition (head i) (head j) a) = l := by
      simp [exec, listCutPosition, hempty]
    rw [hexec]
    exact H
  | splice i j hij => exact spliceInit_rings H hij
  | spliceTail i j hij => exact spliceTailInit_rings H hij

end All

/-! ### Runs -/

section Runs

variable {l : Links α} {head : ι → α} {xs ys : ι → List α}

/-- The lists of the heads before and after a run of calls. -/
inductive Specs (head : ι → α) : (ι → List α) → List (ListCall α) → (ι → List α) → Prop
  | nil (xs : ι → List α) : Specs head xs [] xs
  | cons (xs ys zs : ι → List α) (c : ListCall α) (cs : List (ListCall α))
      (h : Spec head xs c ys) (hs : Specs head ys cs zs) : Specs head xs (c :: cs) zs

/-- What a program can find out about its lists by calls that change none: the tests, and the
walks in both directions if they have turns enough. -/
structure Tells (l : Links α) (head : ι → α) (xs : ι → List α) : Prop where
  forEach : ∀ i n, (xs i).length < n → listForEach l (head i) n = xs i
  forEachPrev : ∀ i n, (xs i).length < n → listForEachPrev l (head i) n = (xs i).reverse
  empty : ∀ i, listEmpty l (head i) = true ↔ xs i = []
  emptyCareful : ∀ i, listEmptyCareful l (head i) = true ↔ xs i = []
  singular : ∀ i, listIsSingular l (head i) = true ↔ ∃ a, xs i = [a]
  isLast : ∀ i, ∀ a ∈ xs i, listIsLast l a (head i) = true ↔ (xs i).getLast? = some a

omit [DecidableEq ι] in
/-- Links that hold the lists tell them. -/
theorem tells_of_rings (H : l.Rings head xs) : Tells l head xs where
  forEach i n hn := (H.ring i).walk hn
  forEachPrev i n hn := (H.ring i).flip.walk (by rwa [List.length_reverse])
  empty i := listEmpty_iff (H.ring i)
  emptyCareful i := by
    rw [← listEmpty_iff (H.ring i)]
    simp only [listEmptyCareful, listEmpty, Bool.and_eq_true, decide_eq_true_eq]
    constructor
    · exact fun h => h.1
    · intro h
      have hnil := (listEmpty_iff (H.ring i)).1 (by simpa [listEmpty] using h)
      have hring := H.ring i
      rw [hnil] at hring
      exact ⟨h, h.trans (Links.isRing_nil.1 hring).2.symm⟩
  singular i := listIsSingular_iff (H.ring i)
  isLast i a ha := by
    rw [← (H.ring i).next_eq_head_iff ha]
    simp [listIsLast]

theorem Specs.rings [ListPoison α] (H : l.Rings head xs) {calls : List (ListCall α)}
    (h : Specs head xs calls ys) : (calls.foldl exec l).Rings head ys := by
  induction h generalizing l with
  | nil xs => exact H
  | cons xs ys zs c cs h hs ih => exact ih (h.rings H)

/-- **The lists of `list.h` are lists.**  Whatever family of disjoint lists a program starts
with and whatever calls it makes as the header says, in any order and number: afterwards the
links of the heads and entries hold the lists that the calls should have made, so that every
walk meets these and every test answers about them. -/
theorem run_tells [ListPoison α] (H : l.Rings head xs) {calls : List (ListCall α)}
    (h : Specs head xs calls ys) : Tells (calls.foldl exec l) head ys :=
  tells_of_rings (h.rings H)

/-- The heads `0` and `1` of two empty lists. -/
theorem rings_two : Links.Rings ⟨id, id⟩ (fun b => cond b 1 0) fun _ => [] := by
  refine ⟨fun i => Links.isRing_nil.2 ⟨rfl, rfl⟩, fun i j h => ?_⟩
  cases i <;> cases j <;> simp at h ⊢

/-- An entry is added to each, and the one list put behind the other. -/
theorem run_tells_two :
    ∃ (head : Bool → ℕ) (ys : Bool → List ℕ) (l : Links ℕ), ys true = [5, 7] ∧ Tells l head ys :=
  have _ : ListPoison ℕ := ⟨8, 9⟩
  ⟨_, _, _, rfl, run_tells rings_two
    (.cons _ _ _ _ _ (.addTail true 5 fun i => by cases i <;> decide) <|
      .cons _ _ _ _ _ (.add false 7 fun i => by cases i <;> decide) <|
      .cons _ _ _ _ _ (.spliceTail false true (by decide)) <| .nil _)⟩

/-- **What is cut off is put back.**  If `list_cut_position` takes the entries of a list up to
one of them off to an empty list, `list_splice_init` restores every link of every address. -/
theorem cut_splice (H : l.Rings head xs) {i j : ι} (hij : i ≠ j) (hi : xs i = []) {a : α}
    (ha : a ∈ xs j) :
    listSpliceInit (listCutPosition l (head i) (head j) a) (head i) (head j) = l := by
  obtain ⟨as, bs, hj⟩ := List.append_of_mem ha
  obtain ⟨l₁, hl₁⟩ : ∃ l₁, listCutPosition l (head i) (head j) a = l₁ := ⟨_, rfl⟩
  have hring := H.ring j
  rw [hj] at hring
  have hoff₁ := listCutPosition_agreeOff hring (head i)
  have H₁ := cut_rings H hij hj
  rw [hl₁] at hoff₁ H₁ ⊢
  have hoff₂ := listSpliceInit_agreeOff l₁ (head i) (head j)
  have H₂ := spliceInit_rings H₁ hij
  have hback : Function.update (Function.update (Function.update (Function.update xs i (as ++ [a]))
      j bs) j (Function.update (Function.update xs i (as ++ [a])) j bs i ++
        Function.update (Function.update xs i (as ++ [a])) j bs j)) i [] = xs := by
    funext k
    by_cases hki : k = i
    · simp [hki, hi]
    · by_cases hkj : k = j
      · subst hkj
        simp [hki, hij, hj]
      · simp [hki, hkj]
  rw [hback] at H₂
  -- the addresses of the two rings are those that the calls write
  have hlinks : ∀ z, (listSpliceInit l₁ (head i) (head j)).next z = l.next z ∧
      (listSpliceInit l₁ (head i) (head j)).prev z = l.prev z := by
    intro z
    by_cases hzi : z ∈ head i :: xs i
    · exact (H.ring i).links_eq (H₂.ring i) hzi
    by_cases hzj : z ∈ head j :: xs j
    · exact (H.ring j).links_eq (H₂.ring j) hzj
    have haj : a ∈ head j :: xs j := List.mem_cons_of_mem _ ha
    have hz₁ : z ∉ [head i, l.next (head j), a, head j, l.next a] := by
      simp only [List.mem_cons, List.not_mem_nil, or_false, not_or]
      refine ⟨fun e => hzi (by simp [e]), fun e => hzj (e ▸ (H.ring j).next_mem),
        fun e => hzj (e ▸ haj), fun e => hzj (by simp [e]),
        fun e => hzj (e ▸ (H.ring j).next_mem_of_mem haj)⟩
    have hri := H₁.ring i
    have hrj := H₁.ring j
    rw [Function.update_of_ne hij, Function.update_self] at hri
    rw [Function.update_self] at hrj
    have hsub : ∀ y ∈ head i :: (as ++ [a]), y ∈ head i :: xs i ∨ y ∈ head j :: xs j := by
      intro y hy
      simp only [List.mem_cons, List.mem_append, List.not_mem_nil, or_false, hj] at hy ⊢
      tauto
    have hsub' : ∀ y ∈ head j :: bs, y ∈ head j :: xs j := by
      intro y hy
      simp only [List.mem_cons, List.mem_append, hj] at hy ⊢
      tauto
    have hz₂ : z ∉ [head i, head j, l₁.next (head i), l₁.prev (head i), l₁.next (head j)] := by
      simp only [List.mem_cons, List.not_mem_nil, or_false, not_or]
      refine ⟨fun e => hzi (by simp [e]), fun e => hzj (by simp [e]), fun e => ?_, fun e => ?_,
        fun e => hzj (e ▸ hsub' _ hrj.next_mem)⟩
      · exact (hsub _ (e ▸ hri.next_mem)).elim hzi hzj
      · exact (hsub _ (e ▸ hri.prev_mem)).elim hzi hzj
    exact ⟨(hoff₂ z hz₂).1.trans (hoff₁ z hz₁).1, (hoff₂ z hz₂).2.trans (hoff₁ z hz₁).2⟩
  have hnext := funext fun z => (hlinks z).1
  have hprev := funext fun z => (hlinks z).2
  calc listSpliceInit l₁ (head i) (head j)
    _ = ⟨(listSpliceInit l₁ (head i) (head j)).next, (listSpliceInit l₁ (head i) (head j)).prev⟩ :=
      rfl
    _ = l := by rw [hnext, hprev]

/-- A list of two, cut after the first. -/
theorem cut_splice_two :
    ∃ l : Links ℕ, l.next 1 = 5 ∧ l.next 5 = 7 ∧
      listSpliceInit (listCutPosition l 0 1 5) 0 1 = l :=
  have _ : ListPoison ℕ := ⟨8, 9⟩
  have hrings := Specs.rings rings_two
    (.cons _ _ _ _ _ (.addTail true 5 fun i => by cases i <;> decide) <|
      .cons _ _ _ _ _ (.addTail true 7 fun i => by cases i <;> decide) <| .nil _)
  ⟨_, rfl, rfl, cut_splice hrings (i := false) (j := true) (by decide) rfl (by decide)⟩

end Runs

end ListCall

end EdpIo
