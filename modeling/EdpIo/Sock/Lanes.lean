/-
# Connect events on several lanes

What `CONNECT` and the assertion in `edpnet_sock_epollin_handler` are for, without the
code: one source splits masks into events of four types and puts each on one of several
lanes, the lanes are worked off in any interleaving, each from its head, and the event
that takes effect as `0` (`EPOLLOUT`) sets the connected flag, as `3` (`EPOLLHUP`)
clears it, and as `1` (`EPOLLIN`) relies on it.

An event stays at the head of its lane from the call of its handler to its effect.  If
each `1` is put on a lane where it finds the flag set or a `0` in front of it, and the
`3` comes last and on the lane that has all the `1`s, then every `1` finds the flag set
(`Safe.connected`), after a `0` was handled and before the `3` (`Safe.between`).
-/

import Mathlib.Data.Int.Notation
import Mathlib.Data.List.Basic
import Mathlib.Data.List.Pairwise
import Mathlib.Logic.Function.Basic

namespace EdpIo

/-- Every `1` of the lane has a `0` before it. -/
def Led : List ℤ → Prop
  | [] => True
  | x :: l => x = 0 ∨ (x ≠ 1 ∧ Led l)

/-- In a history, newest first, every `1` comes after a `0` and not after a `3`. -/
def Between : List ℤ → Prop
  | [] => True
  | x :: l => (x = 1 → 0 ∈ l ∧ 3 ∉ l) ∧ Between l

instance decidableBetween : (l : List ℤ) → Decidable (Between l)
  | [] => inferInstanceAs (Decidable True)
  | _ :: l =>
    have := decidableBetween l
    inferInstanceAs (Decidable (_ ∧ _))

/-- The connected flag, the types that the source has still to put on a lane, the
lanes, the types whose handlers were called, newest first, and whether a mask with a
`3` has come. -/
structure Lanes (ι : Type*) where
  connect : Bool
  todo : List ℤ
  lane : ι → List ℤ
  handled : List ℤ
  hup : Bool

/-- No `1` follows a `3`. -/
abbrev Parted (l : List ℤ) : Prop := l.Pairwise fun x y => x = 3 → y ≠ 1

theorem led_of_not_mem {l : List ℤ} (h : 1 ∉ l) : Led l := by
  induction l with
  | nil => trivial
  | cons x l ih =>
    rw [List.mem_cons, not_or] at h
    exact .inr ⟨Ne.symm h.1, ih h.2⟩

theorem Led.append {l : List ℤ} {x : ℤ} (h : Led l) (hx : x = 1 → 0 ∈ l) : Led (l ++ [x]) := by
  induction l with
  | nil => exact .inr ⟨fun h1 => absurd (hx h1) List.not_mem_nil, trivial⟩
  | cons y l ih =>
    rcases h with rfl | ⟨hy, h⟩
    · exact .inl rfl
    · by_cases hy0 : y = 0
      · exact .inl hy0
      · refine .inr ⟨hy, ih h fun h1 => ?_⟩
        exact (List.mem_cons.1 (hx h1)).resolve_left (Ne.symm hy0)

theorem Led.tail {x : ℤ} {l : List ℤ} (h : Led (x :: l)) (hx : x ≠ 0) : Led l :=
  (h.resolve_left hx).2

theorem parted_append {l : List ℤ} {x : ℤ} (h : Parted l) (hx : x = 1 → 3 ∉ l) :
    Parted (l ++ [x]) := by
  refine List.pairwise_append.2 ⟨h, List.pairwise_singleton _ _, ?_⟩
  rintro y hy z hz rfl rfl
  exact hx (List.mem_singleton.1 hz).symm hy

namespace Lanes

variable {ι : Type*} [DecidableEq ι]

/-- The lane `i` becomes `l`. -/
def setLane (s : Lanes ι) (i : ι) (l : List ℤ) : Lanes ι :=
  { s with lane := Function.update s.lane i l }

/-- The steps.  Those of the source are where its events may go. -/
inductive Step (s : Lanes ι) : Lanes ι → Prop
  | same : Step s s
  /-- A mask comes, and none has come with a `3`. -/
  | mask (types : List ℤ) (hup : Bool) (hs : s.hup = false) (hp : Parted types)
      (h : 3 ∈ types → hup = true) : Step s { s with todo := types, hup := hup }
  /-- A type is lost, for want of memory. -/
  | lose (x : ℤ) (l : List ℤ) (h : s.todo = x :: l) : Step s { s with todo := l }
  /-- The source puts a type on the lane `i`. -/
  | queue (i : ι) (x : ℤ) (l : List ℤ) (h : s.todo = x :: l)
      (h1 : x = 1 → s.connect = true ∨ 0 ∈ s.lane i)
      (h3 : x = 3 → ∀ j, j ≠ i → 1 ∉ s.lane j) :
      Step s { s with todo := l, lane := Function.update s.lane i (s.lane i ++ [x]) }
  /-- Somebody else puts a `0` on the lane `i`. -/
  | write (i : ι) : Step s (s.setLane i (s.lane i ++ [0]))
  /-- The handler of the head of lane `i` is called. -/
  | call (i : ι) (x : ℤ) (l : List ℤ) (h : s.lane i = x :: l) :
      Step s { s with handled := x :: s.handled }
  /-- A `0` sets the flag. -/
  | set (i : ι) (l : List ℤ) (h : s.lane i = 0 :: l) (hh : 0 ∈ s.handled) :
      Step s { s.setLane i l with connect := true }
  /-- The head of lane `i` changes nothing; a `0` does that only with the flag set. -/
  | pass (i : ι) (x : ℤ) (l : List ℤ) (h : s.lane i = x :: l) (h0 : x = 0 → s.connect = true)
      (h3 : x ≠ 3) : Step s (s.setLane i l)
  /-- The `3` clears the flag. -/
  | clear (i : ι) (l : List ℤ) (h : s.lane i = 3 :: l) :
      Step s { s.setLane i l with connect := false }

/-- The invariant. -/
structure Safe (s : Lanes ι) : Prop where
  /-- With the flag clear every `1` waits for a `0` on its own lane. -/
  led : s.connect = false → ∀ i, Led (s.lane i)
  /-- The lane with the `3` has all the `1`s, in front of it. -/
  apart : ∀ i j, 3 ∈ s.lane i → j ≠ i → 1 ∉ s.lane j
  parted : ∀ i, Parted (s.lane i)
  todo : Parted s.todo
  /-- Once the `3` is on a lane no `1` comes any more, and once it is handled none is left. -/
  late : (∃ i, 3 ∈ s.lane i) ∨ 3 ∈ s.handled → 1 ∉ s.todo
  done : 3 ∈ s.handled → ∀ i, 1 ∉ s.lane i
  hup : 3 ∈ s.todo ∨ (∃ i, 3 ∈ s.lane i) ∨ 3 ∈ s.handled → s.hup = true
  set : s.connect = true → 0 ∈ s.handled
  between : Between s.handled

/-- Nothing on the lanes and nothing to come. -/
def start : Lanes ι := ⟨false, [], fun _ => [], [], false⟩

omit [DecidableEq ι] in
theorem safe_start : (start : Lanes ι).Safe where
  led := fun _ _ => trivial
  apart := fun _ _ h => absurd h List.not_mem_nil
  parted := fun _ => List.Pairwise.nil
  todo := List.Pairwise.nil
  late := fun _ => List.not_mem_nil
  done := fun h => absurd h List.not_mem_nil
  hup := by
    rintro (h | ⟨_, h⟩ | h) <;> cases h
  set := fun h => Bool.noConfusion h
  between := trivial

variable {s t : Lanes ι} {i j : ι} {x y : ℤ} {l : List ℤ}

/-- What is on a lane after its head is taken was there before. -/
theorem mem_of_take (h : s.lane i = x :: l) (hy : y ∈ Function.update s.lane i l j) :
    y ∈ s.lane j := by
  by_cases hj : j = i
  · subst hj
    rw [Function.update_self] at hy
    rw [h]
    exact List.mem_cons_of_mem x hy
  · rwa [Function.update_of_ne hj] at hy

/-- What is on a lane after an append was there before or is new. -/
theorem mem_of_put (hy : y ∈ Function.update s.lane i (s.lane i ++ [x]) j) :
    y ∈ s.lane j ∨ (j = i ∧ y = x) := by
  by_cases hj : j = i
  · subst hj
    rw [Function.update_self, List.mem_append, List.mem_singleton] at hy
    exact hy.imp_right fun hy => ⟨rfl, hy⟩
  · rw [Function.update_of_ne hj] at hy
    exact .inl hy

/-- A property of all lanes that the changed one has. -/
theorem forall_update {p : List ℤ → Prop} (hs : ∀ j, p (s.lane j)) (hi : p l) (j : ι) :
    p (Function.update s.lane i l j) := by
  by_cases hj : j = i
  · subst hj
    rwa [Function.update_self]
  · rw [Function.update_of_ne hj]
    exact hs j

/-- The head of a lane is taken, and the flag afterwards is one the lanes agree with. -/
theorem Safe.take (hs : s.Safe) (h : s.lane i = x :: l) (c : Bool)
    (hc : c = true → 0 ∈ s.handled)
    (hl : c = false → ∀ j, Led (Function.update s.lane i l j)) :
    Safe { s.setLane i l with connect := c } where
  led := hl
  apart j k hj hk hmem := hs.apart j k (mem_of_take h hj) hk (mem_of_take h hmem)
  parted := forall_update hs.parted (h ▸ hs.parted i).of_cons
  todo := hs.todo
  late := by
    rintro (⟨j, hj⟩ | hd)
    · exact hs.late (.inl ⟨j, mem_of_take h hj⟩)
    · exact hs.late (.inr hd)
  done hd j hmem := hs.done hd j (mem_of_take h hmem)
  hup := by
    rintro (ht | ⟨j, hj⟩ | hd)
    · exact hs.hup (.inl ht)
    · exact hs.hup (.inr (.inl ⟨j, mem_of_take h hj⟩))
    · exact hs.hup (.inr (.inr hd))
  set := hc
  between := hs.between

/-- A type is put on a lane, and what is to come afterwards is `l`. -/
theorem Safe.put (hs : s.Safe) (hl : l.Sublist s.todo)
    (h1 : s.connect = false → x = 1 → 0 ∈ s.lane i)
    (hearly : x = 1 → ¬ ((∃ i, 3 ∈ s.lane i) ∨ 3 ∈ s.handled))
    (h3 : x = 3 → (∀ j, j ≠ i → 1 ∉ s.lane j) ∧ 1 ∉ l ∧ s.hup = true) :
    Safe { s with todo := l, lane := Function.update s.lane i (s.lane i ++ [x]) } where
  led hc := forall_update (hs.led hc) ((hs.led hc i).append (h1 hc))
  apart j k hj hk hmem := by
    rcases mem_of_put hj with h3j | ⟨hji, hx3⟩
    · rcases mem_of_put hmem with h1k | ⟨-, hx1⟩
      · exact hs.apart j k h3j hk h1k
      · exact hearly hx1.symm (.inl ⟨j, h3j⟩)
    · rw [hji] at hk
      rcases mem_of_put hmem with h1k | ⟨hki, -⟩
      · exact (h3 hx3.symm).1 k hk h1k
      · exact hk hki
  parted := forall_update hs.parted
    (parted_append (hs.parted i) fun hx1 hmem => hearly hx1 (.inl ⟨i, hmem⟩))
  todo := hs.todo.sublist hl
  late := by
    rintro (⟨j, hj⟩ | hd) hm
    · rcases mem_of_put hj with hj | ⟨-, hx3⟩
      · exact hs.late (.inl ⟨j, hj⟩) (hl.subset hm)
      · exact (h3 hx3.symm).2.1 hm
    · exact hs.late (.inr hd) (hl.subset hm)
  done hd j hmem := by
    rcases mem_of_put hmem with hmem | ⟨-, hx1⟩
    · exact hs.done hd j hmem
    · exact hearly hx1.symm (.inr hd)
  hup := by
    rintro (ht | ⟨j, hj⟩ | hd)
    · exact hs.hup (.inl (hl.subset ht))
    · rcases mem_of_put hj with hj | ⟨-, hx3⟩
      · exact hs.hup (.inr (.inl ⟨j, hj⟩))
      · exact (h3 hx3.symm).2.2
    · exact hs.hup (.inr (.inr hd))
  set := hs.set
  between := hs.between

/-- The `3` is the last thing on all lanes that a `1` could be. -/
theorem Safe.not_mem_of_hup (hs : s.Safe) (h : s.lane i = 3 :: l) (j : ι) :
    1 ∉ s.lane j := by
  have h3 : 3 ∈ s.lane i := by
    rw [h]
    exact List.mem_cons_self
  by_cases hj : j = i
  · subst hj
    have hp := hs.parted j
    rw [h] at hp ⊢
    rw [List.mem_cons, not_or]
    exact ⟨by decide, fun hm => (List.pairwise_cons.1 hp).1 1 hm rfl rfl⟩
  · exact hs.apart i j h3 hj

omit [DecidableEq ι] in
/-- **The flag is set** for a `1` at the head of its lane. -/
theorem Safe.connected (hs : s.Safe) (h : s.lane i = 1 :: l) : s.connect = true := by
  by_contra hc
  have hled := hs.led (by simpa using hc) i
  rw [h] at hled
  rcases hled with h | ⟨h, -⟩
  · exact absurd h (by decide)
  · exact h rfl

/-- **One step** keeps the lanes safe. -/
theorem Safe.step (hs : s.Safe) (h : s.Step t) : t.Safe := by
  cases h with
  | same => exact hs
  | mask types hup hno hp h3 =>
    have hnone : ¬ ((∃ i, 3 ∈ s.lane i) ∨ 3 ∈ s.handled) := fun h => by
      rw [hs.hup (.inr h)] at hno
      cases hno
    exact ⟨hs.led, hs.apart, hs.parted, hp, fun h => absurd h hnone, hs.done,
      fun h => h3 (h.resolve_right hnone), hs.set, hs.between⟩
  | lose x l h =>
    have htodo : ∀ {y : ℤ}, y ∈ l → y ∈ s.todo := fun hy => h ▸ List.mem_cons_of_mem x hy
    exact ⟨hs.led, hs.apart, hs.parted, (h ▸ hs.todo).of_cons,
      fun h' hm => hs.late h' (htodo hm), hs.done, fun h' => hs.hup (h'.imp_left htodo), hs.set,
      hs.between⟩
  | queue i x l h h1 h3 =>
    have hx : x ∈ s.todo := h ▸ List.mem_cons_self
    refine hs.put (h ▸ List.sublist_cons_self x l) (fun hc hx1 => ?_) ?_ ?_
    · exact (h1 hx1).resolve_left (by simpa using hc)
    · rintro rfl hlate
      exact hs.late hlate hx
    · rintro rfl
      have hp := hs.todo
      rw [h] at hp
      exact ⟨h3 rfl, fun hm => (List.pairwise_cons.1 hp).1 1 hm rfl rfl, hs.hup (.inl hx)⟩
  | write i =>
    exact hs.put (List.Sublist.refl s.todo) (fun _ h => absurd h (by decide))
      (fun h => absurd h (by decide)) (fun h => absurd h (by decide))
  | call i x l h =>
    have hx : x ∈ s.lane i := h ▸ List.mem_cons_self
    have hhup : 3 ∈ x :: s.handled → (∃ i, 3 ∈ s.lane i) ∨ 3 ∈ s.handled := by
      intro hm
      rcases List.mem_cons.1 hm with rfl | hm
      · exact .inl ⟨i, hx⟩
      · exact .inr hm
    refine ⟨hs.led, hs.apart, hs.parted, hs.todo, fun hlate => ?_, fun hd => ?_, fun hor => ?_,
      fun hc => List.mem_cons_of_mem x (hs.set hc), ?_, hs.between⟩
    · exact hs.late (hlate.elim .inl hhup)
    · rcases List.mem_cons.1 hd with rfl | hd
      · exact hs.not_mem_of_hup h
      · exact hs.done hd
    · exact hs.hup (hor.imp_right fun hor => hor.elim .inl hhup)
    · rintro rfl
      exact ⟨hs.set (hs.connected h), fun hd => hs.done hd i hx⟩
  | set i l h hh => exact hs.take h true (fun _ => hh) fun hc => Bool.noConfusion hc
  | pass i x l h h0 h3 =>
    refine hs.take h s.connect hs.set fun hc => forall_update (hs.led hc) ?_
    have hled := hs.led hc i
    rw [h] at hled
    refine hled.tail fun hx => ?_
    rw [h0 hx] at hc
    cases hc
  | clear i l h =>
    refine hs.take h false (fun hc => Bool.noConfusion hc) fun _ j => led_of_not_mem fun hm => ?_
    exact hs.not_mem_of_hup h j (mem_of_take h hm)

end Lanes
end EdpIo
