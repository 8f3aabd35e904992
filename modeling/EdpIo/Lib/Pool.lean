/-
# Pools of calls in progress

A system of concurrent calls keeps those in progress in a list; a step takes one of
them out and puts back what is left of it, `o.toList ++ l.erase a`.  The lemmas say
how counts, tests and membership change, and what the calls hold.
-/

import Mathlib.Data.List.Count

namespace Pool

variable {α : Type*} [DecidableEq α] {l : List α} {a b : α} {o : Option α}

/-- Replacing one element of a list by at most one other. -/
theorem countP_swap (h : a ∈ l) (o : Option α) (p : α → Bool) :
    (o.toList ++ l.erase a).countP p + (if p a then 1 else 0) =
      l.countP p + if o.any p then 1 else 0 := by
  have hl := (List.perm_cons_erase h).countP_eq p
  rw [List.countP_cons] at hl
  cases o with
  | none => simpa using hl.symm
  | some b =>
    simp only [Option.toList, List.cons_append, List.nil_append, List.countP_cons, Option.any]
    omega

/-- What the elements of a list hold is what one of them and the others hold. -/
theorem perm_flatMap {β : Type*} (h : a ∈ l) (g : α → List β) :
    (l.flatMap g).Perm (g a ++ (l.erase a).flatMap g) := by
  have hl := (List.perm_cons_erase h).flatMap_right g
  rwa [List.flatMap_cons] at hl

/-- Two pools, one of which holds the images of the other's calls, in any order: the same step
of both. -/
theorem perm_swap_map {β : Type*} [DecidableEq β] (g : α → β) {m : List β}
    (hm : m.Perm (l.map g)) (h : a ∈ l) (o : Option α) :
    ((o.map g).toList ++ m.erase (g a)).Perm ((o.toList ++ l.erase a).map g) := by
  have hl := (hm.trans ((List.perm_cons_erase h).map g)).erase (g a)
  rw [List.map_cons, List.erase_cons_head] at hl
  rw [List.map_append, Option.toList_map]
  exact hl.append_left _

/-- What is in the pool after a step is new or was there. -/
theorem mem_swap (h : b ∈ o.toList ++ l.erase a) : o = some b ∨ b ∈ l := by
  rcases List.mem_append.1 h with h | h
  · exact .inl (Option.mem_toList.1 h)
  · exact .inr (List.mem_of_mem_erase h)

/-- A test that the step's own call passes as before is passed by all as before. -/
theorem all_swap (h : a ∈ l) {p : α → Bool} (hp : o.all p = p a) :
    (o.toList ++ l.erase a).all p = l.all p := by
  have hl : l.all p = (a :: l.erase a).all p := by
    rw [Bool.eq_iff_iff, List.all_eq_true, List.all_eq_true]
    exact ⟨fun h' x hx => h' x ((List.perm_cons_erase h).mem_iff.2 hx),
      fun h' x hx => h' x ((List.perm_cons_erase h).mem_iff.1 hx)⟩
  rw [hl, List.all_append, List.all_cons, ← hp]
  cases o <;> simp

omit [DecidableEq α] in
theorem eq_singleton_of_mem (hl : l.length ≤ 1) (h : a ∈ l) : l = [a] := by
  match l with
  | [] => cases h
  | [b] =>
    obtain rfl := List.mem_singleton.1 h
    rfl
  | _ :: _ :: _ => simp at hl

end Pool
