/-
# Requests and their answers in a history

A history, newest record first, in which some records are requests, some answers and
the others neither; `kind` tells them apart and gives each its content.  `pending` is
the content of the last request when no answer has come since, and `Matched` says
that a request is only made when none is pending and that every answer is one to a
request that is, with the same content.  In such a history what comes after a request
is settled up to the next: its answer, once (`answer_after`).
-/

import Mathlib.Data.Nat.Notation

namespace Rounds

/-- What a record is, with its content. -/
inductive Kind (κ : Type*)
  | req (k : κ)
  | ans (k : κ)
  | other
deriving DecidableEq, Repr

variable {ρ κ : Type*}

/-- The content of the last request, if there has been no answer since. -/
def pending (kind : ρ → Kind κ) : List ρ → Option κ
  | [] => none
  | r :: h =>
    match kind r with
    | .req k => some k
    | .ans _ => none
    | .other => pending kind h

/-- Requests and answers take turns, each answer with the content of its request. -/
def Matched (kind : ρ → Kind κ) : List ρ → Prop
  | [] => True
  | r :: h =>
    Matched kind h ∧
      match kind r with
      | .req _ => pending kind h = none
      | .ans k => pending kind h = some k
      | .other => True

variable {kind : ρ → Kind κ} {r : ρ} {h l₁ l₂ : List ρ} {k : κ}

theorem pending_req (hr : kind r = .req k) : pending kind (r :: h) = some k := by
  rw [pending, hr]

theorem pending_ans (hr : kind r = .ans k) : pending kind (r :: h) = none := by
  rw [pending, hr]

theorem pending_other (hr : kind r = .other) : pending kind (r :: h) = pending kind h := by
  rw [pending, hr]

theorem Matched.req (hm : Matched kind h) (hr : kind r = .req k) (hp : pending kind h = none) :
    Matched kind (r :: h) := by
  rw [Matched, hr]
  exact ⟨hm, hp⟩

theorem Matched.ans (hm : Matched kind h) (hr : kind r = .ans k)
    (hp : pending kind h = some k) : Matched kind (r :: h) := by
  rw [Matched, hr]
  exact ⟨hm, hp⟩

theorem Matched.other (hm : Matched kind h) (hr : kind r = .other) : Matched kind (r :: h) := by
  rw [Matched, hr]
  exact ⟨hm, trivial⟩

/-- **What follows a request.**  Either it is still pending and there is no answer
after it, or the first record after it that is a request or an answer is its answer,
with its content. -/
theorem Matched.answer_after (hr : kind r = .req k) (hm : Matched kind (l₂ ++ r :: l₁)) :
    (pending kind (l₂ ++ r :: l₁) = some k ∧ ∀ x ∈ l₂, kind x = .other) ∨
      ∃ m₂ a m₁, l₂ = m₂ ++ a :: m₁ ∧ kind a = .ans k ∧ ∀ x ∈ m₁, kind x = .other := by
  induction l₂ with
  | nil => exact .inl ⟨pending_req hr, fun x hx => absurd hx List.not_mem_nil⟩
  | cons x l₂ ih =>
    obtain ⟨hm, hx⟩ := hm
    rcases ih hm with ⟨hp, hother⟩ | ⟨m₂, a, m₁, rfl, ha, hm₁⟩
    · cases hk : kind x with
      | req k' =>
        -- a request can not follow one that is pending
        rw [hk] at hx
        have hx : pending kind (l₂ ++ r :: l₁) = none := hx
        rw [hp] at hx
        cases hx
      | ans k' =>
        rw [hk] at hx
        obtain rfl : k' = k := Option.some.inj (hx.symm.trans hp)
        exact .inr ⟨[], x, l₂, rfl, hk, hother⟩
      | other =>
        refine .inl ⟨(pending_other hk).trans hp, fun y hy => ?_⟩
        rcases List.mem_cons.1 hy with rfl | hy
        · exact hk
        · exact hother y hy
    · exact .inr ⟨x :: m₂, a, m₁, rfl, ha, hm₁⟩

/-- An answer has a request before it, with its content and nothing in between. -/
theorem Matched.request_before (hr : kind r = .ans k) (hm : Matched kind (l₂ ++ r :: l₁)) :
    ∃ m₂ q m₁, l₁ = m₂ ++ q :: m₁ ∧ kind q = .req k ∧ ∀ x ∈ m₂, kind x = .other := by
  have hp : pending kind l₁ = some k := by
    induction l₂ with
    | nil =>
      obtain ⟨-, hx⟩ := hm
      rw [hr] at hx
      exact hx
    | cons x l₂ ih => exact ih hm.1
  clear hm
  induction l₁ with
  | nil => cases hp
  | cons x l₁ ih =>
    cases hk : kind x with
    | req k' =>
      rw [pending_req hk] at hp
      obtain rfl := Option.some.inj hp
      exact ⟨[], x, l₁, rfl, hk, fun y hy => absurd hy List.not_mem_nil⟩
    | ans k' =>
      rw [pending_ans hk] at hp
      cases hp
    | other =>
      rw [pending_other hk] at hp
      obtain ⟨m₂, q, m₁, rfl, hq, hm₂⟩ := ih hp
      refine ⟨x :: m₂, q, m₁, rfl, hq, fun y hy => ?_⟩
      rcases List.mem_cons.1 hy with rfl | hy
      · exact hk
      · exact hm₂ y hy

end Rounds
