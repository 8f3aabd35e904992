/-
# Runs of a partial step function

A system is a step function `step : σ → α → Option σ`: `none` says that the
action is not possible in the state (or ends the program, as a failed assertion
does).  `run` folds it over a list of actions, so the states reached by any
interleaving of several parties are those of the runs over any list of their
actions.  `Meets C` is the condition `C` on every step a run takes, stated about
the state before the step and the action; `run_invariant` is the induction over
runs that every safety result of a system uses, and `meets_of_not` goes the other way: from how a
run ends to the condition on its steps.  `Always P` is the property `P` in every state
a run passes through, and `always_iff_meets` compares the two.  `run_simulates` relates the
runs of two systems, where a step of the one is any number of steps of the other, and
`run_simulates_meets` those whose steps meet conditions.
-/

import Mathlib.Logic.Basic
import Mathlib.Data.Option.Basic

namespace StepSystem

variable {σ α : Type*}

/-- The state after the actions `as` from `s`, if all of them are possible. -/
def run (step : σ → α → Option σ) : σ → List α → Option σ
  | s, [] => some s
  | s, a :: as =>
    match step s a with
    | none => none
    | some t => run step t as

/-- Every step that the run of `as` from `s` takes meets `C`. -/
def Meets (step : σ → α → Option σ) (C : σ → α → Prop) : σ → List α → Prop
  | _, [] => True
  | s, a :: as =>
    C s a ∧
      match step s a with
      | none => True
      | some t => Meets step C t as

instance (step : σ → α → Option σ) (C : σ → α → Prop) [∀ s a, Decidable (C s a)] :
    ∀ s as, Decidable (Meets step C s as)
  | _, [] => inferInstanceAs (Decidable True)
  | s, a :: as =>
    have : Decidable (match step s a with | none => True | some t => Meets step C t as) :=
      match step s a with
      | none => inferInstanceAs (Decidable True)
      | some t => instDecidableMeets step C t as
    inferInstanceAs (Decidable (_ ∧ _))

/-- Every state that the run of `as` from `s` passes through has `P`. -/
def Always (step : σ → α → Option σ) (P : σ → Prop) : σ → List α → Prop
  | s, [] => P s
  | s, a :: as =>
    P s ∧
      match step s a with
      | none => True
      | some t => Always step P t as

variable {step : σ → α → Option σ} {C : σ → α → Prop}

theorem run_cons {s s' : σ} {a : α} {as : List α} :
    run step s (a :: as) = some s' ↔ ∃ t, step s a = some t ∧ run step t as = some s' := by
  rw [run]
  cases step s a <;> simp

/-- Runs one after the other. -/
theorem run_append {s t : σ} {as : List α} (h : run step s as = some t) (bs : List α) :
    run step s (as ++ bs) = run step t bs := by
  induction as generalizing s with
  | nil =>
    obtain rfl := Option.some.inj h
    rfl
  | cons a as ih =>
    obtain ⟨u, hu, h⟩ := run_cons.1 h
    rw [List.cons_append, run, hu]
    exact ih h

/-- **The induction over runs.**  What holds at the start and is preserved by
every step that meets the condition holds at the end of every run whose steps
meet it. -/
theorem run_invariant {I : σ → Prop}
    (hstep : ∀ s a t, I s → C s a → step s a = some t → I t) {s s' : σ} {as : List α}
    (hs : I s) (hC : Meets step C s as) (hrun : run step s as = some s') : I s' := by
  induction as generalizing s with
  | nil =>
    obtain rfl : s = s' := by simpa [run] using hrun
    exact hs
  | cons a as ih =>
    obtain ⟨t, ht, hrun⟩ := run_cons.1 hrun
    obtain ⟨ha, hC⟩ := hC
    rw [ht] at hC
    exact ih (hstep s a t hs ha ht) hC hrun

/-- **Forward simulation.**  If every step from related states is a run of the other system
between related states, so is every run. -/
theorem run_simulates {τ β : Type*} {step' : τ → β → Option τ} {R : σ → τ → Prop}
    (hstep : ∀ s a t c, R s c → step s a = some t → ∃ bs d, run step' c bs = some d ∧ R t d)
    {s t : σ} {c : τ} {as : List α} (hR : R s c) (hrun : run step s as = some t) :
    ∃ bs d, run step' c bs = some d ∧ R t d := by
  induction as generalizing s c with
  | nil =>
    obtain rfl := Option.some.inj hrun
    exact ⟨[], c, rfl, hR⟩
  | cons a as ih =>
    obtain ⟨u, hu, hrun⟩ := run_cons.1 hrun
    obtain ⟨bs, d, hd, hRu⟩ := hstep s a u c hR hu
    obtain ⟨bs', d', hd', hRt⟩ := ih hRu hrun
    exact ⟨bs ++ bs', d', (run_append hd bs').trans hd', hRt⟩

/-- One more step meets what it meets. -/
theorem Meets.cons {s t : σ} {a : α} {as : List α} (ha : C s a) (ht : step s a = some t)
    (h : Meets step C t as) : Meets step C s (a :: as) := by
  refine ⟨ha, ?_⟩
  rw [ht]
  exact h

theorem Meets.one {s t : σ} {a : α} (ha : C s a) (ht : step s a = some t) :
    Meets step C s [a] := Meets.cons ha ht trivial

/-- Runs one after the other meet what both meet. -/
theorem Meets.append {s t : σ} {as bs : List α} (ha : Meets step C s as)
    (hrun : run step s as = some t) (hb : Meets step C t bs) : Meets step C s (as ++ bs) := by
  induction as generalizing s with
  | nil =>
    obtain rfl := Option.some.inj hrun
    exact hb
  | cons a as ih =>
    obtain ⟨u, hu, hrun⟩ := run_cons.1 hrun
    obtain ⟨hC, ha⟩ := ha
    rw [hu] at ha
    exact Meets.cons hC hu (ih ha hrun)

/-- **Forward simulation under conditions.**  The steps that meet `C` are runs of the other
system whose steps meet `D`. -/
theorem run_simulates_meets {τ β : Type*} {step' : τ → β → Option τ} {D : τ → β → Prop}
    {R : σ → τ → Prop}
    (hstep : ∀ s a t c, R s c → C s a → step s a = some t →
      ∃ bs d, run step' c bs = some d ∧ Meets step' D c bs ∧ R t d)
    {s t : σ} {c : τ} {as : List α} (hR : R s c) (hC : Meets step C s as)
    (hrun : run step s as = some t) :
    ∃ bs d, run step' c bs = some d ∧ Meets step' D c bs ∧ R t d := by
  induction as generalizing s c with
  | nil =>
    obtain rfl := Option.some.inj hrun
    exact ⟨[], c, rfl, trivial, hR⟩
  | cons a as ih =>
    obtain ⟨u, hu, hrun⟩ := run_cons.1 hrun
    obtain ⟨ha, hC⟩ := hC
    rw [hu] at hC
    obtain ⟨bs, d, hd, hbs, hRu⟩ := hstep s a u c hR ha hu
    obtain ⟨bs', d', hd', hbs', hRt⟩ := ih hRu hC hrun
    exact ⟨bs ++ bs', d', (run_append hd bs').trans hd', hbs.append hd hbs', hRt⟩

/-- Every run meets the condition that always holds. -/
theorem meets_true (s : σ) (as : List α) : Meets step (fun _ _ => True) s as := by
  induction as generalizing s with
  | nil => trivial
  | cons a as ih =>
    refine ⟨trivial, ?_⟩
    cases step s a with
    | none => trivial
    | some t => exact ih t

/-- Two conditions at once. -/
theorem Meets.and {D : σ → α → Prop} {s : σ} {as : List α} (hC : Meets step C s as)
    (hD : Meets step D s as) : Meets step (fun s a => C s a ∧ D s a) s as := by
  induction as generalizing s with
  | nil => trivial
  | cons a as ih =>
    obtain ⟨hc, hC⟩ := hC
    obtain ⟨hd, hD⟩ := hD
    refine ⟨⟨hc, hd⟩, ?_⟩
    cases ht : step s a with
    | none => trivial
    | some t =>
      rw [ht] at hC hD
      exact ih hC hD

/-- The induction over runs where no condition is put on the steps. -/
theorem run_preserves {I : σ → Prop} (hstep : ∀ s a t, I s → step s a = some t → I t)
    {s s' : σ} {as : List α} (hs : I s) (hrun : run step s as = some s') : I s' :=
  run_invariant (fun s a t h _ => hstep s a t h) hs (meets_true s as) hrun

/-- **What a run that ends well cannot have done.**  If a step that fails `D` leads
to `B`, and `B` is kept from then on, then a run that ends outside `B` meets `D`. -/
theorem meets_of_not {I B : σ → Prop} {D : σ → α → Prop}
    (hI : ∀ s a t, I s → C s a → step s a = some t → I t)
    (hD : ∀ s a t, I s → C s a → ¬ D s a → step s a = some t → B t)
    (hB : ∀ s a t, B s → C s a → step s a = some t → B t) {s s' : σ} {as : List α}
    (hs : I s) (hC : Meets step C s as) (hrun : run step s as = some s') (hend : ¬ B s') :
    Meets step D s as := by
  induction as generalizing s with
  | nil => trivial
  | cons a as ih =>
    obtain ⟨t, ht, hrun⟩ := run_cons.1 hrun
    obtain ⟨ha, hC⟩ := hC
    rw [ht] at hC
    refine ⟨?_, ?_⟩
    · refine Classical.not_not.1 fun hna => hend ?_
      exact run_invariant hB (hD s a t hs ha hna ht) hC hrun
    · rw [ht]
      exact ih (hI s a t hs ha ht) hC hrun

/-- Every step of a run that goes to its end is possible. -/
theorem meets_possible {s s' : σ} {as : List α} (hrun : run step s as = some s') :
    Meets step (fun s a => step s a ≠ none) s as := by
  induction as generalizing s with
  | nil => trivial
  | cons a as ih =>
    obtain ⟨t, ht, hrun⟩ := run_cons.1 hrun
    refine ⟨by simp [ht], ?_⟩
    rw [ht]
    exact ih hrun

/-- **Two conditions on the steps of a run.**  If `C` and `D` agree on every step from a
state of an invariant that the steps meeting `C` keep, then a run meets one exactly
when it meets the other. -/
theorem meets_iff {I : σ → Prop} {A D : σ → α → Prop}
    (hCD : ∀ s a, I s → A s a → (C s a ↔ D s a))
    (hI : ∀ s a t, I s → A s a → C s a → step s a = some t → I t) {s : σ} {as : List α}
    (hs : I s) (hA : Meets step A s as) : Meets step C s as ↔ Meets step D s as := by
  induction as generalizing s with
  | nil => exact Iff.rfl
  | cons a as ih =>
    obtain ⟨ha, hA⟩ := hA
    have hiff := hCD s a hs ha
    rw [Meets, Meets]
    cases ht : step s a with
    | none => exact and_congr_left fun _ => hiff
    | some t =>
      rw [ht] at hA
      constructor
      · rintro ⟨hC, hm⟩
        exact ⟨hiff.1 hC, (ih (hI s a t hs ha hC ht) hA).1 hm⟩
      · rintro ⟨hD, hm⟩
        exact ⟨hiff.2 hD, (ih (hI s a t hs ha (hiff.2 hD) ht) hA).2 hm⟩

theorem Always.head {P : σ → Prop} {s : σ} {as : List α} (h : Always step P s as) : P s := by
  cases as with
  | nil => exact h
  | cons a as => exact h.1

/-- **When a property holds all along a run.**  If it follows from an invariant that
the steps meeting `C` keep, and fails after a step that does not meet `C`, then it
holds in every state of a run exactly when every step of the run meets `C`. -/
theorem always_iff_meets {I P : σ → Prop} (hP : ∀ s, I s → P s)
    (hI : ∀ s a t, I s → C s a → step s a = some t → I t)
    (hN : ∀ s a t, I s → ¬ C s a → step s a = some t → ¬ P t) {s s' : σ} {as : List α}
    (hs : I s) (hrun : run step s as = some s') : Always step P s as ↔ Meets step C s as := by
  induction as generalizing s with
  | nil => exact ⟨fun _ => trivial, fun _ => hP s hs⟩
  | cons a as ih =>
    obtain ⟨t, ht, hrun⟩ := run_cons.1 hrun
    rw [Always, Meets, ht]
    constructor
    · rintro ⟨_, hal⟩
      have hC : C s a := Classical.not_not.1 fun hC => hN s a t hs hC ht hal.head
      exact ⟨hC, (ih (hI s a t hs hC ht) hrun).1 hal⟩
    · rintro ⟨hC, hm⟩
      exact ⟨hP s hs, (ih (hI s a t hs hC ht) hrun).2 hm⟩

end StepSystem
