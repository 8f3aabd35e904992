/-
# Runs with an observer

A property of a run that the states do not record, such as how often something
happened since something else did, is stated with an observer: `watch step note` runs
the system and updates what is noted with every step.  The observer neither blocks a
step nor changes it, so what holds of every watched run holds of every run.
-/

import EdpIo.Lib.Run

namespace StepSystem

variable {σ α μ : Type*}

/-- The system with an observer; `note s a t m` is what is noted after the step `a` from
`s` to `t`. -/
def watch (step : σ → α → Option σ) (note : σ → α → σ → μ → μ) (s : σ × μ) (a : α) :
    Option (σ × μ) :=
  (step s.1 a).map fun t => (t, note s.1 a t s.2)

variable {step : σ → α → Option σ} {note : σ → α → σ → μ → μ}

theorem watch_eq_some {s t : σ × μ} {a : α} :
    watch step note s a = some t ↔ step s.1 a = some t.1 ∧ t.2 = note s.1 a t.1 s.2 := by
  rw [watch, Option.map_eq_some_iff]
  constructor
  · rintro ⟨u, hu, rfl⟩
    exact ⟨hu, rfl⟩
  · rintro ⟨ht, hn⟩
    exact ⟨t.1, ht, Prod.ext rfl hn.symm⟩

/-- A condition on the steps of the system is one on those of the watched system. -/
theorem meets_watch {C : σ → α → Prop} {s : σ} {as : List α} (m : μ) (h : Meets step C s as) :
    Meets (watch step note) (fun s a => C s.1 a) (s, m) as := by
  induction as generalizing s m with
  | nil => trivial
  | cons a as ih =>
    obtain ⟨ha, h⟩ := h
    refine ⟨ha, ?_⟩
    rw [watch]
    cases hs : step s a with
    | none => trivial
    | some t =>
      rw [hs] at h
      exact ih (note s a t m) h

/-- **The induction over watched runs.** -/
theorem watch_invariant {C : σ → α → Prop} {I : σ → μ → Prop}
    (hstep : ∀ s m a t, I s m → C s a → step s a = some t → I t (note s a t m)) {s s' : σ}
    {m m' : μ} {as : List α} (hs : I s m) (hC : Meets step C s as)
    (hrun : run (watch step note) (s, m) as = some (s', m')) : I s' m' := by
  refine run_invariant (I := fun s => I s.1 s.2) (fun s a t hi ha ht => ?_) hs (meets_watch m hC)
    hrun
  obtain ⟨ht, hn⟩ := watch_eq_some.1 ht
  rw [hn]
  exact hstep s.1 s.2 a t.1 hi ha ht

end StepSystem
