/-
# Whether readable data is forgotten

Data in the kernel is remembered by the `READ` bit or by somebody on the way to set
it: an edge, an event, or a run of the handler before its section (`Notified`).  All
steps keep that but one.  A failed read clears `READ` in a section of its own, after
the kernel read, and does not look again: data that came in between, with its event
handled while `READ` was still set, is left with `READ` clear and nobody on the way
(`data_forgotten`).  A read that fails otherwise than by `EAGAIN`, with data there,
does the same.

`data_remembered` holds of every run in which each clearing finds the kernel without
data or somebody on the way (`Covered`), and a clearing that does not leaves the data
forgotten until more arrives (`Forgotten.run`).
-/

import EdpIo.Sock.Read

namespace EdpIo
namespace RecvSys

/-- Between operations, unread data has `READ` set. -/
def Remembers (s : RecvSys) : Prop := s.Quiet → s.unread ≠ 0 → s.read = true

/-- The step clears `READ` only without data or with somebody on the way to set it. -/
def Covered (s : RecvSys) : Act → Prop
  | .reader (.clearing _ _) _ => s.unread = 0 ∨ s.Notified
  | _ => True

instance (s : RecvSys) : Decidable s.Remembers := inferInstanceAs (Decidable (_ → _ → _))

instance (s : RecvSys) (a : Act) : Decidable (s.Covered a) := by
  unfold Covered
  split <;> infer_instance

/-- The invariant: unread data has `READ` set or somebody on the way to set it. -/
def Kept (s : RecvSys) : Prop := s.unread ≠ 0 → s.read = true ∨ s.Notified

theorem kept_init (connect : Bool) : Kept (init connect) := fun h => absurd rfl h

/-- A run of the handler is replaced by what is left of it; if it had still to set
`READ` and has no more, it has set it. -/
theorem notified_swap {s : RecvSys} {f : InFrame} {f' : Option InFrame} {read : Bool}
    (h : InFrame.Step s.connect s.read f read f') (hor : s.read = true ∨ s.Notified) :
    read = true ∨
      Notified { s with read := read, handlers := f'.toList ++ s.handlers.erase f } := by
  have hold : ∀ {g : InFrame}, g ∈ s.handlers → g ≠ f → g ∈ f'.toList ++ s.handlers.erase f :=
    fun hg hne => List.mem_append_right _ ((List.mem_erase_of_ne hne).2 hg)
  rcases hor with hr | he | hi | ⟨g, hg, hset⟩
  · left
    cases h with
    | set | quiet => rfl
    | connected | call | return_ => exact hr
  · exact .inr (.inl he)
  · exact .inr (.inr (.inl hi))
  · by_cases hgf : g = f
    · subst hgf
      cases h with
      | connected => exact .inr (.inr (.inr ⟨.locking, List.mem_cons_self, rfl⟩))
      | set | quiet => exact .inl rfl
      | call | return_ => cases hset
    · exact .inr (.inr (.inr ⟨g, hold hg hgf, hset⟩))

theorem Kept.step {s t : RecvSys} {a : Act} (hs : s.Kept) (ha : s.Covered a)
    (h : RecvSys.step s a = some t) : t.Kept := by
  cases step_cases h with
  | arrive n => exact fun _ => .inr (.inl (Nat.succ_ne_zero _))
  | deliver he => exact fun _ => .inr (.inr (.inl (Nat.succ_ne_zero _)))
  | handle hi => exact fun _ => .inr (.inr (.inr ⟨.enter, List.mem_cons_self, rfl⟩))
  | call t => exact hs
  | reader f k hf hk read f' l hstep =>
    cases hstep with
    | ready | unready | fail => exact hs
    | take io t hret =>
      intro hun
      have hun : s.unread - (t.read k).toNat ≠ 0 := hun
      exact hs (by omega)
    | clear io ret =>
      intro hun
      exact ha.elim (fun h0 => absurd h0 hun) .inr
  | handler f hf read f' hstep => exact fun hun => notified_swap hstep (hs hun)

/-- With everything quiet nobody is on the way. -/
theorem Quiet.not_notified {s : RecvSys} (h : s.Quiet) : ¬ s.Notified := by
  obtain ⟨-, hh, he, hi⟩ := h
  rintro (h | h | ⟨f, hf, -⟩)
  · exact h he
  · exact h hi
  · rw [hh] at hf
    cases hf

/-- **No readable data is forgotten while no read clears `READ` under it.**  For every
run of any number of reads and runs of the handler, with data arriving at any time, in
which each section that clears `READ` finds the kernel without data or an edge, an
event or a run of the handler that has still to set `READ`: whenever no edge and no
event is outstanding and no call in progress, unread data has `READ` set. -/
theorem data_remembered {connect : Bool} {acts : List Act} {s : RecvSys}
    (ha : StepSystem.Meets step Covered (init connect) acts)
    (hrun : StepSystem.run step (init connect) acts = some s) : s.Remembers := by
  have hs : s.Kept :=
    StepSystem.run_invariant (fun _ _ _ hs ha h => hs.step ha h) (kept_init connect) ha hrun
  exact fun hq hun => (hs hun).resolve_right hq.not_notified

/-- Data comes between a read's `EAGAIN` and its clearing of `READ`, and its edge after
that: a run that meets the hypotheses of `data_remembered` and has a clearing with data
in the kernel. -/
theorem data_remembered_late :
    ∃ acts s, StepSystem.run step (init true) acts = some s ∧ s.Quiet ∧ s.unread = 3 ∧
      s.Remembers :=
  have hrun := Eq.refl (StepSystem.run step (init true)
    [.arrive 4, .deliver, .handle, .handler .enter, .handler .locking, .handler .ready,
      .call .ptr, .reader (.enter 0 .ptr) ⟨0, 0⟩, .reader (.reading 0 .ptr) ⟨5, 0⟩,
      .call .ptr, .reader (.enter 1 .ptr) ⟨0, 0⟩, .reader (.reading 1 .ptr) ⟨-1, 11⟩, .arrive 2,
      .reader (.clearing 1 (-11)) ⟨0, 0⟩, .handler .inCb, .deliver, .handle, .handler .enter,
      .handler .locking, .handler .ready, .handler .inCb])
  ⟨_, _, hrun, by decide, rfl, data_remembered (by decide) hrun⟩

/-- **Data is forgotten.**  A read gets `EAGAIN`; data arrives and its event is handled,
which finds `READ` set and calls nobody; then the read clears `READ`. -/
theorem data_forgotten :
    ¬ ∀ acts s, StepSystem.run step (init true) acts = some s → s.Remembers := by
  intro h
  have hrun := Eq.refl (StepSystem.run step (init true)
    [.arrive 4, .deliver, .handle, .handler .enter, .handler .locking, .handler .ready,
      .call .ptr, .reader (.enter 0 .ptr) ⟨0, 0⟩, .reader (.reading 0 .ptr) ⟨5, 0⟩,
      .call .ptr, .reader (.enter 1 .ptr) ⟨0, 0⟩, .reader (.reading 1 .ptr) ⟨-1, 11⟩, .arrive 2,
      .deliver, .handle, .handler .enter, .handler .locking,
      .reader (.clearing 1 (-11)) ⟨0, 0⟩, .handler .inCb])
  exact absurd (h _ _ hrun (by decide) (by decide)) (by decide)

/-- Data is in the kernel, `READ` is clear, and nobody is past the test of `READ` or on
the way to set it. -/
structure Forgotten (s : RecvSys) : Prop where
  unread : s.unread ≠ 0
  read : s.read = false
  alone : ¬ s.Notified
  tests : ∀ f ∈ s.readers, f.tests = true

/-- A clearing that is not covered, of the last call past the test, forgets. -/
theorem forgotten_of_clear {s t : RecvSys} {io : Io} {ret : ℤ} {k : KernelRead}
    (ha : ¬ s.Covered (.reader (.clearing io ret) k))
    (hlast : ∀ f ∈ s.readers.erase (.clearing io ret), f.tests = true)
    (h : step s (.reader (.clearing io ret) k) = some t) : t.Forgotten := by
  have ha := not_or.1 ha
  cases step_cases h with
  | reader f k hf hk read f' l hstep =>
    cases hstep
    exact ⟨ha.1, rfl, ha.2, hlast⟩

/-- Every step but an arrival leaves forgotten data forgotten. -/
theorem Forgotten.step {s t : RecvSys} {a : Act} (hs : s.Forgotten) (ha : ∀ n, a ≠ .arrive n)
    (h : RecvSys.step s a = some t) : t.Forgotten := by
  obtain ⟨hun, hread, halone, htests⟩ := hs
  cases step_cases h with
  | arrive n => exact absurd rfl (ha n)
  | deliver he => exact absurd (.inl he) halone
  | handle hi => exact absurd (.inr (.inl hi)) halone
  | call t =>
    exact ⟨hun, hread, halone, List.forall_mem_cons.2 ⟨rfl, htests⟩⟩
  | reader f k hf hk read f' l hstep =>
    have hrest : ∀ g ∈ s.readers.erase f, g.tests = true :=
      fun g hg => htests g (List.mem_of_mem_erase hg)
    cases hstep with
    | ready io t hr =>
      rw [hread] at hr
      cases hr
    | unready io t hr => exact ⟨hun, hread, halone, hrest⟩
    | take | fail | clear => cases htests _ hf
  | handler f hf read f' hstep =>
    have hrest : ∀ g ∈ s.handlers.erase f, g.sets = false := fun g hg =>
      Bool.eq_false_iff.2 fun hset => halone (.inr (.inr ⟨g, List.mem_of_mem_erase hg, hset⟩))
    have hf : f.sets = false := Bool.eq_false_iff.2 fun hset => halone (.inr (.inr ⟨f, hf, hset⟩))
    refine ⟨hun, ?_, ?_, htests⟩
    · cases hstep with
      | connected | set | quiet => cases hf
      | call | return_ => exact hread
    · rintro (he | hi | ⟨g, hg, hset⟩)
      · exact halone (.inl he)
      · exact halone (.inr (.inl hi))
      · rcases Pool.mem_swap hg with rfl | hg
        · cases hstep with
          | connected => cases hf
          | set => cases hf
          | call => cases hset
        · exact halone (.inr (.inr ⟨g, hg, hset⟩))

/-- **Forgotten data stays forgotten** in every run until more data arrives. -/
theorem Forgotten.run {s t : RecvSys} {acts : List Act} (hs : s.Forgotten)
    (ha : StepSystem.Meets RecvSys.step (fun _ a => ∀ n, a ≠ .arrive n) s acts)
    (hrun : StepSystem.run RecvSys.step s acts = some t) : t.Forgotten :=
  StepSystem.run_invariant (fun _ _ _ hs ha h => hs.step ha h) hs ha hrun

end RecvSys
end EdpIo
