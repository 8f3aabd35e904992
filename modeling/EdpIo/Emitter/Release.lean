/-
# What is left of an emitter when it is destroyed

`emit_destroy` frees the emitter when it reads a pending count of zero.  The count may
stay above the number of events on their way, but it never falls below it
(`balanced_step`, with any rest), so the emitter has none at that moment; and when no call
of `emit_dispatch` on it is in progress nor starts, none comes after (`Released`).
-/

import EdpIo.Emitter.Count

namespace EdpIo
namespace EmitSys

variable {n : ℕ}

/-- `emit_destroy(em)` is in progress or has returned `0`. -/
def Closes (s : EmitSys n) (em : ℕ) : Prop :=
  (∃ d ∈ s.closing, d.em = em) ∨ .destroyed em 0 ∈ s.hist

/-- A call of `emit_dispatch(em, ..)` is in progress. -/
def Calls (s : EmitSys n) (em : ℕ) : Prop := ∃ c ∈ s.calls, c.call.em = em

instance (s : EmitSys n) (em : ℕ) : Decidable (s.Closes em) := inferInstanceAs (Decidable (_ ∨ _))

instance (s : EmitSys n) (em : ℕ) : Decidable (s.Calls em) :=
  inferInstanceAs (Decidable (∃ c ∈ s.calls, _))

/-- No call on an emitter starts once its destruction has, which itself starts when none is
in progress; and no event is dispatched again before its completion. -/
def Undisturbed (s : EmitSys n) : Act n → Prop
  | .dispatch em a _ _ => s.Idle a ∧ ¬ s.Closes em
  | .initEvent a _ _ => s.Idle a
  | .destroy em => ¬ s.Calls em
  | _ => True

instance (s : EmitSys n) : (a : Act n) → Decidable (s.Undisturbed a)
  | .dispatch _ _ _ _ => inferInstanceAs (Decidable (_ ∧ _))
  | .initEvent a _ _ => inferInstanceAs (Decidable (s.Idle a))
  | .destroy em => inferInstanceAs (Decidable (¬ s.Calls em))
  | .create _ _ | .addHandler _ _ _ | .rmvWatch _ _ | .call _ _ | .work _ | .handle _ _ | .stop _
  | .close _ => inferInstanceAs (Decidable True)

theorem fresh_of_undisturbed {s : EmitSys n} {a : Act n} (h : s.Undisturbed a) : s.Fresh a := by
  cases a <;> first | exact h.1 | exact h | trivial

/-! ### Loads and calls -/

/-- **Only a call on the emitter adds to its load.** -/
theorem load_step {s t : EmitSys n} {a : Act n} {em : ℕ} (htr : s.Tracked) (hcalls : ¬ s.Calls em)
    (h : EmitSys.step s a = some t) : t.emit.load em ≤ s.emit.load em := by
  cases step_cases h with
  | call c w hc e r hstep =>
    cases hstep with
    | queue hpc p hclass w =>
      have hmark : (s.mem c.call.ev.addr).evEmit = c.call.em := by
        rw [← htr.written c hc (by rw [EmitCall.written, show c.call.pc = .queueing from hpc])]
        rfl
      have hload := Emitters.load_enqueue s.emit w p (s.mem c.call.ev.addr) em
      rw [if_neg fun hfor => hcalls ⟨c, hc, hmark.symm.trans hfor.2⟩] at hload
      exact hload.le
    | signal w hpc => exact (Emitters.load_signal s.emit w em).le
    | refuse hpc e he hcheck => exact Nat.le_refl _
    | range hpc hclass => exact Nat.le_refl _
    | pass hpc e he hcheck => exact Nat.le_refl _
    | count hpc => exact Nat.le_refl _
  | work i e hwork =>
    rw [htr.fetch] at hwork
    exact (Emitters.load_work hwork em).1.le
  | handle i ret e hhandle =>
    rw [htr.fetch] at hhandle
    exact Emitters.load_handle hhandle em
  | stop i => exact (Emitters.load_of_held (Worker.held_stop _) em).le
  | addHandler em' type handler => exact (Emitters.load_congr (by simp) (by simp) em).le
  | rmvWatch em' type => exact (Emitters.load_congr (by simp) (by simp) em).le
  | close d hd e r hstep =>
    obtain ⟨hw, hp⟩ := hstep.workers
    cases r <;> exact (Emitters.load_congr hw hp em).le
  | create em' data _ | initEvent a type priority | dispatch em' a cb data | destroy em' =>
    exact Nat.le_refl _

/-- A step of a call is one on the same emitter. -/
theorem em_of_next {s e : Emitters n} {c d : EmitCall n} (h : c.Step s e (.next d)) :
    d.em = c.em := by
  cases h <;> rfl

/-- Calls on an emitter only start with a dispatch to it. -/
theorem calls_step {s t : EmitSys n} {a : Act n} {em : ℕ} (hcalls : ¬ s.Calls em)
    (hdisp : ∀ a' cb data, a ≠ .dispatch em a' cb data) (h : EmitSys.step s a = some t) :
    ¬ t.Calls em := by
  cases step_cases h with
  | dispatch em' a cb data =>
    rintro ⟨c, hc, heq⟩
    rcases List.mem_cons.1 hc with rfl | hc
    · obtain rfl : em' = em := heq
      exact hdisp a cb data rfl
    · exact hcalls ⟨c, hc, heq⟩
  | call c w hc e r hstep =>
    rintro ⟨x, hx, heq⟩
    cases r with
    | next d =>
      rcases List.mem_cons.1 hx with rfl | hx
      · exact hcalls ⟨c, hc, (em_of_next hstep).symm.trans heq⟩
      · exact hcalls ⟨x, List.mem_of_mem_erase hx, heq⟩
    | ret code => exact hcalls ⟨x, List.mem_of_mem_erase hx, heq⟩
  | close d hd e r hstep => cases r <;> exact hcalls
  | create em' data _ | addHandler em' type handler | rmvWatch em' type
  | initEvent a type priority | work i e hwork | handle i ret e hhandle | stop i | destroy em' =>
    exact hcalls

/-! ### Destructions in progress -/

/-- `emit_destroy(em)` has found no event pending. -/
def Tested (s : EmitSys n) (em : ℕ) : Prop :=
  (∃ d ∈ s.closing, d.em = em ∧ d.pc ≠ .testing) ∨ .destroyed em 0 ∈ s.hist

theorem Tested.closes {s : EmitSys n} {em : ℕ} (h : s.Tested em) : s.Closes em :=
  h.imp_left fun ⟨d, hd, heq, _⟩ => ⟨d, hd, heq⟩

/-- A record of a destruction is not one of a call or of a completion. -/
theorem destroyed_of_step {s t : EmitSys n} {a : Act n} {em : ℕ} (h : EmitSys.step s a = some t)
    (hd : .destroyed em 0 ∈ t.hist) :
    .destroyed em 0 ∈ s.hist ∨ a = .close ⟨em, .freeing⟩ ∧ ⟨em, .freeing⟩ ∈ s.closing := by
  cases step_cases h with
  | call c w hc e r hstep =>
    refine .inl ?_
    cases r with
    | next d =>
      refine (List.mem_append.1 hd).resolve_left fun hmem => ?_
      rw [EmitCall.obs] at hmem
      split at hmem <;> simp at hmem
    | ret code => simpa [advance, EmitCall.obs] using hd
  | handle i ret e hhandle =>
    refine .inl ((List.mem_append.1 hd).resolve_left fun hmem => ?_)
    cases hph : (s.emit.phases i).fetch s.mem <;> simp [hph, Phase.obs] at hmem
  | close d hdc e r hstep =>
    cases hstep with
    | busy em' e he hp => simpa [closed] using hd
    | free em' =>
      rcases List.mem_cons.1 hd with heq | hd
      · obtain ⟨rfl, -⟩ := EmitObs.destroyed.inj heq
        exact .inr ⟨rfl, hdc⟩
      · exact .inl hd
    | idle em' e he hp => exact .inl hd
    | uninit em' => exact .inl hd
  | create em' data _ | addHandler em' type handler | rmvWatch em' type
  | initEvent a type priority | dispatch em' a cb data | work i e hwork | stop i | destroy em' =>
    exact .inl hd

/-- Where a destruction in progress comes from. -/
theorem closing_of_step {s t : EmitSys n} {a : Act n} {d : EmitClose}
    (h : EmitSys.step s a = some t) (hd : d ∈ t.closing) :
    d ∈ s.closing ∨ a = .destroy d.em ∧ d.pc = .testing ∨
      ∃ d' ∈ s.closing, a = .close d' ∧ d.em = d'.em ∧
        (d'.pc = .testing → t.emit = s.emit ∧
          ∃ e, s.emit.emits.get? d.em = some e ∧ e.eePendings = 0) := by
  cases step_cases h with
  | destroy em =>
    rcases List.mem_cons.1 hd with rfl | hd
    · exact .inr (.inl ⟨rfl, rfl⟩)
    · exact .inl hd
  | close d' hdc e r hstep =>
    cases hstep with
    | busy em e he hp => exact .inl (List.mem_of_mem_erase hd)
    | free em => exact .inl (List.mem_of_mem_erase hd)
    | idle em e he hp =>
      rcases List.mem_cons.1 hd with rfl | hd
      · exact .inr (.inr ⟨_, hdc, rfl, rfl, fun _ => ⟨rfl, e, he, hp⟩⟩)
      · exact .inl (List.mem_of_mem_erase hd)
    | uninit em =>
      rcases List.mem_cons.1 hd with rfl | hd
      · exact .inr (.inr ⟨_, hdc, rfl, rfl, fun h => by cases h⟩)
      · exact .inl (List.mem_of_mem_erase hd)
  | call c w hc e r hstep => cases r <;> exact .inl hd
  | create em' data _ | addHandler em' type handler | rmvWatch em' type
  | initEvent a type priority | dispatch em' a cb data | work i e hwork | handle i ret e hhandle
  | stop i => exact .inl hd

theorem closes_of_step {s t : EmitSys n} {a : Act n} {em : ℕ} (h : EmitSys.step s a = some t)
    (hc : t.Closes em) : s.Closes em ∨ a = .destroy em := by
  rcases hc with ⟨d, hd, rfl⟩ | hd
  · rcases closing_of_step h hd with hd | ⟨rfl, -⟩ | ⟨d', hd', rfl, heq, -⟩
    · exact .inl (.inl ⟨d, hd, rfl⟩)
    · exact .inr rfl
    · exact .inl (.inl ⟨d', hd', heq.symm⟩)
  · rcases destroyed_of_step h hd with hd | ⟨-, hd⟩
    · exact .inl (.inr hd)
    · exact .inl (.inl ⟨_, hd, rfl⟩)

/-- A destruction passes its test on a pending count of zero. -/
theorem tested_of_step {s t : EmitSys n} {a : Act n} {em : ℕ} (h : EmitSys.step s a = some t)
    (ht : t.Tested em) :
    s.Tested em ∨ s.Closes em ∧ t.emit = s.emit ∧
      ∃ e, s.emit.emits.get? em = some e ∧ e.eePendings = 0 := by
  rcases ht with ⟨d, hd, rfl, hpc⟩ | hd
  · rcases closing_of_step h hd with hd | ⟨-, htest⟩ | ⟨d', hd', rfl, heq, htest⟩
    · exact .inl (.inl ⟨d, hd, rfl, hpc⟩)
    · exact absurd htest hpc
    · by_cases hpc' : d'.pc = .testing
      · obtain ⟨hemit, e, he, hp⟩ := htest hpc'
        exact .inr ⟨.inl ⟨d', hd', heq.symm⟩, hemit, e, he, hp⟩
      · exact .inl (.inl ⟨d', hd', heq.symm, hpc'⟩)
  · rcases destroyed_of_step h hd with hd | ⟨-, hd⟩
    · exact .inl (.inr hd)
    · exact .inl (.inl ⟨_, hd, rfl, fun h => by cases h⟩)

/-- An emitter that was created is allocated until it is destroyed. -/
def Lasting (s : EmitSys n) : Prop :=
  ∀ em, s.emit.emits.get? em ≠ none →
    s.emit.emits.isLive em = true ∨ .destroyed em 0 ∈ s.hist

/-- The blocks are those before the step, one of them written to at most. -/
def Writes (s t : Emitters n) : Prop :=
  t.emits = s.emits ∨ ∃ a f, t.emits = s.emits.modify a f

theorem writes_addHandler (s : Emitters n) (em : ℕ) (type : ℤ) (handler : Handler) :
    Writes s (s.emitAddHandler em type handler).1 := by
  unfold Emitters.emitAddHandler
  split
  · exact .inl rfl
  · exact .inr ⟨em, fun e => e.addHandler type handler, rfl⟩

theorem writes_call {s e : Emitters n} {c : EmitCall n} {r : EmitResult n} (h : c.Step s e r) :
    Writes s e := by
  cases h with
  | count hpc => exact .inr ⟨c.em, Emit.incPendings, rfl⟩
  | _ => exact .inl rfl

theorem writes_handle {s t : Emitters n} {i : Fin n} {ret : ℤ} (h : s.Handle i ret t) :
    Writes s t := by
  cases h with
  | decrement ev errcode hph => exact .inr ⟨ev.evEmit, Emit.decPendings, rfl⟩
  | _ => exact .inl rfl

theorem lasting_of_writes {s t : EmitSys n} (hs : s.Lasting) (hw : Writes s.emit t.emit)
    (hhist : ∀ em, .destroyed em 0 ∈ s.hist → .destroyed em 0 ∈ t.hist) : t.Lasting := by
  intro em hem
  rcases hw with hemits | ⟨a, f, hemits⟩
  · rw [hemits] at hem ⊢
    exact (hs em hem).imp_right (hhist em)
  · rw [hemits] at hem ⊢
    rw [BlockHeap.isLive_modify]
    refine (hs em fun h => hem ?_).imp_right (hhist em)
    by_cases hea : em = a
    · subst hea
      rw [BlockHeap.get?_modify_self, h]
      rfl
    · rwa [BlockHeap.get?_modify_of_ne _ _ hea]

theorem Lasting.step {s t : EmitSys n} {a : Act n} (hs : s.Lasting) (htr : s.Tracked)
    (h : EmitSys.step s a = some t) : t.Lasting := by
  cases step_cases h with
  | create em data hnone =>
    intro x hx
    by_cases hxe : x = em
    · subst hxe
      exact .inl (BlockHeap.isLive_alloc_self ..)
    · have hx : (s.emit.emits.alloc em (emitCreate data)).get? x ≠ none := hx
      rw [BlockHeap.get?_alloc_of_ne _ _ hxe] at hx
      exact (hs x hx).imp_left fun h => (BlockHeap.isLive_alloc_of_ne _ _ hxe).trans h
  | addHandler em type handler =>
    exact lasting_of_writes hs (writes_addHandler s.emit em type handler) fun _ => id
  | rmvWatch em type =>
    exact lasting_of_writes hs (writes_addHandler s.emit em type .default) fun _ => id
  | call c w hc e r hstep =>
    cases r <;>
      exact lasting_of_writes hs (writes_call hstep) fun _ h => List.mem_append_right _ h
  | work i e hwork =>
    rw [htr.fetch] at hwork
    exact lasting_of_writes hs (.inl (Emitters.load_work hwork 0).2) fun _ => id
  | handle i ret e hhandle =>
    rw [htr.fetch] at hhandle
    exact lasting_of_writes hs (writes_handle (Emitters.handle_cases hhandle))
      fun _ h => List.mem_append_right _ h
  | close d hd e r hstep =>
    cases hstep with
    | busy em e he hp => exact lasting_of_writes hs (.inl rfl) fun _ => List.mem_cons_of_mem _
    | idle em e he hp => exact lasting_of_writes hs (.inl rfl) fun _ => id
    | uninit em => exact lasting_of_writes hs (.inr ⟨em, Emit.uninit, rfl⟩) fun _ => id
    | free em =>
      intro x hx
      by_cases hxe : x = em
      · exact .inr (hxe ▸ List.mem_cons_self)
      · have hx : (s.emit.emits.free em).get? x ≠ none := hx
        rw [BlockHeap.get?_free] at hx
        exact (hs x hx).imp (fun h => (BlockHeap.isLive_free_of_ne _ hxe).trans h)
          (List.mem_cons_of_mem _)
  | initEvent a type priority | dispatch em' a cb data | stop i | destroy em' =>
    exact lasting_of_writes hs (.inl rfl) fun _ => id

/-! ### No event is left -/

/-- The invariant of the runs in which destructions are undisturbed. -/
structure Released (s : EmitSys n) : Prop where
  tracked : s.Tracked
  homed : s.Homed
  lasting : s.Lasting
  balanced : ∃ k, s.Balanced k
  calls : ∀ em, s.Closes em → ¬ s.Calls em
  load : ∀ em, s.Tested em → s.emit.load em = 0

theorem released_init : Released (init : EmitSys n) := by
  have hnot : ∀ em, ¬ (init : EmitSys n).Closes em := by
    rintro em (⟨d, hd, -⟩ | hd)
    · exact absurd hd List.not_mem_nil
    · exact absurd hd List.not_mem_nil
  exact ⟨tracked_init, homed_init, fun _ h => absurd rfl h, ⟨fun _ => 0, fun _ _ he => by cases he⟩,
    fun em h => absurd h (hnot em), fun em h => absurd h.closes (hnot em)⟩

theorem Released.step {s t : EmitSys n} {a : Act n} (hs : s.Released) (ha : s.Undisturbed a)
    (h : EmitSys.step s a = some t) : t.Released := by
  have htr := hs.tracked
  obtain ⟨k, hb⟩ := hs.balanced
  obtain ⟨k', hb', -⟩ := balanced_step htr hs.homed hb h
  refine ⟨htr.step (fresh_of_undisturbed ha) h, hs.homed.step htr h, hs.lasting.step htr h,
    ⟨k', hb'⟩, fun em hc => ?_, fun em ht => ?_⟩
  · -- an emitter that is being destroyed gets no call
    rcases closes_of_step h hc with hc | rfl
    · refine calls_step (hs.calls em hc) (fun a' cb data heq => ?_) h
      subst heq
      exact ha.2 hc
    · refine calls_step ha (fun a' cb data heq => ?_) h
      cases heq
  · rcases tested_of_step h ht with ht | ⟨hc, hemit, e, he, hp⟩
    · have hle := load_step htr (hs.calls em ht.closes) h
      have hzero := hs.load em ht
      omega
    · have hbe := hb em e he
      rw [hemit]
      omega

/-- What a destroyed emitter has left, and what is left of the others. -/
structure Safe (s : EmitSys n) : Prop where
  /-- No event of a destroyed emitter is in a queue or in a local list. -/
  queued : ∀ em, .destroyed em 0 ∈ s.hist →
    ∀ i, ∀ ev ∈ (s.emit.workers i).held, ev.evEmit ≠ em
  /-- No worker is in `emit_event_handler` for it before `atomic_dec`. -/
  handled : ∀ em, .destroyed em 0 ∈ s.hist →
    ∀ i ev, (s.emit.phases i).ev? = some ev → ev.evEmit ≠ em
  /-- The emitter that a worker is in `emit_event_handler` for is allocated. -/
  running : ∀ i ev, (s.emit.phases i).ev? = some ev → s.emit.emits.isLive ev.evEmit = true
  /-- So is that whose count a call of `emit_dispatch` is about to raise. -/
  counting : ∀ c ∈ s.calls, c.call.written = true → s.emit.emits.isLive c.call.em = true

theorem event?_of_ev? {p : Phase} {ev : EdpEvent} (h : p.ev? = some ev) : p.event? = some ev := by
  cases p <;> first | exact h | cases h

/-- **Nothing is left of a destroyed emitter.**  In every state of every run, on any number
of workers, in which no call of `emit_dispatch` on an emitter is in progress when its
destruction starts nor starts after that, and no event is dispatched again before its
completion: once `emit_destroy` has returned `0` no event of the emitter is queued and no
worker is in its handler, and handlers run and counts are raised only on emitters that are
allocated. -/
theorem destroyed_safe {acts : List (Act n)} {s : EmitSys n}
    (hu : StepSystem.Meets step Undisturbed init acts)
    (hrun : StepSystem.run step init acts = some s) : s.Safe := by
  have hs : s.Released :=
    StepSystem.run_invariant (fun _ _ _ hs ha h => hs.step ha h) released_init hu hrun
  have hload : ∀ em, .destroyed em 0 ∈ s.hist → s.emit.load em = 0 := fun em h =>
    hs.load em (.inr h)
  have hphase : ∀ em, .destroyed em 0 ∈ s.hist →
      ∀ i ev, (s.emit.phases i).ev? = some ev → ev.evEmit ≠ em := by
    intro em hd i ev hev heq
    have ho := Emitters.owes_eq_zero (hload em hd) i
    rw [Phase.owes, hev, if_pos (by simpa using heq)] at ho
    cases ho
  refine ⟨fun em hd i ev hev heq => ?_, hphase, fun i ev hev => ?_, fun c hc hw => ?_⟩
  · exact Emitters.not_forEmit_of_load (hload em hd) i ev hev
      ⟨(hs.tracked.carried ev ⟨i, .inl hev⟩).2, heq⟩
  · have hget := hs.homed.carried ev ⟨i, .inr (event?_of_ev? hev)⟩
    exact (hs.lasting _ hget).resolve_right fun hd => hphase _ hd i ev hev rfl
  · have hget := hs.homed.calls c hc hw
    exact (hs.lasting _ hget).resolve_right fun hd => hs.calls _ (.inr hd) ⟨c, hc, rfl⟩

/-- An emitter is destroyed between the `atomic_dec` for its last event and the call of the
completion: a run that meets the hypotheses of `destroyed_safe`. -/
theorem destroyed_safe_early :
    ∃ acts : List (Act 1), ∃ s, StepSystem.run step init acts = some s ∧
      s.hist = [.destroyed 1 0, .returned 0 1 5 3 0 0, .queued 0 1 5 3 0] ∧ s.Safe := by
  let ev : ℕ → ℕ → ℕ → EdpEvent := fun cb em h => ⟨5, 0, 1, -1, cb, 0, em, h⟩
  let acts : List (Act 1) := [Act.create 1 0, .addHandler 1 0 (.fn 7), .initEvent 5 0 1,
    .dispatch 1 5 3 0, .call ⟨0, 1, ev 0 0 0, 3, 0, .checking⟩ none,
    .call ⟨0, 1, ev 3 1 1, 3, 0, .counting⟩ none,
    .call ⟨0, 1, ev 3 1 1, 3, 0, .queueing⟩ (some 0),
    .call ⟨0, 1, ev 3 1 1, 3, 0, .signalling 0⟩ none] ++
    List.replicate 10 (Act.work 0) ++ List.replicate 3 (Act.handle 0 0) ++
    [Act.destroy 1, .close ⟨1, .testing⟩, .close ⟨1, .uniniting⟩, .close ⟨1, .freeing⟩]
  have hrun : (StepSystem.run step init acts).map hist =
      some [.destroyed 1 0, .returned 0 1 5 3 0 0, .queued 0 1 5 3 0] := by decide +kernel
  obtain ⟨s, hs, hh⟩ := Option.map_eq_some_iff.1 hrun
  exact ⟨acts, s, hs, hh, destroyed_safe (by decide +kernel) hs⟩

end EmitSys
end EdpIo
