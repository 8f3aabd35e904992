/-
# What a success callback says

The only call of an io's callback with the error code `0` is that of the `EPOLLOUT`
handler, which takes the io from `es_write` and calls it done.  An io is left in
`es_write` exactly when the kernel did not take its data, so on one worker such a
callback is always wrong: the io is not offered again before it (`reported_unsent`).

`sent_iff` is the exact condition for the runs on one worker: what is reported done
was sent, in every state of a run, if no handler finds an io in `es_write`; and only
then, of the runs that are left with no operation in progress.
-/

import EdpIo.Sock.Account

namespace EdpIo

/-- Every success callback comes after a kernel write that accepted data of its io. -/
def Sent (hist : List IoObs) : Prop :=
  ∀ (l₂ l₁ : List IoObs) (io : Io), hist = l₂ ++ .called io 0 :: l₁ → 0 < acceptedCount io l₁

/-- The error code of a callback is not `0`. -/
def SockLabel.NonZero : SockLabel → Prop
  | .call _ errcode => errcode ≠ 0
  | _ => True

/-- What the call passes to the callback is not `0`. -/
def WriteFrame.NonZero : WriteFrame → Prop
  | .wrote _ ret | .calling _ ret => ret ≠ 0
  | _ => True

/-- The run passes no `0` to a callback. -/
def HandlerFrame.NonZero : HandlerFrame → Prop
  | .wrote _ _ ret | .calling _ _ ret => ret ≠ 0
  | .taken _ => False
  | _ => True

theorem WriteFrame.Step.nonZero {s s' : SockIo} {k : KernelWrite} {f : WriteFrame}
    {f' : Option WriteFrame} {l : SockLabel} (h : WriteFrame.Step s k f s' f' l)
    (hf : f.NonZero) : (∀ g, f' = some g → g.NonZero) ∧ l.NonZero := by
  cases h <;> simp_all [WriteFrame.NonZero, SockLabel.NonZero]

/-- A handler that finds no io in `es_write` passes on no `0`. -/
theorem HandlerFrame.Step.nonZero {s s' : SockIo} {k : KernelWrite} {f : HandlerFrame}
    {f' : Option HandlerFrame} {l : SockLabel} (h : HandlerFrame.Step s k f s' f' l)
    (hf : f.NonZero) (hfree : f = .locking → s.esWrite = none) :
    (∀ g, f' = some g → g.NonZero) ∧ l.NonZero := by
  cases h <;> simp_all [HandlerFrame.NonZero, SockLabel.NonZero]

namespace SockSys

/-- The handler finds no io in `es_write`. -/
def Free (s : SockSys) : Act → Prop
  | .handler f _ => f = .locking → s.sock.esWrite = none
  | _ => True

instance (s : SockSys) : (a : Act) → Decidable (s.Free a)
  | .handler _ _ => inferInstanceAs (Decidable (_ → _))
  | .submit | .edge _ | .handle | .writer _ _ _ => inferInstanceAs (Decidable True)

/-! ### No io is reported done -/

theorem called_of_record {s : SockSys} {alloc : Bool} {l : SockLabel} (hl : l.NonZero) {io : Io}
    (h : .called io 0 ∈ (s.record alloc l).hist) : .called io 0 ∈ s.hist := by
  cases l with
  | tau => exact h
  | attempt j k => simpa [record] using h
  | call j errcode =>
    rcases List.mem_cons.1 h with h | h
    · obtain ⟨-, rfl⟩ := IoObs.called.inj h
      exact absurd rfl hl
    · exact h
  | dispatch => exact h

/-- No success callback was called and none is to come of the calls in progress. -/
structure Silent (s : SockSys) : Prop where
  writers : ∀ f ∈ s.writers, f.NonZero
  handlers : ∀ f ∈ s.handlers, f.NonZero
  hist : ∀ io, .called io 0 ∉ s.hist

theorem silent_init (b : Bool) : Silent (init b) :=
  ⟨fun _ h => absurd h List.not_mem_nil, fun _ h => absurd h List.not_mem_nil,
    fun _ h => absurd h List.not_mem_nil⟩

theorem Silent.step {s t : SockSys} {a : Act} (hs : s.Silent) (ha : s.Free a)
    (h : SockSys.step s a = some t) : t.Silent := by
  obtain ⟨hw, hh, hist⟩ := hs
  cases step_cases h with
  | submit =>
    refine ⟨fun f hf => ?_, hh, hist⟩
    rcases List.mem_cons.1 hf with rfl | hf
    · trivial
    · exact hw f hf
  | edge alloc => exact ⟨hw, hh, hist⟩
  | handle h0 =>
    refine ⟨hw, fun f hf => ?_, hist⟩
    rcases List.mem_cons.1 hf with rfl | hf
    · trivial
    · exact hh f hf
  | writer f k alloc hf sock f' l hstep =>
    obtain ⟨hnew, hl⟩ := hstep.nonZero (hw f hf)
    refine ⟨fun g hg => ?_, by simpa using hh, fun io hio => ?_⟩
    swap
    · have := called_of_record hl hio
      exact hist io this
    rw [record_writers] at hg
    rcases Pool.mem_swap hg with hg | hg
    · exact hnew g hg
    · exact hw g hg
  | handler f k hf sock f' l hstep =>
    obtain ⟨hnew, hl⟩ := hstep.nonZero (hh f hf) ha
    refine ⟨by simpa using hw, fun g hg => ?_, fun io hio => ?_⟩
    swap
    · have := called_of_record hl hio
      exact hist io this
    rw [record_handlers] at hg
    rcases Pool.mem_swap hg with hg | hg
    · exact hnew g hg
    · exact hh g hg

/-! ### On one worker a taken io is unsent -/

/-- At most one run of the handler is in progress. -/
def Single (s : SockSys) : Prop := s.handlers.length ≤ 1

/-- An io was reported done without being sent, or a handler run with nothing above
it is about to. -/
def Reported (s : SockSys) : Prop :=
  ∃ io, (s.writers = [] ∧ s.handlers = [.taken io] ∧ acceptedCount io s.hist = 0) ∨
    ∃ l₂ l₁, s.hist = l₂ ++ .called io 0 :: l₁ ∧ acceptedCount io l₁ = 0

theorem Single.step {s t : SockSys} {a : Act} (hs : s.Single) (ha : s.OneAtATime a)
    (h : SockSys.step s a = some t) : t.Single := by
  unfold Single at hs ⊢
  cases step_cases h with
  | submit => exact hs
  | edge alloc => exact hs
  | handle h0 => simp [ha.2]
  | writer f k alloc hf sock f' l hstep => simpa using hs
  | handler f k hf sock f' l hstep =>
    have hlen := List.length_erase_of_mem hf
    have hpos := List.length_pos_of_mem hf
    rw [record_handlers, List.length_append, hlen]
    cases f' <;> simp <;> omega

/-- What a run on one worker has recorded stays in the history. -/
theorem record_hist (s : SockSys) (alloc : Bool) (l : SockLabel) :
    ∃ l₂, (s.record alloc l).hist = l₂ ++ s.hist := by
  cases l with
  | tau => exact ⟨[], rfl⟩
  | attempt io k => exact ⟨[.attempt io k], rfl⟩
  | call io errcode => exact ⟨[.called io errcode], rfl⟩
  | dispatch => exact ⟨[], rfl⟩

theorem step_hist {s t : SockSys} {a : Act} (h : SockSys.step s a = some t) :
    ∃ l₂, t.hist = l₂ ++ s.hist := by
  cases step_cases h with
  | submit => exact ⟨[], rfl⟩
  | edge alloc => exact ⟨[], rfl⟩
  | handle h0 => exact ⟨[], rfl⟩
  | writer f k alloc hf sock f' l hstep => exact record_hist _ alloc l
  | handler f k hf sock f' l hstep => exact record_hist _ true l

theorem Reported.step {s t : SockSys} {a : Act} (hs : s.Reported) (ha : s.OneAtATime a)
    (h : SockSys.step s a = some t) : t.Reported := by
  obtain ⟨io, ⟨hw, hh, hacc⟩ | ⟨l₂, l₁, hist, hacc⟩⟩ := hs
  · refine ⟨io, ?_⟩
    cases step_cases h with
    | submit => simp [OneAtATime, mayEnter, hw, hh, HandlerFrame.inCallback] at ha
    | edge alloc => exact .inl ⟨hw, hh, hacc⟩
    | handle h0 =>
      have hnil : s.handlers = [] := ha.2
      simp [hh] at hnil
    | writer f k alloc hf sock f' l hstep => simp [hw] at hf
    | handler f k hf sock f' l hstep =>
      obtain rfl : f = .taken io := by simpa [hh] using hf
      cases hstep with
      | callTaken _ => exact .inr ⟨[], s.hist, rfl, hacc⟩
  · obtain ⟨l₃, ht⟩ := step_hist h
    exact ⟨io, .inr ⟨l₃ ++ l₂, l₁, by rw [ht, hist, List.append_assoc], hacc⟩⟩

/-- **A taken io was not sent.**  On one worker an io that a handler finds in
`es_write` belongs to no call in progress, so the kernel has taken none of its data. -/
theorem reported_of_take {s t : SockSys} {a : Act} (hsingle : s.Single)
    (htally : ∀ io, Tally io s) (ha : s.OneAtATime a) (hna : ¬ s.Free a)
    (h : SockSys.step s a = some t) : t.Reported := by
  cases step_cases h with
  | submit | edge _ | handle _ | writer _ _ _ _ _ _ _ _ => exact absurd trivial hna
  | handler f k hf sock f' l hstep =>
    obtain ⟨rfl, hsome⟩ := Classical.not_imp.1 hna
    cases hstep with
    | free hnone => exact absurd hnone hsome
    | take io hio =>
      obtain ⟨hw, hhead⟩ := ha
      have hh : s.handlers = [.locking] := Pool.eq_singleton_of_mem hsingle hf
      have hloose : s.loose io = 1 := by simp [loose, looseIn, published, hio, hw, hh]
      have htl := htally io
      have hle := s.share_le_one io
      unfold Tally unsent at htl
      refine ⟨io, .inl ⟨by simpa using hw, by simp [hh], ?_⟩⟩
      show acceptedCount io s.hist = 0
      omega

/-- **What is reported done was sent, exactly when no handler finds an io waiting.**
For every run on one worker and any results of the kernel: if no run of the handler
finds an io in `es_write`, every success callback in the history comes after a kernel
write that accepted data of its io; and if all operations are over and every success
callback does, no run of the handler found one. -/
theorem sent_iff {b : Bool} {acts : List Act} {s : SockSys}
    (hone : StepSystem.Meets step OneAtATime (init b) acts)
    (hrun : StepSystem.run step (init b) acts = some s) :
    (StepSystem.Meets step Free (init b) acts → Sent s.hist) ∧
      (s.Quiet → Sent s.hist → StepSystem.Meets step Free (init b) acts) := by
  constructor
  · intro hfree l₂ l₁ io hist
    have hs : s.Silent :=
      StepSystem.run_invariant (fun _ _ _ hs ha h => hs.step ha h) (silent_init b) hfree hrun
    exact absurd (by simp [hist]) (hs.hist io)
  · intro hq hsent
    refine StepSystem.meets_of_not (I := fun s => s.Single ∧ ∀ io, Tally io s) ?_ ?_ ?_
      ⟨Nat.zero_le _, tally_init b⟩ hone hrun
      (fun hr : s.Reported => ?_)
    · exact fun _ _ _ hs ha h => ⟨hs.1.step ha h, fun io => (hs.2 io).step h⟩
    · exact fun _ _ _ hs ha hna h => reported_of_take hs.1 hs.2 ha hna h
    · exact fun _ _ _ hs ha h => hs.step ha h
    · obtain ⟨io, ⟨-, hh, -⟩ | ⟨l₂, l₁, hist, hacc⟩⟩ := hr
      · have hnil := hq.2
        simp [hh] at hnil
      · have := hsent l₂ l₁ io hist
        omega

/-- A write that the kernel takes at once, and the handler run of its own event: a run
that meets the hypotheses of `sent_iff`.  Its callback gets what was written; a callback that
gets `0` is never right, so there is none in a run in which all that is reported was sent. -/
theorem sent_iff_taken :
    ∃ acts s, StepSystem.run step (init true) acts = some s ∧ s.Quiet ∧ cbCount 0 s.hist = 1 ∧
      (StepSystem.Meets step Free (init true) acts → Sent s.hist) ∧
      (s.Quiet → Sent s.hist → StepSystem.Meets step Free (init true) acts) :=
  have hrun := Eq.refl (StepSystem.run step (init true)
    [.submit, .writer (.enter 0) ⟨0, 0⟩ true, .writer (.writing 0) ⟨5, 0⟩ true,
      .writer (.wrote 0 5) ⟨0, 0⟩ true, .writer (.calling 0 5) ⟨0, 0⟩ true,
      .writer .inCb ⟨0, 0⟩ true, .writer .dispatching ⟨0, 0⟩ true, .handle,
      .handler .enter ⟨0, 0⟩, .handler .asking ⟨0, 0⟩, .handler .locking ⟨0, 0⟩,
      .handler (.next true) ⟨0, 0⟩])
  ⟨_, _, hrun, by decide, rfl, sent_iff (by decide) hrun⟩

/-- **Reported unsent.**  The kernel answers `EAGAIN` to a write; the next `EPOLLOUT`
event makes the handler take its io and call its callback with `0`, and the io is
never offered again. -/
theorem reported_unsent :
    ¬ ∀ b acts s, StepSystem.Meets step OneAtATime (init b) acts →
      StepSystem.run step (init b) acts = some s → Sent s.hist := by
  intro h
  have hrun := Eq.refl (StepSystem.run step (init true)
    [.submit, .writer (.enter 0) ⟨0, 0⟩ true, .writer (.writing 0) ⟨-1, 11⟩ true, .edge true,
      .handle, .handler .enter ⟨0, 0⟩, .handler .asking ⟨0, 0⟩, .handler .locking ⟨0, 0⟩,
      .handler (.taken 0) ⟨0, 0⟩])
  have hsent := h _ _ _ (by decide) hrun [] _ 0 rfl
  exact absurd hsent (by decide)

end SockSys
end EdpIo
