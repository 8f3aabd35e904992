/-
# Ios left behind by a destroyed sock

The calls of a sock (`SockSys`) together with the handlers of `EPOLLERR` and `EPOLLHUP`
and one call of `edpnet_sock_destroy`, which comes after an `EPOLLHUP` event has been
handled (`hupped`).  None of the three does anything to the pending ios: both handlers hold
a `FIXME: clear pending writes` instead, and `sock_fini` asserts that the list is empty.

So an io is abandoned when it is pending, in `es_write`, or in the hands of a call when the
sock is destroyed (`left_pending`).  If none is, and the steps before are careful
(`Careful`), the assertion holds and every io accepted by `edpnet_sock_write` has had its
callback called exactly once (`kept`).  One that is pending or in `es_write` then is lost
(`not_kept`).
-/

import EdpIo.Sock.Kept
import EdpIo.Sock.Workers

namespace EdpIo

/-- The io that the call has still to do something for. -/
def WriteFrame.held : WriteFrame → Option Io
  | .enter io | .writing io | .wrote io _ | .calling io _ => some io
  | .inCb | .dispatching => none

/-- The io that the run has still to do something for. -/
def HandlerFrame.held : HandlerFrame → Option Io
  | .taken io | .writing _ io | .wrote _ io _ | .calling _ io _ => some io
  | _ => none

/-- Where a call of `edpnet_sock_destroy` is, as far as it matters to the ios. -/
inductive EndPc
  /-- Before `s->es_status = kEDPNET_SOCK_STATUS_ZERO`. -/
  | zeroing
  /-- Before `sock_fini`. -/
  | fini
  /-- Before `close`, `emit_destroy` and `mheap_free`. -/
  | releasing
  /-- It has returned. -/
  | returned
deriving DecidableEq, Repr

/-- A sock with its writes, its runs of the handlers of `EPOLLERR` and `EPOLLHUP`, and its
end. -/
structure EndSys where
  io : SockSys
  runs : List SockFrame
  hupped : Bool
  destroy : Option EndPc
deriving DecidableEq, Repr

namespace SockSys

/-- No io is pending, in `es_write` or in the hands of a call. -/
def Emptied (s : SockSys) : Prop :=
  s.sock.esIowrites = [] ∧ s.sock.esWrite = none ∧ (∀ f ∈ s.writers, f.held = none) ∧
    ∀ f ∈ s.handlers, f.held = none

instance (s : SockSys) : Decidable s.Emptied := inferInstanceAs (Decidable (_ ∧ _ ∧ _ ∧ _))

/-- `edpnet_sock_write` has published the io or put it into the pending list. -/
def Accepted (s : SockSys) (io : Io) : Prop := io < s.calls ∧ .enter io ∉ s.writers

instance (s : SockSys) (io : Io) : Decidable (s.Accepted io) := inferInstanceAs (Decidable (_ ∧ _))

end SockSys

namespace EndSys

/-- A sock without writes, connected or not. -/
def init (connect : Bool) : EndSys :=
  { io := .init connect, runs := [], hupped := false, destroy := none }

/-- The steps. -/
inductive Act
  /-- A step of the writes and of the `EPOLLOUT` events. -/
  | io (a : SockSys.Act)
  /-- A worker begins to handle an `EPOLLERR` event. -/
  | err
  /-- A worker begins to handle an `EPOLLHUP` event. -/
  | hup
  /-- A step of one of these two handlers. -/
  | run (f : SockFrame)
  /-- `edpnet_sock_destroy` is called. -/
  | destroy
  /-- A step of that call. -/
  | destroyStep
deriving DecidableEq, Repr

/-- One step. -/
def step (s : EndSys) : Act → Option EndSys
  | .io a => (s.io.step a).map fun io => { s with io := io }
  | .err => some { s with runs := .epollerr .enter :: s.runs }
  | .hup => some { s with runs := .epollhup .enter :: s.runs }
  | .run f =>
    if f ∈ s.runs then
      (f.step s.io.sock false ⟨0, 0⟩).map fun (sock, _, f') =>
        { s with io := { s.io with sock := sock }, runs := f'.toList ++ s.runs.erase f,
                 hupped := s.hupped || f == .epollhup .inCb }
    else none
  | .destroy =>
    if s.hupped && s.destroy.isNone then some { s with destroy := some .zeroing } else none
  | .destroyStep =>
    match s.destroy with
    | some .zeroing =>
      some { s with io := { s.io with sock := { s.io.sock with connect := false, write := false } },
                    destroy := some .fini }
    | some .fini =>
      -- `MONITOR` is clear as well, so the assertion is all that is left of `sock_fini`
      if s.io.sock.esIowrites.isEmpty then some { s with destroy := some .releasing } else none
    | some .releasing => some { s with destroy := some .returned }
    | _ => none

/-- No io is abandoned: the assertion of `sock_fini` holds, and when `edpnet_sock_destroy`
has returned the callback of every accepted io has been called exactly once. -/
def Kept (s : EndSys) : Prop :=
  (s.destroy = some .fini → s.io.sock.esIowrites = []) ∧
    (s.destroy = some .returned → ∀ io, s.io.Accepted io → cbCount io s.io.hist = 1)

/-- The step loses no io and ends none twice; the sock is destroyed when no io is left, and
no io is submitted after that. -/
def Careful (s : EndSys) : Act → Prop
  | .io a => s.io.Careful a ∧ (a = .submit → s.destroy = none)
  | .destroy => s.io.Emptied
  | _ => True

instance (s : EndSys) : (a : Act) → Decidable (s.Careful a)
  | .io _ => inferInstanceAs (Decidable (_ ∧ _))
  | .destroy => inferInstanceAs (Decidable s.io.Emptied)
  | .err | .hup | .run _ | .destroyStep => inferInstanceAs (Decidable True)

/-- The steps, with those of the calls as their own steps say. -/
inductive Step (s : EndSys) : Act → EndSys → Prop
  | io (a : SockSys.Act) (t : SockSys) (h : s.io.step a = some t) :
      Step s (.io a) { s with io := t }
  | err : Step s .err { s with runs := .epollerr .enter :: s.runs }
  | hup : Step s .hup { s with runs := .epollhup .enter :: s.runs }
  | run (f : SockFrame) (hf : f ∈ s.runs) (sock : SockIo) (read : Bool) (f' : Option SockFrame)
      (h : f.step s.io.sock false ⟨0, 0⟩ = some (sock, read, f')) :
      Step s (.run f)
        { s with io := { s.io with sock := sock }, runs := f'.toList ++ s.runs.erase f,
                 hupped := s.hupped || f == .epollhup .inCb }
  | destroy (hh : s.hupped = true) (hd : s.destroy = none) :
      Step s .destroy { s with destroy := some .zeroing }
  | zero (hd : s.destroy = some .zeroing) :
      Step s .destroyStep
        { s with io := { s.io with sock := { s.io.sock with connect := false, write := false } },
                 destroy := some .fini }
  | fini (hd : s.destroy = some .fini) (hi : s.io.sock.esIowrites = []) :
      Step s .destroyStep { s with destroy := some .releasing }
  | release (hd : s.destroy = some .releasing) :
      Step s .destroyStep { s with destroy := some .returned }

theorem step_cases {s t : EndSys} {a : Act} (h : step s a = some t) : s.Step a t := by
  cases a with
  | io a =>
    obtain ⟨u, hu, rfl⟩ := Option.map_eq_some_iff.1 h
    exact .io a u hu
  | err =>
    obtain rfl := Option.some.inj h
    exact .err
  | hup =>
    obtain rfl := Option.some.inj h
    exact .hup
  | run f =>
    rw [step] at h
    split at h
    · obtain ⟨⟨sock, read, f'⟩, hf, rfl⟩ := Option.map_eq_some_iff.1 h
      exact .run f ‹_› sock read f' hf
    · cases h
  | destroy =>
    rw [step] at h
    split at h
    · obtain rfl := Option.some.inj h
      have hb := Bool.and_eq_true_iff.1 ‹_›
      exact .destroy hb.1 (Option.isNone_iff_eq_none.1 hb.2)
    · cases h
  | destroyStep =>
    rw [step] at h
    split at h
    · obtain rfl := Option.some.inj h
      exact .zero ‹_›
    · split at h
      · obtain rfl := Option.some.inj h
        exact .fini ‹_› (List.isEmpty_iff.1 ‹_›)
      · cases h
    · obtain rfl := Option.some.inj h
      exact .release ‹_›
    · cases h

end EndSys

/-! ### What the other handlers do -/

/-- The run is one of the `EPOLLOUT` handler. -/
def SockFrame.writes : SockFrame → Bool
  | .epollout _ => true
  | _ => false

/-- The other handlers change nothing but the bits of the sock. -/
theorem SockFrame.step_of_not_writes {s s' : SockIo} {read read' : Bool} {k : KernelWrite}
    {f : SockFrame} {f' : Option SockFrame} (hf : f.writes = false)
    (h : f.step s read k = some (s', read', f')) :
    (∃ c, s' = { s with connect := c }) ∧ ∀ g ∈ f', g.writes = false := by
  cases SockFrame.step_cases h with
  | epollout => cases hf
  | epollin f read' f' hstep =>
    refine ⟨⟨s.connect, rfl⟩, fun g' hg => ?_⟩
    obtain ⟨x, -, rfl⟩ := Option.map_eq_some_iff.1 hg
    rfl
  | error | errorBack | close | closeBack => exact ⟨⟨s.connect, rfl⟩, by simp [writes]⟩
  | hup => exact ⟨⟨false, rfl⟩, by simp [writes]⟩

/-- A call that holds no io gives the sock none. -/
theorem WriteFrame.Step.of_held_none {s sock : SockIo} {k : KernelWrite} {f : WriteFrame}
    {f' : Option WriteFrame} {l : SockLabel} (h : WriteFrame.Step s k f sock f' l)
    (hf : f.held = none) : sock = s ∧ ∀ g ∈ f', g.held = none := by
  cases h with
  | back | dispatch => exact ⟨rfl, by simp [held]⟩
  | _ => cases hf

/-- A run that holds no io, on a sock that has none, gives the sock none. -/
theorem HandlerFrame.Step.of_held_none {s sock : SockIo} {k : KernelWrite} {f : HandlerFrame}
    {f' : Option HandlerFrame} {l : SockLabel} (h : HandlerFrame.Step s k f sock f' l)
    (hi : s.esIowrites = []) (hw : s.esWrite = none) (hf : f.held = none) :
    sock.esIowrites = [] ∧ sock.esWrite = none ∧ ∀ g ∈ f', g.held = none := by
  cases h with
  | take io h => cases hw.symm.trans h
  | pop drain io ios h hios => cases hi.symm.trans hios
  | callTaken io | done drain io h | block drain io h | clear drain io ret | call drain io ret =>
    cases hf
  | _ => exact ⟨hi, hw, by simp [held]⟩

namespace SockSys

/-! ### When no io is left -/

/-- The bits of the sock are not among what an io depends on. -/
theorem Whole.bits {s : SockSys} {io : ℕ} (hs : Whole io s) (c w : Bool) :
    Whole io { s with sock := { s.sock with connect := c, write := w } } := hs

theorem Emptied.bits {s : SockSys} (hs : s.Emptied) (c w : Bool) :
    Emptied { s with sock := { s.sock with connect := c, write := w } } := hs

/-- An io that is in no place has had its callback called once, if it was submitted. -/
theorem Emptied.called {s : SockSys} {io : ℕ} (hs : s.Emptied) (hio : Whole io s)
    (hlt : io < s.calls) : cbCount io s.hist = 1 := by
  obtain ⟨hpend, hwrite, hw, hh⟩ := hs
  have hw₀ : ∀ p : WriteFrame → Bool, (∀ f, f.held = none → p f = false) →
      s.writers.countP p = 0 := fun p hp =>
    List.countP_eq_zero.2 fun f hf => by simp [hp f (hw f hf)]
  have hh₀ : ∀ p : HandlerFrame → Bool, (∀ f, f.held = none → p f = false) →
      s.handlers.countP p = 0 := fun p hp =>
    List.countP_eq_zero.2 fun f hf => by simp [hp f (hh f hf)]
  have hshare : s.share io = 1 := if_pos hlt
  have hwait : s.waiting io = 0 := by
    rw [waiting, hpend, hw₀ _ (by rintro ⟨⟩ <;> simp [WriteFrame.held])]
    rfl
  have hsend : s.sending io = 0 := by
    rw [sending, hw₀ _ (by rintro ⟨⟩ <;> simp [WriteFrame.held]),
      hh₀ _ (by rintro ⟨⟩ <;> simp [HandlerFrame.held])]
  have hend : s.ending io = cbCount io s.hist := by
    rw [ending, hw₀ _ (by rintro ⟨⟩ <;> simp [WriteFrame.held]),
      hh₀ _ (by rintro ⟨⟩ <;> simp [HandlerFrame.held]), Nat.zero_add]
  have hcur : s.current io = 0 := by simp [current, hwrite]
  rw [Whole, hwait, hsend, hend, hcur, hshare] at hio
  omega

/-- Nothing but the submission of an io gives the sock one. -/
theorem Emptied.step {s t : SockSys} {a : Act} (hs : s.Emptied) (ha : a ≠ .submit)
    (h : SockSys.step s a = some t) : t.Emptied := by
  obtain ⟨hpend, hwrite, hw, hh⟩ := hs
  cases step_cases h with
  | submit => exact absurd rfl ha
  | edge alloc => exact ⟨hpend, hwrite, hw, hh⟩
  | handle h0 =>
    exact ⟨hpend, hwrite, hw, List.forall_mem_cons.2 ⟨rfl, hh⟩⟩
  | writer f k alloc hf sock f' l hstep =>
    obtain ⟨rfl, hf'⟩ := hstep.of_held_none (hw f hf)
    rw [Emptied, record_sock, record_writers, record_handlers]
    exact ⟨hpend, hwrite, fun g hg => (Pool.mem_swap hg).elim (hf' g) (hw g), hh⟩
  | handler f k hf sock f' l hstep =>
    obtain ⟨hpend', hwrite', hf'⟩ := hstep.of_held_none hpend hwrite (hh f hf)
    rw [Emptied, record_sock, record_writers, record_handlers]
    exact ⟨hpend', hwrite', hw, fun g hg => (Pool.mem_swap hg).elim (hf' g) (hh g)⟩

end SockSys

namespace EndSys

/-! ### Runs -/

/-- Every io is whole, and none is left once `edpnet_sock_destroy` is called. -/
structure Ended (s : EndSys) : Prop where
  whole : ∀ io, SockSys.Whole io s.io
  runs : ∀ f ∈ s.runs, f.writes = false
  emptied : s.destroy ≠ none → s.io.Emptied

theorem ended_init (b : Bool) : Ended (init b) :=
  ⟨SockSys.whole_init b, by simp [init], fun h => absurd rfl h⟩

theorem Ended.step {s t : EndSys} {a : Act} (hs : Ended s) (ha : s.Careful a)
    (h : EndSys.step s a = some t) : Ended t := by
  cases step_cases h with
  | io a u hu =>
    exact ⟨fun io => (hs.whole io).step ha.1 hu, hs.runs,
      fun hd => (hs.emptied hd).step (fun h => hd (ha.2 h)) hu⟩
  | err | hup =>
    exact ⟨hs.whole, List.forall_mem_cons.2 ⟨rfl, hs.runs⟩, hs.emptied⟩
  | run f hf sock read f' hstep =>
    obtain ⟨⟨c, rfl⟩, hf'⟩ := SockFrame.step_of_not_writes (hs.runs f hf) hstep
    exact ⟨fun io => (hs.whole io).bits c _,
      fun g hg => (Pool.mem_swap hg).elim (hf' g) (hs.runs g), fun hd => (hs.emptied hd).bits c _⟩
  | destroy hh hd => exact ⟨hs.whole, hs.runs, fun _ => ha⟩
  | zero hd =>
    have hset := hs.emptied (hd ▸ Option.some_ne_none _)
    exact ⟨fun io => (hs.whole io).bits _ _, hs.runs, fun _ => hset.bits _ _⟩
  | fini hd hi => exact ⟨hs.whole, hs.runs, fun _ => hs.emptied (hd ▸ Option.some_ne_none _)⟩
  | release hd => exact ⟨hs.whole, hs.runs, fun _ => hs.emptied (hd ▸ Option.some_ne_none _)⟩

theorem Ended.assured {s : EndSys} (hs : Ended s) : s.Kept :=
  ⟨fun hd => (hs.emptied (hd ▸ Option.some_ne_none _)).1, fun hd io hio =>
    (hs.emptied (hd ▸ Option.some_ne_none _)).called (hs.whole io) hio.1⟩

/-- **When no io is abandoned.**  In every run of a sock whose steps lose no io and end none
twice, and which is destroyed when no io is left, the assertion of `sock_fini` holds and the
callback of every accepted io has been called exactly once when `edpnet_sock_destroy` has
returned. -/
theorem kept (b : Bool) {as : List Act} {s : EndSys}
    (hc : StepSystem.Meets step Careful (init b) as)
    (hrun : StepSystem.run step (init b) as = some s) : s.Kept :=
  (StepSystem.run_invariant (fun _ _ _ => Ended.step) (ended_init b) hc hrun).assured

/-- A write that blocks and is completed by an `EPOLLOUT` event before the hang-up. -/
theorem kept_taken : ∃ s : EndSys, s.destroy = some .returned ∧ s.io.Accepted 0 ∧ s.Kept := by
  have hrun := Eq.refl (StepSystem.run step (init true) [.io .submit,
    .io (.writer (.enter 0) ⟨0, 0⟩ true), .io (.writer (.writing 0) ⟨-1, 11⟩ true),
    .io (.edge true), .io .handle, .io (.handler .enter ⟨0, 0⟩), .io (.handler .asking ⟨0, 0⟩),
    .io (.handler .locking ⟨0, 0⟩), .io (.handler (.taken 0) ⟨0, 0⟩),
    .io (.handler .inCb ⟨0, 0⟩), .hup, .run (.epollhup .enter),
    .run (.epollhup .closing), .run (.epollhup .inCb), .destroy, .destroyStep, .destroyStep,
    .destroyStep])
  exact ⟨_, rfl, by decide, kept true (by decide) hrun⟩

/-- An io that `es_write` holds is accepted, and its callback has not been called. -/
theorem Ended.uncalled {s : EndSys} (hs : Ended s) {io : Io} (hio : s.io.sock.esWrite = some io) :
    s.io.Accepted io ∧ cbCount io s.io.hist = 0 := by
  have hcur := SockSys.current_of_eq hio
  have hle := s.io.sending_le io
  have hshare := s.io.share_le_one io
  have hend : cbCount io s.io.hist ≤ s.io.ending io := Nat.le_add_left _ _
  have hwhole := hs.whole io
  rw [SockSys.Whole, hcur] at hwhole
  have hin : s.io.share io = 1 := by omega
  refine ⟨⟨Classical.not_not.1 fun h => ?_, fun hmem => ?_⟩, by omega⟩
  · rw [SockSys.share, if_neg h] at hin
    cases hin
  · have hpos : 0 < s.io.writers.countP (WriteFrame.entering io) :=
      List.countP_pos_iff.2 ⟨_, hmem, decide_eq_true rfl⟩
    have hwait : 0 < s.io.waiting io := Nat.add_pos_right _ hpos
    omega

/-- **What is left behind is lost**: an `edpnet_sock_destroy` that finds an io pending or in
`es_write` may fail the assertion or return before its callback is called. -/
theorem not_kept {s : EndSys} (hs : Ended s) (hh : s.hupped = true) (hd : s.destroy = none)
    (hleft : s.io.sock.esIowrites ≠ [] ∨ s.io.sock.esWrite ≠ none) :
    ∃ as t, StepSystem.run step s as = some t ∧ ¬ t.Kept := by
  have hcall : step s .destroy = some { s with destroy := some .zeroing } := by
    rw [step, hh, hd]
    rfl
  let u : EndSys :=
    { s with io := { s.io with sock := { s.io.sock with connect := false, write := false } },
             destroy := some .fini }
  have hrun : StepSystem.run step s [.destroy, .destroyStep] = some u :=
    StepSystem.run_cons.2 ⟨_, hcall, rfl⟩
  by_cases hpend : s.io.sock.esIowrites = []
  · obtain ⟨io, hio⟩ := Option.ne_none_iff_exists'.1 (hleft.resolve_left fun h => h hpend)
    obtain ⟨hacc, hcb⟩ := hs.uncalled hio
    have hfini : step u .destroyStep = some { u with destroy := some .releasing } := by
      show (if s.io.sock.esIowrites.isEmpty then _ else none) = _
      rw [hpend]
      rfl
    refine ⟨[Act.destroy, .destroyStep] ++ [Act.destroyStep, .destroyStep],
      { u with destroy := some .returned }, ?_, fun h => ?_⟩
    · rw [StepSystem.run_append hrun]
      exact StepSystem.run_cons.2 ⟨_, hfini, rfl⟩
    · cases hcb.symm.trans (h.2 rfl io hacc)
  · exact ⟨_, u, hrun, fun h => hpend (h.1 rfl)⟩

/-- An io that blocks and one behind it are still there when the sock is destroyed after the
hang-up: the assertion of `sock_fini` fails. -/
theorem left_pending : ¬ ∀ (b : Bool) (as : List Act) (s : EndSys),
    StepSystem.run step (init b) as = some s → s.Kept := by
  intro h
  have hrun := Eq.refl (StepSystem.run step (init true) [.io .submit,
    .io (.writer (.enter 0) ⟨0, 0⟩ true), .io (.writer (.writing 0) ⟨-1, 11⟩ true),
    .io .submit, .io (.writer (.enter 1) ⟨0, 0⟩ true), .hup, .run (.epollhup .enter),
    .run (.epollhup .closing), .run (.epollhup .inCb), .destroy, .destroyStep])
  exact absurd ((h true _ _ hrun).1 rfl) (by decide)

end EndSys
end EdpIo
