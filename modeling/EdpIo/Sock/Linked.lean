/-
# The pending writes in memory are lists

`SockCells.Represents` relates a state in memory to one of `Caller`, a sock with lists of calls
and its callers: `es_iowrites` is the head of a ring of the nodes of the ioctxs in the list, in
order, and every pointer is to the ioctx of the call that the list side names there.  The two
sides take the same steps (`Represents.step`, `Represents.realize`), and a write of an owner is
a step of the one only.

An io lives from its call to its callback (`SockSys.Live`).  That the ioctxs of different
living ios are different, and as they were submitted, is what the representation rests on; it
follows from the counts of `EdpIo.Sock.Once` and the callers' side of `EdpIo.Sock.Listed`
(`Caller.Sound`).
-/

import EdpIo.Sock.Cells

namespace EdpIo

/-! ### Ios that have not been called back -/

namespace SockSys

/-- The io waits or has been taken up, and has not been called back. -/
def Live (s : SockSys) (io : Io) : Prop :=
  (io ∈ s.pending ∨ io ∈ s.begun) ∧ cbCount io s.hist = 0

variable {s t : SockSys} {a : Act} {io : Io}

/-- An io that lives after a step lived before or is that of a new call. -/
theorem Live.of_step (hl : t.Live io) (h : SockSys.step s a = some t) :
    s.Live io ∨ (a = .submit ∧ io = s.calls) := by
  obtain ⟨hio, h0⟩ := hl
  have hcount := cbCount_step h io
  have h0' : cbCount io s.hist = 0 := by omega
  rcases step_takes h with ⟨up, ⟨hw, hb⟩, -⟩ | ⟨ha, hw, hb, -⟩
  · refine .inl ⟨?_, h0'⟩
    rcases hio with hio | hio
    · exact .inl (hw.mem_iff.2 (List.mem_append_right up hio))
    · exact (List.mem_append.1 (hb hio)).imp_left
        fun hup => hw.mem_iff.2 (List.mem_append_left _ hup)
  · rw [hw, hb, List.mem_append, List.mem_cons] at hio
    rcases hio with (hio | hio | hio) | hio
    · exact .inl ⟨.inl (List.mem_append_left _ hio), h0'⟩
    · exact .inr ⟨ha, hio⟩
    · exact .inl ⟨.inl (List.mem_append_right _ hio), h0'⟩
    · exact .inl ⟨.inr hio, h0'⟩

/-- An io in the hands of a call counts as one of its places. -/
theorem places_of_writer {f : WriteFrame} (hf : f ∈ s.writers)
    (hio : io ∈ f.enters ++ f.holds) :
    0 < s.writers.countP (WriteFrame.unsent io) + s.writers.countP (WriteFrame.ending io) := by
  have hpos : f.unsent io = true ∨ f.ending io = true := by
    cases f <;> simp_all [WriteFrame.enters, WriteFrame.holds]
  rcases hpos with h | h
  · exact Nat.add_pos_left (List.countP_pos_iff.2 ⟨f, hf, h⟩) _
  · exact Nat.add_pos_right _ (List.countP_pos_iff.2 ⟨f, hf, h⟩)

theorem places_of_handler {f : HandlerFrame} (hf : f ∈ s.handlers) (hio : io ∈ f.holds) :
    0 < s.handlers.countP (HandlerFrame.unsent io) +
      s.handlers.countP (HandlerFrame.ending io) := by
  have hpos : f.unsent io = true ∨ f.ending io = true := by
    cases f <;> simp_all [HandlerFrame.holds]
  rcases hpos with h | h
  · exact Nat.add_pos_left (List.countP_pos_iff.2 ⟨f, hf, h⟩) _
  · exact Nat.add_pos_right _ (List.countP_pos_iff.2 ⟨f, hf, h⟩)


/-- An io that has a place has not been called back. -/
theorem Held.uncalled (hs : Held io s) (hpos : 0 < s.unsent io +
    (s.writers.countP (WriteFrame.ending io) + s.handlers.countP (HandlerFrame.ending io))) :
    cbCount io s.hist = 0 := by
  have hone := s.share_le_one io
  unfold Held ending at hs
  omega

end SockSys

namespace Caller

open SockSys (Held Returned Apart Submitted Counted)

/-- What holds of a sock whose callers wait for their callbacks. -/
structure Sound (obj : Io → ℕ) (c : Caller) : Prop where
  held : ∀ io, Held io c.sys
  owed : Owed obj c
  apart : Apart obj c.sys
  submitted : c.sys.Submitted
  counted : c.sys.Counted

variable {obj : Io → ℕ} {c d : Caller} {a : SockSys.Act} {io j : Io}

theorem sound_start (obj : Io → ℕ) (b : Bool) : Sound obj (start b) where
  held := SockSys.held_init b
  owed := ⟨fun _ h => absurd h (Nat.not_lt_zero _), fun _ h => absurd h (Nat.not_lt_zero _)⟩
  apart := SockSys.apart_init obj b
  submitted := SockSys.submitted_init b
  counted := rfl

theorem Sound.step (hs : Sound obj c) (ha : c.sys.Settled a) (h : c.step obj a = some d) :
    Sound obj d := by
  obtain ⟨hstep, hcases⟩ := step_cases h
  have hret : Returned obj c.sys a := by
    rcases hcases with ⟨rfl, hnew, -⟩ | ⟨hne, -⟩
    · exact fun io hio heq h0 => hnew (heq ▸ hs.owed.away io hio h0)
    · cases a with
      | submit => exact absurd rfl hne
      | edge | handle | writer | handler => trivial
  constructor
  · exact fun io => (hs.held io).step ha hstep
  · exact hs.owed.step hs.held ha h
  · exact hs.apart.step hs.submitted hret hstep
  · exact hs.submitted.step hstep
  · exact hs.counted.step hstep

theorem Sound.live_of_writer (hs : Sound obj c) {f : WriteFrame} (hf : f ∈ c.sys.writers)
    (hio : io ∈ f.enters ++ f.holds) : c.sys.Live io := by
  constructor
  · rcases List.mem_append.1 hio with hio | hio
    · exact .inl (List.mem_append_right _ (List.mem_flatMap.2 ⟨f, hf, hio⟩))
    · refine .inr (List.mem_append_left _ (List.mem_append_left _ (List.mem_append_right _ ?_)))
      exact List.mem_flatMap.2 ⟨f, hf, hio⟩
  · have hpos := SockSys.places_of_writer hf hio
    refine (hs.held io).uncalled ?_
    unfold SockSys.unsent
    omega

theorem Sound.live_of_handler (hs : Sound obj c) {f : HandlerFrame} (hf : f ∈ c.sys.handlers)
    (hio : io ∈ f.holds) : c.sys.Live io := by
  constructor
  · refine .inr (List.mem_append_left _ (List.mem_append_right _ ?_))
    exact List.mem_flatMap.2 ⟨f, hf, hio⟩
  · have hpos := SockSys.places_of_handler hf hio
    refine (hs.held io).uncalled ?_
    unfold SockSys.unsent
    omega

theorem Sound.live_of_listed (hs : Sound obj c) (hio : io ∈ c.sys.sock.esIowrites) :
    c.sys.Live io := by
  constructor
  · exact .inl (List.mem_append_left _ hio)
  · have hpos := List.count_pos_iff.2 hio
    refine (hs.held io).uncalled ?_
    unfold SockSys.unsent
    omega

/-- The current write is loose, or it is in the hands of a call that publishes it. -/
theorem Sound.live_of_esWrite (hs : Sound obj c) (hio : c.sys.sock.esWrite = some io) :
    c.sys.Live io := by
  refine ⟨.inr ?_, (hs.held io).uncalled ?_⟩
  · refine List.mem_append_left _ (List.mem_append_left _ (List.mem_append_left _ ?_))
    simp [hio]
  · have hplace : 0 < c.sys.loose io ∨ 0 < c.sys.published io := by
      unfold SockSys.loose SockSys.looseIn
      rw [if_pos hio]
      split_ifs <;> omega
    rcases hplace with hloose | hpub
    · unfold SockSys.unsent
      omega
    · unfold SockSys.published at hpub
      rcases Nat.add_pos_iff_pos_or_pos.1 hpub with hpos | hpos
      · obtain ⟨f, hf, hp⟩ := List.countP_pos_iff.1 hpos
        have hin : io ∈ f.enters ++ f.holds := by
          cases f <;> simp_all [WriteFrame.holds]
        have hplaces := SockSys.places_of_writer hf hin
        unfold SockSys.unsent
        omega
      · obtain ⟨f, hf, hp⟩ := List.countP_pos_iff.1 hpos
        have hin : io ∈ f.holds := by
          cases f <;> simp_all [HandlerFrame.holds]
        have hplaces := SockSys.places_of_handler hf hin
        unfold SockSys.unsent
        omega

theorem Sound.away (hs : Sound obj c) (hl : c.sys.Live io) : obj io ∈ c.away :=
  hs.owed.away io (hs.submitted io hl.1) hl.2

theorem Sound.unique (hs : Sound obj c) (hl : c.sys.Live io) (hl' : c.sys.Live j)
    (h : obj io = obj j) : io = j :=
  hs.owed.unique io (hs.submitted io hl.1) j (hs.submitted j hl'.1) hl.2 hl'.2 h

end Caller

/-! ### Calls in memory -/

section InMemory

variable (plan : Io → Submission)

/-- A call, and below a run of the handler, an observation and a label, in memory. -/
def WriteFrame.inMemory : WriteFrame → WriteCall
  | .enter io => .enter (plan io).addr (plan io).cb
  | .writing io => .writing (plan io).addr (plan io).cb
  | .wrote io ret => .wrote (plan io).addr (plan io).cb ret
  | .calling io ret => .calling (plan io).addr (plan io).cb ret
  | .inCb => .inCb
  | .dispatching => .dispatching

def HandlerFrame.inMemory : HandlerFrame → HandlerFrame
  | .taken io => .taken (plan io).addr
  | .writing drain io => .writing drain (plan io).addr
  | .wrote drain io ret => .wrote drain (plan io).addr ret
  | .calling drain io ret => .calling drain (plan io).addr ret
  | f => f

def IoObs.inMemory : IoObs → CellObs
  | .attempt io k => .attempt (plan io).addr (plan io).stored k
  | .called io errcode => .called (plan io).cb (plan io).addr errcode

/-- The io that a step with the label calls back. -/
def SockLabel.calledBack : SockLabel → Option Io
  | .call io _ => some io
  | .tau | .attempt _ _ | .dispatch => none

def SockLabel.inMemory : SockLabel → CellLabel
  | .tau => .tau
  | .attempt io k => .obs (IoObs.inMemory plan (.attempt io k))
  | .call io errcode => .obs (IoObs.inMemory plan (.called io errcode))
  | .dispatch => .dispatch

/-- The nodes of some ios. -/
def ioNodes (ios : List Io) : List IoAddr := ios.map fun io => .node (plan io).addr

end InMemory

theorem WriteFrame.Step.calledBack {s s' : SockIo} {k : KernelWrite} {f : WriteFrame}
    {f' : Option WriteFrame} {l : SockLabel} (h : WriteFrame.Step s k f s' f' l) (alloc : Bool) :
    (SockSys.Act.writer f k alloc).calledBack = l.calledBack := by
  cases h <;> rfl

theorem HandlerFrame.Step.calledBack {s s' : SockIo} {k : KernelWrite} {f : HandlerFrame}
    {f' : Option HandlerFrame} {l : SockLabel} (h : HandlerFrame.Step s k f s' f' l) :
    (SockSys.Act.handler f k).calledBack = l.calledBack := by
  cases h <;> rfl

namespace SockCell

variable {plan : Io → Submission} {s : SockCell} {t : SockIo}

/-- **The fields of a sock for those in memory.** -/
structure Represents (plan : Io → Submission) (s : SockCell) (t : SockIo) : Prop where
  connect : s.connect = t.connect
  write : s.write = t.write
  esWrite : s.esWrite = t.esWrite.map fun io => (plan io).addr
  esPendios : s.esPendios = t.esPendios
  ring : s.links.IsRing .iowrites (ioNodes plan t.esIowrites)

/-- The ioctx of the io is as it was submitted. -/
def Intact (plan : Io → Submission) (s : SockCell) (io : Io) : Prop :=
  s.mem (plan io).addr = (plan io).stored

theorem Intact.sockWrite {io : Io} (h : s.Intact plan io) (k : KernelWrite) :
    s.sockWrite (plan io).addr k =
      some (EdpIo.sockWrite k, IoObs.inMemory plan (.attempt io k)) := by
  unfold Intact at h
  rw [SockCell.sockWrite, h]
  exact if_pos (plan io).dataType

theorem Intact.iocIocb {io : Io} (h : s.Intact plan io) :
    (s.mem (plan io).addr).iocIocb = (plan io).cb := by
  rw [h]
  rfl

/-- **A step of a write in memory** is its step on the lists. -/
theorem Represents.writeStep (hr : Represents plan s t) (k : KernelWrite) {f : WriteFrame}
    (hmem : ∀ io ∈ f.holds, s.Intact plan io)
    (hnew : ∀ io ∈ f.enters, ∀ j ∈ t.esIowrites, (plan io).addr ≠ (plan j).addr) :
    ∃ s', s.writeStep k (f.inMemory plan) =
        some (s', (f.step t k).2.1.map (WriteFrame.inMemory plan),
          (f.step t k).2.2.inMemory plan) ∧
      Represents plan s' (f.step t k).1 ∧ s'.mem = s.mem := by
  cases f with
  | enter io =>
    have hfree : (!s.write && s.esWrite.isNone) = (!t.write && t.esWrite.isNone) := by
      rw [hr.write, hr.esWrite, Option.isNone_map]
    simp only [WriteFrame.inMemory, SockCell.writeStep, WriteFrame.step, hfree]
    split
    · exact ⟨_, rfl, { hr with esWrite := rfl, write := rfl }, rfl⟩
    · refine ⟨_, rfl, { hr with esPendios := congrArg (· + 1) hr.esPendios, ring := ?_ }, rfl⟩
      have hn : IoAddr.node (plan io).addr ∉ IoAddr.iowrites :: ioNodes plan t.esIowrites := by
        simp only [ioNodes, List.mem_cons, List.mem_map, reduceCtorEq, false_or]
        rintro ⟨j, hj, e⟩
        exact hnew io (List.mem_singleton_self io) j hj (IoAddr.node.inj e).symm
      have hring := listAddTail_isRing hr.ring hn
      rw [ioNodes, List.map_append]
      exact hring
  | writing io =>
    have hio := hmem io (List.mem_singleton_self io)
    refine ⟨s, ?_, hr, rfl⟩
    rw [WriteFrame.inMemory, SockCell.writeStep, hio.sockWrite]
    simp only [WriteFrame.step, Option.map_some]
    split <;> rfl
  | wrote io ret => exact ⟨_, rfl, { hr with esWrite := rfl }, rfl⟩
  | calling io ret => exact ⟨s, rfl, hr, rfl⟩
  | inCb => exact ⟨s, rfl, hr, rfl⟩
  | dispatching => exact ⟨s, rfl, hr, rfl⟩

/-- **A step of the handler in memory** is its step on the lists. -/
theorem Represents.handlerStep (hr : Represents plan s t)
    (hc : t.esPendios = t.esIowrites.length) (k : KernelWrite) {f : HandlerFrame}
    (hmem : ∀ io ∈ f.holds, s.Intact plan io) (hlist : ∀ io ∈ t.esIowrites, s.Intact plan io) :
    ∃ r s', f.step t k = some r ∧
      s.handlerStep k (f.inMemory plan) =
        some (s', r.2.1.map (HandlerFrame.inMemory plan), r.2.2.inMemory plan) ∧
      Represents plan s' r.1 ∧ s'.mem = s.mem := by
  cases f with
  | enter =>
    refine ⟨_, s, rfl, ?_, hr, rfl⟩
    simp only [HandlerFrame.inMemory, SockCell.handlerStep, hr.connect]
    cases t.connect <;> rfl
  | asking =>
    refine ⟨_, s, rfl, ?_, hr, rfl⟩
    simp only [HandlerFrame.inMemory, SockCell.handlerStep, hr.write]
    cases t.write <;> rfl
  | connecting => exact ⟨_, _, rfl, rfl, { hr with connect := rfl }, rfl⟩
  | connected => exact ⟨_, _, rfl, rfl, hr, rfl⟩
  | locking =>
    have hw := hr.esWrite
    simp only [HandlerFrame.inMemory, SockCell.handlerStep, HandlerFrame.step, hw]
    cases t.esWrite with
    | none => exact ⟨_, _, rfl, rfl, hr, rfl⟩
    | some io => exact ⟨_, _, rfl, rfl, { hr with esWrite := rfl }, rfl⟩
  | taken io =>
    have hio := hmem io (List.mem_singleton_self io)
    refine ⟨_, s, rfl, ?_, hr, rfl⟩
    rw [HandlerFrame.inMemory, SockCell.handlerStep, hio.iocIocb]
    rfl
  | next drain =>
    simp only [HandlerFrame.inMemory, SockCell.handlerStep, HandlerFrame.step, hr.esPendios]
    rcases eq_or_ne t.esPendios 0 with h0 | h0
    · rw [if_pos h0, if_pos h0]
      cases drain <;> exact ⟨_, _, rfl, rfl, hr, rfl⟩
    · -- the counter is right, so the list has a first entry
      obtain ⟨io, ios, hios⟩ : ∃ io ios, t.esIowrites = io :: ios :=
        List.exists_cons_of_ne_nil fun e => h0 (by simp [hc, e])
      have hring := hr.ring
      rw [hios, ioNodes, List.map_cons] at hring
      have hfirst : s.links.next .iowrites = .node (plan io).addr := hring.2.1.1
      have hempty : ¬ listEmpty s.links .iowrites = true :=
        fun e => absurd ((listEmpty_iff hring).1 e) (List.cons_ne_nil _ _)
      have htype : (s.mem (plan io).addr).iocIoType = ioTypeSock := by
        rw [hlist io (by simp [hios])]
        exact (plan io).ioType
      have hdel := listDel_isRing
        (show s.links.IsRing .iowrites ([] ++ .node (plan io).addr :: ioNodes plan ios) from hring)
      rw [if_neg h0, if_neg h0, hios, if_neg hempty, hfirst, IoAddr.entry?, Option.bind_some,
        if_neg (not_not_intro htype)]
      exact ⟨_, _, rfl, rfl, { hr with esWrite := rfl, esPendios := rfl, ring := hdel }, rfl⟩
  | writing drain io =>
    have hio := hmem io (List.mem_singleton_self io)
    refine ⟨_, s, rfl, ?_, hr, rfl⟩
    rw [HandlerFrame.inMemory, SockCell.handlerStep, hio.sockWrite]
    simp only [Option.map_some]
    split <;> rfl
  | wrote drain io ret => exact ⟨_, _, rfl, rfl, { hr with esWrite := rfl }, rfl⟩
  | calling drain io ret =>
    have hio := hmem io (List.mem_singleton_self io)
    refine ⟨_, s, rfl, ?_, hr, rfl⟩
    rw [HandlerFrame.inMemory, SockCell.handlerStep, hio.iocIocb]
    rfl
  | inNext drain => exact ⟨_, _, rfl, rfl, hr, rfl⟩
  | clearing => exact ⟨_, _, rfl, rfl, { hr with write := rfl }, rfl⟩
  | draining => exact ⟨_, _, rfl, rfl, hr, rfl⟩
  | inCb => exact ⟨_, _, rfl, rfl, hr, rfl⟩

end SockCell

namespace SockCells

/-- The ioctx of a call. -/
def obj (plan : Io → Submission) (io : Io) : ℕ := (plan io).addr

/-- **A state of a sock and its callers for one in memory.** -/
structure Represents (plan : Io → Submission) (c : SockCells) (d : Caller) : Prop where
  sock : SockCell.Represents plan c.sock d.sys.sock
  mem : ∀ io, d.sys.Live io → c.sock.Intact plan io
  writers : c.writers.Perm (d.sys.writers.map (WriteFrame.inMemory plan))
  handlers : c.handlers.Perm (d.sys.handlers.map (HandlerFrame.inMemory plan))
  inflight : c.inflight = d.sys.inflight
  calls : c.calls = d.sys.calls
  away : c.away = d.away
  hist : c.hist = d.sys.hist.map (IoObs.inMemory plan)
  sound : Caller.Sound (obj plan) d

variable {plan : Io → Submission} {c c' : SockCells} {d e : Caller} {a : ℕ}

theorem represents_init (plan : Io → Submission) (b : Bool) (l : Links IoAddr)
    (mem : ℕ → Ioctx) : Represents plan (init b l mem) (Caller.start b) where
  sock := ⟨rfl, rfl, rfl, rfl, initListHead_isRing l .iowrites⟩
  mem io h := by
    rcases h.1 with h | h
    · exact absurd h List.not_mem_nil
    · exact absurd h List.not_mem_nil
  writers := List.Perm.refl _
  handlers := List.Perm.refl _
  inflight := rfl
  calls := rfl
  away := rfl
  hist := rfl
  sound := Caller.sound_start _ b

/-! ### Steps -/

section Record

variable (c : SockCells) (alloc : Bool) (l : SockLabel)

@[simp] theorem record_sock (l : CellLabel) : (c.record alloc l).sock = c.sock := by
  rcases l <;> rfl

@[simp] theorem record_writers (l : CellLabel) : (c.record alloc l).writers = c.writers := by
  rcases l <;> rfl

@[simp] theorem record_handlers (l : CellLabel) : (c.record alloc l).handlers = c.handlers := by
  rcases l <;> rfl

@[simp] theorem record_calls (l : CellLabel) : (c.record alloc l).calls = c.calls := by
  rcases l <;> rfl

theorem record_hist : (c.record alloc (l.inMemory plan)).hist =
    l.obs.map (IoObs.inMemory plan) ++ c.hist := by
  rcases l <;> rfl

theorem record_away : (c.record alloc (l.inMemory plan)).away =
    c.away.filter fun x => l.calledBack.all fun io => obj plan io ≠ x := by
  rcases l with _ | _ | _ | _
  · exact (List.filter_true _).symm
  · rfl
  · rfl
  · exact (List.filter_true _).symm

theorem record_inflight (s : SockSys) (h : c.inflight = s.inflight) :
    (c.record alloc (l.inMemory plan)).inflight = (s.record alloc l).inflight := by
  rcases l with _ | _ | _ | _
  · exact h
  · exact h
  · exact h
  · exact congrArg (· + alloc.toNat) h

end Record

/-- What lives after a step that writes to no ioctx is as it was submitted. -/
theorem Represents.mem_of_step (hr : Represents plan c d) {act : SockSys.Act}
    (hne : act ≠ .submit) (h : SockSys.step d.sys act = some e.sys) {s' : SockCell}
    (hmem : s'.mem = c.sock.mem) : ∀ io, e.sys.Live io → s'.Intact plan io := by
  intro io hio
  rcases hio.of_step h with hio | ⟨hsub, -⟩
  · have hint := hr.mem io hio
    unfold SockCell.Intact at hint ⊢
    rw [hmem]
    exact hint
  · exact absurd hsub hne

/-- **A step of a call**, after which the sock is `s'` and the calls in progress are `cws` and
`chs`, and `t'`, `ws` and `hs` on the lists. -/
theorem Represents.call (hr : Represents plan c d) {act : SockSys.Act} (hne : act ≠ .submit)
    (ha : d.sys.Settled act) (h : d.step (obj plan) act = some e) {s' : SockCell} {t' : SockIo}
    (hsock : SockCell.Represents plan s' t') (hmem : s'.mem = c.sock.mem) {cws : List WriteCall}
    {chs : List HandlerFrame} {ws : List WriteFrame} {hs : List HandlerFrame}
    (hws : cws.Perm (ws.map (WriteFrame.inMemory plan)))
    (hhs : chs.Perm (hs.map (HandlerFrame.inMemory plan))) {alloc : Bool} {l : SockLabel}
    (hl : act.calledBack = l.calledBack)
    (he : e.sys =
      SockSys.record { d.sys with sock := t', writers := ws, handlers := hs } alloc l) :
    Represents plan (record { c with sock := s', writers := cws, handlers := chs } alloc
      (l.inMemory plan)) e := by
  obtain ⟨hstep, hcases⟩ := Caller.step_cases h
  obtain ⟨-, haway, hcalls⟩ := hcases.resolve_left fun h => hne h.1
  constructor
  · rw [record_sock, he, SockSys.record_sock]
    exact hsock
  · rw [record_sock]
    exact hr.mem_of_step hne hstep hmem
  · rw [record_writers, he, SockSys.record_writers]
    exact hws
  · rw [record_handlers, he, SockSys.record_handlers]
    exact hhs
  · rw [he]
    exact record_inflight _ _ _ _ hr.inflight
  · rw [record_calls, hcalls]
    exact hr.calls
  · rw [record_away, haway, hl]
    exact congrArg _ hr.away
  · rw [record_hist, he, SockSys.record_obs, List.map_append]
    exact congrArg _ hr.hist
  · exact hr.sound.step ha h

/-- A step of `SockSys` in memory. -/
def Act.ofSys (plan : Io → Submission) : SockSys.Act → Act
  | .submit => .submit
  | .edge alloc => .edge alloc
  | .handle => .handle
  | .writer f k alloc => .writer (f.inMemory plan) k alloc
  | .handler f k => .handler (f.inMemory plan) k

/-- A new call of an ioctx that is not away. -/
theorem Represents.submit (hr : Represents plan c d) (h : d.step (obj plan) .submit = some e) :
    (plan c.calls).addr ∉ c.away ∧
      ∃ c', step plan c .submit = some c' ∧ Represents plan c' e := by
  have hsound := hr.sound.step (show d.sys.Settled .submit from trivial) h
  obtain ⟨hstep, hcases⟩ := Caller.step_cases h
  obtain ⟨-, hnew, haway, hcalls⟩ := hcases.resolve_right fun h => h.1 rfl
  have hsys : e.sys = { d.sys with
    writers := .enter d.sys.calls :: d.sys.writers, calls := d.sys.calls + 1 } :=
    (Option.some.inj hstep).symm
  have hout : (plan c.calls).addr ∉ c.away := by
    rw [hr.calls, hr.away]
    exact hnew
  refine ⟨hout, _, rfl, ?_⟩
  constructor
  · rw [hsys]
    exact { hr.sock with }
  · intro io hio
    unfold SockCell.Intact
    rcases hio.of_step hstep with hold | ⟨-, rfl⟩
    · -- it is away, so it is at another address
      have hio := hr.sound.away hold
      have hne : (plan io).addr ≠ (plan c.calls).addr := by
        intro heq
        rw [← heq, hr.away] at hout
        exact hout hio
      dsimp only
      rw [Function.update_of_ne hne]
      exact hr.mem io hold
    · rw [← hr.calls]
      exact Function.update_self ..
  · rw [hsys, List.map_cons, WriteFrame.inMemory, ← hr.calls]
    exact hr.writers.cons _
  · rw [hsys]
    exact hr.handlers
  · rw [hsys]
    exact hr.inflight
  · rw [hcalls]
    exact congrArg (· + 1) hr.calls
  · rw [haway, ← hr.calls, ← hr.away]
    rfl
  · rw [hsys]
    exact hr.hist
  · exact hsound

/-- The ioctxs in the hands of a call are as they were submitted. -/
theorem Represents.intact_of_writer (hr : Represents plan c d) {f : WriteFrame}
    (hf : f ∈ d.sys.writers) : ∀ io ∈ f.holds, c.sock.Intact plan io := fun io hio =>
  hr.mem io (hr.sound.live_of_writer hf (List.mem_append_right _ hio))

theorem Represents.intact_of_handler (hr : Represents plan c d) {f : HandlerFrame}
    (hf : f ∈ d.sys.handlers) : ∀ io ∈ f.holds, c.sock.Intact plan io := fun io hio =>
  hr.mem io (hr.sound.live_of_handler hf hio)

/-- A call that has not entered its section is of an ioctx that is not in the list. -/
theorem Represents.new_of_enters (hr : Represents plan c d) {f : WriteFrame}
    (hf : f ∈ d.sys.writers) : ∀ io ∈ f.enters, ∀ j ∈ d.sys.sock.esIowrites,
      (plan io).addr ≠ (plan j).addr := by
  intro io hio j hj heq
  have hin : io ∈ d.sys.toEnter := List.mem_flatMap.2 ⟨f, hf, hio⟩
  have hnodup := hr.sound.apart.nodup
  rw [SockSys.pending, List.map_append] at hnodup
  refine (List.disjoint_of_nodup_append hnodup) (List.mem_map_of_mem hj) ?_
  exact List.mem_map.2 ⟨io, hin, heq⟩

theorem Represents.writer (hr : Represents plan c d) {f : WriteFrame} {k : KernelWrite}
    {alloc : Bool} (h : d.step (obj plan) (.writer f k alloc) = some e) :
    ∃ c', step plan c (.writer (f.inMemory plan) k alloc) = some c' ∧ Represents plan c' e := by
  obtain ⟨hstep, -⟩ := Caller.step_cases h
  rw [SockSys.step] at hstep
  split at hstep
  · rename_i hf
    obtain ⟨s', hs', hrep, hmem⟩ :=
      hr.sock.writeStep k (hr.intact_of_writer hf) (hr.new_of_enters hf)
    have hin : f.inMemory plan ∈ c.writers := hr.writers.mem_iff.2 (List.mem_map_of_mem hf)
    have ha : d.sys.Settled (.writer f k alloc) := trivial
    refine ⟨_, ?_, hr.call (by simp) ha h hrep hmem
      (Pool.perm_swap_map _ hr.writers hf _) hr.handlers ?_ (Option.some.inj hstep).symm⟩
    · rw [step, if_pos hin, hs']
      rfl
    · exact (WriteFrame.step_cases d.sys.sock k f).calledBack alloc
  · cases hstep

theorem Represents.handler (hr : Represents plan c d) {f : HandlerFrame} {k : KernelWrite}
    (ha : d.sys.Settled (.handler f k)) (h : d.step (obj plan) (.handler f k) = some e) :
    ∃ c', step plan c (.handler (f.inMemory plan) k) = some c' ∧ Represents plan c' e := by
  obtain ⟨hstep, -⟩ := Caller.step_cases h
  rw [SockSys.step] at hstep
  split at hstep
  · rename_i hf
    obtain ⟨r, s', hr', hs', hrep, hmem⟩ :=
      hr.sock.handlerStep hr.sound.counted k (hr.intact_of_handler hf)
        fun io hio => hr.mem io (hr.sound.live_of_listed hio)
    have hin : f.inMemory plan ∈ c.handlers := hr.handlers.mem_iff.2 (List.mem_map_of_mem hf)
    rw [hr', Option.map_some] at hstep
    refine ⟨_, ?_, hr.call (by simp) ha h hrep hmem
      hr.writers (Pool.perm_swap_map _ hr.handlers hf _) ?_ (Option.some.inj hstep).symm⟩
    · rw [step, if_pos hin, hs']
      rfl
    · exact (HandlerFrame.step_cases hr').calledBack
  · cases hstep

/-- Two ios in the hands of calls are of different ioctxs, so a call publishes the ioctx of an io
if it publishes the io. -/
theorem publishes_inMemory {f : WriteFrame} {io : Io}
    (h : ∀ j ∈ f.holds, (plan j).addr = (plan io).addr → j = io) :
    publishes (plan io).addr (f.inMemory plan) = f.publishes io := by
  cases f with
  | writing j | wrote j ret =>
    refine decide_eq_decide.2 ⟨h j (List.mem_singleton_self j), ?_⟩
    rintro rfl
    rfl
  | enter | calling | inCb | dispatching => rfl

theorem publishes_inMemory_handler {f : HandlerFrame} {io : Io}
    (h : ∀ j ∈ f.holds, (plan j).addr = (plan io).addr → j = io) :
    (f.inMemory plan).publishes (plan io).addr = f.publishes io := by
  cases f with
  | writing drain j | wrote drain j ret =>
    refine decide_eq_decide.2 ⟨h j (List.mem_singleton_self j), ?_⟩
    rintro rfl
    rfl
  | enter | asking | connecting | connected | locking | taken | next | calling | inNext
  | clearing | draining | inCb => rfl

theorem Represents.published_eq (hr : Represents plan c d) {io : Io}
    (hio : d.sys.sock.esWrite = some io) :
    c.published (plan io).addr = d.sys.published io := by
  have hlive := hr.sound.live_of_esWrite hio
  unfold published SockSys.published
  rw [hr.writers.countP_eq, hr.handlers.countP_eq, List.countP_map, List.countP_map]
  congr 1
  · refine List.countP_congr fun f hf => ?_
    rw [Function.comp_apply, publishes_inMemory fun j hj heq =>
      hr.sound.unique (hr.sound.live_of_writer hf (List.mem_append_right _ hj)) hlive heq]
  · refine List.countP_congr fun f hf => ?_
    rw [Function.comp_apply, publishes_inMemory_handler fun j hj heq =>
      hr.sound.unique (hr.sound.live_of_handler hf hj) hlive heq]

/-- The condition on the handler is the same in memory. -/
theorem Represents.settled_iff (hr : Represents plan c d) (f : HandlerFrame) (k : KernelWrite) :
    Owned plan c (.handler (f.inMemory plan) k) ↔ d.sys.Settled (.handler f k) := by
  have hpub : ∀ io, d.sys.sock.esWrite = some io →
      c.published (plan io).addr = d.sys.published io := fun io => hr.published_eq
  have hw := hr.sock.esWrite
  cases f with
  | locking =>
    unfold Owned SockSys.Settled
    rw [hw]
    cases he : d.sys.sock.esWrite with
    | none => simp [HandlerFrame.inMemory]
    | some io => simp [HandlerFrame.inMemory, hpub io he]
  | enter | asking | connecting | connected | taken | next | writing | wrote | calling | inNext
  | clearing | draining | inCb =>
    exact ⟨fun _ => trivial, fun _ h => by cases h⟩

/-- The owner of an ioctx that is not away writes to it. -/
theorem Represents.write (hr : Represents plan c d) (ha : a ∉ c.away) (io : Ioctx)
    (next prev : IoAddr) :
    Represents plan { c with sock := c.sock.wrote a io next prev } d := by
  refine { hr with sock := { hr.sock with ring := ?_ }, mem := fun j hj => ?_ }
  · refine (Links.agreeOff_put c.sock.links (.node a) next prev).isRing hr.sock.ring ?_
    rintro z hz hza
    obtain rfl := List.mem_singleton.1 hza
    simp only [ioNodes, List.mem_cons, reduceCtorEq, false_or] at hz
    obtain ⟨j, hj, e⟩ := List.mem_map.1 hz
    have hin := hr.sound.away (hr.sound.live_of_listed hj)
    rw [← hr.away] at hin
    exact ha (IoAddr.node.inj e ▸ hin)
  · have hin := hr.sound.away hj
    rw [← hr.away] at hin
    have hne : (plan j).addr ≠ a := fun e => ha (e ▸ hin)
    have hint := hr.mem j hj
    unfold SockCell.Intact at hint ⊢
    rw [SockCell.wrote]
    exact (Function.update_of_ne hne _ _).trans hint

/-- A step of no call, after which there are `n` events in flight. -/
theorem Represents.event (hr : Represents plan c d) {act : SockSys.Act} (hne : act ≠ .submit)
    (ha : d.sys.Settled act) (h : d.step (obj plan) act = some e) {owed : Bool} {n : ℕ}
    {chs : List HandlerFrame} {hs : List HandlerFrame} (hl : act.calledBack = none)
    (hhs : chs.Perm (hs.map (HandlerFrame.inMemory plan)))
    (he : e.sys = { d.sys with owed := owed, inflight := n, handlers := hs }) :
    Represents plan { c with inflight := n, handlers := chs } e := by
  obtain ⟨hstep, hcases⟩ := Caller.step_cases h
  obtain ⟨-, haway, hcalls⟩ := hcases.resolve_left fun h => hne h.1
  rw [hl] at haway
  constructor
  · rw [he]
    exact hr.sock
  · exact hr.mem_of_step hne hstep rfl
  · rw [he]
    exact hr.writers
  · rw [he]
    exact hhs
  · rw [he]
  · rw [hcalls]
    exact hr.calls
  · rw [haway]
    exact hr.away.trans (List.filter_true _).symm
  · rw [he]
    exact hr.hist
  · exact hr.sound.step ha h

/-- **A step of a sock and its callers is one in memory.** -/
theorem Represents.realize (hr : Represents plan c d) {act : SockSys.Act}
    (ha : d.sys.Settled act) (h : d.step (obj plan) act = some e) :
    ∃ c', step plan c (.ofSys plan act) = some c' ∧ Owned plan c (.ofSys plan act) ∧
      Represents plan c' e := by
  cases act with
  | submit =>
    obtain ⟨hout, c', hc', hr'⟩ := hr.submit h
    exact ⟨c', hc', hout, hr'⟩
  | edge alloc =>
    obtain ⟨hstep, -⟩ := Caller.step_cases h
    have he := (Option.some.inj hstep).symm
    rw [← hr.inflight] at he
    exact ⟨_, rfl, trivial, hr.event (by simp) ha h rfl hr.handlers he⟩
  | handle =>
    obtain ⟨hstep, -⟩ := Caller.step_cases h
    rw [SockSys.step] at hstep
    split at hstep
    · cases hstep
    · rename_i h0
      have he := (Option.some.inj hstep).symm
      rw [← hr.inflight] at he h0
      exact ⟨_, if_neg h0, trivial, hr.event (by simp) ha h rfl (hr.handlers.cons _) he⟩
  | writer f k alloc =>
    obtain ⟨c', hc', hr'⟩ := hr.writer h
    exact ⟨c', hc', trivial, hr'⟩
  | handler f k =>
    obtain ⟨c', hc', hr'⟩ := hr.handler ha h
    exact ⟨c', hc', (hr.settled_iff f k).2 ha, hr'⟩

/-- **A step in memory is one of a sock and its callers**, or a write of an owner. -/
theorem Represents.step (hr : Represents plan c d) {act : Act} (hC : Owned plan c act)
    (h : SockCells.step plan c act = some c') :
    ∃ acts e, StepSystem.run (Caller.step (obj plan)) d acts = some e ∧
      StepSystem.Meets (Caller.step (obj plan)) (fun d a => d.sys.Settled a) d acts ∧
      Represents plan c' e := by
  -- the step that the calls take on the lists, if they can
  have hone : ∀ a : SockSys.Act, act = .ofSys plan a → d.sys.Settled a →
      d.step (obj plan) a ≠ none →
      ∃ acts e, StepSystem.run (Caller.step (obj plan)) d acts = some e ∧
        StepSystem.Meets (Caller.step (obj plan)) (fun d a => d.sys.Settled a) d acts ∧
        Represents plan c' e := by
    rintro a rfl ha hn
    obtain ⟨e, he⟩ := Option.ne_none_iff_exists'.1 hn
    obtain ⟨c'', hc'', -, hr'⟩ := hr.realize ha he
    obtain rfl := Option.some.inj (h.symm.trans hc'')
    exact ⟨[a], e, StepSystem.run_cons.2 ⟨e, he, rfl⟩, .one ha he, hr'⟩
  cases act with
  | submit =>
    refine hone .submit rfl trivial ?_
    have hout : obj plan d.sys.calls ∉ d.away := by
      rw [← hr.away, ← hr.calls]
      exact hC
    simp [Caller.step, hout, SockSys.step]
  | edge alloc => exact hone (.edge alloc) rfl trivial (by simp [Caller.step, SockSys.step])
  | handle =>
    refine hone .handle rfl trivial ?_
    have h0 : d.sys.inflight ≠ 0 := by
      rw [← hr.inflight]
      intro h0
      rw [SockCells.step, if_pos h0] at h
      cases h
    simp [Caller.step, SockSys.step, h0]
  | writer F k alloc =>
    have hF : F ∈ c.writers := by
      by_contra hF
      rw [SockCells.step, if_neg hF] at h
      cases h
    obtain ⟨f, hf, rfl⟩ := List.mem_map.1 (hr.writers.mem_iff.1 hF)
    exact hone (.writer f k alloc) rfl trivial (by simp [Caller.step, SockSys.step, hf])
  | handler F k =>
    have hF : F ∈ c.handlers := by
      by_contra hF
      rw [SockCells.step, if_neg hF] at h
      cases h
    obtain ⟨f, hf, rfl⟩ := List.mem_map.1 (hr.handlers.mem_iff.1 hF)
    refine hone (.handler f k) rfl ((hr.settled_iff f k).1 hC) ?_
    obtain ⟨r, -, hr', -⟩ := hr.sock.handlerStep hr.sound.counted k (hr.intact_of_handler hf)
      fun io hio => hr.mem io (hr.sound.live_of_listed hio)
    simp [Caller.step, SockSys.step, hf, hr']
  | write a io next prev =>
    obtain rfl := Option.some.inj h
    exact ⟨[], d, rfl, trivial, hr.write hC io next prev⟩

end SockCells
end EdpIo
