/-
# The pending writes of a sock

`es_pendios` is kept beside the list `es_iowrites`, and `sock_write_next` asserts that
the list is not empty when the counter is not `0`.  Both are changed in the same sections
under `es_lock`, so the counter is the length of the list wherever the lock is free; but
the list links the ioctxs themselves, so this says something only as long as no ioctx is
appended while it is linked.

An io waits (`pending`) from its call of `edpnet_sock_write` until a call takes it up, and
is taken up once (`begun`): no step but a new call lets an io wait, and what a step takes
up it takes from the waiting ones (`step_takes`).  So an io whose callback has been called
waits no more, and if every earlier call with an ioctx has been called back before it is
submitted again, no two waiting ios are of one ioctx (`Apart`, `pending_listed`).

The callback does not say which call it is for.  `Caller` keeps the callers' side: which
ioctxs were submitted and have not been called back since.  A caller that submits an
ioctx again only after its callback can have it in the list twice (`listed_twice`), when
the handler and the writer both call it back for one call; without that, its runs
meet the condition (`Caller.returned`).
-/

import EdpIo.Sock.Once
import EdpIo.Sock.Order

namespace EdpIo

/-- The io that the call has taken up and whose callback it has still to call. -/
def WriteFrame.holds : WriteFrame → List Io
  | .writing io | .wrote io _ | .calling io _ => [io]
  | .enter _ | .inCb | .dispatching => []

/-- The io that the run has taken up and whose callback it has still to call. -/
def HandlerFrame.holds : HandlerFrame → List Io
  | .taken io | .writing _ io | .wrote _ io _ | .calling _ io _ => [io]
  | _ => []

/-- The io of a callback. -/
def IoObs.calledBack : IoObs → Option Io
  | .attempt _ _ => none
  | .called io _ => some io

theorem count_calledBack (io : Io) (hist : List IoObs) :
    (hist.filterMap IoObs.calledBack).count io = cbCount io hist := by
  rw [List.count, List.countP_filterMap, cbCount]
  congr 1
  funext o
  cases o <;> rfl

theorem mem_calledBack {io : Io} {hist : List IoObs} :
    io ∈ hist.filterMap IoObs.calledBack ↔ cbCount io hist ≠ 0 := by
  rw [← count_calledBack, ← List.count_pos_iff, Nat.pos_iff_ne_zero]

/-- From `w` the ios `up` are taken up, and all that is begun after that is one of them or
was in `b`. -/
def Takes (up w b w' b' : List Io) : Prop := w.Perm (up ++ w') ∧ b' ⊆ up ++ b

/-- A step of a write takes up its io or leaves it waiting. -/
theorem WriteFrame.Step.takes {s s' : SockIo} {k : KernelWrite} {f : WriteFrame}
    {f' : Option WriteFrame} {l : SockLabel} (h : WriteFrame.Step s k f s' f' l) :
    ∃ up, Takes up (s.esIowrites ++ f.enters) (s.esWrite.toList ++ f.holds)
      (s'.esIowrites ++ f'.toList.flatMap WriteFrame.enters)
      (s'.esWrite.toList ++ f'.toList.flatMap WriteFrame.holds ++
        l.obs.filterMap IoObs.calledBack) := by
  cases h with
  | publish io hw hn =>
    refine ⟨[io], ?_, ?_⟩
    · simp [WriteFrame.enters]
    · simp [hn, WriteFrame.holds, SockLabel.obs]
  | append io hor =>
    refine ⟨[], ?_, ?_⟩
    · simp [WriteFrame.enters]
    · simp [WriteFrame.holds, SockLabel.obs]
  | done | block | clear | call | back | dispatch =>
    refine ⟨[], ?_, ?_⟩
    · simp [WriteFrame.enters]
    · simp [WriteFrame.holds, SockLabel.obs, IoObs.calledBack]

/-- A step of the handler takes up the head of the list, or nothing. -/
theorem HandlerFrame.Step.takes {s s' : SockIo} {k : KernelWrite} {f : HandlerFrame}
    {f' : Option HandlerFrame} {l : SockLabel} (h : HandlerFrame.Step s k f s' f' l) :
    ∃ up, Takes up s.esIowrites (s.esWrite.toList ++ f.holds) s'.esIowrites
      (s'.esWrite.toList ++ f'.toList.flatMap HandlerFrame.holds ++
        l.obs.filterMap IoObs.calledBack) := by
  cases h with
  | pop drain io ios h0 hios =>
    refine ⟨[io], ?_, ?_⟩
    · simp [hios]
    · simp [HandlerFrame.holds, SockLabel.obs]
  | take io hio =>
    refine ⟨[], List.Perm.refl _, ?_⟩
    simp [hio, HandlerFrame.holds, SockLabel.obs]
  | ask | written | unwritten | unconnected | connect | connected | free | callTaken | drained
  | nowrite | done | block | clear | call | back | unwrite | drain | return_ =>
    refine ⟨[], List.Perm.refl _, ?_⟩
    simp [HandlerFrame.holds, SockLabel.obs, IoObs.calledBack]

namespace SockSys

/-- The ios in the list, and those that calls have still to publish or append. -/
def pending (s : SockSys) : List Io := s.sock.esIowrites ++ s.toEnter

/-- The ios in `es_write` or in the hands of a call, and those that have been called back. -/
def begun (s : SockSys) : List Io :=
  s.sock.esWrite.toList ++ s.writers.flatMap WriteFrame.holds ++
    s.handlers.flatMap HandlerFrame.holds ++ s.hist.filterMap IoObs.calledBack

variable {s t : SockSys} {a : Act}

/-- **What a step takes up.** -/
theorem step_takes (h : SockSys.step s a = some t) :
    (∃ up, Takes up s.pending s.begun t.pending t.begun ∧ t.calls = s.calls) ∨
      (a = .submit ∧ t.pending = s.sock.esIowrites ++ s.calls :: s.toEnter ∧
        t.begun = s.begun ∧ t.calls = s.calls + 1) := by
  cases step_cases h with
  | submit => exact Or.inr ⟨rfl, rfl, rfl, rfl⟩
  | edge alloc => exact Or.inl ⟨[], ⟨List.Perm.refl _, List.Subset.refl _⟩, rfl⟩
  | handle h0 =>
    refine Or.inl ⟨[], ⟨List.Perm.refl _, ?_⟩, rfl⟩
    simp [begun, HandlerFrame.holds]
  | writer f k alloc hf sock f' l hstep =>
    obtain ⟨up, hw, hb⟩ := hstep.takes
    have henters := Pool.perm_flatMap hf WriteFrame.enters
    have hholds := Pool.perm_flatMap hf WriteFrame.holds
    refine Or.inl ⟨up, ⟨?_, ?_⟩, record_calls _ _ _⟩
    · have hsplit := henters.append_left s.sock.esIowrites
      rw [← List.append_assoc] at hsplit
      simpa [pending, toEnter] using hsplit.trans (hw.append_right _)
    · -- what the call begins is among `up` or was begun by it, and the rest stays
      intro io hio
      have hio' := @hb io
      have hmem := hholds.mem_iff (a := io)
      simp only [begun, record_obs, record_sock, record_writers, record_handlers,
        List.flatMap_append, List.filterMap_append, List.mem_append] at hio hio' hmem ⊢
      grind
  | handler f k hf sock f' l hstep =>
    obtain ⟨up, hw, hb⟩ := hstep.takes
    have hholds := Pool.perm_flatMap hf HandlerFrame.holds
    refine Or.inl ⟨up, ⟨?_, ?_⟩, record_calls _ _ _⟩
    · have := hw.append_right s.toEnter
      simpa [pending, toEnter] using this
    · intro io hio
      have hio' := @hb io
      have hmem := hholds.mem_iff (a := io)
      simp only [begun, record_obs, record_sock, record_writers, record_handlers,
        List.flatMap_append, List.filterMap_append, List.mem_append] at hio hio' hmem ⊢
      grind

/-- Every io at some place has been submitted. -/
def Submitted (s : SockSys) : Prop := ∀ io, io ∈ s.pending ∨ io ∈ s.begun → io < s.calls

theorem submitted_init (b : Bool) : Submitted (init b) := by
  simp [Submitted, pending, begun, toEnter, init]

theorem Submitted.step (hs : s.Submitted) (h : SockSys.step s a = some t) : t.Submitted := by
  rcases step_takes h with ⟨up, ⟨hw, hb⟩, hc⟩ | ⟨-, hw, hb, hc⟩
  · intro io hio
    rw [hc]
    rcases hio with hio | hio
    · exact hs io (Or.inl (hw.mem_iff.2 (List.mem_append_right up hio)))
    · rcases List.mem_append.1 (hb hio) with hup | hio
      · exact hs io (Or.inl (hw.mem_iff.2 (List.mem_append_left _ hup)))
      · exact hs io (Or.inr hio)
  · intro io hio
    rw [hc]
    rw [hw, hb, List.mem_append, List.mem_cons] at hio
    rcases hio with (hio | rfl | hio) | hio
    · exact Nat.lt_succ_of_lt (hs io (Or.inl (List.mem_append_left _ hio)))
    · exact Nat.lt_succ_self _
    · exact Nat.lt_succ_of_lt (hs io (Or.inl (List.mem_append_right _ hio)))
    · exact Nat.lt_succ_of_lt (hs io (Or.inr hio))

/-- The counter is the length of the list. -/
def Counted (s : SockSys) : Prop := s.sock.esPendios = s.sock.esIowrites.length

/-- The append and the removal each change the counter with the list. -/
theorem Counted.step (hs : s.Counted) (h : SockSys.step s a = some t) : t.Counted := by
  unfold Counted at hs ⊢
  cases step_cases h with
  | submit | edge | handle => exact hs
  | writer f k alloc hf sock f' l hstep =>
    rw [record_sock]
    cases hstep with
    | append io hor => simp [hs]
    | publish | done | block | clear | call | back | dispatch => exact hs
  | handler f k hf sock f' l hstep =>
    rw [record_sock]
    cases hstep with
    | pop drain io ios h0 hios => simp [hs, hios]
    | ask | written | unwritten | unconnected | connect | connected | take | free | callTaken
    | drained | nowrite | done | block | clear | call | back | unwrite | drain | return_ => exact hs

/-- The ioctx of call `io` is `obj io`: no two waiting ios are of one ioctx, and none of them
has been taken up. -/
structure Apart (obj : Io → ℕ) (s : SockSys) : Prop where
  nodup : (s.pending.map obj).Nodup
  apart : ∀ io ∈ s.pending, io ∉ s.begun

theorem apart_init (obj : Io → ℕ) (b : Bool) : Apart obj (init b) where
  nodup := List.nodup_nil
  apart _ h := absurd h List.not_mem_nil

/-- An ioctx is submitted again only when all its earlier calls have been called back. -/
def Returned (obj : Io → ℕ) (s : SockSys) : Act → Prop
  | .submit => ∀ io < s.calls, obj io = obj s.calls → cbCount io s.hist ≠ 0
  | _ => True

instance (obj : Io → ℕ) (s : SockSys) : (a : Act) → Decidable (Returned obj s a)
  | .submit => inferInstanceAs (Decidable (∀ io < s.calls, _ → _))
  | .edge _ | .handle | .writer _ _ _ | .handler _ _ => inferInstanceAs (Decidable True)

/-- **One step keeps the waiting ioctxs apart**: those taken up wait no more, and a new one
comes only after the callbacks of the earlier calls with it. -/
theorem Apart.step {obj : Io → ℕ} (hs : Apart obj s) (hsub : s.Submitted)
    (ha : Returned obj s a) (h : SockSys.step s a = some t) : Apart obj t := by
  rcases step_takes h with ⟨up, ⟨hw, hb⟩, -⟩ | ⟨rfl, hw, hb, -⟩
  · have hnodup : ((up ++ t.pending).map obj).Nodup := (hw.map obj).nodup_iff.1 hs.nodup
    rw [List.map_append] at hnodup
    refine ⟨hnodup.of_append_right, fun io hio hbegun => ?_⟩
    rcases List.mem_append.1 (hb hbegun) with hup | hbegun
    · -- it has just been taken up
      exact (List.disjoint_of_nodup_append hnodup) (List.mem_map_of_mem hup)
        (List.mem_map_of_mem hio)
    · exact hs.apart io (hw.mem_iff.2 (List.mem_append_right up hio)) hbegun
  · have hperm : t.pending.Perm (s.calls :: s.pending) := by
      rw [hw]
      exact List.perm_middle
    constructor
    · rw [(hperm.map obj).nodup_iff, List.map_cons, List.nodup_cons]
      refine ⟨fun hmem => ?_, hs.nodup⟩
      obtain ⟨io, hio, heq⟩ := List.mem_map.1 hmem
      have hcb := mem_calledBack.2 (ha io (hsub io (Or.inl hio)) heq)
      exact hs.apart io hio (List.mem_append_right _ hcb)
    · intro io hio
      rw [hb]
      rcases List.mem_cons.1 (hperm.mem_iff.1 hio) with rfl | hio
      · exact fun hbegun => Nat.lt_irrefl _ (hsub _ (Or.inr hbegun))
      · exact hs.apart io hio

/-- What `sock_write_next` relies on, where `es_lock` is free. -/
structure Listed (obj : Io → ℕ) (s : SockSys) : Prop where
  /-- `es_pendios` is the length of `es_iowrites`. -/
  counted : s.sock.esPendios = s.sock.esIowrites.length
  /-- No ioctx is in the list twice. -/
  nodup : (s.sock.esIowrites.map obj).Nodup
  /-- The assertion that the list is not empty holds wherever a run is about to make it. -/
  asserted : ∀ drain, .next drain ∈ s.handlers → ∀ k,
    (HandlerFrame.step s.sock k (.next drain)).isSome

/-- With the counter right the section of `sock_write_next` is not stopped by its assertion. -/
theorem Counted.asserted (hs : s.Counted) (drain : Bool) (k : KernelWrite) :
    (HandlerFrame.step s.sock k (.next drain)).isSome := by
  rw [HandlerFrame.step]
  split
  · rfl
  · rename_i h0
    split
    · rename_i hnil
      rw [Counted, hnil] at hs
      exact absurd hs h0
    · rfl

/-- **The pending writes are listed.**  In every interleaving of any number of calls of
`edpnet_sock_write` and runs of the handler in which an ioctx is submitted again only when
all its earlier calls have been called back, and for any answers of the kernel: wherever
`es_lock` is free `es_pendios` is the length of `es_iowrites` and no ioctx is in it twice,
and the assertion of `sock_write_next` holds at every execution. -/
theorem pending_listed {obj : Io → ℕ} {b : Bool} {acts : List Act}
    (ha : StepSystem.Meets SockSys.step (Returned obj) (init b) acts)
    (hrun : StepSystem.run SockSys.step (init b) acts = some s) : Listed obj s := by
  have hs : Apart obj s ∧ s.Submitted ∧ s.Counted :=
    StepSystem.run_invariant (I := fun u => Apart obj u ∧ u.Submitted ∧ u.Counted)
      (fun _ _ _ ⟨hs, hsub, hc⟩ ha h => ⟨hs.step hsub ha h, hsub.step h, hc.step h⟩)
      ⟨apart_init obj b, submitted_init b, rfl⟩ ha hrun
  obtain ⟨hs, -, hc⟩ := hs
  have hnodup := hs.nodup
  rw [pending, List.map_append] at hnodup
  exact ⟨hc, hnodup.of_append_left, fun drain _ k => hc.asserted drain k⟩

/-- Ioctx `0` is submitted, called back and submitted again, while ioctx `1` waits. -/
theorem pending_listed_again :
    ∃ s, Listed (· % 2) s ∧ s.sock.esIowrites = [1, 2] ∧ s.sock.esPendios = 2 := by
  have hrun := Eq.refl (StepSystem.run SockSys.step (init true)
    [.submit, .submit, .writer (.enter 0) ⟨0, 0⟩ true, .writer (.enter 1) ⟨0, 0⟩ true,
      .writer (.writing 0) ⟨-1, 11⟩ true, .edge true, .handle, .handler .enter ⟨0, 0⟩,
      .handler .asking ⟨0, 0⟩, .handler .locking ⟨0, 0⟩, .handler (.taken 0) ⟨0, 0⟩, .submit,
      .writer (.enter 2) ⟨0, 0⟩ true])
  exact ⟨_, pending_listed (by decide) hrun, rfl, rfl⟩

/-- The io that the step calls back. -/
def Act.calledBack : Act → Option Io
  | .writer (.calling io _) _ _ | .handler (.taken io) _ | .handler (.calling _ io _) _ => some io
  | _ => none

/-- What a step adds to the callbacks. -/
theorem cbCount_step (h : SockSys.step s a = some t) (io : Io) :
    cbCount io t.hist = cbCount io s.hist + if a.calledBack = some io then 1 else 0 := by
  cases step_cases h with
  | submit | edge | handle => rfl
  | writer f k alloc hf sock f' l hstep => cases hstep <;> simp [record, Act.calledBack]
  | handler f k hf sock f' l hstep => cases hstep <;> simp [record, Act.calledBack]

/-- A settled step calls back an io that has not been called back. -/
theorem Held.calledBack {io : Io} (hs : Held io s) (ha : s.Settled a)
    (h : SockSys.step s a = some t) (hcb : a.calledBack = some io) :
    io < t.calls ∧ cbCount io s.hist = 0 := by
  have ht := hs.step ha h
  have hcount := cbCount_step h io
  rw [if_pos hcb] at hcount
  unfold Held ending share at ht
  split at ht
  · exact ⟨by assumption, by omega⟩
  · omega

end SockSys

/-- A sock and its callers: `away` are the ioctxs that were submitted and have not been called
back since. -/
structure Caller where
  sys : SockSys
  away : List ℕ

namespace Caller

open SockSys (Act init Held Settled Returned Listed cbCount_step)

def start (b : Bool) : Caller := ⟨init b, []⟩

/-- A step where an ioctx is submitted again only after its callback. -/
def step (obj : Io → ℕ) (c : Caller) (a : Act) : Option Caller :=
  match a with
  | .submit =>
    if obj c.sys.calls ∈ c.away then none
    else (SockSys.step c.sys .submit).map (⟨·, obj c.sys.calls :: c.away⟩)
  | a =>
    (SockSys.step c.sys a).map
      (⟨·, c.away.filter fun x => a.calledBack.all fun io => obj io ≠ x⟩)

/-- **Listed twice.**  A writer publishes ioctx `0`; before its kernel write a handler takes it
and calls its callback, which submits it again; the writer then calls the callback as well,
which submits it once more.  Both wait in the list. -/
theorem listed_twice :
    ¬ ∀ obj b acts c, StepSystem.run (step obj) (start b) acts = some c → Listed obj c.sys := by
  intro h
  have hrun := Eq.refl (StepSystem.run (step fun _ => 0) (start true)
    [.submit, .writer (.enter 0) ⟨0, 0⟩ true, .edge true, .handle, .handler .enter ⟨0, 0⟩,
      .handler .asking ⟨0, 0⟩, .handler .locking ⟨0, 0⟩, .handler (.taken 0) ⟨0, 0⟩, .submit,
      .writer (.enter 1) ⟨0, 0⟩ true, .writer (.writing 0) ⟨5, 0⟩ true,
      .writer (.wrote 0 5) ⟨0, 0⟩ true, .writer (.calling 0 5) ⟨0, 0⟩ true, .submit,
      .writer (.enter 2) ⟨0, 0⟩ true])
  exact absurd (h _ _ _ _ hrun).nodup (by decide)

variable {obj : Io → ℕ} {c d : Caller} {a : Act}

theorem step_cases (h : c.step obj a = some d) :
    SockSys.step c.sys a = some d.sys ∧
      ((a = .submit ∧ obj c.sys.calls ∉ c.away ∧ d.away = obj c.sys.calls :: c.away ∧
          d.sys.calls = c.sys.calls + 1) ∨
        (a ≠ .submit ∧ (d.away = c.away.filter fun x => a.calledBack.all fun io => obj io ≠ x) ∧
          d.sys.calls = c.sys.calls)) := by
  by_cases hsub : a = .submit
  · subst hsub
    rw [step] at h
    split at h
    · cases h
    · obtain ⟨t, ht, rfl⟩ := Option.map_eq_some_iff.1 h
      obtain rfl := Option.some.inj ht
      exact ⟨rfl, Or.inl ⟨rfl, by assumption, rfl, rfl⟩⟩
  · have hmap : (SockSys.step c.sys a).map
        (⟨·, c.away.filter fun x => a.calledBack.all fun io => obj io ≠ x⟩) = some d := by
      cases a with
      | submit => exact absurd rfl hsub
      | edge | handle | writer | handler => exact h
    obtain ⟨t, ht, rfl⟩ := Option.map_eq_some_iff.1 hmap
    rcases SockSys.step_takes ht with ⟨-, -, hcalls⟩ | ⟨heq, -⟩
    · exact ⟨ht, Or.inr ⟨hsub, rfl, hcalls⟩⟩
    · exact absurd heq hsub

/-- The calls that have not been called back are of different ioctxs, which are away. -/
structure Owed (obj : Io → ℕ) (c : Caller) : Prop where
  away : ∀ io < c.sys.calls, cbCount io c.sys.hist = 0 → obj io ∈ c.away
  unique : ∀ io < c.sys.calls, ∀ j < c.sys.calls, cbCount io c.sys.hist = 0 →
    cbCount j c.sys.hist = 0 → obj io = obj j → io = j

/-- A new call with an ioctx that is not away. -/
theorem Owed.submit (hc : Owed obj c) (hnew : obj c.sys.calls ∉ c.away)
    (haway : d.away = obj c.sys.calls :: c.away) (hcalls : d.sys.calls = c.sys.calls + 1)
    (hcb : ∀ io, cbCount io d.sys.hist = cbCount io c.sys.hist) : Owed obj d := by
  have hold : ∀ io < c.sys.calls, cbCount io c.sys.hist = 0 → obj io ≠ obj c.sys.calls :=
    fun io hio h0 heq => hnew (heq ▸ hc.away io hio h0)
  constructor
  · intro io hio h0
    rw [hcalls] at hio
    rw [hcb] at h0
    rw [haway]
    rcases Nat.lt_succ_iff_lt_or_eq.1 hio with hlt | rfl
    · exact List.mem_cons_of_mem _ (hc.away io hlt h0)
    · exact List.mem_cons_self
  · intro io hio j hj h0 h0' heq
    rw [hcalls] at hio hj
    rw [hcb] at h0 h0'
    rcases Nat.lt_succ_iff_lt_or_eq.1 hio with hio | rfl <;>
      rcases Nat.lt_succ_iff_lt_or_eq.1 hj with hj | rfl
    · exact hc.unique io hio j hj h0 h0' heq
    · exact absurd heq (hold io hio h0)
    · exact absurd heq.symm (hold j hj h0')
    · rfl

/-- The step calls back only a call that has not been called back, so the others that have not
are of other ioctxs. -/
theorem Owed.call (hc : Owed obj c)
    (hone : ∀ io, a.calledBack = some io → io < c.sys.calls ∧ cbCount io c.sys.hist = 0)
    (haway : d.away = c.away.filter fun x => a.calledBack.all fun io => obj io ≠ x)
    (hcalls : d.sys.calls = c.sys.calls)
    (hcb : ∀ io, cbCount io d.sys.hist =
      cbCount io c.sys.hist + if a.calledBack = some io then 1 else 0) : Owed obj d := by
  have hpos : ∀ io, cbCount io d.sys.hist = 0 →
      cbCount io c.sys.hist = 0 ∧ a.calledBack ≠ some io := by
    intro io h0
    rw [hcb] at h0
    split at h0
    · omega
    · exact ⟨by omega, by assumption⟩
  constructor
  · intro io hio h0
    obtain ⟨h0, hne⟩ := hpos io h0
    rw [hcalls] at hio
    rw [haway, List.mem_filter]
    refine ⟨hc.away io hio h0, ?_⟩
    rw [Option.all_eq_true]
    intro j hj
    rw [decide_eq_true_iff]
    intro heq
    obtain ⟨hlt, hj0⟩ := hone j hj
    exact hne (hc.unique j hlt io hio hj0 h0 heq ▸ hj)
  · intro io hio j hj h0 h0'
    rw [hcalls] at hio hj
    exact hc.unique io hio j hj (hpos io h0).1 (hpos j h0').1

theorem Owed.step (hc : Owed obj c) (hheld : ∀ io, Held io c.sys) (ha : c.sys.Settled a)
    (h : c.step obj a = some d) : Owed obj d := by
  obtain ⟨hstep, ⟨rfl, hnew, haway, hcalls⟩ | ⟨hne, haway, hcalls⟩⟩ := step_cases h
  · exact hc.submit hnew haway hcalls fun io => cbCount_step hstep io
  · refine hc.call (fun io hio => ?_) haway hcalls (cbCount_step hstep)
    rw [← hcalls]
    exact (hheld io).calledBack ha hstep hio

theorem Owed.returned {acts : List Act} (hc : Owed obj c) (hheld : ∀ io, Held io c.sys)
    (ha : StepSystem.Meets SockSys.step Settled c.sys acts)
    (hrun : StepSystem.run (Caller.step obj) c acts = some d) :
    StepSystem.Meets SockSys.step (Returned obj) c.sys acts := by
  induction acts generalizing c with
  | nil => trivial
  | cons a acts ih =>
    obtain ⟨e, hstep, hrun⟩ := StepSystem.run_cons.1 hrun
    obtain ⟨hsys, hcases⟩ := step_cases hstep
    obtain ⟨ha, hmeets⟩ := ha
    rw [hsys] at hmeets
    rw [StepSystem.Meets, hsys]
    refine ⟨?_, ih (hc.step hheld ha hstep) (fun io => (hheld io).step ha hsys) hmeets hrun⟩
    rcases hcases with ⟨rfl, hnew, -⟩ | ⟨hne, -⟩
    · -- the ioctx is not away, so none of its calls is still to be called back
      exact fun io hio heq h0 => hnew (heq ▸ hc.away io hio h0)
    · cases a with
      | submit => exact absurd rfl hne
      | edge | handle | writer | handler => trivial

/-- **A caller that waits for its callbacks.**  If no handler takes an io that a call is still
publishing, a caller that submits an ioctx again only after its callback submits it only when
all its earlier calls have been called back. -/
theorem returned {b : Bool} {acts : List Act}
    (ha : StepSystem.Meets SockSys.step Settled (init b) acts)
    (hrun : StepSystem.run (step obj) (start b) acts = some c) :
    StepSystem.Meets SockSys.step (Returned obj) (init b) acts :=
  Owed.returned ⟨fun _ h => absurd h (Nat.not_lt_zero _), fun _ h => absurd h (Nat.not_lt_zero _)⟩
    (SockSys.held_init b) ha hrun

end Caller
end EdpIo
