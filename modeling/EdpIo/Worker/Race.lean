/-
# Picking a worker while others do

`wd_round` is shared by all threads that dispatch and has no lock.  A `Picker` is a call of
`__edp_dispatch` between its first read of `wd_round` and the choice of a worker; each
of its steps is one read or one write, so that `wd->wd_round++` and
`wd->wd_round % wd->wd_thread_num` are two steps each.  A call that is alone picks as
`WorkerData.pick` does (`pick_alone`).

The increment leaves `wd_round` past the last worker until the remainder is stored, and a
call that reads it in between picks a worker that does not exist (`picked_past_end`).
`raced_in_range` holds of every run in which no call reads the index while another has
still to bring `wd_round` back (`Reduced`).
-/

import EdpIo.Lib.Pool
import EdpIo.Worker.Round

namespace EdpIo

open WorkerData (toInt toShort)

/-- Where a call of `__edp_dispatch` is in its choice of a worker. -/
inductive PickPc
  /-- Before the read of `wd_round` in the test of `ev_cpuid`. -/
  | testing
  /-- Before `cpuid = wd->wd_round`. -/
  | loading
  /-- Before the read of `wd->wd_round++`. -/
  | reading (cpuid : ℤ)
  /-- Before its write; it read `old`. -/
  | counting (cpuid old : ℤ)
  /-- Before the read of `wd->wd_round % wd->wd_thread_num`; the increment wrote `v`. -/
  | dividing (cpuid v : ℤ)
  /-- Before the store of the remainder; it read `old`. -/
  | storing (cpuid v old : ℤ)
deriving DecidableEq, Repr

/-- A call of `__edp_dispatch(ev)` that has not picked a worker. -/
structure Picker where
  ev : EdpEvent
  pc : PickPc
deriving DecidableEq, Repr

/-- What is left of a call after a step, or the index at which it takes `wd_threads`. -/
inductive PickResult
  | next (c : Picker)
  | picked (cpuid : ℤ)
deriving DecidableEq, Repr

/-- One step of a call. -/
def Picker.step (wd : WorkerData) (c : Picker) : WorkerData × PickResult :=
  match c.pc with
  | .testing =>
    (wd,
      if 0 ≤ c.ev.evCpuid ∧ c.ev.evCpuid < wd.wdRound then .picked c.ev.evCpuid
      else .next { c with pc := .loading })
  | .loading =>
    (wd, .next ⟨{ c.ev with evCpuid := toShort wd.wdRound }, .reading wd.wdRound⟩)
  | .reading cpuid => (wd, .next { c with pc := .counting cpuid wd.wdRound })
  | .counting cpuid old =>
    ({ wd with wdRound := toInt (old + 1) },
      .next { c with pc := .dividing cpuid (toInt (old + 1)) })
  | .dividing cpuid v => (wd, .next { c with pc := .storing cpuid v wd.wdRound })
  | .storing cpuid _ old => ({ wd with wdRound := old.tmod wd.wdThreadNum }, .picked cpuid)

/-- What the call wrote to `wd_round`, while it has still to store the remainder. -/
def PickPc.stored? : PickPc → Option ℤ
  | .dividing _ v | .storing _ v _ => some v
  | .testing | .loading | .reading _ | .counting _ _ => none

/-- The data, the calls that have not picked a worker, and the indices picked, newest
first. -/
structure RaceSys where
  data : WorkerData
  calls : List Picker
  hist : List ℤ
deriving DecidableEq, Repr

namespace RaceSys

/-- The workers run and nobody dispatches. -/
def init (wd : WorkerData) : RaceSys := ⟨wd, [], []⟩

/-- The steps. -/
inductive Act
  /-- A call of `__edp_dispatch(ev)`. -/
  | dispatch (ev : EdpEvent)
  /-- A step of a call. -/
  | pick (c : Picker)
deriving DecidableEq, Repr

/-- The state after a step of `c` with the result `r`. -/
def advance (s : RaceSys) (c : Picker) (wd : WorkerData) : PickResult → RaceSys
  | .next c' => { s with data := wd, calls := c' :: s.calls.erase c }
  | .picked cpuid => ⟨wd, s.calls.erase c, cpuid :: s.hist⟩

/-- One step. -/
def step (s : RaceSys) : Act → Option RaceSys
  | .dispatch ev => some { s with calls := ⟨ev, .testing⟩ :: s.calls }
  | .pick c =>
    if c ∈ s.calls then some (s.advance c (c.step s.data).1 (c.step s.data).2) else none

/-- Every index picked is one of the workers. -/
def InRange (s : RaceSys) : Prop := ∀ i ∈ s.hist, 0 ≤ i ∧ i < s.data.wdThreadNum

/-- No call that wrote an index out of range has still to store the remainder. -/
def Settled (s : RaceSys) : Prop :=
  ∀ c ∈ s.calls, ∀ v ∈ c.pc.stored?, 0 ≤ v ∧ v < s.data.wdThreadNum

instance (s : RaceSys) : Decidable s.InRange := inferInstanceAs (Decidable (∀ i ∈ s.hist, _))

instance (s : RaceSys) : Decidable s.Settled := inferInstanceAs (Decidable (∀ c ∈ s.calls, _))

/-- The step reads `wd_round` for an index only while it is settled, or to compare it with an
`ev_cpuid` that is one of the workers, and the increment stays in an `int`. -/
def Reduced (s : RaceSys) : Act → Prop
  | .dispatch _ => True
  | .pick c =>
    match c.pc with
    | .testing => s.data.wdThreadNum ≤ c.ev.evCpuid → s.Settled
    | .loading => s.Settled
    | .counting _ old => old < 2147483647
    | .reading _ | .dividing _ _ | .storing _ _ _ => True

instance (s : RaceSys) : (a : Act) → Decidable (s.Reduced a)
  | .dispatch _ => inferInstanceAs (Decidable True)
  | .pick ⟨_, .testing⟩ => inferInstanceAs (Decidable (_ → _))
  | .pick ⟨_, .loading⟩ => inferInstanceAs (Decidable s.Settled)
  | .pick ⟨_, .counting _ _⟩ => inferInstanceAs (Decidable (_ < _))
  | .pick ⟨_, .reading _⟩ | .pick ⟨_, .dividing _ _⟩ | .pick ⟨_, .storing _ _ _⟩ =>
    inferInstanceAs (Decidable True)

/-- What a call has picked and read, for `n` workers. -/
def Fit (n : ℤ) : PickPc → Prop
  | .testing | .loading => True
  | .reading cpuid | .dividing cpuid _ => 0 ≤ cpuid ∧ cpuid < n
  | .counting cpuid old | .storing cpuid _ old => (0 ≤ cpuid ∧ cpuid < n) ∧ 0 ≤ old

/-- What the runs keep. -/
structure Racing (s : RaceSys) : Prop where
  pos : 0 < s.data.wdThreadNum
  max : s.data.wdThreadNum < 2147483648
  nonneg : 0 ≤ s.data.wdRound
  /-- Where `wd_round` is past the workers somebody has still to bring it back. -/
  below : s.Settled → s.data.wdRound < s.data.wdThreadNum
  fit : ∀ c ∈ s.calls, Fit s.data.wdThreadNum c.pc
  inRange : s.InRange

variable {s t : RaceSys} {c c' : Picker}

/-- A state is settled if a call and the others are. -/
theorem settled_of_erase (hv : ∀ v ∈ c.pc.stored?, 0 ≤ v ∧ v < s.data.wdThreadNum)
    (h : ∀ d ∈ s.calls.erase c, ∀ v ∈ d.pc.stored?, 0 ≤ v ∧ v < s.data.wdThreadNum) :
    s.Settled := by
  intro d hd
  by_cases hdc : d = c
  · rw [hdc]
    exact hv
  · exact h d ((List.mem_erase_of_ne hdc).2 hd)

/-- The call goes on to a place that fits, and the others are where they were. -/
theorem Racing.fit_next (hs : s.Racing) (hfit : Fit s.data.wdThreadNum c'.pc) :
    ∀ d ∈ c' :: s.calls.erase c, Fit s.data.wdThreadNum d.pc := by
  intro d hd
  rcases List.mem_cons.1 hd with rfl | hd
  · exact hfit
  · exact hs.fit d (List.mem_of_mem_erase hd)

/-- A step that leaves `wd_round` alone and keeps what its call has stored. -/
theorem Racing.keep (hs : s.Racing) (hsame : c'.pc.stored? = c.pc.stored?)
    (hfit : Fit s.data.wdThreadNum c'.pc) : (s.advance c s.data (.next c')).Racing where
  pos := hs.pos
  max := hs.max
  nonneg := hs.nonneg
  below ht := hs.below (settled_of_erase (hsame ▸ ht c' List.mem_cons_self)
    fun d hd => ht d (List.mem_cons_of_mem _ hd))
  fit := hs.fit_next hfit
  inRange := hs.inRange

/-- The increment: `wd_round` holds what the call wrote. -/
theorem Racing.count (hs : s.Racing) {cpuid v : ℤ} (hv : 0 ≤ v)
    (hfit : 0 ≤ cpuid ∧ cpuid < s.data.wdThreadNum) :
    Racing (s.advance c { s.data with wdRound := v }
      (.next { c with pc := .dividing cpuid v })) where
  pos := hs.pos
  max := hs.max
  nonneg := hv
  below ht := (ht _ List.mem_cons_self v rfl).2
  fit := hs.fit_next hfit
  inRange := hs.inRange

/-- A call picks a worker, and `wd_round` is as before or a remainder. -/
theorem Racing.pick (hs : s.Racing) {r cpuid : ℤ} (hi : 0 ≤ cpuid ∧ cpuid < s.data.wdThreadNum)
    (h0 : 0 ≤ r) (hr : (s.advance c { s.data with wdRound := r } (.picked cpuid)).Settled →
      r < s.data.wdThreadNum) :
    (s.advance c { s.data with wdRound := r } (.picked cpuid)).Racing where
  pos := hs.pos
  max := hs.max
  nonneg := h0
  below := hr
  fit d hd := hs.fit d (List.mem_of_mem_erase hd)
  inRange i hi' := by
    rcases List.mem_cons.1 hi' with rfl | hi'
    · exact hi
    · exact hs.inRange i hi'

theorem Racing.step {a : Act} (hs : s.Racing) (ha : s.Reduced a)
    (h : RaceSys.step s a = some t) : t.Racing := by
  cases a with
  | dispatch ev =>
    obtain rfl := Option.some.inj h
    refine ⟨hs.pos, hs.max, hs.nonneg, fun ht => hs.below fun d hd => ?_, fun d hd => ?_,
      hs.inRange⟩
    · exact ht d (List.mem_cons_of_mem _ hd)
    · rcases List.mem_cons.1 hd with rfl | hd
      · trivial
      · exact hs.fit d hd
  | pick c =>
    rw [RaceSys.step] at h
    split at h
    · rename_i hc
      obtain rfl := Option.some.inj h
      obtain ⟨ev, pc⟩ := c
      have hfit := hs.fit _ hc
      cases pc with
      | testing =>
        by_cases hev : 0 ≤ ev.evCpuid ∧ ev.evCpuid < s.data.wdRound
        · rw [Picker.step, if_pos hev]
          refine hs.pick ⟨hev.1, ?_⟩ hs.nonneg fun ht => hs.below
            (settled_of_erase (fun v hv => by cases hv) ht)
          -- an index that is no worker is only compared with a settled `wd_round`
          by_contra hge
          exact absurd (hev.2.trans (hs.below (ha (not_lt.1 hge)))) hge
        · rw [Picker.step, if_neg hev]
          exact hs.keep rfl trivial
      | loading => exact hs.keep rfl ⟨hs.nonneg, hs.below ha⟩
      | reading cpuid => exact hs.keep rfl ⟨hfit, hs.nonneg⟩
      | counting cpuid old =>
        have ha : old < 2147483647 := ha
        obtain ⟨hi, h0⟩ : (0 ≤ cpuid ∧ cpuid < s.data.wdThreadNum) ∧ 0 ≤ old := hfit
        refine hs.count ?_ hi
        rw [WorkerData.toInt_of_lt (by omega) (by omega)]
        omega
      | dividing cpuid v => exact hs.keep rfl ⟨hfit, hs.nonneg⟩
      | storing cpuid v old =>
        obtain ⟨hi, h0⟩ : (0 ≤ cpuid ∧ cpuid < s.data.wdThreadNum) ∧ 0 ≤ old := hfit
        exact hs.pick hi (Int.tmod_nonneg _ h0) fun _ => Int.tmod_lt_of_pos _ hs.pos
    · cases h

/-- **Every dispatch picks one of the workers**, for any number of threads that dispatch any
events after `worker_init` has returned `0` with `wd_round` in range, in every
interleaving of their reads and writes of `wd_round` in which no call reads an index while
one that took `wd_round` out of range has still to store the remainder. -/
theorem raced_in_range {wd : WorkerData} {thread : Int32} {o : WorkerData.InitOracle}
    (hinit : (wd.workerInit thread o).2 = 0) (h0 : 0 ≤ wd.wdRound)
    (hlt : wd.wdRound < thread.toInt) {acts : List Act}
    (ha : StepSystem.Meets step Reduced (init (wd.workerInit thread o).1) acts)
    (hrun : StepSystem.run step (init (wd.workerInit thread o).1) acts = some s) :
    s.InRange := by
  rcases wd.workerInit_cases thread o with ⟨-, hne⟩ | ⟨-, -, heq, hpos⟩
  · exact absurd hinit hne
  · rw [heq] at ha hrun
    refine (StepSystem.run_invariant (I := Racing) (fun _ _ _ hs ha h => hs.step ha h) ?_ ha
      hrun).inRange
    exact ⟨hpos hinit, Int32.toInt_lt thread, h0, fun _ => hlt, fun c hc => absurd hc
      List.not_mem_nil, fun i hi => absurd hi List.not_mem_nil⟩

/-- Two calls among two workers, the second after the first has stored the remainder: a
run that meets the hypotheses of `raced_in_range`. -/
theorem raced_in_range_two :
    ∃ acts s, StepSystem.run step (init (WorkerData.zero.workerInit 2 RoundSys.willing).1) acts =
      some s ∧ s.hist = [1, 0] ∧ s.InRange :=
  let e := RoundSys.freshEvent
  let e₀ := { e with evCpuid := 0 }
  let e₁ := { e with evCpuid := 1 }
  have hrun := Eq.refl (StepSystem.run step
    (init (WorkerData.zero.workerInit 2 RoundSys.willing).1)
    [.dispatch e, .dispatch e, .pick ⟨e, .testing⟩, .pick ⟨e, .loading⟩, .pick ⟨e₀, .reading 0⟩,
      .pick ⟨e₀, .counting 0 0⟩, .pick ⟨e₀, .dividing 0 1⟩, .pick ⟨e, .testing⟩,
      .pick ⟨e₀, .storing 0 1 1⟩, .pick ⟨e, .loading⟩, .pick ⟨e₁, .reading 1⟩,
      .pick ⟨e₁, .counting 1 1⟩, .pick ⟨e₁, .dividing 1 2⟩, .pick ⟨e₁, .storing 1 2 2⟩])
  ⟨_, _, hrun, rfl, raced_in_range (by decide) (by decide) (by decide) (by decide) hrun⟩

/-- **No such worker.**  Two threads dispatch to the only worker; the second reads
`wd_round` between the increment and the remainder of the first and picks worker `1`. -/
theorem picked_past_end :
    ¬ ∀ (wd : WorkerData) (thread : Int32) (o : WorkerData.InitOracle) acts s,
      (wd.workerInit thread o).2 = 0 → 0 ≤ wd.wdRound → wd.wdRound < thread.toInt →
      StepSystem.run step (init (wd.workerInit thread o).1) acts = some s → s.InRange := by
  let e := RoundSys.freshEvent
  let e₀ := { e with evCpuid := 0 }
  let e₁ := { e with evCpuid := 1 }
  intro h
  have hrun := Eq.refl (StepSystem.run step
    (init (WorkerData.zero.workerInit 1 RoundSys.willing).1)
    [.dispatch e, .pick ⟨e, .testing⟩, .pick ⟨e, .loading⟩, .pick ⟨e₀, .reading 0⟩,
      .pick ⟨e₀, .counting 0 0⟩, .dispatch e, .pick ⟨e, .testing⟩, .pick ⟨e, .loading⟩,
      .pick ⟨e₁, .reading 1⟩, .pick ⟨e₁, .counting 1 1⟩, .pick ⟨e₁, .dividing 1 2⟩,
      .pick ⟨e₁, .storing 1 2 2⟩])
  exact absurd (h _ _ _ _ _ (by decide) (by decide) (by decide) hrun) (by decide)

/-! ### One call alone -/

/-- **A call that is alone** picks the worker that `WorkerData.pick` picks and leaves
`wd_round` as it does. -/
theorem pick_alone (wd : WorkerData) (ev : EdpEvent) :
    ∃ acts, StepSystem.run step (init wd) (.dispatch ev :: acts) =
      some ⟨(wd.pick ev).2.2, [], [(wd.pick ev).1]⟩ := by
  by_cases h : 0 ≤ ev.evCpuid ∧ ev.evCpuid < wd.wdRound
  · refine ⟨[.pick ⟨ev, .testing⟩], ?_⟩
    rw [WorkerData.pick, if_pos h]
    simp [StepSystem.run, step, init, advance, Picker.step, h]
  · let r := wd.wdRound
    let ev' := { ev with evCpuid := toShort r }
    refine ⟨[.pick ⟨ev, .testing⟩, .pick ⟨ev, .loading⟩, .pick ⟨ev', .reading r⟩,
      .pick ⟨ev', .counting r r⟩, .pick ⟨ev', .dividing r (toInt (r + 1))⟩,
      .pick ⟨ev', .storing r (toInt (r + 1)) (toInt (r + 1))⟩], ?_⟩
    rw [WorkerData.pick, if_neg h]
    simp [StepSystem.run, step, init, advance, Picker.step, h, r, ev']

end RaceSys
end EdpIo
