/-
# What a sock does to the memory of ioctxs

A run in memory in which ioctxs are submitted and written to only while they are not away is a
run of a sock with lists of calls, and the other way round: the sock has the same fields, the
ring from `es_iowrites` is that of the list, the kernel is asked to write what was submitted,
and the callbacks are those that were handed in (`same_runs`).  So what is proved about
`SockSys` is true of the links and the pointers.

Neither a call of `edpnet_sock_write` nor a run of the handler has a pointer to an ioctx that
has been called back (`pointers_away`), and none looks at its memory: from the call of its
callback on an ioctx may be freed or filled in again, and the steps of all calls are the same,
before or after (`call_write`).

That no handler takes an ioctx that a call is still publishing is not up to the callers.  Where
handlers do not overlap with writes it is so, and callers that wait for their callbacks suffice
(`alone_safe`).
-/

import EdpIo.Sock.Linked

namespace EdpIo

/-- The ioctx that the call has still to look at. -/
def WriteCall.io? : WriteCall → Option ℕ
  | .enter io _ | .writing io _ | .wrote io _ _ | .calling io _ _ => some io
  | .inCb | .dispatching => none

/-- And the run of the handler. -/
def HandlerFrame.io? : HandlerFrame → Option ℕ
  | .taken io | .writing _ io | .wrote _ io _ | .calling _ io _ => some io
  | _ => none

/-! ### What a call looks at -/

namespace SockCell

variable {s : SockCell} {a : ℕ} {ns : List IoAddr}

/-- A step of a call of another ioctx does not depend on what is written to one that is not in
the list, and leaves it as it is. -/
theorem writeStep_wrote (H : s.links.IsRing .iowrites ns) (ha : .node a ∉ ns)
    (k : KernelWrite) {f : WriteCall} (hf : f.io? ≠ some a) (io : Ioctx) (next prev : IoAddr) :
    (s.wrote a io next prev).writeStep k f =
      (s.writeStep k f).map fun r => (r.1.wrote a io next prev, r.2) := by
  have hne : ∀ {j}, some j ≠ some a → j ≠ a := fun h e => h (congrArg some e)
  have hlast : s.links.prev .iowrites ≠ .node a := by
    intro e
    have hmem := H.prev_mem
    rw [e] at hmem
    exact (List.mem_cons.1 hmem).elim IoAddr.noConfusion ha
  cases f with
  | enter j cb =>
    have hj : IoAddr.node j ≠ .node a := fun e => hne hf (IoAddr.node.inj e)
    have hadd : listAddTail (s.links.put (.node a) next prev) (.node j) .iowrites =
        (listAddTail s.links (.node j) .iowrites).put (.node a) next prev :=
      ListCall.listAddTail_put hj IoAddr.noConfusion hlast
    simp only [writeStep, wrote, hadd]
    split <;> rfl
  | writing j cb =>
    have hmem : (s.wrote a io next prev).mem j = s.mem j := Function.update_of_ne (hne hf) _ _
    simp only [writeStep, sockWrite, hmem]
    split <;> rfl
  | wrote | calling | inCb | dispatching => rfl

theorem handlerStep_wrote (H : s.links.IsRing .iowrites ns) (ha : .node a ∉ ns)
    (k : KernelWrite) {f : HandlerFrame} (hf : f.io? ≠ some a) (io : Ioctx)
    (next prev : IoAddr) :
    (s.wrote a io next prev).handlerStep k f =
      (s.handlerStep k f).map fun r => (r.1.wrote a io next prev, r.2) := by
  have hread : ∀ {j}, some j ≠ some a → (s.wrote a io next prev).mem j = s.mem j :=
    fun h => Function.update_of_ne (fun e => h (congrArg some e)) _ _
  cases f with
  | locking =>
    have hw : (s.wrote a io next prev).esWrite = s.esWrite := rfl
    simp only [handlerStep, hw]
    cases s.esWrite <;> rfl
  | taken j => simp only [handlerStep, hread hf]; rfl
  | next drain =>
    -- the first entry and its neighbours are on the ring, and the node of `a` is not
    have hring : ∀ {z}, z ∈ IoAddr.iowrites :: ns → z ≠ .node a := by
      rintro z hz rfl
      exact (List.mem_cons.1 hz).elim IoAddr.noConfusion ha
    have hpend : (s.wrote a io next prev).esPendios = s.esPendios := rfl
    have hlhn : (s.wrote a io next prev).links.next .iowrites = s.links.next .iowrites :=
      Links.put_next_of_ne IoAddr.noConfusion
    have hempty : listEmpty (s.wrote a io next prev).links .iowrites =
        listEmpty s.links .iowrites := by
      unfold listEmpty
      rw [hlhn]
    have hfirst := H.next_mem
    have hdel : listDel (s.wrote a io next prev).links (s.links.next .iowrites) =
        (listDel s.links (s.links.next .iowrites)).put (.node a) next prev :=
      ListCall.listDel_put (hring hfirst) (hring (H.next_mem_of_mem hfirst))
        (hring (H.prev_mem_of_mem hfirst))
    simp only [handlerStep, hpend, hlhn, hempty, hdel]
    split
    · rfl
    · split
      · rfl
      · cases he : s.links.next .iowrites with
        | node j =>
          have hj : j ≠ a := fun e => hring hfirst (by rw [he, e])
          have hmem : (s.wrote a io next prev).mem j = s.mem j := Function.update_of_ne hj _ _
          simp only [IoAddr.entry?, Option.bind_some, hmem]
          split <;> rfl
        | iowrites | poison1 | poison2 => rfl
  | writing drain j =>
    simp only [handlerStep, sockWrite, hread hf]
    split <;> rfl
  | calling drain j ret => simp only [handlerStep, hread hf]; rfl
  | enter | asking | connecting | connected | wrote | inNext | clearing | draining | inCb => rfl

end SockCell

namespace SockCells

variable {plan : Io → Submission} {c : SockCells} {d : Caller} {b : Bool} {l : Links IoAddr}
  {mem : ℕ → Ioctx} {acts : List Act}

/-- Where a run in memory ends, a run of a sock and its callers ends. -/
theorem represents_run (hC : StepSystem.Meets (step plan) (Owned plan) (init b l mem) acts)
    (hrun : StepSystem.run (step plan) (init b l mem) acts = some c) :
    ∃ as d, StepSystem.run (Caller.step (obj plan)) (Caller.start b) as = some d ∧
      StepSystem.Meets (Caller.step (obj plan)) (fun d a => d.sys.Settled a) (Caller.start b) as ∧
      Represents plan c d :=
  StepSystem.run_simulates_meets (R := Represents plan)
    (fun _ _ _ _ hr hC h => hr.step hC h) (represents_init plan b l mem) hC hrun

/-- **The pending writes in memory are lists.** -/
theorem same_runs (plan : Io → Submission) (b : Bool) (l : Links IoAddr) (mem : ℕ → Ioctx)
    (connect write : Bool) (esWrite : Option ℕ) (esPendios : ℕ) (ns : List IoAddr)
    (hist : List CellObs) :
    (∃ acts c, StepSystem.Meets (step plan) (Owned plan) (init b l mem) acts ∧
      StepSystem.run (step plan) (init b l mem) acts = some c ∧ c.sock.connect = connect ∧
      c.sock.write = write ∧ c.sock.esWrite = esWrite ∧ c.sock.esPendios = esPendios ∧
      c.sock.links.IsRing .iowrites ns ∧ c.hist = hist) ↔
    ∃ acts d,
      StepSystem.Meets (Caller.step (obj plan)) (fun d a => d.sys.Settled a) (Caller.start b)
        acts ∧
      StepSystem.run (Caller.step (obj plan)) (Caller.start b) acts = some d ∧
      d.sys.sock.connect = connect ∧ d.sys.sock.write = write ∧
      d.sys.sock.esWrite.map (obj plan) = esWrite ∧ d.sys.sock.esPendios = esPendios ∧
      ioNodes plan d.sys.sock.esIowrites = ns ∧ d.sys.hist.map (IoObs.inMemory plan) = hist := by
  constructor
  · rintro ⟨acts, c, hC, hrun, rfl, rfl, rfl, rfl, hring, rfl⟩
    obtain ⟨as, d, hrun', hC', hr⟩ := represents_run hC hrun
    exact ⟨as, d, hC', hrun', hr.sock.connect.symm, hr.sock.write.symm, hr.sock.esWrite.symm,
      hr.sock.esPendios.symm, hr.sock.ring.unique hring, hr.hist.symm⟩
  · rintro ⟨acts, d, hC, hrun, rfl, rfl, rfl, rfl, rfl, rfl⟩
    obtain ⟨as, c, hrun', hC', hr⟩ :=
      StepSystem.run_simulates_meets (R := fun d c => Represents plan c d)
        (fun d a e c hr ha h => by
          obtain ⟨c', hc', hown, hr'⟩ := hr.realize ha h
          exact ⟨[Act.ofSys plan a], c', StepSystem.run_cons.2 ⟨c', hc', rfl⟩, .one hown hc',
            hr'⟩)
        (represents_init plan b l mem) hC hrun
    exact ⟨as, c, hC', hrun', hr.sock.connect, hr.sock.write, hr.sock.esWrite,
      hr.sock.esPendios, hr.sock.ring, hr.hist⟩

/-! ### Ioctxs that are not away -/

section Away

variable {a : ℕ}

theorem Represents.io_of_writer (hr : Represents plan c d) {f : WriteCall} (hf : f ∈ c.writers)
    (ha : f.io? = some a) : a ∈ c.away := by
  obtain ⟨g, hg, rfl⟩ := List.mem_map.1 (hr.writers.mem_iff.1 hf)
  have hlive : ∀ io ∈ g.enters ++ g.holds, (plan io).addr ∈ c.away := by
    intro io hio
    rw [hr.away]
    exact hr.sound.away (hr.sound.live_of_writer hg hio)
  cases g with
  | enter io | writing io | wrote io ret | calling io ret =>
    obtain rfl := Option.some.inj ha
    exact hlive io (List.mem_singleton_self io)
  | inCb | dispatching => cases ha

theorem Represents.io_of_handler (hr : Represents plan c d) {f : HandlerFrame}
    (hf : f ∈ c.handlers) (ha : f.io? = some a) : a ∈ c.away := by
  obtain ⟨g, hg, rfl⟩ := List.mem_map.1 (hr.handlers.mem_iff.1 hf)
  have hlive : ∀ io ∈ g.holds, (plan io).addr ∈ c.away := by
    intro io hio
    rw [hr.away]
    exact hr.sound.away (hr.sound.live_of_handler hg hio)
  cases g with
  | taken io | writing drain io | wrote drain io ret | calling drain io ret =>
    obtain rfl := Option.some.inj ha
    exact hlive io (List.mem_singleton_self io)
  | enter | asking | connecting | connected | locking | next | inNext | clearing | draining
  | inCb => cases ha

theorem Represents.node_of_listed (hr : Represents plan c d)
    (ha : .node a ∈ ioNodes plan d.sys.sock.esIowrites) : a ∈ c.away := by
  obtain ⟨io, hio, e⟩ := List.mem_map.1 ha
  obtain rfl := IoAddr.node.inj e
  rw [hr.away]
  exact hr.sound.away (hr.sound.live_of_listed hio)

/-- The pointers of the sock and of the calls in progress are to ioctxs that were submitted and
have not been called back since. -/
structure PointsAway (c : SockCells) : Prop where
  /-- The ring from `es_iowrites` is that of `es_pendios` different ioctxs. -/
  iowrites : ∃ ios : List ℕ, c.sock.links.IsRing .iowrites (ios.map .node) ∧
    ios.length = c.sock.esPendios ∧ ∀ a ∈ ios, a ∈ c.away
  esWrite : ∀ a, c.sock.esWrite = some a → a ∈ c.away
  writers : ∀ f ∈ c.writers, ∀ a, f.io? = some a → a ∈ c.away
  handlers : ∀ f ∈ c.handlers, ∀ a, f.io? = some a → a ∈ c.away

/-- Whatever is written to the fields and the node of the ioctx at `a`, the next step of every
call in progress is the same before and after, and leaves what was written. -/
def Ignores (plan : Io → Submission) (c : SockCells) (a : ℕ) : Prop :=
  ∀ io next prev,
    (∀ f k alloc,
      StepSystem.run (step plan) c [.write a io next prev, .writer f k alloc] =
        StepSystem.run (step plan) c [.writer f k alloc, .write a io next prev]) ∧
    ∀ f k, StepSystem.run (step plan) c [.write a io next prev, .handler f k] =
      StepSystem.run (step plan) c [.handler f k, .write a io next prev]

theorem Represents.pointsAway (hr : Represents plan c d) : PointsAway c := by
  constructor
  · refine ⟨d.sys.sock.esIowrites.map (obj plan), ?_, ?_, ?_⟩
    · rw [List.map_map]
      exact hr.sock.ring
    · rw [List.length_map, hr.sock.esPendios]
      exact hr.sound.counted.symm
    · intro a ha
      obtain ⟨io, hio, rfl⟩ := List.mem_map.1 ha
      exact hr.node_of_listed (List.mem_map.2 ⟨io, hio, rfl⟩)
  · intro a ha
    rw [hr.sock.esWrite] at ha
    obtain ⟨io, hio, rfl⟩ := Option.map_eq_some_iff.1 ha
    rw [hr.away]
    exact hr.sound.away (hr.sound.live_of_esWrite hio)
  · exact fun f hf a ha => hr.io_of_writer hf ha
  · exact fun f hf a ha => hr.io_of_handler hf ha

theorem Represents.ignores (hr : Represents plan c d) (ha : a ∉ c.away) : Ignores plan c a := by
  intro io next prev
  have hout : .node a ∉ ioNodes plan d.sys.sock.esIowrites := fun h => ha (hr.node_of_listed h)
  constructor
  · intro f k alloc
    by_cases hf : f ∈ c.writers
    · have hstep := SockCell.writeStep_wrote hr.sock.ring hout k
        (fun h => ha (hr.io_of_writer hf h)) io next prev
      simp only [StepSystem.run, SockCells.step, if_pos hf, hstep]
      rcases c.sock.writeStep k f with _ | ⟨s', f', l⟩
      · rfl
      · rcases l <;> rfl
    · simp [StepSystem.run, SockCells.step, hf]
  · intro f k
    by_cases hf : f ∈ c.handlers
    · have hstep := SockCell.handlerStep_wrote hr.sock.ring hout k
        (fun h => ha (hr.io_of_handler hf h)) io next prev
      simp only [StepSystem.run, SockCells.step, if_pos hf, hstep]
      rcases c.sock.handlerStep k f with _ | ⟨s', f', l⟩
      · rfl
      · rcases l <;> rfl
    · simp [StepSystem.run, SockCells.step, hf]

/-- **No pointer to an ioctx that has been called back.**  In every state of every run in which
ioctxs are submitted and written to only while they are not away, and no handler takes one that
a call is still publishing, the sock and the calls in progress point only to ioctxs that are
away. -/
theorem pointers_away (hC : StepSystem.Meets (step plan) (Owned plan) (init b l mem) acts)
    (hrun : StepSystem.run (step plan) (init b l mem) acts = some c) : PointsAway c := by
  obtain ⟨as, d, -, -, hr⟩ := represents_run hC hrun
  exact hr.pointsAway

/-- The ioctxs at `7` and `8` in turn. -/
def twoIoctxs (n : Io) : Submission := ⟨7 + n % 2, ⟨ioTypeSock, dataTypePtr, 0, 3, n⟩, 9, rfl, rfl⟩

/-- The ioctx at `7` blocks and that at `8` waits; the handler calls the first one back, whose
callback frees it, and is about to take up the second one. -/
def calledAndFreed : List Act :=
  let k : KernelWrite := ⟨-1, 11⟩
  [ioctxInit 7 dataTypePtr, .submit, .writer (.enter 7 9) k true, .writer (.writing 7 9) k true,
    ioctxInit 8 dataTypePtr, .submit, .writer (.enter 8 9) k true, .edge true, .handle,
    .handler .enter k, .handler .asking k, .handler .locking k, .handler (.taken 7) k,
    .write 7 ⟨0, 0, 0, 0, 0⟩ .poison1 .poison2, .handler .inCb k, .edge true, .handle,
    .handler .enter k, .handler .asking k, .handler .locking k]

/-- The callback of the first ioctx frees it while the second one waits. -/
theorem pointers_away_freed :
    ∃ c, StepSystem.run (step twoIoctxs) (init true ⟨id, id⟩ fun _ => ⟨0, 0, 0, 0, 0⟩)
        calledAndFreed = some c ∧
      c.hist = [.called 9 7 0, .attempt 7 ⟨22, 12, 9, 3, 0⟩ ⟨-1, 11⟩] ∧ PointsAway c :=
  have hrun := Eq.refl (StepSystem.run (step twoIoctxs)
    (init true ⟨id, id⟩ fun _ => ⟨0, 0, 0, 0, 0⟩) calledAndFreed)
  ⟨_, hrun, rfl, pointers_away (by decide) hrun⟩

/-- **The calls do not look at ioctxs that have been called back**, in any such state: from the
call of its callback on an ioctx may be freed or used for something else. -/
theorem call_write (hC : StepSystem.Meets (step plan) (Owned plan) (init b l mem) acts)
    (hrun : StepSystem.run (step plan) (init b l mem) acts = some c) (ha : a ∉ c.away) :
    Ignores plan c a := by
  obtain ⟨as, d, -, -, hr⟩ := represents_run hC hrun
  exact hr.ignores ha

/-- The freed ioctx is written to before or after the other is taken up. -/
theorem call_write_freed :
    ∃ c, StepSystem.run (step twoIoctxs) (init true ⟨id, id⟩ fun _ => ⟨0, 0, 0, 0, 0⟩)
        calledAndFreed = some c ∧ .next true ∈ c.handlers ∧ Ignores twoIoctxs c 7 :=
  have hrun := Eq.refl (StepSystem.run (step twoIoctxs)
    (init true ⟨id, id⟩ fun _ => ⟨0, 0, 0, 0, 0⟩) calledAndFreed)
  ⟨_, hrun, by decide, call_write (by decide) hrun (by decide)⟩

end Away

/-! ### Handlers that do not overlap with writes

The condition on what a handler takes is met if the runs of the handler come one after the other
and take no step while a call of `edpnet_sock_write` is in progress.  The calls themselves may
be made by any number of threads, and from the callbacks of the handler. -/

/-- The callers' side alone: an ioctx is submitted and written to only while it is not away. -/
def Returned (plan : Io → Submission) (c : SockCells) : Act → Prop
  | .submit => (plan c.calls).addr ∉ c.away
  | .write a _ _ _ => a ∉ c.away
  | .edge _ | .handle | .writer _ _ _ | .handler _ _ => True

/-- A run of the handler begins when there is no other, and its steps are taken while no write
is in progress. -/
def HandlersAlone (c : SockCells) : Act → Prop
  | .handle => c.handlers = []
  | .handler f _ => c.writers = [] ∧ f ∈ c.handlers
  | .submit | .edge _ | .writer _ _ _ | .write _ _ _ _ => True

instance (plan : Io → Submission) (c : SockCells) : (a : Act) → Decidable (Returned plan c a)
  | .submit | .write _ _ _ _ => inferInstanceAs (Decidable (_ ∉ _))
  | .edge _ | .handle | .writer _ _ _ | .handler _ _ => inferInstanceAs (Decidable True)

instance (c : SockCells) : (a : Act) → Decidable (HandlersAlone c a)
  | .handle => inferInstanceAs (Decidable (_ = _))
  | .handler _ _ => inferInstanceAs (Decidable (_ ∧ _))
  | .submit | .edge _ | .writer _ _ _ | .write _ _ _ _ => inferInstanceAs (Decidable True)

/-- Then there is one run at most. -/
theorem HandlersAlone.step {act : Act} {c' : SockCells} (h1 : c.handlers.length ≤ 1)
    (ha : c.HandlersAlone act) (h : SockCells.step plan c act = some c') :
    c'.handlers.length ≤ 1 := by
  cases act with
  | submit | edge | write =>
    obtain rfl := Option.some.inj h
    exact h1
  | handle =>
    rw [SockCells.step] at h
    split at h
    · cases h
    · obtain rfl := Option.some.inj h
      have hnil : c.handlers = [] := ha
      simp [hnil]
  | writer f k alloc =>
    rw [SockCells.step] at h
    split at h
    · obtain ⟨r, -, rfl⟩ := Option.map_eq_some_iff.1 h
      rw [record_handlers]
      exact h1
    · cases h
  | handler f k =>
    rw [SockCells.step, if_pos ha.2] at h
    obtain ⟨⟨s', f', l⟩, -, rfl⟩ := Option.map_eq_some_iff.1 h
    have hlen := List.length_erase_of_mem ha.2
    have hopt : f'.toList.length ≤ 1 := by cases f' <;> simp
    rw [record_handlers, List.length_append, hlen]
    omega

/-- What the handler takes is published by no call. -/
theorem HandlersAlone.owned_iff {act : Act} (h1 : c.handlers.length ≤ 1)
    (ha : c.HandlersAlone act) : Returned plan c act ↔ Owned plan c act := by
  cases act with
  | submit | edge | handle | writer | write => exact Iff.rfl
  | handler f k =>
    refine ⟨fun _ => ?_, fun _ => trivial⟩
    rintro rfl
    have hone : c.handlers = [.locking] := Pool.eq_singleton_of_mem h1 ha.2
    cases c.sock.esWrite with
    | none => rfl
    | some a => simp [published, ha.1, hone]

/-- **Callers that wait for their callbacks suffice** where the handler does not overlap with
writes: no pointer is to an ioctx that has been called back, and no call looks at one. -/
theorem alone_safe (hA : StepSystem.Meets (step plan) HandlersAlone (init b l mem) acts)
    (hC : StepSystem.Meets (step plan) (Returned plan) (init b l mem) acts)
    (hrun : StepSystem.run (step plan) (init b l mem) acts = some c) :
    PointsAway c ∧ ∀ a ∉ c.away, Ignores plan c a := by
  have howned : StepSystem.Meets (step plan) (Owned plan) (init b l mem) acts :=
    (StepSystem.meets_iff (I := fun c => c.handlers.length ≤ 1)
      (fun _ _ h1 ha => HandlersAlone.owned_iff h1 ha)
      (fun _ _ _ h1 ha _ h => HandlersAlone.step h1 ha h) (Nat.zero_le 1) hA).1 hC
  obtain ⟨as, d, -, -, hr⟩ := represents_run howned hrun
  exact ⟨hr.pointsAway, fun a ha => hr.ignores ha⟩

/-- That run is one on one worker. -/
theorem alone_safe_freed :
    ∃ c, StepSystem.run (step twoIoctxs) (init true ⟨id, id⟩ fun _ => ⟨0, 0, 0, 0, 0⟩)
        calledAndFreed = some c ∧ PointsAway c ∧ ∀ a ∉ c.away, Ignores twoIoctxs c a :=
  have hrun := Eq.refl (StepSystem.run (step twoIoctxs)
    (init true ⟨id, id⟩ fun _ => ⟨0, 0, 0, 0, 0⟩) calledAndFreed)
  ⟨_, hrun, alone_safe (by decide) (by decide) hrun⟩

end SockCells
end EdpIo
