/-
# Deliveries beside `eio_addfd` and `eio_delfd`

The loops of the eio workers (`eio_worker_routine` of `posix/eio-epoll.c`) with any number
of calls of `eio_addfd` and `eio_delfd` in progress, made by the callbacks of the loops or
by other threads.  A call is a `RegCall`; its steps are the locked sections, the calls of
`epoll_ctl` and `mcache_free` and the atomic counts of the source, and one that runs alone
computes what `eioAddfd` and `eioDelfd` say (`alone_addfd`, `alone_delfd`).

`epoll_wait` returns pointers to event objects, and `eio_delfd` frees the object whether or
not a worker has its pointer still to deliver.  `delivered_live` holds of every run in
which `eio_delfd` frees only events that nobody uses any more (`InUse`); one that it frees
in a batch is dereferenced (`not_delivered_of_freed`).
-/

import EdpIo.Eio.Model
import EdpIo.Lib.Pool

namespace EdpIo

/-- A call of `eio_addfd` or `eio_delfd` that has not returned. -/
inductive RegCall
  /-- `eio_addfd(fd, cb, data)`, before `worker_lightload` and `mcache_alloc`. -/
  | alloc (fd : Int32) (cb data : ℕ)
  /-- Before `hset_add`. -/
  | adding (fd : Int32) (iwk : ℤ) (ioe : ℕ)
  /-- Before `epoll_ctl`. -/
  | polling (fd : Int32) (iwk : ℤ) (ioe : ℕ)
  /-- `epoll_ctl` failed; before `hset_del`. -/
  | undoing (fd : Int32) (ioe : ℕ) (ret : ℤ)
  /-- Before `mcache_free`, to return an error. -/
  | freeing (ioe : ℕ) (ret : ℤ)
  /-- Before `atomic_inc`. -/
  | counting (iwk : ℤ)
  /-- `eio_delfd(fd)`, before `hset_get` and `hset_del`. -/
  | looking (fd : Int32)
  /-- Before `epoll_ctl`. -/
  | unpolling (fd : Int32) (ioe : ℕ)
  /-- Before `atomic_dec`. -/
  | uncounting (ioe : ℕ)
  /-- Before `mcache_free`. -/
  | deleting (ioe : ℕ)
deriving DecidableEq, Repr

/-- What is left of a call after a step. -/
inductive RegResult
  | next (c : RegCall)
  | ret (code : ℤ)
deriving DecidableEq, Repr

/-- The call, if it goes on. -/
def RegResult.call? : RegResult → Option RegCall
  | .next c => some c
  | .ret _ => none

namespace RegCall

/-- The event that an `eio_addfd` in progress has made and still holds. -/
def held : RegCall → Option ℕ
  | .adding _ _ ioe | .polling _ _ ioe | .undoing _ ioe _ | .freeing ioe _ => some ioe
  | _ => none

/-- One step of a call.  The kernel adds only what is not there and removes only what
is. -/
def step (s : Eio) (ptr : Option ℕ) (ctl : ℤ) : RegCall → Option (Eio × RegResult)
  | .alloc fd cb data =>
    let (iwk, s') := s.workerLightload
    match ptr with
    | none => some (s', .ret (-12))
    | some ioe =>
      if s.iodEvcache.isLive ioe then none
      else
        some
          ({ s' with iodEvcache := s.iodEvcache.mcacheAlloc ioe ⟨fd.toUInt32, fd, iwk, cb, data⟩ },
            .next (.adding fd iwk ioe))
  | .adding fd iwk ioe =>
    let ((ret, _), fds) := s.iodFds.apply (.add ioe fd.toUInt32)
    some ({ s with iodFds := fds },
      .next (if ret ≠ 0 then .freeing ioe (-17) else .polling fd iwk ioe))
  | .polling fd iwk ioe =>
    if ctl ≠ 0 then some (s, .next (.undoing fd ioe ctl))
    else if s.epoll iwk fd ≠ none then none
    else some (s.epollAdd iwk fd ioe ctl, .next (.counting iwk))
  | .undoing fd ioe ret =>
    some ({ s with iodFds := (s.iodFds.apply (.del fd.toUInt32)).2 }, .next (.freeing ioe ret))
  | .freeing ioe ret => some (s.freeIoe ioe, .ret ret)
  | .counting iwk => some (s.incFds iwk, .ret 0)
  | .looking fd =>
    match (s.iodFds.lookup fd.toUInt32).2 with
    | none => some (s, .ret (-2))
    | some ioe =>
      some ({ s with iodFds := (s.iodFds.apply (.del fd.toUInt32)).2 }, .next (.unpolling fd ioe))
  | .unpolling fd ioe =>
    (s.iodEvcache.mem.get? ioe).bind fun ev =>
      if ctl ≠ 0 then some (s, .ret (-2))
      else if s.epoll ev.ioeWorker fd = none then none
      else some (s.epollDel ev.ioeWorker fd ctl, .next (.uncounting ioe))
  | .uncounting ioe =>
    (s.iodEvcache.mem.get? ioe).map fun ev => (s.decFds ev.ioeWorker, .next (.deleting ioe))
  | .deleting ioe => some (s.freeIoe ioe, .ret 0)

/-- The steps of a call, one constructor for each way on. -/
inductive Step (s : Eio) : RegCall → Eio → RegResult → Prop
  | noMem (fd : Int32) (cb data : ℕ) :
      Step s (.alloc fd cb data) s.workerLightload.2 (.ret (-12))
  | alloc (fd : Int32) (cb data ioe : ℕ) (hfree : s.iodEvcache.isLive ioe = false) :
      Step s (.alloc fd cb data)
        { s.workerLightload.2 with
          iodEvcache := s.iodEvcache.mcacheAlloc ioe (s.newEvent fd cb data) }
        (.next (.adding fd s.workerLightload.1 ioe))
  | exists (fd : Int32) (iwk : ℤ) (ioe : ℕ) (fds : HsetMap) :
      Step s (.adding fd iwk ioe) { s with iodFds := fds } (.next (.freeing ioe (-17)))
  | add (fd : Int32) (iwk : ℤ) (ioe : ℕ) (fds : HsetMap) :
      Step s (.adding fd iwk ioe) { s with iodFds := fds } (.next (.polling fd iwk ioe))
  | addFailed (fd : Int32) (iwk : ℤ) (ioe : ℕ) (ctl : ℤ) :
      Step s (.polling fd iwk ioe) s (.next (.undoing fd ioe ctl))
  | poll (fd : Int32) (iwk : ℤ) (ioe : ℕ) :
      Step s (.polling fd iwk ioe) (s.epollAdd iwk fd ioe 0) (.next (.counting iwk))
  | undo (fd : Int32) (ioe : ℕ) (ret : ℤ) (fds : HsetMap) :
      Step s (.undoing fd ioe ret) { s with iodFds := fds } (.next (.freeing ioe ret))
  | free (ioe : ℕ) (ret : ℤ) : Step s (.freeing ioe ret) (s.freeIoe ioe) (.ret ret)
  | count (iwk : ℤ) : Step s (.counting iwk) (s.incFds iwk) (.ret 0)
  | absent (fd : Int32) : Step s (.looking fd) s (.ret (-2))
  | look (fd : Int32) (ioe : ℕ) (fds : HsetMap) :
      Step s (.looking fd) { s with iodFds := fds } (.next (.unpolling fd ioe))
  | delFailed (fd : Int32) (ioe : ℕ) : Step s (.unpolling fd ioe) s (.ret (-2))
  | unpoll (fd : Int32) (ioe : ℕ) (iwk : ℤ) :
      Step s (.unpolling fd ioe) (s.epollDel iwk fd 0) (.next (.uncounting ioe))
  | uncount (ioe : ℕ) (iwk : ℤ) : Step s (.uncounting ioe) (s.decFds iwk) (.next (.deleting ioe))
  | delete (ioe : ℕ) : Step s (.deleting ioe) (s.freeIoe ioe) (.ret 0)

theorem step_cases {s t : Eio} {ptr : Option ℕ} {ctl : ℤ} {c : RegCall} {r : RegResult}
    (h : c.step s ptr ctl = some (t, r)) : c.Step s t r := by
  cases c with
  | alloc fd cb data =>
    cases ptr with
    | none =>
      obtain ⟨rfl, rfl⟩ := Prod.mk.inj (Option.some.inj h)
      exact .noMem fd cb data
    | some ioe =>
      dsimp only [step] at h
      split at h
      · cases h
      · obtain ⟨rfl, rfl⟩ := Prod.mk.inj (Option.some.inj h)
        exact .alloc fd cb data ioe (Bool.eq_false_iff.2 ‹_›)
  | adding fd iwk ioe =>
    obtain ⟨rfl, rfl⟩ := Prod.mk.inj (Option.some.inj h)
    split
    · exact .exists fd iwk ioe _
    · exact .add fd iwk ioe _
  | polling fd iwk ioe =>
    rw [step] at h
    split at h
    · obtain ⟨rfl, rfl⟩ := Prod.mk.inj (Option.some.inj h)
      exact .addFailed fd iwk ioe ctl
    · rename_i hctl
      obtain rfl : ctl = 0 := by simpa using hctl
      split at h
      · cases h
      · obtain ⟨rfl, rfl⟩ := Prod.mk.inj (Option.some.inj h)
        exact .poll fd iwk ioe
  | undoing fd ioe ret =>
    obtain ⟨rfl, rfl⟩ := Prod.mk.inj (Option.some.inj h)
    exact .undo fd ioe ret _
  | freeing ioe ret =>
    obtain ⟨rfl, rfl⟩ := Prod.mk.inj (Option.some.inj h)
    exact .free ioe ret
  | counting iwk =>
    obtain ⟨rfl, rfl⟩ := Prod.mk.inj (Option.some.inj h)
    exact .count iwk
  | looking fd =>
    rw [step] at h
    split at h
    · obtain ⟨rfl, rfl⟩ := Prod.mk.inj (Option.some.inj h)
      exact .absent fd
    · obtain ⟨rfl, rfl⟩ := Prod.mk.inj (Option.some.inj h)
      exact .look fd _ _
  | unpolling fd ioe =>
    obtain ⟨ev, -, h⟩ := Option.bind_eq_some_iff.1 h
    split at h
    · obtain ⟨rfl, rfl⟩ := Prod.mk.inj (Option.some.inj h)
      exact .delFailed fd ioe
    · rename_i hctl
      obtain rfl : ctl = 0 := by simpa using hctl
      split at h
      · cases h
      · obtain ⟨rfl, rfl⟩ := Prod.mk.inj (Option.some.inj h)
        exact .unpoll fd ioe _
  | uncounting ioe =>
    obtain ⟨ev, -, h⟩ := Option.map_eq_some_iff.1 h
    obtain ⟨rfl, rfl⟩ := Prod.mk.inj h
    exact .uncount ioe _
  | deleting ioe =>
    obtain ⟨rfl, rfl⟩ := Prod.mk.inj (Option.some.inj h)
    exact .delete ioe

/-- The call alone to its end, in at most so many steps. -/
def alone (ptr : Option ℕ) (ctl : ℤ) : ℕ → Eio → RegCall → Option (Eio × ℤ)
  | 0, _, _ => none
  | fuel + 1, s, c =>
    match c.step s ptr ctl with
    | none => none
    | some (t, .ret code) => some (t, code)
    | some (t, .next c') => alone ptr ctl fuel t c'

/-- **A call that runs alone** does what `eioAddfd` says. -/
theorem alone_addfd (s : Eio) (fd : Int32) (cb data : ℕ) (ptr : Option ℕ) (ctl : ℤ)
    (hfree : ∀ ioe, ptr = some ioe → s.iodEvcache.isLive ioe = false)
    (hctl : ctl = 0 → s.epoll s.workerLightload.1 fd = none) :
    alone ptr ctl 5 s (.alloc fd cb data) = some (s.eioAddfd fd cb data ptr ctl) := by
  cases ptr with
  | none => rfl
  | some ioe =>
    have hfree := hfree ioe rfl
    cases hin : s.iodFds fd.toUInt32 with
    | some a =>
      rw [Eio.eioAddfd_exists s fd cb data ctl ioe hin]
      simp only [alone, step, hfree, Bool.false_eq_true, if_false, Eio.workerLightload,
        HsetMap.apply, hin]
      rfl
    | none =>
      by_cases h0 : ctl = 0
      · have hpoll := hctl h0
        rw [h0, Eio.eioAddfd_added s fd cb data ioe hin]
        simp only [Eio.workerLightload] at hpoll
        simp only [alone, step, hfree, Bool.false_eq_true, if_false, Eio.workerLightload,
          HsetMap.apply, hin, ne_eq, not_true_eq_false, hpoll]
        rfl
      · rw [Eio.eioAddfd_addFailed s fd cb data ioe hin h0]
        have hadd : s.iodFds.apply (.add ioe fd.toUInt32) =
            ((0, none), Function.update s.iodFds fd.toUInt32 (some ioe)) := by
          rw [HsetMap.apply, hin]
        simp only [alone, step, hfree, Bool.false_eq_true, if_false, Eio.workerLightload, hadd,
          ne_eq, not_true_eq_false, h0, not_false_eq_true, if_true, Eio.apply_del_add hin]
        rfl

theorem alone_delfd (s : Eio) (fd : Int32) (ctl : ℤ) (ptr : Option ℕ)
    (hctl : ctl = 0 → ∀ ioe ev, s.iodFds fd.toUInt32 = some ioe →
      s.iodEvcache.mem.get? ioe = some ev → s.epoll ev.ioeWorker fd ≠ none) :
    alone ptr ctl 4 s (.looking fd) = s.eioDelfd fd ctl := by
  cases hin : s.iodFds fd.toUInt32 with
  | none =>
    simp only [alone, step, Eio.eioDelfd, HsetMap.lookup, hin]
  | some ioe =>
    rw [Eio.eioDelfd_present s fd ctl hin]
    cases hev : s.iodEvcache.mem.get? ioe with
    | none => simp [alone, step, HsetMap.lookup, HsetMap.apply, hin, hev]
    | some ev =>
      by_cases h0 : ctl = 0
      · have hpoll := hctl h0 ioe ev hin hev
        simp [alone, step, HsetMap.lookup, HsetMap.apply, hin, hev, h0, hpoll, Eio.epollDel]
      · simp [alone, step, HsetMap.lookup, HsetMap.apply, hin, hev, h0, Eio.epollDel]

end RegCall

/-- Where a worker is in its loop. -/
inductive LoopPc
  /-- Before `epoll_wait`. -/
  | waiting
  /-- Before the next turn of the `for` loop, with the events still to deliver. -/
  | delivering (batch : List ℕ)
  /-- In the callback of an event. -/
  | inCb (batch : List ℕ)
  /-- `epoll_wait` has failed. -/
  | ended
deriving DecidableEq, Repr

/-- The events the worker has still to deliver. -/
def LoopPc.batch : LoopPc → List ℕ
  | .delivering batch | .inCb batch => batch
  | .waiting | .ended => []

/-- The registry, the calls in progress, the loops, and the events that the loops have
dereferenced, each with whether it was live, newest first. -/
structure LoopSys where
  eio : Eio
  calls : List RegCall
  loops : ℤ → LoopPc
  hist : List (ℕ × Bool)

namespace LoopSys

/-- Running workers with nothing to watch. -/
def init (threadNum : Int32) : LoopSys := ⟨.init threadNum, [], fun _ => .waiting, []⟩

/-- The steps. -/
inductive Act
  | addfd (fd : Int32) (cb data : ℕ)
  | delfd (fd : Int32)
  /-- A step of a call, with what the heap and `epoll_ctl` give it. -/
  | call (c : RegCall) (ptr : Option ℕ) (ctl : ℤ)
  /-- `epoll_wait` returns the registrations of these fds to worker `i`. -/
  | wait (i : ℤ) (fds : List Int32)
  /-- It returns an error. -/
  | fail (i : ℤ)
  /-- A step of the `for` loop: the end of it, or the call of a callback, or its return. -/
  | turn (i : ℤ)
deriving DecidableEq, Repr

/-- One step. -/
def step (s : LoopSys) : Act → Option LoopSys
  | .addfd fd cb data => some { s with calls := .alloc fd cb data :: s.calls }
  | .delfd fd => some { s with calls := .looking fd :: s.calls }
  | .call c ptr ctl =>
    if c ∈ s.calls then
      (c.step s.eio ptr ctl).map fun r =>
        { s with eio := r.1, calls := r.2.call?.toList ++ s.calls.erase c }
    else none
  | .wait i fds =>
    if s.loops i = .waiting ∧ 0 ≤ i ∧ i < s.eio.iodNum.toInt ∧ fds.Nodup ∧
        fds.length ≤ epollMaxEvents ∧ fds.all fun fd => (s.eio.epoll i fd).isSome then
      some { s with loops := Function.update s.loops i
                                (.delivering (fds.filterMap (s.eio.epoll i))) }
    else none
  | .fail i =>
    if s.loops i = .waiting then some { s with loops := Function.update s.loops i .ended } else none
  | .turn i =>
    match s.loops i with
    | .delivering [] => some { s with loops := Function.update s.loops i .waiting }
    | .delivering (ioe :: batch) =>
      some { s with loops := Function.update s.loops i (.inCb batch)
                    hist := (ioe, s.eio.iodEvcache.isLive ioe) :: s.hist }
    | .inCb batch => some { s with loops := Function.update s.loops i (.delivering batch) }
    | .waiting | .ended => none

/-- Every event the loops have dereferenced was live. -/
def Delivered (s : LoopSys) : Prop := ∀ p ∈ s.hist, p.2 = true

/-- A worker has the event still to deliver, or `epoll_wait` may return it. -/
def Offered (s : LoopSys) (a : ℕ) : Prop :=
  (∃ i, a ∈ (s.loops i).batch) ∨ ∃ i fd, s.eio.epoll i fd = some a

/-- The event may still be delivered, or an `eio_addfd` that has made it holds it. -/
def InUse (s : LoopSys) (a : ℕ) : Prop := s.Offered a ∨ ∃ c ∈ s.calls, c.held = some a

/-- `eio_delfd` frees only what is not in use. -/
def Retires (s : LoopSys) : Act → Prop
  | .call (.deleting ioe) _ _ => ¬ s.InUse ioe
  | _ => True

/-- What the runs keep. -/
structure Owned (s : LoopSys) : Prop where
  live : ∀ a, s.InUse a → s.eio.iodEvcache.isLive a = true
  /-- What an `eio_addfd` holds it holds alone. -/
  alone : ∀ c ∈ s.calls, ∀ a, c.held = some a → ¬ s.Offered a
  once : ∀ a, s.calls.countP (fun c => c.held = some a) ≤ 1
  delivered : s.Delivered

theorem owned_init (threadNum : Int32) : (init threadNum).Owned where
  live a h := by
    rcases h with (⟨i, hi⟩ | ⟨i, fd, hi⟩) | ⟨c, hc, -⟩
    · exact absurd hi List.not_mem_nil
    · cases hi
    · exact absurd hc List.not_mem_nil
  alone c hc := absurd hc List.not_mem_nil
  once a := Nat.zero_le 1
  delivered p hp := absurd hp List.not_mem_nil

section

variable {s t : LoopSys} {c : RegCall} {o : Option RegCall} {eio : Eio}

/-- A step of a call that registers nothing offers nothing. -/
theorem Offered.of_epoll {calls : List RegCall} {a : ℕ}
    (hepoll : ∀ i fd a, eio.epoll i fd = some a → s.eio.epoll i fd = some a)
    (h : Offered { s with eio := eio, calls := calls } a) : s.Offered a :=
  h.imp_right fun ⟨i, fd, h⟩ => ⟨i, fd, hepoll i fd a h⟩

/-- The calls after a step hold what they held before, where the call that has gone on
holds no more than it did. -/
theorem held_of_swap {a : ℕ} (hc : c ∈ s.calls)
    (hheld : ∀ a, o.bind RegCall.held = some a → c.held = some a)
    (h : ∃ c' ∈ o.toList ++ s.calls.erase c, c'.held = some a) :
    ∃ c' ∈ s.calls, c'.held = some a := by
  obtain ⟨c', hc', ha⟩ := h
  rcases Pool.mem_swap hc' with rfl | hc'
  · exact ⟨c, hc, hheld a ha⟩
  · exact ⟨c', hc', ha⟩

theorem Owned.once_of_swap {a : ℕ} (hs : s.Owned) (hc : c ∈ s.calls)
    (hheld : o.bind RegCall.held = some a → c.held = some a) :
    (o.toList ++ s.calls.erase c).countP (fun c => c.held = some a) ≤ 1 := by
  have hswap := Pool.countP_swap hc o fun c => c.held = some a
  have honce := hs.once a
  cases o with
  | none =>
    rw [Option.any_none, if_neg Bool.false_ne_true] at hswap
    omega
  | some c' =>
    simp only [Option.any_some, decide_eq_true_eq] at hswap
    by_cases h : c'.held = some a
    · rw [if_pos h, if_pos (hheld h)] at hswap
      omega
    · rw [if_neg h] at hswap
      omega

/-- What a call no longer holds nobody holds. -/
theorem Owned.released {a : ℕ} (hs : s.Owned) (hc : c ∈ s.calls) (ha : c.held = some a)
    (ho : o.bind RegCall.held = none) :
    ¬ ∃ c' ∈ o.toList ++ s.calls.erase c, c'.held = some a := by
  have hswap := Pool.countP_swap hc o fun c => c.held = some a
  have honce := hs.once a
  have hany : ¬ (o.any fun c => decide (c.held = some a)) = true := by
    cases o with
    | none => exact Bool.false_ne_true
    | some c' =>
      have ho : c'.held = none := ho
      simp [ho]
  rw [if_neg hany, if_pos (decide_eq_true ha)] at hswap
  rintro ⟨c', hc', ha'⟩
  have hpos : 0 < (o.toList ++ s.calls.erase c).countP fun c => c.held = some a :=
    List.countP_pos_iff.2 ⟨c', hc', decide_eq_true ha'⟩
  omega

/-- A step of a call that holds no more than before, registers nothing and frees nothing
that is in use. -/
theorem Owned.swap (hs : s.Owned) (hc : c ∈ s.calls)
    (hheld : ∀ a, o.bind RegCall.held = some a → c.held = some a)
    (hepoll : ∀ i fd a, eio.epoll i fd = some a → s.eio.epoll i fd = some a)
    (hlive : ∀ a, InUse { s with eio := eio, calls := o.toList ++ s.calls.erase c } a →
      s.eio.iodEvcache.isLive a = true → eio.iodEvcache.isLive a = true) :
    Owned { s with eio := eio, calls := o.toList ++ s.calls.erase c } := by
  refine ⟨fun a ha => hlive a ha (hs.live a ?_), fun c' hc' a ha hoff => ?_,
    fun a => hs.once_of_swap hc (hheld a), hs.delivered⟩
  · exact ha.imp (Offered.of_epoll hepoll) (held_of_swap hc hheld)
  · obtain ⟨c'', hc'', ha⟩ := held_of_swap hc hheld ⟨c', hc', ha⟩
    exact hs.alone c'' hc'' a ha (hoff.of_epoll hepoll)

/-- A step of a call that changes neither the events nor the registrations. -/
theorem Owned.frame (hs : s.Owned) (hc : c ∈ s.calls)
    (hheld : ∀ a, o.bind RegCall.held = some a → c.held = some a)
    (hepoll : eio.epoll = s.eio.epoll) (hcache : eio.iodEvcache = s.eio.iodEvcache) :
    Owned { s with eio := eio, calls := o.toList ++ s.calls.erase c } :=
  hs.swap hc hheld (fun _ _ _ h => hepoll ▸ h) fun _ _ h => hcache ▸ h

/-- A step of a call that frees what it had alone, or nobody uses. -/
theorem Owned.free {a : ℕ} (hs : s.Owned) (hc : c ∈ s.calls)
    (ho : o = none) (hnot : ¬ s.Offered a)
    (hheld : ¬ ∃ c' ∈ o.toList ++ s.calls.erase c, c'.held = some a) :
    Owned { s with eio := s.eio.freeIoe a, calls := o.toList ++ s.calls.erase c } := by
  refine hs.swap hc (by rintro b hb; rw [ho] at hb; cases hb) (fun _ _ _ h => h)
    fun b hb hlive => ?_
  have hne : b ≠ a := by
    rintro rfl
    exact hb.elim hnot hheld
  exact (MemCache.isLive_mcacheFree_of_ne _ hne).trans hlive

/-- `mcache_alloc` gives a new event to `eio_addfd`. -/
theorem Owned.alloc {c' : RegCall} {a : ℕ} {ev : IoEvent} (hs : s.Owned) (hc : c ∈ s.calls)
    (hfree : s.eio.iodEvcache.isLive a = false) (ha : c'.held = some a)
    (hepoll : eio.epoll = s.eio.epoll)
    (hcache : eio.iodEvcache = s.eio.iodEvcache.mcacheAlloc a ev) :
    Owned { s with eio := eio, calls := (some c').toList ++ s.calls.erase c } := by
  have hnew : ¬ s.InUse a := fun h => by simp [hs.live a h] at hfree
  have hoff : ∀ b, Offered { s with eio := eio, calls := (some c').toList ++ s.calls.erase c } b →
      s.Offered b := fun _ => Offered.of_epoll fun _ _ _ h => hepoll ▸ h
  have hcalls : ∀ {d b}, d ∈ (some c').toList ++ s.calls.erase c → d.held = some b →
      b = a ∨ d ∈ s.calls := by
    intro d b hd hb
    rcases Pool.mem_swap hd with hd | hd
    · obtain rfl := Option.some.inj hd
      exact .inl (Option.some.inj (hb.symm.trans ha))
    · exact .inr hd
  refine ⟨fun b hb => ?_, fun d hd b hb hoff' => ?_, fun b => ?_, hs.delivered⟩
  · by_cases hne : b = a
    · rw [hne]
      exact hcache ▸ MemCache.isLive_mcacheAlloc_self _ _
    · refine hcache ▸ (MemCache.isLive_mcacheAlloc_of_ne _ hne).trans (hs.live b ?_)
      exact hb.imp (hoff b) fun ⟨d, hd, hb⟩ => ⟨d, (hcalls hd hb).resolve_left hne, hb⟩
  · rcases hcalls hd hb with rfl | hd
    · exact hnew (.inl (hoff b hoff'))
    · exact hs.alone d hd b hb (hoff b hoff')
  · have hswap := Pool.countP_swap hc (some c') fun c => c.held = some b
    have honce := hs.once b
    simp only [Option.any_some, decide_eq_true_eq, ha] at hswap
    show ((some c').toList ++ s.calls.erase c).countP (fun c => c.held = some b) ≤ 1
    by_cases hne : a = b
    · subst hne
      have hzero : s.calls.countP (fun c => c.held = some a) = 0 :=
        List.countP_eq_zero.2 fun d hd h => hnew (.inr ⟨d, hd, of_decide_eq_true h⟩)
      rw [if_pos rfl] at hswap
      omega
    · rw [if_neg fun h => hne (Option.some.inj h)] at hswap
      omega

/-- `epoll_ctl` has registered the event. -/
theorem Owned.register {c' : RegCall} {a : ℕ} {iwk : ℤ} {fd : Int32} (hs : s.Owned)
    (hc : c ∈ s.calls) (ha : c.held = some a) (ha' : c'.held = none) :
    Owned { s with eio := s.eio.epollAdd iwk fd a 0
                   calls := (some c').toList ++ s.calls.erase c } := by
  have hheld : ∀ b, (some c').bind RegCall.held = some b → c.held = some b := by
    intro b hb
    rw [Option.bind_some, ha'] at hb
    cases hb
  have hoff : ∀ b, Offered { s with eio := s.eio.epollAdd iwk fd a 0
                                    calls := (some c').toList ++ s.calls.erase c } b →
      b = a ∨ s.Offered b := by
    rintro b (h | ⟨i, fd', h⟩)
    · exact .inr (.inl h)
    · dsimp only at h
      rw [Eio.epollAdd_epoll] at h
      split at h
      · exact .inl (Option.some.inj h).symm
      · exact .inr (.inr ⟨i, fd', h⟩)
  refine ⟨fun b hb => ?_, fun d hd b hb hoff' => ?_, fun b => hs.once_of_swap hc (hheld b),
    hs.delivered⟩
  · refine hs.live b ?_
    rcases hb with hb | hb
    · rcases hoff b hb with rfl | hb
      · exact .inr ⟨c, hc, ha⟩
      · exact .inl hb
    · exact .inr (held_of_swap hc hheld hb)
  · rcases hoff b hoff' with rfl | hoff'
    · exact hs.released (o := some c') hc ha ha' ⟨d, hd, hb⟩
    · obtain ⟨d', hd', hb⟩ := held_of_swap hc hheld ⟨d, hd, hb⟩
      exact hs.alone d' hd' b hb hoff'

/-- A step of a call. -/
theorem Owned.call {e : Eio} {r : RegResult} (hs : s.Owned) (hc : c ∈ s.calls)
    (hret : ∀ a, c = .deleting a → ¬ s.InUse a) (h : c.Step s.eio e r) :
    Owned { s with eio := e, calls := r.call?.toList ++ s.calls.erase c } := by
  have hnone : ∀ {b}, (none : Option ℕ) = some b → c.held = some b := fun h => by cases h
  cases h with
  | noMem fd cb data => exact hs.frame hc (fun _ => hnone) rfl rfl
  | alloc fd cb data ioe hfree => exact hs.alloc hc hfree rfl rfl rfl
  | «exists» | add | addFailed | undo => exact hs.frame hc (fun _ h => h) rfl rfl
  | poll fd iwk ioe => exact hs.register hc rfl rfl
  | free ioe ret =>
    exact hs.free hc rfl (hs.alone _ hc ioe rfl) (hs.released hc rfl rfl)
  | count | absent | look | delFailed | uncount => exact hs.frame hc (fun _ => hnone) rfl rfl
  | unpoll fd ioe iwk =>
    refine hs.swap hc (fun _ => hnone) (fun i fd' a h => ?_) fun _ _ h => h
    rw [Eio.epollDel_epoll] at h
    split at h
    · cases h
    · exact h
  | delete ioe =>
    have hnot := hret ioe rfl
    refine hs.free hc rfl (fun h => hnot (.inl h)) fun h => hnot (.inr ?_)
    exact held_of_swap (o := none) hc (fun _ => hnone) h

/-- A call begins. -/
theorem Owned.start (hs : s.Owned) (hc : c.held = none) :
    Owned { s with calls := c :: s.calls } := by
  have hcalls : ∀ {d b}, d ∈ c :: s.calls → d.held = some b → d ∈ s.calls := by
    intro d b hd hb
    rcases List.mem_cons.1 hd with rfl | hd
    · rw [hc] at hb
      cases hb
    · exact hd
  refine ⟨fun a ha => hs.live a ?_, fun d hd a ha => hs.alone d (hcalls hd ha) a ha, fun a => ?_,
    hs.delivered⟩
  · exact ha.imp_right fun ⟨d, hd, ha⟩ => ⟨d, hcalls hd ha, ha⟩
  · show (c :: s.calls).countP (fun c => c.held = some a) ≤ 1
    rw [List.countP_cons_of_neg (by simp [hc])]
    exact hs.once a

/-- A step of a worker, which comes by no event that was not offered. -/
theorem Owned.loop {i : ℤ} {pc : LoopPc} {hist : List (ℕ × Bool)} (hs : s.Owned)
    (hbatch : ∀ a ∈ pc.batch, s.Offered a)
    (hhist : ∀ p ∈ hist, p ∈ s.hist ∨ s.Offered p.1 ∧ p.2 = s.eio.iodEvcache.isLive p.1) :
    Owned { s with loops := Function.update s.loops i pc, hist := hist } := by
  have hoff : ∀ a, Offered { s with loops := Function.update s.loops i pc, hist := hist } a →
      s.Offered a := by
    rintro a (⟨j, hj⟩ | h)
    · by_cases hji : j = i
      · subst hji
        dsimp only at hj
        rw [Function.update_self] at hj
        exact hbatch a hj
      · dsimp only at hj
        rw [Function.update_of_ne hji] at hj
        exact .inl ⟨j, hj⟩
    · exact .inr h
  refine ⟨fun a ha => hs.live a (ha.imp_left (hoff a)), fun c hc a ha h => hs.alone c hc a ha
    (hoff a h), hs.once, fun p hp => ?_⟩
  rcases hhist p hp with hp | ⟨ho, hp⟩
  · exact hs.delivered p hp
  · rw [hp]
    exact hs.live p.1 (.inl ho)

theorem Owned.step {a : Act} (hs : s.Owned) (hret : s.Retires a)
    (h : LoopSys.step s a = some t) : t.Owned := by
  cases a with
  | addfd fd cb data =>
    obtain rfl := Option.some.inj h
    exact hs.start rfl
  | delfd fd =>
    obtain rfl := Option.some.inj h
    exact hs.start rfl
  | call c ptr ctl =>
    rw [LoopSys.step] at h
    split at h
    · rename_i hc
      obtain ⟨⟨e, r⟩, hr, rfl⟩ := Option.map_eq_some_iff.1 h
      refine hs.call hc ?_ (RegCall.step_cases hr)
      rintro a rfl
      exact hret
    · cases h
  | wait i fds =>
    rw [LoopSys.step] at h
    split at h
    · obtain rfl := Option.some.inj h
      refine hs.loop (fun a ha => ?_) fun p hp => .inl hp
      obtain ⟨fd, -, ha⟩ := List.mem_filterMap.1 ha
      exact .inr ⟨i, fd, ha⟩
    · cases h
  | fail i =>
    rw [LoopSys.step] at h
    split at h
    · obtain rfl := Option.some.inj h
      exact hs.loop (fun a ha => absurd ha List.not_mem_nil) fun p hp => .inl hp
    · cases h
  | turn i =>
    rw [LoopSys.step] at h
    split at h
    · obtain rfl := Option.some.inj h
      exact hs.loop (fun a ha => absurd ha List.not_mem_nil) fun p hp => .inl hp
    · rename_i ioe batch hpc
      obtain rfl := Option.some.inj h
      have hmem : ∀ a ∈ ioe :: batch, s.Offered a := fun a ha => .inl ⟨i, by rwa [hpc]⟩
      refine hs.loop (fun a ha => hmem a (List.mem_cons_of_mem _ ha)) fun p hp => ?_
      rcases List.mem_cons.1 hp with rfl | hp
      · exact .inr ⟨hmem ioe List.mem_cons_self, rfl⟩
      · exact .inl hp
    · rename_i batch hpc
      obtain rfl := Option.some.inj h
      exact hs.loop (fun a ha => .inl ⟨i, by rwa [hpc]⟩) fun p hp => .inl hp
    · cases h
    · cases h

end

/-- **Every event delivered is live**: for any number of workers, in every interleaving of
their loops with `eio_addfd` and `eio_delfd` in which `eio_delfd` frees only events that
are not in use. -/
theorem delivered_live {num : Int32} {acts : List Act} {s : LoopSys}
    (ha : StepSystem.Meets step Retires (init num) acts)
    (hrun : StepSystem.run step (init num) acts = some s) : s.Delivered :=
  (StepSystem.run_invariant (fun _ _ _ hs ha h => hs.step ha h) (owned_init num) ha hrun).delivered

/-- An fd is added. -/
def addActs (fd : Int32) (ioe : ℕ) : List Act :=
  [.addfd fd 0 0, .call (.alloc fd 0 0) (some ioe) 0, .call (.adding fd 0 ioe) none 0,
    .call (.polling fd 0 ioe) none 0, .call (.counting 0) none 0]

/-- An fd is removed. -/
def delActs (fd : Int32) (ioe : ℕ) : List Act :=
  [.delfd fd, .call (.looking fd) none 0, .call (.unpolling fd ioe) none 0,
    .call (.uncounting ioe) none 0, .call (.deleting ioe) none 0]

/-- An event is delivered and then removed: a run that meets the hypotheses of
`delivered_live`. -/
theorem delivered_live_one :
    ∃ acts s, StepSystem.run step (init 1) acts = some s ∧ s.hist = [(0, true)] ∧ s.Delivered := by
  have hrun := Eq.refl (StepSystem.run step (init 1)
    (addActs 3 0 ++ [Act.wait 0 [3], .turn 0] ++ delActs 3 0))
  refine ⟨_, _, hrun, rfl, delivered_live ?_ hrun⟩
  refine ⟨trivial, trivial, trivial, trivial, trivial, trivial, trivial, trivial, trivial,
    trivial, trivial, ?_, trivial⟩
  rintro ((⟨i, hi⟩ | ⟨i, fd, hi⟩) | ⟨c, hc, ha⟩)
  · replace hi : 0 ∈ (Function.update (Function.update (fun _ : ℤ => LoopPc.waiting) 0
      (.delivering [0])) 0 (.inCb []) i).batch := hi
    by_cases h0 : i = 0 <;> simp [h0, LoopPc.batch] at hi
  · replace hi : (Eio.epollDel { Eio.init 1 with
        epoll := Function.update (fun _ _ => none) 0 (Function.update (fun _ => none) 3 (some 0)) }
        0 3 0).epoll i fd = some 0 := hi
    rw [Eio.epollDel_epoll] at hi
    split at hi
    · cases hi
    · rename_i hne
      by_cases h0 : i = 0
      · have h3 : fd ≠ 3 := fun h3 => hne ⟨h0, h3⟩
        simp [h0, h3] at hi
      · simp [h0] at hi
  · cases List.mem_singleton.1 hc
    cases ha

/-- A callback returns. -/
theorem turn_inCb {s : LoopSys} {i : ℤ} {batch : List ℕ} (hpc : s.loops i = .inCb batch) :
    step s (.turn i) = some { s with loops := Function.update s.loops i (.delivering batch) } := by
  rw [step, hpc]

/-- A worker comes to everything in its batch. -/
theorem not_delivered {s : LoopSys} {i : ℤ} {a : ℕ} {batch : List ℕ}
    (ha : s.eio.iodEvcache.isLive a = false) (hpc : s.loops i = .delivering batch)
    (hmem : a ∈ batch) : ∃ acts t, StepSystem.run step s acts = some t ∧ ¬ t.Delivered := by
  induction batch generalizing s with
  | nil => exact absurd hmem List.not_mem_nil
  | cons b batch ih =>
    set u : LoopSys := { s with loops := Function.update s.loops i (.inCb batch)
                                hist := (b, s.eio.iodEvcache.isLive b) :: s.hist }
    have hcall : step s (.turn i) = some u := by rw [step, hpc]
    rcases List.mem_cons.1 hmem with rfl | hmem
    · refine ⟨[.turn i], u, StepSystem.run_cons.2 ⟨u, hcall, rfl⟩, fun h => ?_⟩
      cases ha.symm.trans (h _ List.mem_cons_self)
    · have hback := turn_inCb (s := u) (Function.update_self i (.inCb batch) s.loops)
      obtain ⟨acts, t, ht, hbad⟩ :=
        ih (s := { u with loops := Function.update u.loops i (.delivering batch) }) ha
          (Function.update_self ..) hmem
      exact ⟨.turn i :: .turn i :: acts, t,
        StepSystem.run_cons.2 ⟨u, hcall, StepSystem.run_cons.2 ⟨_, hback, ht⟩⟩, hbad⟩

/-- **What `eio_delfd` frees in a batch is dereferenced** by the worker's own steps. -/
theorem not_delivered_of_freed {s : LoopSys} {i : ℤ} {a : ℕ} (hc : .deleting a ∈ s.calls)
    (hmem : a ∈ (s.loops i).batch) :
    ∃ acts t, StepSystem.run step s acts = some t ∧ ¬ t.Delivered := by
  set u : LoopSys := { s with eio := s.eio.freeIoe a, calls := s.calls.erase (.deleting a) }
  have hfree : step s (.call (.deleting a) none 0) = some u := by
    rw [step, if_pos hc]
    rfl
  have ha : u.eio.iodEvcache.isLive a = false := MemCache.isLive_mcacheFree_self _
  cases hpc : s.loops i with
  | delivering batch =>
    rw [hpc] at hmem
    obtain ⟨acts, t, ht, hbad⟩ := not_delivered ha hpc hmem
    exact ⟨.call (.deleting a) none 0 :: acts, t, StepSystem.run_cons.2 ⟨u, hfree, ht⟩, hbad⟩
  | inCb batch =>
    rw [hpc] at hmem
    have hback := turn_inCb (s := u) hpc
    obtain ⟨acts, t, ht, hbad⟩ :=
      not_delivered (s := { u with loops := Function.update u.loops i (.delivering batch) }) ha
        (Function.update_self ..) hmem
    exact ⟨.call (.deleting a) none 0 :: .turn i :: acts, t,
      StepSystem.run_cons.2 ⟨u, hfree, StepSystem.run_cons.2 ⟨_, hback, ht⟩⟩, hbad⟩
  | waiting | ended =>
    rw [hpc] at hmem
    exact absurd hmem List.not_mem_nil

/-- **Freed in the batch.**  Two fds are in one batch; the callback of the first removes the
second, whose event is then dereferenced although it has been freed. -/
theorem delivered_freed :
    ¬ ∀ num acts s, StepSystem.run step (init num) acts = some s → s.Delivered := by
  intro h
  have hrun := Eq.refl (StepSystem.run step (init 1)
    (addActs 3 0 ++ addActs 4 1 ++ [Act.wait 0 [3, 4], .turn 0] ++ delActs 4 1 ++
      [Act.turn 0, .turn 0]))
  exact absurd (h 1 _ _ hrun (1, false) (by decide)) (by decide)

end LoopSys
end EdpIo
