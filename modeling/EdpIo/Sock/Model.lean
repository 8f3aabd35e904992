/-
# The write path of a sock

`edpnet_sock_write`, `sock_write_next` and `edpnet_sock_epollout_handler` of
`posix/edpnet.c`, as two machines over the fields of `struct edpnet_sock` that they
share (`SockIo`): a `WriteFrame` is a call of `edpnet_sock_write` in progress, a
`HandlerFrame` a run of the handler, with `sock_write_next` inlined where it calls
it.  Each `step` is one atomic action of the source: a section under `es_lock`,
one kernel write, or the call of a callback; the return from a callback is a step
of its own, so that other calls may come between.

An `ioctx_t` is the number of the `edpnet_sock_write` call that submitted it: one
that is used again after its callback is a new `Io`.  That `ioc_io_type` is that of
a sock and `ioc_data_type` one of the two known ones is asserted by the source and
assumed here.
-/

import Mathlib.Data.Int.Order.Basic

namespace EdpIo

/-- An io, by the number of the call that submitted it. -/
abbrev Io := ℕ

/-- The fields of `struct edpnet_sock` used by the write path: the bits `CONNECT`
and `WRITE` of `es_status`, and the pending and current write ios. -/
structure SockIo where
  connect : Bool
  write : Bool
  esWrite : Option Io
  esPendios : ℕ
  esIowrites : List Io
deriving DecidableEq, Repr

/-- What `write` or `writev` returned, and `errno` after it. -/
structure KernelWrite where
  ret : ℤ
  errno : ℤ
deriving DecidableEq, Repr

namespace KernelWrite

/-- `EAGAIN`, which is also `EWOULDBLOCK`. -/
def eagain : ℤ := 11

/-- The write would have blocked. -/
def again (k : KernelWrite) : Bool := k.ret < 0 ∧ k.errno = eagain

/-- The kernel accepted data. -/
def accepted (k : KernelWrite) : Bool := 0 < k.ret

end KernelWrite

/-- `sock_write`: the result of the kernel write, `0` for `EAGAIN`, `-errno` for
another failure. -/
def sockWrite (k : KernelWrite) : ℤ :=
  if k.ret < 0 then if k.errno = KernelWrite.eagain then 0 else -k.errno else k.ret

/-- A write that took data does not count as one that would have blocked. -/
theorem accepted_of_sockWrite {k : KernelWrite} (h : sockWrite k = 0) : k.accepted = false := by
  unfold sockWrite at h
  split at h
  · rw [KernelWrite.accepted, decide_eq_false_iff_not]
    omega
  · rw [KernelWrite.accepted, h]
    rfl

/-- What a step of a call does beside changing the sock. -/
inductive SockLabel
  | tau
  /-- A kernel write of the io. -/
  | attempt (io : Io) (k : KernelWrite)
  /-- The call of the io's callback with the error code. -/
  | call (io : Io) (errcode : ℤ)
  /-- `edpnet_sock_dispatch(s, kEDPNET_SOCK_EPOLLOUT)`. -/
  | dispatch
deriving DecidableEq, Repr

/-- A call of `edpnet_sock_write`. -/
inductive WriteFrame
  /-- Before its section under `es_lock`. -/
  | enter (io : Io)
  /-- `es_write` is set; before `sock_write`. -/
  | writing (io : Io)
  /-- `sock_write` returned `ret ≠ 0`; before the section that clears `es_write`. -/
  | wrote (io : Io) (ret : ℤ)
  /-- Before `cb(sock, io, ret)`. -/
  | calling (io : Io) (ret : ℤ)
  /-- In the callback. -/
  | inCb
  /-- Before `edpnet_sock_dispatch`. -/
  | dispatching
deriving DecidableEq, Repr

/-- A run of `edpnet_sock_epollout_handler`, with `sock_write_next(s, drain)`. -/
inductive HandlerFrame
  /-- Before the test of `CONNECT`. -/
  | enter
  /-- `CONNECT` was set; before the test of `WRITE`. -/
  | asking
  /-- `CONNECT` was clear; before the section that sets it. -/
  | connecting
  /-- Before `sock_connect(s, s->es_data)`. -/
  | connected
  /-- `WRITE` was set; before the section that looks at `es_write`. -/
  | locking
  /-- Before `ioc->ioc_iocb(s, ioc, 0)`. -/
  | taken (io : Io)
  /-- At the head of the loop of `sock_write_next`. -/
  | next (drain : Bool)
  /-- `es_write` is set; before `sock_write`. -/
  | writing (drain : Bool) (io : Io)
  /-- `sock_write` returned `ret ≠ 0`; before the section that clears `es_write`. -/
  | wrote (drain : Bool) (io : Io) (ret : ℤ)
  /-- Before `ion->ioc_iocb(s, ion, ret)`. -/
  | calling (drain : Bool) (io : Io) (ret : ℤ)
  /-- In that callback. -/
  | inNext (drain : Bool)
  /-- After the loop; before the section that clears `WRITE`. -/
  | clearing
  /-- Before `data_drain(s, s->es_data)`. -/
  | draining
  /-- In a callback that is the handler's last action. -/
  | inCb
deriving DecidableEq, Repr

/-- One step of `edpnet_sock_write`, where `k` is what the kernel says if it is
asked: the sock, what is left of the call, and what else it did. -/
def WriteFrame.step (s : SockIo) (k : KernelWrite) :
    WriteFrame → SockIo × Option WriteFrame × SockLabel
  | .enter io =>
    if !s.write && s.esWrite.isNone then
      ({ s with esWrite := some io, write := true }, some (.writing io), .tau)
    else
      ({ s with esIowrites := s.esIowrites ++ [io], esPendios := s.esPendios + 1 }, none, .tau)
  | .writing io =>
    (s, if sockWrite k ≠ 0 then some (.wrote io (sockWrite k)) else none, .attempt io k)
  | .wrote io ret => ({ s with esWrite := none }, some (.calling io ret), .tau)
  | .calling io ret => (s, some .inCb, .call io ret)
  | .inCb => (s, some .dispatching, .tau)
  | .dispatching => (s, none, .dispatch)

/-- One step of the handler; `none` when the assertion that the pending list is not
empty fails. -/
def HandlerFrame.step (s : SockIo) (k : KernelWrite) :
    HandlerFrame → Option (SockIo × Option HandlerFrame × SockLabel)
  | .enter => some (s, some (if !s.connect then .connecting else .asking), .tau)
  | .asking => some (s, some (if s.write then .locking else .draining), .tau)
  | .connecting => some ({ s with connect := true }, some .connected, .tau)
  | .connected => some (s, some .inCb, .tau)
  | .locking =>
    match s.esWrite with
    | some io => some ({ s with esWrite := none }, some (.taken io), .tau)
    | none => some (s, some (.next true), .tau)
  | .taken io => some (s, some .inCb, .call io 0)
  | .next drain =>
    -- with `nowrite` set, `WRITE` is only cleared if `drain` is not
    if s.esPendios = 0 then some (s, if drain then none else some .clearing, .tau)
    else
      match s.esIowrites with
      | [] => none
      | io :: ios =>
        some ({ s with esIowrites := ios, esPendios := s.esPendios - 1, esWrite := some io },
          some (.writing drain io), .tau)
  | .writing drain io =>
    some (s, if sockWrite k ≠ 0 then some (.wrote drain io (sockWrite k)) else none, .attempt io k)
  | .wrote drain io ret => some ({ s with esWrite := none }, some (.calling drain io ret), .tau)
  | .calling drain io ret => some (s, some (.inNext drain), .call io ret)
  | .inNext drain => some (s, some (.next drain), .tau)
  | .clearing => some ({ s with write := false }, some .draining, .tau)
  | .draining => some (s, some .inCb, .tau)
  | .inCb => some (s, none, .tau)

/-- The steps of `edpnet_sock_write`, one constructor for each way on. -/
inductive WriteFrame.Step (s : SockIo) (k : KernelWrite) :
    WriteFrame → SockIo → Option WriteFrame → SockLabel → Prop
  | publish (io : Io) (hw : s.write = false) (he : s.esWrite = none) :
      Step s k (.enter io) { s with esWrite := some io, write := true } (some (.writing io)) .tau
  | append (io : Io) (h : s.write = true ∨ s.esWrite ≠ none) :
      Step s k (.enter io)
        { s with esIowrites := s.esIowrites ++ [io], esPendios := s.esPendios + 1 } none .tau
  | done (io : Io) (h : sockWrite k ≠ 0) :
      Step s k (.writing io) s (some (.wrote io (sockWrite k))) (.attempt io k)
  | block (io : Io) (h : sockWrite k = 0) : Step s k (.writing io) s none (.attempt io k)
  | clear (io : Io) (ret : ℤ) :
      Step s k (.wrote io ret) { s with esWrite := none } (some (.calling io ret)) .tau
  | call (io : Io) (ret : ℤ) : Step s k (.calling io ret) s (some .inCb) (.call io ret)
  | back : Step s k .inCb s (some .dispatching) .tau
  | dispatch : Step s k .dispatching s none .dispatch

theorem WriteFrame.step_cases (s : SockIo) (k : KernelWrite) (f : WriteFrame) :
    f.Step s k (f.step s k).1 (f.step s k).2.1 (f.step s k).2.2 := by
  cases f with
  | enter io =>
    by_cases h : s.write = false ∧ s.esWrite = none
    · simpa [WriteFrame.step, h.1, h.2] using Step.publish io h.1 h.2
    · have hor : s.write = true ∨ s.esWrite ≠ none := by
        rw [not_and_or] at h
        exact h.imp_left Bool.ne_false_iff.1
      have hif : ¬ (!s.write && s.esWrite.isNone) = true := by simpa using h
      simp only [WriteFrame.step, if_neg hif]
      exact .append io hor
  | writing io =>
    by_cases h : sockWrite k = 0
    · simpa [WriteFrame.step, h] using Step.block io h
    · simpa [WriteFrame.step, h] using Step.done io h
  | wrote io ret => exact .clear io ret
  | calling io ret => exact .call io ret
  | inCb => exact .back
  | dispatching => exact .dispatch

/-- The steps of the handler, one constructor for each way on. -/
inductive HandlerFrame.Step (s : SockIo) (k : KernelWrite) :
    HandlerFrame → SockIo → Option HandlerFrame → SockLabel → Prop
  | unconnected (h : s.connect = false) : Step s k .enter s (some .connecting) .tau
  | ask (h : s.connect = true) : Step s k .enter s (some .asking) .tau
  | written (h : s.write = true) : Step s k .asking s (some .locking) .tau
  | unwritten (h : s.write = false) : Step s k .asking s (some .draining) .tau
  | connect : Step s k .connecting { s with connect := true } (some .connected) .tau
  | connected : Step s k .connected s (some .inCb) .tau
  | take (io : Io) (h : s.esWrite = some io) :
      Step s k .locking { s with esWrite := none } (some (.taken io)) .tau
  | free (h : s.esWrite = none) : Step s k .locking s (some (.next true)) .tau
  | callTaken (io : Io) : Step s k (.taken io) s (some .inCb) (.call io 0)
  | drained (h : s.esPendios = 0) : Step s k (.next true) s none .tau
  | nowrite (h : s.esPendios = 0) : Step s k (.next false) s (some .clearing) .tau
  | pop (drain : Bool) (io : Io) (ios : List Io) (h : s.esPendios ≠ 0)
      (hios : s.esIowrites = io :: ios) :
      Step s k (.next drain)
        { s with esIowrites := ios, esPendios := s.esPendios - 1, esWrite := some io }
        (some (.writing drain io)) .tau
  | done (drain : Bool) (io : Io) (h : sockWrite k ≠ 0) :
      Step s k (.writing drain io) s (some (.wrote drain io (sockWrite k))) (.attempt io k)
  | block (drain : Bool) (io : Io) (h : sockWrite k = 0) :
      Step s k (.writing drain io) s none (.attempt io k)
  | clear (drain : Bool) (io : Io) (ret : ℤ) :
      Step s k (.wrote drain io ret) { s with esWrite := none } (some (.calling drain io ret)) .tau
  | call (drain : Bool) (io : Io) (ret : ℤ) :
      Step s k (.calling drain io ret) s (some (.inNext drain)) (.call io ret)
  | back (drain : Bool) : Step s k (.inNext drain) s (some (.next drain)) .tau
  | unwrite : Step s k .clearing { s with write := false } (some .draining) .tau
  | drain : Step s k .draining s (some .inCb) .tau
  | return_ : Step s k .inCb s none .tau

theorem HandlerFrame.step_cases {s s' : SockIo} {k : KernelWrite} {f : HandlerFrame}
    {f' : Option HandlerFrame} {l : SockLabel} (h : f.step s k = some (s', f', l)) :
    f.Step s k s' f' l := by
  cases f with
  | enter =>
    obtain ⟨rfl, rfl, rfl⟩ := by simpa [HandlerFrame.step] using h
    cases hc : s.connect
    · exact .unconnected hc
    · exact .ask hc
  | asking =>
    obtain ⟨rfl, rfl, rfl⟩ := by simpa [HandlerFrame.step] using h
    cases hw : s.write
    · exact .unwritten hw
    · exact .written hw
  | locking =>
    rw [HandlerFrame.step] at h
    split at h
    · obtain ⟨rfl, rfl, rfl⟩ := by simpa using h
      exact .take _ ‹_›
    · obtain ⟨rfl, rfl, rfl⟩ := by simpa using h
      exact .free ‹_›
  | next drain =>
    rw [HandlerFrame.step] at h
    split at h
    · obtain ⟨rfl, rfl, rfl⟩ := by simpa using h
      cases drain
      · exact .nowrite ‹_›
      · exact .drained ‹_›
    · split at h
      · cases h
      · obtain ⟨rfl, rfl, rfl⟩ := by simpa using h
        exact .pop drain _ _ ‹_› ‹_›
  | writing drain io =>
    obtain ⟨rfl, rfl, rfl⟩ := by simpa [HandlerFrame.step] using h
    by_cases hk : sockWrite k = 0
    · simpa [hk] using Step.block drain io hk
    · simpa [hk] using Step.done drain io hk
  | connecting =>
    obtain ⟨rfl, rfl, rfl⟩ := by simpa [HandlerFrame.step] using h
    exact .connect
  | connected =>
    obtain ⟨rfl, rfl, rfl⟩ := by simpa [HandlerFrame.step] using h
    exact .connected
  | taken io =>
    obtain ⟨rfl, rfl, rfl⟩ := by simpa [HandlerFrame.step] using h
    exact .callTaken io
  | wrote drain io ret =>
    obtain ⟨rfl, rfl, rfl⟩ := by simpa [HandlerFrame.step] using h
    exact .clear drain io ret
  | calling drain io ret =>
    obtain ⟨rfl, rfl, rfl⟩ := by simpa [HandlerFrame.step] using h
    exact .call drain io ret
  | inNext drain =>
    obtain ⟨rfl, rfl, rfl⟩ := by simpa [HandlerFrame.step] using h
    exact .back drain
  | clearing =>
    obtain ⟨rfl, rfl, rfl⟩ := by simpa [HandlerFrame.step] using h
    exact .unwrite
  | draining =>
    obtain ⟨rfl, rfl, rfl⟩ := by simpa [HandlerFrame.step] using h
    exact .drain
  | inCb =>
    obtain ⟨rfl, rfl, rfl⟩ := by simpa [HandlerFrame.step] using h
    exact .return_

/-- The call is inside a callback, which may call `edpnet_sock_write` again. -/
def WriteFrame.inCallback : WriteFrame → Bool
  | .inCb => true
  | _ => false

/-- The run is inside a callback. -/
def HandlerFrame.inCallback : HandlerFrame → Bool
  | .inCb | .inNext _ => true
  | _ => false

end EdpIo
