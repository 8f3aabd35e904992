/-
# The read path of a sock

`edpnet_sock_read` and `edpnet_sock_epollin_handler` of `posix/edpnet.c`, over the
`CONNECT` and `READ` bits of `es_status`.  The handler calls `data_ready` only when
it sets `READ`, and a read that fails clears it: a `ReadFrame` is a call of
`edpnet_sock_read` in progress, an `InFrame` a run of the handler, and each step is
one section under `es_lock`, one kernel read, or a callback's call or return.

`RecvSys` runs any number of both on one sock whose fd holds `unread` bytes.  Each
arrival of data raises an edge, which `sock_worker_cb` turns into an event.
-/

import EdpIo.Lib.Pool
import EdpIo.Lib.Run
import EdpIo.Sock.Model

namespace EdpIo

/-- `ioc_data_type`, with all values that the `switch` does not know as one. -/
inductive IocDataType
  | vec
  | ptr
  | unkown
deriving DecidableEq, Repr

/-- What `read` or `readv` returned, and `errno` after it. -/
structure KernelRead where
  ret : ℤ
  errno : ℤ
deriving DecidableEq, Repr

namespace KernelRead

/-- The kernel returns no more than it holds, and `EAGAIN` only when it holds
nothing. -/
def Possible (k : KernelRead) (unread : ℕ) : Prop :=
  k.ret ≤ unread ∧ (k.ret < 0 → k.errno = KernelWrite.eagain → unread = 0)

instance (k : KernelRead) (unread : ℕ) : Decidable (k.Possible unread) :=
  inferInstanceAs (Decidable (_ ∧ _))

end KernelRead

/-- What the `switch` of `edpnet_sock_read` leaves in `ret`. -/
def IocDataType.read (t : IocDataType) (k : KernelRead) : ℤ :=
  match t with
  | .vec | .ptr => k.ret
  | .unkown => -1

/-- The error that the call returns for `ret < 0`; for an unknown type `errno` is
what an earlier call left. -/
def readError (ret : ℤ) (k : KernelRead) : ℤ :=
  if k.errno = KernelWrite.eagain then -KernelWrite.eagain else ret

/-- A call of `edpnet_sock_read`. -/
inductive ReadFrame
  /-- Before the section that tests `READ`. -/
  | enter (io : Io) (t : IocDataType)
  /-- `READ` was set; before the `switch`. -/
  | reading (io : Io) (t : IocDataType)
  /-- The read failed; before the section that clears `READ`. -/
  | clearing (io : Io) (ret : ℤ)
deriving DecidableEq, Repr

/-- What a step of a call does beside changing the bits. -/
inductive ReadLabel
  | tau
  /-- The call returns `ret ≥ 0` with `ioc_bytes = ret`. -/
  | took (io : Io) (ret : ℤ)
  /-- The call returns `ret < 0`. -/
  | failed (io : Io) (ret : ℤ)
deriving DecidableEq, Repr

/-- One step of `edpnet_sock_read`, where `k` is what the kernel says if it is
asked: the `READ` bit, what is left of the call, and what else it did. -/
def ReadFrame.step (read : Bool) (k : KernelRead) :
    ReadFrame → Bool × Option ReadFrame × ReadLabel
  | .enter io t =>
    if read then (read, some (.reading io t), .tau) else (read, none, .failed io (-1))
  | .reading io t =>
    if t.read k < 0 then (read, some (.clearing io (readError (t.read k) k)), .tau)
    else (read, none, .took io (t.read k))
  | .clearing io ret => (false, none, .failed io ret)

/-- The call's next step reads from the kernel. -/
def ReadFrame.asks : ReadFrame → Bool
  | .reading _ t => t ≠ .unkown
  | _ => false

/-- A run of `edpnet_sock_epollin_handler`. -/
inductive InFrame
  /-- Before the assertion of `CONNECT`. -/
  | enter
  /-- Before the section that sets `READ`. -/
  | locking
  /-- `READ` was clear; before `data_ready(s, s->es_data)`. -/
  | ready
  /-- In that callback. -/
  | inCb
deriving DecidableEq, Repr

/-- One step of the handler: the `READ` bit and what is left of the run; `none` when
the assertion fails. -/
def InFrame.step (connect read : Bool) : InFrame → Option (Bool × Option InFrame)
  | .enter => if connect then some (read, some .locking) else none
  | .locking => some (true, if read then none else some .ready)
  | .ready => some (read, some .inCb)
  | .inCb => some (read, none)

/-- The steps of `edpnet_sock_read`, one constructor for each way on. -/
inductive ReadFrame.Step (read : Bool) (k : KernelRead) :
    ReadFrame → Bool → Option ReadFrame → ReadLabel → Prop
  | ready (io : Io) (t : IocDataType) (h : read = true) :
      Step read k (.enter io t) read (some (.reading io t)) .tau
  | unready (io : Io) (t : IocDataType) (h : read = false) :
      Step read k (.enter io t) read none (.failed io (-1))
  | take (io : Io) (t : IocDataType) (h : 0 ≤ t.read k) :
      Step read k (.reading io t) read none (.took io (t.read k))
  | fail (io : Io) (t : IocDataType) (h : t.read k < 0) :
      Step read k (.reading io t) read (some (.clearing io (readError (t.read k) k))) .tau
  | clear (io : Io) (ret : ℤ) : Step read k (.clearing io ret) false none (.failed io ret)

theorem ReadFrame.step_cases (read : Bool) (k : KernelRead) (f : ReadFrame) :
    f.Step read k (f.step read k).1 (f.step read k).2.1 (f.step read k).2.2 := by
  cases f with
  | enter io t =>
    cases hr : read
    · exact .unready io t rfl
    · exact .ready io t rfl
  | reading io t =>
    rw [ReadFrame.step]
    split
    · exact .fail io t ‹_›
    · exact .take io t (not_lt.1 ‹_›)
  | clearing io ret => exact .clear io ret

/-- The steps of the handler. -/
inductive InFrame.Step (connect read : Bool) : InFrame → Bool → Option InFrame → Prop
  | connected (h : connect = true) : Step connect read .enter read (some .locking)
  | set (h : read = false) : Step connect read .locking true (some .ready)
  | quiet (h : read = true) : Step connect read .locking true none
  | call : Step connect read .ready read (some .inCb)
  | return_ : Step connect read .inCb read none

theorem InFrame.step_cases {connect read read' : Bool} {f : InFrame} {f' : Option InFrame}
    (h : f.step connect read = some (read', f')) : f.Step connect read read' f' := by
  cases f with
  | enter =>
    rw [InFrame.step] at h
    split at h
    · obtain ⟨rfl, rfl⟩ := by simpa using h
      exact .connected ‹_›
    · cases h
  | locking =>
    obtain ⟨rfl, rfl⟩ := by simpa [InFrame.step] using h
    cases hr : read
    · exact .set rfl
    · exact .quiet rfl
  | ready =>
    obtain ⟨rfl, rfl⟩ := by simpa [InFrame.step] using h
    exact .call
  | inCb =>
    obtain ⟨rfl, rfl⟩ := by simpa [InFrame.step] using h
    exact .return_

/-- The run has still to reach the section that sets `READ`. -/
def InFrame.sets : InFrame → Bool
  | .enter | .locking => true
  | .ready | .inCb => false

/-- The call has still to look at `READ`. -/
def ReadFrame.tests : ReadFrame → Bool
  | .enter _ _ => true
  | .reading _ _ | .clearing _ _ => false

/-- A sock and its fd: the two bits, the bytes the kernel holds, the `EPOLLIN` edges
that `sock_worker_cb` has not seen, the `EPOLLIN` events in flight, the calls in
progress, and what the calls returned, newest first. -/
structure RecvSys where
  connect : Bool
  read : Bool
  unread : ℕ
  edges : ℕ
  inflight : ℕ
  readers : List ReadFrame
  handlers : List InFrame
  calls : ℕ
  hist : List ReadLabel
deriving DecidableEq, Repr

namespace RecvSys

/-- A sock without data. -/
def init (connect : Bool) : RecvSys :=
  { connect := connect, read := false, unread := 0, edges := 0, inflight := 0, readers := [],
    handlers := [], calls := 0, hist := [] }

/-- The steps. -/
inductive Act
  /-- `n + 1` bytes arrive. -/
  | arrive (n : ℕ)
  /-- `sock_worker_cb` dispatches an event for an edge. -/
  | deliver
  /-- A worker begins to handle an event in flight. -/
  | handle
  /-- A call of `edpnet_sock_read`, from any thread and also from `data_ready`. -/
  | call (t : IocDataType)
  /-- A step of a call of `edpnet_sock_read`. -/
  | reader (f : ReadFrame) (k : KernelRead)
  /-- A step of a run of the handler. -/
  | handler (f : InFrame)
deriving DecidableEq, Repr

/-- What a step of a call does to the kernel's data and the history. -/
def record (s : RecvSys) : ReadLabel → RecvSys
  | .tau => s
  | .took io ret => { s with unread := s.unread - ret.toNat, hist := .took io ret :: s.hist }
  | .failed io ret => { s with hist := .failed io ret :: s.hist }

/-- One step. -/
def step (s : RecvSys) : Act → Option RecvSys
  | .arrive n => some { s with unread := s.unread + (n + 1), edges := s.edges + 1 }
  | .deliver =>
    if s.edges = 0 then none
    else some { s with edges := s.edges - 1, inflight := s.inflight + 1 }
  | .handle =>
    if s.inflight = 0 then none
    else some { s with inflight := s.inflight - 1, handlers := .enter :: s.handlers }
  | .call t =>
    some { s with readers := .enter s.calls t :: s.readers, calls := s.calls + 1 }
  | .reader f k =>
    if f ∈ s.readers ∧ (f.asks = true → k.Possible s.unread) then
      let (read, f', l) := f.step s.read k
      some (record { s with read := read, readers := f'.toList ++ s.readers.erase f } l)
    else none
  | .handler f =>
    if f ∈ s.handlers then
      (f.step s.connect s.read).map fun (read, f') =>
        { s with read := read, handlers := f'.toList ++ s.handlers.erase f }
    else none

/-- The steps, with those of the calls as their own steps say. -/
inductive Step (s : RecvSys) : Act → RecvSys → Prop
  | arrive (n : ℕ) :
      Step s (.arrive n) { s with unread := s.unread + (n + 1), edges := s.edges + 1 }
  | deliver (h : s.edges ≠ 0) :
      Step s .deliver { s with edges := s.edges - 1, inflight := s.inflight + 1 }
  | handle (h : s.inflight ≠ 0) :
      Step s .handle { s with inflight := s.inflight - 1, handlers := .enter :: s.handlers }
  | call (t : IocDataType) :
      Step s (.call t) { s with readers := .enter s.calls t :: s.readers, calls := s.calls + 1 }
  | reader (f : ReadFrame) (k : KernelRead) (hf : f ∈ s.readers)
      (hk : f.asks = true → k.Possible s.unread) (read : Bool) (f' : Option ReadFrame)
      (l : ReadLabel) (h : ReadFrame.Step s.read k f read f' l) :
      Step s (.reader f k)
        (record { s with read := read, readers := f'.toList ++ s.readers.erase f } l)
  | handler (f : InFrame) (hf : f ∈ s.handlers) (read : Bool) (f' : Option InFrame)
      (h : InFrame.Step s.connect s.read f read f') :
      Step s (.handler f) { s with read := read, handlers := f'.toList ++ s.handlers.erase f }

theorem step_cases {s t : RecvSys} {a : Act} (h : step s a = some t) : s.Step a t := by
  cases a with
  | arrive n =>
    obtain rfl := Option.some.inj h
    exact .arrive n
  | deliver =>
    rw [step] at h
    split at h
    · cases h
    · obtain rfl := Option.some.inj h
      exact .deliver ‹_›
  | handle =>
    rw [step] at h
    split at h
    · cases h
    · obtain rfl := Option.some.inj h
      exact .handle ‹_›
  | call t =>
    obtain rfl := Option.some.inj h
    exact .call t
  | reader f k =>
    rw [step] at h
    split at h
    · obtain rfl := Option.some.inj h
      obtain ⟨hf, hk⟩ := ‹_ ∧ _›
      exact .reader f k hf hk _ _ _ (ReadFrame.step_cases s.read k f)
    · cases h
  | handler f =>
    rw [step] at h
    split at h
    · obtain ⟨⟨read, f'⟩, hf, rfl⟩ := Option.map_eq_some_iff.1 h
      exact .handler f ‹_› read f' (InFrame.step_cases hf)
    · cases h

/-- No call is in progress, and no edge and no event is outstanding. -/
def Quiet (s : RecvSys) : Prop :=
  s.readers = [] ∧ s.handlers = [] ∧ s.edges = 0 ∧ s.inflight = 0

/-- Somebody is on the way to set `READ`. -/
def Notified (s : RecvSys) : Prop :=
  s.edges ≠ 0 ∨ s.inflight ≠ 0 ∨ ∃ f ∈ s.handlers, f.sets = true

instance (s : RecvSys) : Decidable s.Quiet := inferInstanceAs (Decidable (_ ∧ _))

instance (s : RecvSys) : Decidable s.Notified := inferInstanceAs (Decidable (_ ∨ _))

end RecvSys
end EdpIo
