/-
# A sock among its writers and handlers

Any number of calls of `edpnet_sock_write` and of runs of the `EPOLLOUT` handler on
one sock, each at its own place, in any interleaving.  An edge of the fd may come
at any time; `sock_worker_cb` turns it into an event in flight if an event can be
allocated (`alloc`), and so does the dispatch at the end of a write.  A run of the
handler takes one event.  `owed` says that the kernel owes an edge: the last write
on the fd returned `EAGAIN` and no edge came since.

The runs in which the operations are executed one at a time on one worker are
those whose steps meet `OneAtATime`: a step is one of the innermost call in
progress, and a call begins when none is in progress or from inside a callback.

The other handlers are in `EdpIo.Sock.Workers`; that of `EPOLLHUP`, which clears `CONNECT`, takes
no step here.
-/

import EdpIo.Lib.Pool
import EdpIo.Lib.Run
import EdpIo.Sock.Model

namespace EdpIo

/-- What is recorded of an io. -/
inductive IoObs
  /-- A kernel write of the io. -/
  | attempt (io : Io) (k : KernelWrite)
  /-- A call of its callback. -/
  | called (io : Io) (errcode : ℤ)
deriving DecidableEq, Repr

/-- A sock, the calls in progress on it (the innermost first, where they are
nested), the `EPOLLOUT` events in flight, and the history, newest first. -/
structure SockSys where
  sock : SockIo
  writers : List WriteFrame
  handlers : List HandlerFrame
  inflight : ℕ
  owed : Bool
  calls : ℕ
  hist : List IoObs
deriving DecidableEq, Repr

namespace SockSys

/-- A sock without writes, connected or not. -/
def init (connect : Bool) : SockSys :=
  { sock := ⟨connect, false, none, 0, []⟩, writers := [], handlers := [], inflight := 0,
    owed := false, calls := 0, hist := [] }

/-- The steps. -/
inductive Act
  /-- A call of `edpnet_sock_write` with the next io. -/
  | submit
  /-- An `EPOLLOUT` edge, delivered to `sock_worker_cb`. -/
  | edge (alloc : Bool)
  /-- A worker begins to handle an event in flight. -/
  | handle
  /-- A step of a call of `edpnet_sock_write`. -/
  | writer (f : WriteFrame) (k : KernelWrite) (alloc : Bool)
  /-- A step of a run of the handler. -/
  | handler (f : HandlerFrame) (k : KernelWrite)
deriving DecidableEq, Repr

/-- What a step of a call does to the events, the debt of the kernel and the
history. -/
def record (s : SockSys) (alloc : Bool) : SockLabel → SockSys
  | .tau => s
  | .attempt io k => { s with owed := k.again, hist := .attempt io k :: s.hist }
  | .call io errcode => { s with hist := .called io errcode :: s.hist }
  | .dispatch => { s with inflight := s.inflight + alloc.toNat }

@[simp] theorem record_calls (s : SockSys) (alloc : Bool) (l : SockLabel) :
    (s.record alloc l).calls = s.calls := by
  cases l <;> rfl

@[simp] theorem record_sock (s : SockSys) (alloc : Bool) (l : SockLabel) :
    (s.record alloc l).sock = s.sock := by
  cases l <;> rfl

@[simp] theorem record_writers (s : SockSys) (alloc : Bool) (l : SockLabel) :
    (s.record alloc l).writers = s.writers := by
  cases l <;> rfl

@[simp] theorem record_handlers (s : SockSys) (alloc : Bool) (l : SockLabel) :
    (s.record alloc l).handlers = s.handlers := by
  cases l <;> rfl

/-- One step. -/
def step (s : SockSys) : Act → Option SockSys
  | .submit => some { s with writers := .enter s.calls :: s.writers, calls := s.calls + 1 }
  | .edge alloc => some { s with owed := false, inflight := s.inflight + alloc.toNat }
  | .handle =>
    if s.inflight = 0 then none
    else some { s with inflight := s.inflight - 1, handlers := .enter :: s.handlers }
  | .writer f k alloc =>
    if f ∈ s.writers then
      let (sock, f', l) := f.step s.sock k
      some (record { s with sock := sock, writers := f'.toList ++ s.writers.erase f } alloc l)
    else none
  | .handler f k =>
    if f ∈ s.handlers then
      (f.step s.sock k).map fun (sock, f', l) =>
        record { s with sock := sock, handlers := f'.toList ++ s.handlers.erase f } true l
    else none

/-- The steps, with those of the calls as their own steps say. -/
inductive Step (s : SockSys) : Act → SockSys → Prop
  | submit :
      Step s .submit { s with writers := .enter s.calls :: s.writers, calls := s.calls + 1 }
  | edge (alloc : Bool) :
      Step s (.edge alloc) { s with owed := false, inflight := s.inflight + alloc.toNat }
  | handle (h : s.inflight ≠ 0) :
      Step s .handle { s with inflight := s.inflight - 1, handlers := .enter :: s.handlers }
  | writer (f : WriteFrame) (k : KernelWrite) (alloc : Bool) (hf : f ∈ s.writers)
      (sock : SockIo) (f' : Option WriteFrame) (l : SockLabel)
      (h : WriteFrame.Step s.sock k f sock f' l) :
      Step s (.writer f k alloc)
        (record { s with sock := sock, writers := f'.toList ++ s.writers.erase f } alloc l)
  | handler (f : HandlerFrame) (k : KernelWrite) (hf : f ∈ s.handlers)
      (sock : SockIo) (f' : Option HandlerFrame) (l : SockLabel)
      (h : HandlerFrame.Step s.sock k f sock f' l) :
      Step s (.handler f k)
        (record { s with sock := sock, handlers := f'.toList ++ s.handlers.erase f } true l)

theorem step_cases {s t : SockSys} {a : Act} (h : step s a = some t) : s.Step a t := by
  cases a with
  | submit =>
    obtain rfl := Option.some.inj h
    exact .submit
  | edge alloc =>
    obtain rfl := Option.some.inj h
    exact .edge alloc
  | handle =>
    rw [step] at h
    split at h
    · cases h
    · obtain rfl := Option.some.inj h
      exact .handle ‹_›
  | writer f k alloc =>
    rw [step] at h
    split at h
    · obtain rfl := Option.some.inj h
      exact .writer f k alloc ‹_› _ _ _ (WriteFrame.step_cases s.sock k f)
    · cases h
  | handler f k =>
    rw [step] at h
    split at h
    · obtain ⟨⟨sock, f', l⟩, hf, rfl⟩ := Option.map_eq_some_iff.1 h
      exact .handler f k ‹_› sock f' l (HandlerFrame.step_cases hf)
    · cases h

/-- No operation is in progress. -/
def Quiet (s : SockSys) : Prop := s.writers = [] ∧ s.handlers = []

/-- The innermost call in progress, if there is one, is inside a callback. -/
def mayEnter (s : SockSys) : Bool :=
  match s.writers, s.handlers with
  | f :: _, _ => f.inCallback
  | [], h :: _ => h.inCallback
  | [], [] => true

/-- The step is one of a run on one worker. -/
def OneAtATime (s : SockSys) : Act → Prop
  | .submit => s.mayEnter
  | .edge _ => True
  | .handle => s.Quiet
  | .writer f _ _ => s.writers.head? = some f
  | .handler f _ => s.writers = [] ∧ s.handlers.head? = some f

instance (s : SockSys) : Decidable s.Quiet := inferInstanceAs (Decidable (_ ∧ _))

instance (s : SockSys) : (a : Act) → Decidable (s.OneAtATime a)
  | .submit => inferInstanceAs (Decidable (_ = true))
  | .edge _ => inferInstanceAs (Decidable True)
  | .handle => inferInstanceAs (Decidable s.Quiet)
  | .writer _ _ _ => inferInstanceAs (Decidable (_ = _))
  | .handler _ _ => inferInstanceAs (Decidable (_ ∧ _))

end SockSys
end EdpIo
