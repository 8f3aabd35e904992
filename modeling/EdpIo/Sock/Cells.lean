/-
# The pending writes of a sock in memory

`SockSys` has numbers of calls where the source has pointers: `es_write`, the locals of the
calls in progress, and the list `es_iowrites`, which links the ioctxs themselves.  Here an
ioctx is an object at an address.  Its fields are read when the source reads them, the writer
calls the callback that it was handed while the handler calls the one that it finds in the
ioctx, and the list is the links of `include/list.h`.

The `n`-th call of `edpnet_sock_write` is that of `plan n`.  Beside it the owner of an ioctx may
write anything to its fields and its node at any time, as `ioctx_init`, `free` and the next user
of the memory do.  That it does so, and submits the ioctx again, only while no call with it is
still to be called back, is `Owned`, together with the condition that no handler takes an ioctx
that a call is still publishing (`SockSys.Settled`).
-/

import EdpIo.Base.ListCalls
import EdpIo.Sock.Listed

namespace EdpIo

/-- `kIOCTX_IO_TYPE_SOCK`. -/
def ioTypeSock : ℕ := 22

/-- `kIOCTX_DATA_TYPE_VEC`. -/
def dataTypeVec : ℕ := 11

/-- `kIOCTX_DATA_TYPE_PTR`. -/
def dataTypePtr : ℕ := 12

/-- `ioctx_t`, its node apart; `ioc_sock` and `ioc_bytes` are not read on the write path. -/
structure Ioctx where
  iocIoType : ℕ
  iocDataType : ℕ
  iocIocb : ℕ
  /-- `ioc_ionr` and `ioc_iov`, or `ioc_size` and `ioc_data`. -/
  iocSize : ℕ
  iocData : ℕ
deriving DecidableEq, Repr

/-- The `switch` of `sock_write` knows the type. -/
def Ioctx.known (io : Ioctx) : Bool := io.iocDataType = dataTypeVec ∨ io.iocDataType = dataTypePtr

/-- A call of `edpnet_sock_write`: the address of its ioctx, what the caller has put there, and
the callback. -/
structure Submission where
  addr : ℕ
  ioctx : Ioctx
  cb : ℕ
  ioType : ioctx.iocIoType = ioTypeSock
  dataType : ioctx.known = true

/-- The ioctx once the call has stored the callback. -/
def Submission.stored (p : Submission) : Ioctx := { p.ioctx with iocIocb := p.cb }

/-- The addresses of list heads: `&s->es_iowrites` and `&io->ioc_node` of the ioctx at `a`, and
the two poison values. -/
inductive IoAddr
  | iowrites
  | node (a : ℕ)
  | poison1
  | poison2
deriving DecidableEq, Repr

instance : ListPoison IoAddr := ⟨.poison1, .poison2⟩

/-- `list_entry(lhn, ioctx_t, ioc_node)`. -/
def IoAddr.entry? : IoAddr → Option ℕ
  | .node a => some a
  | .iowrites | .poison1 | .poison2 => none

/-- The fields of `struct edpnet_sock` used by the write path, `none` being `NULL`, with the
links of all lists and the ioctxs in memory. -/
structure SockCell where
  connect : Bool
  write : Bool
  esWrite : Option ℕ
  esPendios : ℕ
  links : Links IoAddr
  mem : ℕ → Ioctx

/-- A call of `edpnet_sock_write` at one of the places of `WriteFrame`, with its arguments `io`
and `cb`. -/
inductive WriteCall
  | enter (io cb : ℕ)
  | writing (io cb : ℕ)
  | wrote (io cb : ℕ) (ret : ℤ)
  | calling (io cb : ℕ) (ret : ℤ)
  | inCb
  | dispatching
deriving DecidableEq, Repr

/-- What is recorded: a kernel write of what the ioctx says, and the call `cb(s, io, errcode)`. -/
inductive CellObs
  | attempt (a : ℕ) (io : Ioctx) (k : KernelWrite)
  | called (cb a : ℕ) (errcode : ℤ)
deriving DecidableEq, Repr

/-- The ioctx that is called back. -/
def CellObs.calledBack : CellObs → Option ℕ
  | .attempt _ _ _ => none
  | .called _ a _ => some a

/-- What a step of a call does beside changing the sock. -/
inductive CellLabel
  | tau
  | obs (o : CellObs)
  /-- `edpnet_sock_dispatch(s, kEDPNET_SOCK_EPOLLOUT)`. -/
  | dispatch
deriving DecidableEq, Repr

namespace SockCell

/-- `sock_write` of the ioctx at `a`: what it returns and what it asks the kernel for. -/
def sockWrite (s : SockCell) (a : ℕ) (k : KernelWrite) : Option (ℤ × CellObs) :=
  if (s.mem a).known then some (EdpIo.sockWrite k, .attempt a (s.mem a) k) else none

/-- One step of `edpnet_sock_write`. -/
def writeStep (s : SockCell) (k : KernelWrite) :
    WriteCall → Option (SockCell × Option WriteCall × CellLabel)
  | .enter io cb =>
    if !s.write && s.esWrite.isNone then
      some ({ s with esWrite := some io, write := true }, some (.writing io cb), .tau)
    else
      some ({ s with
        links := listAddTail s.links (.node io) .iowrites
        esPendios := s.esPendios + 1 }, none, .tau)
  | .writing io cb =>
    (s.sockWrite io k).map fun (ret, o) =>
      (s, if ret ≠ 0 then some (.wrote io cb ret) else none, .obs o)
  | .wrote io cb ret => some ({ s with esWrite := none }, some (.calling io cb ret), .tau)
  | .calling io cb ret => some (s, some .inCb, .obs (.called cb io ret))
  | .inCb => some (s, some .dispatching, .tau)
  | .dispatching => some (s, none, .dispatch)

/-- One step of `edpnet_sock_epollout_handler`, with `sock_write_next`: the places are those of
`HandlerFrame`, the ios there addresses. -/
def handlerStep (s : SockCell) (k : KernelWrite) :
    HandlerFrame → Option (SockCell × Option HandlerFrame × CellLabel)
  | .enter => some (s, some (if !s.connect then .connecting else .asking), .tau)
  | .asking => some (s, some (if s.write then .locking else .draining), .tau)
  | .connecting => some ({ s with connect := true }, some .connected, .tau)
  | .connected => some (s, some .inCb, .tau)
  | .locking =>
    match s.esWrite with
    | some ioc => some ({ s with esWrite := none }, some (.taken ioc), .tau)
    | none => some (s, some (.next true), .tau)
  | .taken ioc => some (s, some .inCb, .obs (.called (s.mem ioc).iocIocb ioc 0))
  | .next drain =>
    if s.esPendios = 0 then some (s, if drain then none else some .clearing, .tau)
    else if listEmpty s.links .iowrites then none
    else
      let lhn := s.links.next .iowrites
      lhn.entry?.bind fun ion =>
        if (s.mem ion).iocIoType ≠ ioTypeSock then none
        else
          some ({ s with
            links := listDel s.links lhn
            esPendios := s.esPendios - 1
            esWrite := some ion }, some (.writing drain ion), .tau)
  | .writing drain ion =>
    (s.sockWrite ion k).map fun (ret, o) =>
      (s, if ret ≠ 0 then some (.wrote drain ion ret) else none, .obs o)
  | .wrote drain ion ret => some ({ s with esWrite := none }, some (.calling drain ion ret), .tau)
  | .calling drain ion ret =>
    some (s, some (.inNext drain), .obs (.called (s.mem ion).iocIocb ion ret))
  | .inNext drain => some (s, some (.next drain), .tau)
  | .clearing => some ({ s with write := false }, some .draining, .tau)
  | .draining => some (s, some .inCb, .tau)
  | .inCb => some (s, none, .tau)

/-- The ioctx at `a` is written. -/
def wrote (s : SockCell) (a : ℕ) (io : Ioctx) (next prev : IoAddr) : SockCell :=
  { s with
    links := s.links.put (.node a) next prev
    mem := Function.update s.mem a io }

end SockCell

/-- A sock among its writers and handlers, in memory.  `away` are the ioctxs that were submitted
and have not been called back since. -/
structure SockCells where
  sock : SockCell
  writers : List WriteCall
  handlers : List HandlerFrame
  inflight : ℕ
  calls : ℕ
  away : List ℕ
  hist : List CellObs

namespace SockCells

/-- A sock without writes, in a memory with anything in it. -/
def init (connect : Bool) (l : Links IoAddr) (mem : ℕ → Ioctx) : SockCells where
  sock := ⟨connect, false, none, 0, initListHead l .iowrites, mem⟩
  writers := []
  handlers := []
  inflight := 0
  calls := 0
  away := []
  hist := []

/-- The steps of the calls, as in `SockSys`, and of the owners. -/
inductive Act
  | submit
  | edge (alloc : Bool)
  | handle
  | writer (f : WriteCall) (k : KernelWrite) (alloc : Bool)
  | handler (f : HandlerFrame) (k : KernelWrite)
  /-- The owner of the ioctx at `a` writes its fields and the links of its node. -/
  | write (a : ℕ) (io : Ioctx) (next prev : IoAddr)
deriving DecidableEq, Repr

/-- What a step of a call does to the events and the history. -/
def record (c : SockCells) (alloc : Bool) : CellLabel → SockCells
  | .tau => c
  | .obs o =>
    { c with
      hist := o :: c.hist
      away := c.away.filter fun x => o.calledBack.all fun a => a ≠ x }
  | .dispatch => { c with inflight := c.inflight + alloc.toNat }

/-- One step. -/
def step (plan : Io → Submission) (c : SockCells) : Act → Option SockCells
  | .submit =>
    let p := plan c.calls
    some { c with
      sock := { c.sock with mem := Function.update c.sock.mem p.addr p.stored }
      writers := .enter p.addr p.cb :: c.writers
      calls := c.calls + 1
      away := p.addr :: c.away }
  | .edge alloc => some { c with inflight := c.inflight + alloc.toNat }
  | .handle =>
    if c.inflight = 0 then none
    else some { c with inflight := c.inflight - 1, handlers := .enter :: c.handlers }
  | .writer f k alloc =>
    if f ∈ c.writers then
      (c.sock.writeStep k f).map fun (sock, f', l) =>
        record { c with sock := sock, writers := f'.toList ++ c.writers.erase f } alloc l
    else none
  | .handler f k =>
    if f ∈ c.handlers then
      (c.sock.handlerStep k f).map fun (sock, f', l) =>
        record { c with sock := sock, handlers := f'.toList ++ c.handlers.erase f } true l
    else none
  | .write a io next prev => some { c with sock := c.sock.wrote a io next prev }

/-- `ioctx_init(ioc, kIOCTX_IO_TYPE_SOCK, datatype)` is a write; other types fail an assertion. -/
def ioctxInit (a datatype : ℕ) : Act :=
  .write a ⟨ioTypeSock, datatype, 0, 0, 0⟩ (.node a) (.node a)

/-- The call has set `es_write` to the ioctx and has not cleared it. -/
def publishes (a : ℕ) : WriteCall → Bool
  | .writing io _ | .wrote io _ _ => io = a
  | _ => false

/-- Calls in progress that publish the ioctx. -/
def published (c : SockCells) (a : ℕ) : ℕ :=
  c.writers.countP (publishes a) + c.handlers.countP (HandlerFrame.publishes a)

/-- An ioctx is submitted and written to only while it is not away, and a handler takes an ioctx
from `es_write` only when no call publishes it. -/
def Owned (plan : Io → Submission) (c : SockCells) : Act → Prop
  | .submit => (plan c.calls).addr ∉ c.away
  | .write a _ _ _ => a ∉ c.away
  | .handler f _ => f = .locking → c.sock.esWrite.all fun a => c.published a = 0
  | .edge _ | .handle | .writer _ _ _ => True

instance (plan : Io → Submission) (c : SockCells) : (a : Act) → Decidable (Owned plan c a)
  | .submit | .write _ _ _ _ => inferInstanceAs (Decidable (_ ∉ _))
  | .handler _ _ => inferInstanceAs (Decidable (_ → _))
  | .edge _ | .handle | .writer _ _ _ => inferInstanceAs (Decidable True)

end SockCells
end EdpIo
