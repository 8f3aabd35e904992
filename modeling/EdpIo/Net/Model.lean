/-
# The life of a sock

`edpnet_sock_create`, `serv_worker_cb`, `edpnet_sock_set`, `edpnet_sock_destroy` and
`edpnet_sock_dispatch` of `posix/edpnet.c` and `eio_addfd` and `eio_delfd` of
`posix/eio-epoll.c`, over the emitters.  A call in progress is a `Call`, and its
`step` is one atomic action of the source: a section under a lock, a system call, an
atomic operation on a counter, a test or a store of a field that other threads use,
or an allocation or a free.

`edpnet_sock_create` and `serv_worker_cb` work on a block that no other thread knows
until it is registered or handed out, so what they do before is one step, and where
they fail nothing but a leaked block is left.  The table of watched fds is a map, as
`iod_fds` is meant to be.  Of `es_status` the bits `INIT` and `MONITOR` are kept;
the write path has its own model.
-/

import EdpIo.Emitter.Model

namespace EdpIo

/-- `struct edpnet_sock`, without the write path; `es_emit` is `0` for `NULL`. -/
structure NetSock where
  statusInit : Bool
  monitor : Bool
  esSock : ℕ
  esCbs : ℕ
  esData : ℕ
  esEmit : ℕ
deriving DecidableEq, Repr

/-- The values of an `eio_event_cb`. -/
inductive EioCb
  | sockWorkerCb
  | servWorkerCb
deriving DecidableEq, Repr

/-- `eio_event_t`, by its fd; `watched` once `epoll_ctl` has added it. -/
structure EioEvent where
  ioeCb : EioCb
  ioeData : ℕ
  watched : Bool
deriving DecidableEq, Repr

/-- The addresses of the four handlers of a sock and of `edpnet_sock_done`. -/
def edpnetSockEpolloutHandler : ℕ := 2
def edpnetSockEpollinHandler : ℕ := 3
def edpnetSockEpollerrHandler : ℕ := 4
def edpnetSockEpollhupHandler : ℕ := 5
def edpnetSockDone : ℕ := 6

/-- The emitter that `edpnet_sock_create` makes for the sock at `a`. -/
def sockEmit (a : ℕ) : Emit :=
  ((((emitCreate a).addHandler 0 (.fn edpnetSockEpolloutHandler)).addHandler 1
    (.fn edpnetSockEpollinHandler)).addHandler 2 (.fn edpnetSockEpollerrHandler)).addHandler 3
    (.fn edpnetSockEpollhupHandler)

/-- The event types that `sock_worker_cb` dispatches for the epoll events, in order:
`EPOLLOUT` is 4, `EPOLLPRI` 2, `EPOLLIN` 1, `EPOLLERR` 8 and `EPOLLHUP` 16. -/
def sockWorkerCb (events : ℕ) : List ℤ :=
  (if events &&& 4 ≠ 0 then [0] else []) ++ (if events &&& (2 ||| 1) ≠ 0 then [1] else []) ++
    (if events &&& 8 ≠ 0 then [2] else []) ++ if events &&& 16 ≠ 0 then [3] else []

/-- Where `edpnet_sock_set` is. -/
inductive SetPc
  /-- Before it stores its arguments and tests `MONITOR`. -/
  | testing (cbs data : ℕ)
  /-- In `eio_addfd`, before `hset_add`. -/
  | adding
  /-- In `eio_addfd`, before `epoll_ctl`. -/
  | polling
  /-- Before `MONITOR` is set. -/
  | marking
  /-- `eio_addfd` failed; before `close`. -/
  | closing
deriving DecidableEq, Repr

/-- Where `edpnet_sock_destroy` is. -/
inductive DestroyPc
  /-- Before `es_status` is zeroed. -/
  | zeroing
  /-- Before `sock_fini`. -/
  | fini
  /-- Before `close`. -/
  | closing
  /-- In `emit_destroy`, before the test of `ee_pendings`. -/
  | emitting
  /-- Before `ee_init = 0`. -/
  | uniniting
  /-- Before the emitter is freed. -/
  | freeingEmit
  /-- Before the sock is freed and `0` returned. -/
  | freeing
deriving DecidableEq, Repr

/-- A call in progress. -/
inductive Call (n : ℕ)
  /-- `edpnet_sock_set(a, ..)`. -/
  | set (a : ℕ) (pc : SetPc)
  /-- `edpnet_sock_destroy(a)`. -/
  | destroy (a : ℕ) (pc : DestroyPc)
  /-- `sock_worker_cb` or the end of `edpnet_sock_write`, with the types that are still
  to be dispatched by `edpnet_sock_dispatch(a, type)`. -/
  | deliver (a : ℕ) (types : List ℤ)
  /-- The same, in `emit_dispatch`. -/
  | dispatch (a : ℕ) (types : List ℤ) (c : EmitCall n)
deriving DecidableEq, Repr

/-- The call is `edpnet_sock_destroy(a)`. -/
def Call.destroys {n : ℕ} (a : ℕ) : Call n → Bool
  | .destroy b _ => a = b
  | _ => false

/-- The call is `edpnet_sock_set(a, ..)`. -/
def Call.sets {n : ℕ} (a : ℕ) : Call n → Bool
  | .set b _ => a = b
  | _ => false

/-- What a step of a call gets from outside: whether the allocation or the system call
in it succeeds, the event that `mcache_alloc` returns, and the worker that
`__edp_dispatch` picks. -/
structure Oracle (n : ℕ) where
  ok : Bool
  event : Option ℕ
  worker : Option (Fin n)
deriving DecidableEq, Repr

/-- The emitters, the socks, the table of watched fds, the open fds and the calls in
progress. -/
structure Library (n : ℕ) where
  emit : Emitters n
  socks : BlockHeap NetSock
  fds : ℕ → Option EioEvent
  isOpen : ℕ → Bool
  calls : List (Call n)

namespace Library

variable {n : ℕ}

/-- The sock is allocated and its destruction has not begun, so that callers may still
use it. -/
def usable (s : Library n) (a : ℕ) : Bool :=
  s.socks.isLive a && s.calls.all fun c => !c.destroys a

end Library

/-- The test of `MONITOR` in `edpnet_sock_set`, after it has stored its arguments. -/
def NetSock.store (cbs data : ℕ) (k : NetSock) : NetSock :=
  { k with esCbs := if cbs ≠ 0 then cbs else k.esCbs
           esData := if data ≠ 0 then data else k.esData }

/-- The `MONITOR` bit set. -/
def NetSock.mark (k : NetSock) : NetSock := { k with monitor := true }

/-- `es_status = kEDPNET_SOCK_STATUS_ZERO`. -/
def NetSock.zero (k : NetSock) : NetSock := { k with statusInit := false, monitor := false }

/-- The `MONITOR` bit cleared. -/
def NetSock.unmark (k : NetSock) : NetSock := { k with monitor := false }

/-- The event that `edpnet_sock_dispatch` makes of the one it is given. -/
def sockEvent (addr : ℕ) (type : ℤ) : EdpEvent :=
  edpEventInit ⟨addr, 0, 0, 0, 0, 0, 0, 0⟩ type (Priority.norm.toNat)

/-- One step of a call: the library and what is left of the call; `none` where an
assertion fails. -/
def Call.step {n : ℕ} (s : Library n) (o : Oracle n) :
    Call n → Option (Library n × Option (Call n))
  | .set a (.testing cbs data) =>
    (s.socks.get? a).map fun k =>
      ({ s with socks := s.socks.modify a (NetSock.store cbs data) },
        if k.monitor then none else some (.set a .adding))
  | .set a .adding =>
    (s.socks.get? a).map fun k =>
      -- `mcache_alloc` may fail and `hset_add` refuses an fd that is there
      if o.ok && (s.fds k.esSock).isNone then
        ({ s with fds := Function.update s.fds k.esSock (some ⟨.sockWorkerCb, a, false⟩) },
          some (.set a .polling))
      else (s, some (.set a .closing))
  | .set a .polling =>
    (s.socks.get? a).map fun k =>
      if o.ok then
        ({ s with fds := Function.update s.fds k.esSock
                    ((s.fds k.esSock).map fun e => { e with watched := true }) },
          some (.set a .marking))
      else ({ s with fds := Function.update s.fds k.esSock none }, some (.set a .closing))
  | .set a .marking => some ({ s with socks := s.socks.modify a NetSock.mark }, none)
  | .set a .closing =>
    (s.socks.get? a).map fun k =>
      ({ s with isOpen := Function.update s.isOpen k.esSock false }, none)
  | .destroy a .zeroing =>
    some ({ s with socks := s.socks.modify a NetSock.zero }, some (.destroy a .fini))
  | .destroy a .fini =>
    (s.socks.get? a).bind fun k =>
      -- `ASSERT(list_empty(&s->es_iowrites))`
      if !o.ok then none
      else if k.monitor then
        some ({ s with socks := s.socks.modify a NetSock.unmark
                       fds := Function.update s.fds k.esSock none }, some (.destroy a .closing))
      else some (s, some (.destroy a .closing))
  | .destroy a .closing =>
    (s.socks.get? a).map fun k =>
      ({ s with isOpen := Function.update s.isOpen k.esSock false }, some (.destroy a .emitting))
  | .destroy a .emitting =>
    (s.socks.get? a).bind fun k =>
      -- `ASSERT(ee != NULL)`
      if k.esEmit = 0 then none
      else
        -- with events pending `emit_destroy` returns `-EINVAL`, which nobody looks at
        (s.emit.emits.get? k.esEmit).map fun e =>
          (s, some (.destroy a (if e.eePendings ≠ 0 then .freeing else .uniniting)))
  | .destroy a .uniniting =>
    (s.socks.get? a).map fun k =>
      ({ s with emit.emits := s.emit.emits.modify k.esEmit Emit.uninit },
        some (.destroy a .freeingEmit))
  | .destroy a .freeingEmit =>
    (s.socks.get? a).map fun k =>
      ({ s with emit.emits := s.emit.emits.free k.esEmit }, some (.destroy a .freeing))
  | .destroy a .freeing => some ({ s with socks := s.socks.free a }, none)
  | .deliver _ [] => some (s, none)
  | .deliver a (type :: types) =>
    match o.event with
    -- `edpnet_alloc_event` failed
    | none => some (s, some (.deliver a types))
    | some addr =>
      (s.socks.get? a).bind fun k =>
        -- `ASSERT(ee != NULL)` in `emit_dispatch`
        if k.esEmit = 0 then none
        else some (s, some (.dispatch a types ⟨k.esEmit, sockEvent addr type, edpnetSockDone, 0,
          .checking⟩))
  | .dispatch a types c =>
    (c.step s.emit o.worker).map fun r =>
      ({ s with emit := r.1 },
        some (match r.2 with
          | .next c => .dispatch a types c
          | .ret _ => .deliver a types))

end EdpIo
