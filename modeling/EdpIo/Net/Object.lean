/-
# The object behind a sock

`sock_init`, `sock_fini` and `edpnet_sock_set` of `posix/edpnet.c` on a sock that no other
thread knows yet, over everything that a sock holds: its block, its fd, its emitter and its
registration with `eio`.  Every acquisition and release is written down, newest first.

`memset` leaves the head of `es_iowrites` with `NULL` links, which are not those of an
empty list; `sock_init` initialises it, but only after `set_nonblock`.

What the heap and the kernel decide is an input: the block that an allocation gets, the
fd, whether `fcntl` succeeds and what `epoll_ctl` returns.  A failed `socket` or `accept`
gives `none`; the `-1` it stores in `es_sock` is not read again.
-/

import EdpIo.Base.ListHead
import EdpIo.Eio.Model
import EdpIo.Lib.Ledger
import EdpIo.Net.Model

namespace EdpIo

/-- What a sock holds. -/
inductive Resource
  /-- The block of the sock. -/
  | block (a : ℕ)
  | fd (fd : ℕ)
  | emit (em : ℕ)
  /-- The `eio_event_t` from `iod_evcache`. -/
  | event (ioe : ℕ)
  /-- The registration of the fd with `eio`. -/
  | watch (fd : ℕ)
deriving DecidableEq

/-- The list heads `&s->es_iowrites`, and `NULL`. -/
inductive IowAddr
  | null
  | iowrites (a : ℕ)
deriving DecidableEq

/-- A sock's block after `memset`. -/
def NetSock.zeroed : NetSock := ⟨false, false, 0, 0, 0, 0⟩

/-- The address of `sock_worker_cb`. -/
def sockWorkerCbAddr : ℕ := 7

/-- `eio` watches the fd for the sock at `data`. -/
def Eio.Watches (s : Eio) (fd : Int32) (data : ℕ) : Prop :=
  ∃ ioe ev, s.iodFds fd.toUInt32 = some ioe ∧ s.iodEvcache.mem.get? ioe = some ev ∧
    ev.ioeData = data ∧ s.epoll ev.ioeWorker fd = some ioe

/-- The socks with the heads of their pending lists, the emitters, the open fds, the
registry of `eio`, and the account. -/
structure NetWorld where
  edInit : Bool
  socks : BlockHeap NetSock
  links : Links IowAddr
  emits : BlockHeap Emit
  isOpen : ℕ → Bool
  eio : Eio
  log : List (Ledger.Use Resource)

namespace NetWorld

/-- `mheap_alloc` of a sock, which gives the block `a`, and `memset`. -/
def allocSock (w : NetWorld) (a : ℕ) : NetWorld :=
  { w with
    socks := w.socks.alloc a NetSock.zeroed
    links := (w.links.setNext (.iowrites a) .null).setPrev (.iowrites a) .null
    log := .acquire (.block a) :: w.log }

/-- A block that is allocated and left is missing from the account. -/
theorem not_settled_allocSock (w : NetWorld) (a : ℕ) {new : List (Ledger.Use Resource)}
    (h : (w.allocSock a).log = new ++ w.log) : ¬ Ledger.Settled new := by
  obtain rfl : [.acquire (.block a)] = new := List.append_cancel_right h
  exact Ledger.not_settled (r := .block a) (by simp) (by simp)

/-- `mheap_free` of a sock. -/
def freeSock (w : NetWorld) (a : ℕ) : NetWorld :=
  { w with socks := w.socks.free a, log := .release (.block a) :: w.log }

/-- `socket` or `accept` gives the sock at `a` the fd. -/
def openFd (w : NetWorld) (a fd : ℕ) : NetWorld :=
  { w with
    socks := w.socks.modify a fun k => { k with esSock := fd }
    isOpen := Function.update w.isOpen fd true
    log := .acquire (.fd fd) :: w.log }

/-- `close`. -/
def close (w : NetWorld) (fd : ℕ) : NetWorld :=
  { w with isOpen := Function.update w.isOpen fd false, log := .release (.fd fd) :: w.log }

/-- `emit_create(s, &s->es_emit)`, which gets the block `em`, and the four
`emit_add_handler`s. -/
def createEmit (w : NetWorld) (a em : ℕ) : NetWorld :=
  { w with
    socks := w.socks.modify a fun k => { k with esEmit := em }
    emits := w.emits.alloc em (sockEmit a)
    log := .acquire (.emit em) :: w.log }

/-- `emit_destroy(em)`; what it returns nobody looks at. -/
def emitDestroy (w : NetWorld) (em : ℕ) : NetWorld :=
  match w.emits.get? em with
  | none => w
  | some e =>
    if e.eePendings ≠ 0 then w
    else { w with emits := (w.emits.modify em Emit.uninit).free em
                  log := .release (.emit em) :: w.log }

/-- `sock_init` of the sock at `a`; `nonblock` is whether `set_nonblock` succeeds. -/
def sockInit (w : NetWorld) (a : ℕ) (nonblock : Bool) : Option (ℤ × NetWorld) :=
  (w.socks.get? a).map fun k =>
    if !nonblock then (-1, w.close k.esSock)
    else
      (0, { w with
        socks := w.socks.modify a fun k => { k with statusInit := true }
        links := initListHead w.links (.iowrites a) })

/-- `sock_fini` of the sock at `a`; `ctl` is what `epoll_ctl` returns.  `none` where the
assertion that no io is pending fails. -/
def sockFini (w : NetWorld) (a : ℕ) (ctl : ℤ) : Option NetWorld :=
  (w.socks.get? a).bind fun k =>
    let fini (w : NetWorld) : Option NetWorld :=
      if listEmpty w.links (.iowrites a) = false then none else some w
    if k.monitor then
      (w.eio.eioDelfd (Int32.ofNat k.esSock) ctl).bind fun (eio, ret) =>
        fini { w with
          socks := w.socks.modify a NetSock.unmark
          eio := eio
          log :=
            if ret ≠ 0 then w.log
            else
              (w.eio.iodFds (Int32.ofNat k.esSock).toUInt32).toList.map (.release <| .event ·) ++
                .release (.watch k.esSock) :: w.log }
    else fini w

/-- `edpnet_sock_set(a, cbs, data)`; `event` and `ctl` are what `eio_addfd` gets. -/
def edpnetSockSet (w : NetWorld) (a cbs data : ℕ) (event : Option ℕ) (ctl : ℤ) :
    Option (ℤ × NetWorld) :=
  (w.socks.get? a).map fun k =>
    let w := { w with socks := w.socks.modify a (NetSock.store cbs data) }
    if k.monitor then (0, w)
    else
      let (eio, ret) := w.eio.eioAddfd (Int32.ofNat k.esSock) sockWorkerCbAddr a event ctl
      let w := { w with eio := eio }
      if ret ≠ 0 then
        -- `eio_addfd` has given its event back
        let log := match event with
          | none => w.log
          | some ioe => .release (.event ioe) :: .acquire (.event ioe) :: w.log
        (-1, close { w with log := log } k.esSock)
      else
        (0, { w with
          socks := w.socks.modify a NetSock.mark
          log := .acquire (.watch k.esSock) :: event.toList.map (.acquire <| .event ·) ++ w.log })

end NetWorld

end EdpIo
