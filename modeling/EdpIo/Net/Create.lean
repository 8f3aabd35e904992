/-
# Creating a sock

`edpnet_sock_create` of `posix/edpnet.c` as one call, over the registry of `eio`.  It
acquires a block, an emitter, an fd and a registration, each of which may fail, and
should return `0` with a sock that has all of them or an error with none of them left
(`Created`).

It does so when `socket` or `set_nonblock` fails.  When `emit_create` fails the block of
the sock is not freed, and when `eio_addfd` fails `edpnet_sock_set` closes the fd, but
`edpnet_sock_create` does not look at what it returns and returns `0` with the sock.
`created_iff`: these two are the only ways to go wrong.
-/

import EdpIo.Net.Object

namespace EdpIo

/-- What `edpnet_sock_create` gets from outside: the blocks of the sock and of the emitter,
the fd, whether `set_nonblock` succeeds, the block of the `eio_event_t` and what
`epoll_ctl` returns. -/
structure CreateOracle where
  sock : Option ℕ
  emit : Option ℕ
  fd : Option ℕ
  nonblock : Bool
  event : Option ℕ
  ctl : ℤ
deriving DecidableEq, Repr

namespace NetWorld

/-- `edpnet_sock_create(sock, cbs, data)`: what it returns and what it stores in `*sock`. -/
def edpnetSockCreate (w : NetWorld) (cbs data : ℕ) (o : CreateOracle) :
    Option (ℤ × Option ℕ × NetWorld) :=
  if !w.edInit then some (-1, none, w)
  else
    match o.sock with
    | none => some (-12, none, w)
    | some a =>
      let w := w.allocSock a
      match o.emit with
      | none => some (-12, none, w)
      | some em =>
        let w := w.createEmit a em
        match o.fd with
        | none => some (-1, none, (w.emitDestroy em).freeSock a)
        | some fd =>
          ((w.openFd a fd).sockInit a o.nonblock).bind fun (ret, w) =>
            if ret ≠ 0 then some (ret, none, (w.emitDestroy em).freeSock a)
            else (w.edpnetSockSet a cbs data o.event o.ctl).map fun (_, w) => (0, some a, w)

/-- The sock at `a` is initialised, with an open fd, a live emitter and its registration. -/
def Equipped (w : NetWorld) (a : ℕ) : Prop :=
  ∃ k e, w.socks.get? a = some k ∧ w.socks.isLive a = true ∧ k.statusInit = true ∧
    k.monitor = true ∧ w.isOpen k.esSock = true ∧ w.emits.get? k.esEmit = some e ∧
    w.emits.isLive k.esEmit = true ∧ e.eeInit = true ∧ w.eio.Watches (Int32.ofNat k.esSock) a

/-- **What `edpnet_sock_create` should do**: return `0` with such a sock, or an error with
everything that it acquired released once. -/
def Created (w : NetWorld) (ret : ℤ) (sock : Option ℕ) (t : NetWorld) : Prop :=
  (ret = 0 ∧ ∃ a, sock = some a ∧ t.Equipped a) ∨
    (ret ≠ 0 ∧ ∃ new, t.log = new ++ w.log ∧ Ledger.Settled new)

/-- `emit_create` and `eio_addfd` do not fail where the call gets to them. -/
def Able (w : NetWorld) (o : CreateOracle) : Prop :=
  w.edInit = true → o.sock ≠ none → o.emit ≠ none ∧
    ∀ fd, o.fd = some fd → o.nonblock = true →
      o.event ≠ none ∧ w.eio.iodFds (Int32.ofNat fd).toUInt32 = none ∧ o.ctl = 0

variable {w : NetWorld} {a em fd : ℕ}

/-- The sock with its emitter and its fd, before `sock_init`. -/
def opened (w : NetWorld) (a em fd : ℕ) : NetWorld := ((w.allocSock a).createEmit a em).openFd a fd

/-- The sock after `sock_init`. -/
def inited (w : NetWorld) (a em fd : ℕ) : NetWorld :=
  { w.opened a em fd with
    socks := (w.opened a em fd).socks.modify a fun k => { k with statusInit := true }
    links := initListHead (w.opened a em fd).links (.iowrites a) }

theorem get?_opened (w : NetWorld) (a em fd : ℕ) :
    (w.opened a em fd).socks.get? a = some ⟨false, false, fd, 0, 0, em⟩ := by
  simp [opened, openFd, createEmit, allocSock, NetSock.zeroed]

theorem get?_inited (w : NetWorld) (a em fd : ℕ) :
    (w.inited a em fd).socks.get? a = some ⟨true, false, fd, 0, 0, em⟩ := by
  rw [inited, BlockHeap.get?_modify_self, get?_opened]
  rfl

/-- A new emitter has no events pending. -/
theorem emitDestroy_of_get? {e : Emit} (h : w.emits.get? em = some e) (h0 : e.eePendings = 0) :
    w.emitDestroy em = { w with
      emits := (w.emits.modify em Emit.uninit).free em
      log := .release (.emit em) :: w.log } := by
  rw [emitDestroy, h]
  dsimp only
  rw [if_neg (not_not_intro h0)]

/-- `eio_addfd` registers an fd that is not there, if there is memory and `epoll_ctl`
succeeds. -/
theorem eioAddfd_watches {s : Eio} {fd : Int32} (cb data ioe : ℕ)
    (hno : s.iodFds fd.toUInt32 = none) :
    (s.eioAddfd fd cb data (some ioe) 0).2 = 0 ∧
      (s.eioAddfd fd cb data (some ioe) 0).1.Watches fd data := by
  rw [Eio.eioAddfd_added s fd cb data ioe hno]
  refine ⟨rfl, ioe, s.newEvent fd cb data, ?_, ?_, rfl, ?_⟩
  · simp [Eio.incFds, Eio.epollAdd]
  · simp [Eio.incFds, Eio.epollAdd]
  · show (Eio.epollAdd _ _ fd ioe 0).epoll _ fd = some ioe
    rw [Eio.epollAdd_epoll]
    simp [Eio.newEvent]

/-- Else it returns an error. -/
theorem eioAddfd_fails {s : Eio} {fd : Int32} (cb data : ℕ) {event : Option ℕ} {ctl : ℤ}
    (h : ¬ (event ≠ none ∧ s.iodFds fd.toUInt32 = none ∧ ctl = 0)) :
    (s.eioAddfd fd cb data event ctl).2 ≠ 0 := by
  cases event with
  | none => exact show (-12 : ℤ) ≠ 0 by decide
  | some ioe =>
    cases hin : s.iodFds fd.toUInt32 with
    | some b =>
      rw [Eio.eioAddfd_exists s fd cb data ctl ioe hin]
      exact show (-17 : ℤ) ≠ 0 by decide
    | none =>
      have hctl : ctl ≠ 0 := fun h0 => h ⟨Option.some_ne_none ioe, hin, h0⟩
      rw [Eio.eioAddfd_addFailed s fd cb data ioe hin hctl]
      exact hctl

/-- Past `socket` the call is `sock_init` and what follows it. -/
theorem edpnetSockCreate_opened (hi : w.edInit = true) (a em fd cbs data : ℕ) (nonblock : Bool)
    (event : Option ℕ) (ctl : ℤ) :
    w.edpnetSockCreate cbs data ⟨some a, some em, some fd, nonblock, event, ctl⟩ =
      ((w.opened a em fd).sockInit a nonblock).bind fun (ret, w) =>
        if ret ≠ 0 then some (ret, none, (w.emitDestroy em).freeSock a)
        else (w.edpnetSockSet a cbs data event ctl).map fun (_, w) => (0, some a, w) := by
  rw [edpnetSockCreate, hi]
  rfl

/-- A call that returns `0` is judged by its sock. -/
theorem created_zero_iff {t : NetWorld} : Created w 0 (some a) t ↔ t.Equipped a := by
  constructor
  · rintro (⟨-, b, hb, ht⟩ | ⟨hne, -⟩)
    · exact Option.some.inj hb ▸ ht
    · exact absurd rfl hne
  · exact fun ht => Or.inl ⟨rfl, a, rfl, ht⟩

/-- Everything acquired before `sock_init` is released when `socket` fails. -/
theorem created_noSocket (w : NetWorld) (a em : ℕ) :
    Created w (-1) none ((((w.allocSock a).createEmit a em).emitDestroy em).freeSock a) := by
  refine Or.inr ⟨by decide, [.release (.block a), .release (.emit em), .acquire (.emit em),
    .acquire (.block a)], ?_, ?_⟩
  · rw [emitDestroy_of_get? (e := sockEmit a) (by simp [createEmit]) rfl]
    rfl
  · have hemit : Ledger.Settled [.release (.emit em), .acquire (Resource.emit em)] :=
      Ledger.settled_nil.enclose List.not_mem_nil
    exact hemit.enclose (by simp)

/-- A failed `sock_init` has closed the fd, and the rest is released after it. -/
theorem created_blocking (w : NetWorld) (a em fd : ℕ) :
    Created w (-1) none ((((w.opened a em fd).close fd).emitDestroy em).freeSock a) := by
  refine Or.inr ⟨by decide, [.release (.block a), .release (.emit em), .release (.fd fd),
    .acquire (.fd fd), .acquire (.emit em), .acquire (.block a)], ?_, ?_⟩
  · rw [emitDestroy_of_get? (e := sockEmit a) (by simp [close, opened, openFd, createEmit]) rfl]
    rfl
  · have hfd : Ledger.Settled [.release (.fd fd), .acquire (Resource.fd fd)] :=
      Ledger.settled_nil.enclose List.not_mem_nil
    have hemit : Ledger.Settled [.release (.emit em), .release (.fd fd), .acquire (.fd fd),
        .acquire (Resource.emit em)] := hfd.enclose (by simp)
    exact hemit.enclose (by simp)

/-- A failed `emit_create` leaves the block of the sock. -/
theorem not_created_noEmit (w : NetWorld) (a : ℕ) : ¬ Created w (-12) none (w.allocSock a) := by
  rintro (⟨h, -⟩ | ⟨-, new, hlog, hsettled⟩)
  · exact absurd h (by decide)
  · exact not_settled_allocSock w a hlog hsettled

/-- `edpnet_sock_set` equips the sock if `eio_addfd` succeeds, and else leaves it without its
`MONITOR` bit. -/
theorem edpnetSockSet_inited (w : NetWorld) (a em fd cbs data : ℕ) (event : Option ℕ) (ctl : ℤ) :
    ∃ ret t, (w.inited a em fd).edpnetSockSet a cbs data event ctl = some (ret, t) ∧
      (t.Equipped a ↔
        event ≠ none ∧ w.eio.iodFds (Int32.ofNat fd).toUInt32 = none ∧ ctl = 0) := by
  obtain ⟨⟨eio, ret⟩, hadd⟩ :
      ∃ r, w.eio.eioAddfd (Int32.ofNat fd) sockWorkerCbAddr a event ctl = r := ⟨_, rfl⟩
  have hadd' : (w.inited a em fd).eio.eioAddfd (Int32.ofNat fd) sockWorkerCbAddr a event ctl =
      (eio, ret) := hadd
  rw [edpnetSockSet, get?_inited, Option.map_some]
  dsimp only
  rw [if_neg (by decide), hadd']
  dsimp only
  by_cases hok : event ≠ none ∧ w.eio.iodFds (Int32.ofNat fd).toUInt32 = none ∧ ctl = 0
  · obtain ⟨hev, hno, rfl⟩ := hok
    obtain ⟨ioe, rfl⟩ := Option.ne_none_iff_exists'.1 hev
    obtain ⟨hret, hwatch⟩ := eioAddfd_watches sockWorkerCbAddr a ioe hno
    rw [hadd] at hret hwatch
    rw [if_neg (not_not_intro hret)]
    refine ⟨_, _, rfl, fun _ => ⟨hev, hno, rfl⟩, fun _ => ?_⟩
    have hget : (((w.inited a em fd).socks.modify a (NetSock.store cbs data)).modify a
        NetSock.mark).get? a =
        some (NetSock.mark (NetSock.store cbs data ⟨true, false, fd, 0, 0, em⟩)) := by
      simp [get?_inited]
    refine ⟨_, sockEmit a, hget, ?_, rfl, rfl, ?_, ?_, ?_, rfl, hwatch⟩
    · simp [inited, opened, openFd, createEmit, allocSock]
    · simp [inited, opened, openFd, NetSock.mark, NetSock.store]
    · simp [inited, opened, openFd, createEmit, NetSock.mark, NetSock.store]
    · simp [inited, opened, openFd, createEmit, NetSock.mark, NetSock.store]
  · have hret := eioAddfd_fails sockWorkerCbAddr a hok
    rw [hadd] at hret
    rw [if_pos hret]
    refine ⟨_, _, rfl, fun h => ?_, fun h => absurd h hok⟩
    obtain ⟨k, e, hk, -, -, hmon, -⟩ := h
    have hget : ((w.inited a em fd).socks.modify a (NetSock.store cbs data)).get? a =
        some (NetSock.store cbs data ⟨true, false, fd, 0, 0, em⟩) := by
      simp [get?_inited]
    obtain rfl := Option.some.inj (hget.symm.trans hk)
    cases hmon

/-- **When `edpnet_sock_create` does what it should.**  In every state and for every choice of
which of its steps fail, it returns `0` with an initialised and registered sock, or an error
with all that it acquired released once, if and only if `emit_create` and `eio_addfd` do
not fail where it calls them. -/
theorem created_iff (w : NetWorld) (cbs data : ℕ) (o : CreateOracle) :
    ∃ ret sock t, w.edpnetSockCreate cbs data o = some (ret, sock, t) ∧
      (Created w ret sock t ↔ Able w o) := by
  obtain ⟨sock, emit, fd, nonblock, event, ctl⟩ := o
  cases hi : w.edInit with
  | false =>
    refine ⟨-1, none, w, by simp [edpnetSockCreate, hi], fun _ => ?_, fun _ => ?_⟩
    · simp [Able, hi]
    · exact Or.inr ⟨by decide, [], rfl, Ledger.settled_nil⟩
  | true =>
    cases sock with
    | none =>
      refine ⟨-12, none, w, by simp [edpnetSockCreate, hi], fun _ => ?_, fun _ => ?_⟩
      · simp [Able]
      · exact Or.inr ⟨by decide, [], rfl, Ledger.settled_nil⟩
    | some a =>
      cases emit with
      | none =>
        refine ⟨-12, none, w.allocSock a, by simp [edpnetSockCreate, hi], fun h => ?_, fun h => ?_⟩
        · exact absurd h (not_created_noEmit w a)
        · exact absurd rfl (h hi (Option.some_ne_none a)).1
      | some em =>
        cases fd with
        | none =>
          refine ⟨-1, none, _, ?_, fun _ => ?_, fun _ => created_noSocket w a em⟩
          · rw [edpnetSockCreate, hi]
            rfl
          · simp [Able]
        | some fd =>
          rw [edpnetSockCreate_opened hi, sockInit, get?_opened, Option.map_some]
          cases nonblock with
          | false =>
            refine ⟨-1, none, _, rfl, fun _ => ?_, fun _ => created_blocking w a em fd⟩
            simp [Able]
          | true =>
            obtain ⟨ret, t, hset, hiff⟩ := edpnetSockSet_inited w a em fd cbs data event ctl
            refine ⟨0, some a, t, ?_, ?_⟩
            · show ((w.inited a em fd).edpnetSockSet a cbs data event ctl).map _ = _
              rw [hset]
              rfl
            · rw [created_zero_iff, hiff]
              simp [Able, hi]

/-- **A failed registration is not noticed.**  With everything there but the memory for the
`eio_event_t`, the call returns `0` with a sock whose fd is closed. -/
theorem not_created :
    ¬ ∀ (w : NetWorld) (cbs data : ℕ) (o : CreateOracle) (ret : ℤ) (sock : Option ℕ)
      (t : NetWorld), w.edpnetSockCreate cbs data o = some (ret, sock, t) →
        Created w ret sock t := by
  intro hall
  have hone := hall ⟨true, .empty, ⟨id, id⟩, .empty, fun _ => false, .init 1, []⟩ 1 1
    ⟨some 5, some 6, some 7, true, none, 0⟩ 0 (some 5) _ rfl
  obtain ⟨k, e, hk, -, -, -, hopen, -⟩ := created_zero_iff.1 hone
  obtain rfl := Option.some.inj hk
  exact absurd hopen (by decide)

end NetWorld

end EdpIo
