/-
# The life of a server

`edpnet_serv_create`, `edpnet_serv_listen` and `edpnet_serv_destroy` of `posix/edpnet.c`, over
the registry of `eio` that `edpnet_init` has set up with one worker, whose hash set is the one in
memory.  Others, the socks among them, open and close fds and call `eio_addfd` and `eio_delfd`
between the calls; what is kept from them is the servers' own: nobody else registers
`serv_worker_cb`, a static function, or removes an fd that is registered for it, and an fd is
closed after it is removed.

The hash set loses what a bucket holds when another fd is added to it, and with it the server of
that fd.  So the fds that are added, the servers' and the others', are those whose bucket holds
no other at that time.

`Served` is the invariant: every server has an open fd that is registered for the server itself,
and what is registered for `serv_worker_cb` is registered for a server.  So what epoll reports
for a server's fd reaches that server, no callback gets a server that is freed, and no server
waits for what never comes (`servers_served`).  Whatever fails in `edpnet_serv_create`, all that
it has acquired is given back (`create_iff`), and so is all at the end of a server's life
(`create_listen_destroy`).

What the heap and the kernel decide is an input, as in `EdpIo.Net.Object`.  That the calls are
taken as one step each leaves out what `EdpIo.Eio.Loop` is about: an event that `epoll_wait` has
returned before the call.
-/

import EdpIo.Eio.Linked

namespace EdpIo

/-- The address of `serv_worker_cb`. -/
def servWorkerCbAddr : ℕ := 8

/-- `struct edpnet_serv`; its two list heads and its lock are initialised and not used further
than this. -/
structure NetServ where
  esStatus : ℕ
  esSock : Int32
  esCbs : ℕ
  esData : ℕ
deriving DecidableEq, Repr

/-- `ea_type` of an `edpnet_addr_t`. -/
inductive AddrType
  | ipv4
  | ipv6
  | other
deriving DecidableEq, Repr

/-- The servers, the open fds and the registry. -/
structure ServNet where
  servs : BlockHeap NetServ
  isOpen : Int32 → Bool
  eio : LinkedEio

/-- What `edpnet_serv_create` gets from outside: the block, the fd, whether `set_nonblock`
succeeds, the block of the `eio_event_t` and what `epoll_ctl` returns. -/
structure ServOracle where
  serv : Option ℕ
  fd : Option Int32
  nonblock : Bool
  event : Option ℕ
  ctl : ℤ
deriving DecidableEq, Repr

namespace ServNet

/-- After `edpnet_init`, whose `eio_init` starts one worker; the memory that `hset_create` gets
has the links `l` and the hashes `hash`. -/
def init (l : Links HsetAddr) (hash : ℕ → UInt32) : ServNet :=
  ⟨.empty, fun _ => false, .init 1 l hash⟩

/-- `mheap_free` of a server. -/
def freeServ (s : ServNet) (a : ℕ) : ServNet := { s with servs := s.servs.free a }

/-- `close`. -/
def close (s : ServNet) (fd : Int32) : ServNet :=
  { s with isOpen := Function.update s.isOpen fd false }

/-- `edpnet_serv_create(serv, cbs, data)`: what it returns and what it stores in `*serv`. -/
def edpnetServCreate (fuel : ℕ) (s : ServNet) (cbs data : ℕ) (o : ServOracle) :
    Option (ℤ × Option ℕ × ServNet) :=
  match o.serv with
  | none => some (-12, none, s)
  | some a =>
    let s := { s with servs := s.servs.alloc a ⟨0, 0, cbs, data⟩ }
    match o.fd with
    | none => some (-1, none, s.freeServ a)
    | some fd =>
      let s := { s with
        servs := s.servs.modify a fun k => { k with esSock := fd }
        isOpen := Function.update s.isOpen fd true }
      if !o.nonblock then some (-1, none, (s.close fd).freeServ a)
      else
        (s.eio.eioAddfd fuel fd servWorkerCbAddr a o.event o.ctl).map fun (eio, ret) =>
          let s := { s with eio := eio }
          if ret ≠ 0 then (-1, none, (s.close fd).freeServ a)
          -- `kEDPNET_SERV_STATUS_INIT`
          else (0, some a, { s with servs := s.servs.modify a fun k => { k with esStatus := 1 } })

/-- `edpnet_serv_listen(a, addr)`, with what `bind` and `listen` return; `none` where the
assertion on an IPv6 address fails. -/
def edpnetServListen (s : ServNet) (a : ℕ) (addr : AddrType) (bind listen : ℤ) :
    Option (ℤ × ServNet) :=
  match addr with
  | .ipv6 => none
  | .other => some (-1, s)
  | .ipv4 =>
    if bind < 0 then some (bind, s)
    else if listen = 0 then
      -- `kEDPNET_SERV_STATUS_LISTEN`
      some (listen, { s with
        servs := s.servs.modify a fun k => { k with esStatus := k.esStatus ||| 2 } })
    else some (listen, s)

/-- `edpnet_serv_destroy(a)`, where `epoll_ctl` returns `ctl`; what `eio_delfd` returns nobody
looks at. -/
def edpnetServDestroy (fuel : ℕ) (s : ServNet) (a : ℕ) (ctl : ℤ) : Option ServNet :=
  (s.servs.get? a).bind fun k => (s.eio.eioDelfd fuel k.esSock ctl).map fun r =>
    freeServ (close { s with
      servs := s.servs.modify a fun k => { k with esStatus := 0 }
      eio := r.1 } k.esSock) a

/-- The calls of the servers' owners, and what others do. -/
inductive Act
  | create (cbs data : ℕ) (o : ServOracle)
  | listen (a : ℕ) (addr : AddrType) (bind listen : ℤ)
  | destroy (a : ℕ) (ctl : ℤ)
  /-- `socket`, `accept` or `open` gives another party an fd. -/
  | openFd (fd : Int32)
  | closeFd (fd : Int32)
  /-- Another party's `eio_addfd` or `eio_delfd`. -/
  | eio (op : Eio.Op)
deriving DecidableEq, Repr

/-- One step. -/
def step (fuel : ℕ) (s : ServNet) : Act → Option ServNet
  | .create cbs data o => (s.edpnetServCreate fuel cbs data o).map fun r => r.2.2
  | .listen a addr bind listen => (s.edpnetServListen a addr bind listen).map Prod.snd
  | .destroy a ctl => s.edpnetServDestroy fuel a ctl
  | .openFd fd => some { s with isOpen := Function.update s.isOpen fd true }
  | .closeFd fd => some (s.close fd)
  | .eio op => (s.eio.step fuel op).map fun eio => { s with eio := eio }

/-- The fd is registered for `serv_worker_cb`. -/
def isServs (s : ServNet) (fd : Int32) : Bool :=
  (s.eio.fds fd.toUInt32).any fun ioe =>
    (s.eio.eio.iodEvcache.mem.get? ioe).any fun ev => ev.ioeCb = servWorkerCbAddr

/-- The heap and the kernel give what is not in use, and the fd a bucket without others. -/
def Fresh (s : ServNet) (o : ServOracle) : Prop :=
  o.serv.any s.servs.isLive = false ∧ o.fd.any s.isOpen = false ∧
    o.event.any s.eio.eio.iodEvcache.isLive = false ∧ o.fd.all (fun fd => s.eio.Clear fd) = true

instance (s : ServNet) (o : ServOracle) : Decidable (s.Fresh o) :=
  inferInstanceAs (Decidable (_ ∧ _ ∧ _ ∧ _))

/-- Servers are used while they live, `epoll_ctl` removes what is registered, what others do is
done to what is theirs, and an fd is added to a bucket without others. -/
def Proper (s : ServNet) : Act → Prop
  | .create _ _ o => s.Fresh o
  | .listen a _ _ _ => s.servs.isLive a = true
  | .destroy a ctl => s.servs.isLive a = true ∧ ctl = 0
  | .openFd fd => s.isOpen fd = false
  | .closeFd fd => s.eio.fds fd.toUInt32 = none
  | .eio (.addfd fd cb _ _ _) => s.isOpen fd = true ∧ cb ≠ servWorkerCbAddr ∧ s.eio.Clear fd
  | .eio (.delfd fd ctl) => s.isServs fd = false ∧ ctl = 0

instance (s : ServNet) : (a : Act) → Decidable (s.Proper a)
  | .create _ _ o => inferInstanceAs (Decidable (s.Fresh o))
  | .listen _ _ _ _ | .openFd _ | .closeFd _ => inferInstanceAs (Decidable (_ = _))
  | .destroy _ _ | .eio (.delfd _ _) => inferInstanceAs (Decidable (_ ∧ _))
  | .eio (.addfd _ _ _ _ _) => inferInstanceAs (Decidable (_ ∧ _ ∧ _))

/-- The event at `ioe` is the registration of `fd` for `data`. -/
structure Registered (e : Eio) (fd : Int32) (cb data ioe : ℕ) (ev : IoEvent) : Prop where
  fds : e.iodFds fd.toUInt32 = some ioe
  get : e.iodEvcache.mem.get? ioe = some ev
  cb : ev.ioeCb = cb
  data : ev.ioeData = data

/-- The set is one in memory, and the registry that of one worker. -/
structure OneWorker (e : LinkedEio) : Prop where
  sound : e.Sound
  registry : ∃ F, e.abs.Registry F
  num : e.eio.iodNum = 1

/-- **What the calls keep.** -/
structure Served (s : ServNet) : Prop where
  registry : OneWorker s.eio
  opened : ∀ fd : Int32, s.eio.fds fd.toUInt32 ≠ none → s.isOpen fd = true
  server : ∀ a, s.servs.isLive a = true → ∃ k ioe ev, s.servs.get? a = some k ∧
    k.esStatus % 2 = 1 ∧ Registered s.eio.abs k.esSock servWorkerCbAddr a ioe ev
  event : ∀ fd a ioe ev, Registered s.eio.abs fd servWorkerCbAddr a ioe ev →
    s.servs.isLive a = true ∧ ∃ k, s.servs.get? a = some k ∧ k.esSock = fd

/-- To those who use what is live, `t` is as `s`. -/
structure Same (s t : ServNet) : Prop where
  live : ∀ a, t.servs.isLive a = s.servs.isLive a
  get : ∀ a, s.servs.isLive a = true → t.servs.get? a = s.servs.get? a
  isOpen : t.isOpen = s.isOpen
  /-- What is found in the hash set is one of the records. -/
  records : s.eio.abs.SameRecords t.eio.abs
  epoll : t.eio.eio.epoll = s.eio.eio.epoll

/-! ### What the calls of `eio` do to the registrations -/

section Eio

variable {e e' : Eio} {l l' : LinkedEio} {fuel : ℕ} {F : Finset Int32} {fd fd' : Int32}
  {cb data ioe : ℕ} {ev : IoEvent}

/-- With one worker the next one is the worker `0`. -/
theorem lightload_one (h : e.iodNum = 1) :
    e.workerLightload.1 ∈ Finset.Ico 0 e.iodNum.toInt := by
  have hzero : e.workerLightload.1 = 0 := by
    show (e.iodRound % e.iodNum).toInt = 0
    rw [h, Int32.toInt_mod]
    exact Int.tmod_one _
  rw [hzero, h]
  decide

/-- The event `ev` at `ioe` has been registered for `fd`. -/
structure Added (e e' : Eio) (fd : Int32) (ioe : ℕ) (ev : IoEvent) : Prop where
  absent : e.iodFds fd.toUInt32 = none
  free : e.iodEvcache.isLive ioe = false
  fds : e'.iodFds = Function.update e.iodFds fd.toUInt32 (some ioe)
  cache : e'.iodEvcache = e.iodEvcache.mcacheAlloc ioe ev
  count : e'.iwkFds = Function.update e.iwkFds ev.ioeWorker (e.iwkFds ev.ioeWorker + 1)
  epoll : ∀ i fd', e'.epoll i fd' =
    if i = ev.ioeWorker ∧ fd' = fd then some ioe else e.epoll i fd'

/-- `eio_addfd` returns an error and leaves the records, or it registers the fd. -/
theorem addfd_cases (hr : e.Registry F) (hnum : e.iodNum = 1) {event : Option ℕ} {ctl ret : ℤ}
    (hfree : event.any e.iodEvcache.isLive = false)
    (h : e.eioAddfd fd cb data event ctl = (e', ret)) :
    (∃ F', e'.Registry F') ∧ e'.iodNum = 1 ∧
      (ret ≠ 0 ∧ e.SameRecords e' ∧ e'.epoll = e.epoll ∨
        ret = 0 ∧ ∃ ioe ev, ev.ioeCb = cb ∧ ev.ioeData = data ∧ Added e e' fd ioe ev) := by
  have hexec : e.exec (.addfd fd cb data event ctl) = some (e', ret) := by
    rw [Eio.exec, hfree, ← h]
    rfl
  have hcases := Eio.exec_cases hexec
  have hcompletes : e.Completes (.addfd fd cb data event ctl) := fun _ _ _ => lightload_one hnum
  obtain ⟨hF, hsame⟩ := hr.exec hcompletes hcases
  cases hcases with
  | noMem => exact ⟨hF, hnum, .inl ⟨by decide, hsame (by decide), rfl⟩⟩
  | «exists» => exact ⟨hF, hnum, .inl ⟨by decide, hsame (by decide), rfl⟩⟩
  | addFailed _ _ _ ioe _ _ _ hctl => exact ⟨hF, hnum, .inl ⟨hctl, hsame hctl, rfl⟩⟩
  | added _ _ _ ioe hfree hin =>
    exact ⟨hF, hnum, .inr ⟨rfl, ioe, e.newEvent fd cb data, rfl, rfl,
      ⟨hin, hfree, rfl, rfl, rfl, fun _ _ => Eio.epollAdd_epoll ..⟩⟩⟩

/-- The event `ev` at `ioe`, registered for `fd`, has been removed. -/
structure Deleted (e e' : Eio) (fd : Int32) (ioe : ℕ) (ev : IoEvent) : Prop where
  present : e.iodFds fd.toUInt32 = some ioe
  get : e.iodEvcache.mem.get? ioe = some ev
  fds : e'.iodFds = Function.update e.iodFds fd.toUInt32 none
  cache : e'.iodEvcache = e.iodEvcache.mcacheFree ioe
  count : e'.iwkFds = Function.update e.iwkFds ev.ioeWorker (e.iwkFds ev.ioeWorker - 1)
  epoll : ∀ i fd', e'.epoll i fd' = if i = ev.ioeWorker ∧ fd' = fd then none else e.epoll i fd'

/-- `eio_delfd` finds nothing, or it removes the fd. -/
theorem delfd_cases (hr : e.Registry F) (hnum : e.iodNum = 1) {ret : ℤ}
    (h : e.eioDelfd fd 0 = some (e', ret)) :
    (∃ F', e'.Registry F') ∧ e'.iodNum = 1 ∧
      (e' = e ∧ e.iodFds fd.toUInt32 = none ∨ ∃ ioe ev, Deleted e e' fd ioe ev) := by
  have hexec : e.exec (.delfd fd 0) = some (e', ret) := h
  have hcompletes : e.Completes (.delfd fd 0) := fun _ => rfl
  have hcases := Eio.exec_cases hexec
  obtain ⟨hF, -⟩ := hr.exec hcompletes hcases
  cases hcases with
  | absent _ _ hout => exact ⟨hF, hnum, .inl ⟨rfl, hout⟩⟩
  | delFailed _ _ _ _ hctl => exact absurd rfl hctl
  | deleted _ ioe hin ev hev =>
    exact ⟨hF, hnum, .inr ⟨ioe, ev, hin, hev, rfl, rfl, rfl, fun _ _ => Eio.epollDel_epoll ..⟩⟩

/-- Over the links too. -/
theorem OneWorker.addfd (ho : OneWorker l) (hfuel : 2 ≤ fuel) {event : Option ℕ} {ctl ret : ℤ}
    (hfree : event.any l.eio.iodEvcache.isLive = false) (hc : l.Clear fd)
    (h : l.eioAddfd fuel fd cb data event ctl = some (l', ret)) :
    OneWorker l' ∧
      (ret ≠ 0 ∧ l.abs.SameRecords l'.abs ∧ l'.eio.epoll = l.eio.epoll ∨
        ret = 0 ∧ ∃ ioe ev, ev.ioeCb = cb ∧ ev.ioeData = data ∧ Added l.abs l'.abs fd ioe ev) := by
  obtain ⟨hsound, ⟨F, hr⟩, hnum⟩ := ho
  have hexec : l.exec fuel (.addfd fd cb data event ctl) = some (l', ret) := by
    rw [LinkedEio.exec, hfree, ← h]
    rfl
  obtain ⟨habs, hkeep⟩ := hsound.exec_abs hfuel hr (.addfd fd cb data event ctl) hc
  have hlive : ¬ event.any l.abs.iodEvcache.isLive = true := Bool.eq_false_iff.1 hfree
  rw [hexec, Eio.exec, if_neg hlive] at habs
  obtain ⟨hF, hnum', hcases⟩ := addfd_cases hr hnum hfree (Option.some.inj habs)
  exact ⟨⟨hkeep _ _ hexec, hF, hnum'⟩, hcases⟩

theorem OneWorker.delfd (ho : OneWorker l) (hfuel : 2 ≤ fuel) {ret : ℤ}
    (h : l.eioDelfd fuel fd 0 = some (l', ret)) :
    OneWorker l' ∧ (l'.abs = l.abs ∧ l.fds fd.toUInt32 = none ∨
      ∃ ioe ev, Deleted l.abs l'.abs fd ioe ev) := by
  obtain ⟨hsound, ⟨F, hr⟩, hnum⟩ := ho
  have hexec : l.exec fuel (.delfd fd 0) = some (l', ret) := h
  obtain ⟨habs, hkeep⟩ := hsound.exec_abs hfuel hr (.delfd fd 0) trivial
  rw [hexec] at habs
  obtain ⟨hF, hnum', hcases⟩ := delfd_cases hr hnum habs
  exact ⟨⟨hkeep _ _ hexec, hF, hnum'⟩, hcases⟩

/-- Two fds have two hashes. -/
theorem update_fd_of_ne (h : fd' ≠ fd) (m : HsetMap) (x : Option ℕ) :
    Function.update m fd.toUInt32 x fd'.toUInt32 = m fd'.toUInt32 :=
  Function.update_of_ne (fun e => h (Eio.toUInt32_inj e)) ..

theorem Registered.watched (h : Registered l.abs fd cb data ioe ev) : l.fds fd.toUInt32 ≠ none :=
  fun hnone => absurd (hnone.symm.trans h.fds) (by simp)

/-- An error leaves the registrations. -/
theorem registered_same (hr : e.Registry F) (h : e.SameRecords e') :
    Registered e' fd cb data ioe ev ↔ Registered e fd cb data ioe ev := by
  obtain ⟨hfds, hsame, -⟩ := h
  have hget : e.iodFds fd.toUInt32 = some ioe →
      e'.iodEvcache.mem.get? ioe = e.iodEvcache.mem.get? ioe :=
    fun hin => (hsame ioe).2 (hr.entry fd ioe hin).1.1
  constructor
  · rintro ⟨hin, hev, hcb, hdata⟩
    rw [hfds] at hin
    exact ⟨hin, (hget hin).symm.trans hev, hcb, hdata⟩
  · rintro ⟨hin, hev, hcb, hdata⟩
    exact ⟨by rw [hfds, hin], (hget hin).trans hev, hcb, hdata⟩

/-- `eio_addfd` adds one. -/
theorem registered_added (hr : e.Registry F) {new : IoEvent} {i : ℕ}
    (h : Added e e' fd' i new) :
    Registered e' fd cb data ioe ev ↔
      fd = fd' ∧ ioe = i ∧ ev = new ∧ new.ioeCb = cb ∧ new.ioeData = data ∨
        fd ≠ fd' ∧ Registered e fd cb data ioe ev := by
  obtain ⟨-, hfree, hfds, hcache, -, -⟩ := h
  have hself : e'.iodEvcache.mem.get? i = some new := by simp [hcache]
  by_cases hfd : fd = fd'
  · subst hfd
    have hin : e'.iodFds fd.toUInt32 = some i := by simp [hfds]
    constructor
    · rintro ⟨hin', hev, hcb, hdata⟩
      obtain rfl := Option.some.inj (hin.symm.trans hin')
      obtain rfl := Option.some.inj (hself.symm.trans hev)
      exact .inl ⟨rfl, rfl, rfl, hcb, hdata⟩
    · rintro (⟨-, rfl, rfl, hcb, hdata⟩ | ⟨hne, -⟩)
      · exact ⟨hin, hself, hcb, hdata⟩
      · exact absurd rfl hne
  · have hin : e'.iodFds fd.toUInt32 = e.iodFds fd.toUInt32 := by
      rw [hfds, update_fd_of_ne hfd]
    have hget : e.iodFds fd.toUInt32 = some ioe →
        e'.iodEvcache.mem.get? ioe = e.iodEvcache.mem.get? ioe := by
      intro h
      rw [hcache]
      refine MemCache.get?_mcacheAlloc_of_ne _ ?_
      rintro rfl
      exact absurd (hfree.symm.trans (hr.entry fd ioe h).1.1) (by decide)
    constructor
    · rintro ⟨hin', hev, hcb, hdata⟩
      rw [hin] at hin'
      exact .inr ⟨hfd, hin', (hget hin').symm.trans hev, hcb, hdata⟩
    · rintro (⟨h, -⟩ | ⟨-, hin', hev, hcb, hdata⟩)
      · exact absurd h hfd
      · exact ⟨hin.trans hin', (hget hin').trans hev, hcb, hdata⟩

/-- `eio_delfd` removes one. -/
theorem registered_deleted {old : IoEvent} {i : ℕ} (h : Deleted e e' fd' i old) :
    Registered e' fd cb data ioe ev ↔ fd ≠ fd' ∧ Registered e fd cb data ioe ev := by
  obtain ⟨-, -, hfds, hcache, -, -⟩ := h
  have hget : e'.iodEvcache.mem.get? ioe = e.iodEvcache.mem.get? ioe := by
    rw [hcache, MemCache.get?_mcacheFree]
  by_cases hfd : fd = fd'
  · subst hfd
    refine iff_of_false (fun h => ?_) fun h => h.1 rfl
    have hin := h.fds
    rw [hfds, Function.update_self] at hin
    cases hin
  · have hin : e'.iodFds fd.toUInt32 = e.iodFds fd.toUInt32 := by
      rw [hfds, update_fd_of_ne hfd]
    constructor
    · rintro ⟨h, hev, hcb, hdata⟩
      exact ⟨hfd, hin ▸ h, hget ▸ hev, hcb, hdata⟩
    · rintro ⟨-, h, hev, hcb, hdata⟩
      exact ⟨hin.trans h, hget.trans hev, hcb, hdata⟩

end Eio

/-! ### The calls -/

section Calls

variable {s t : ServNet} {a fuel : ℕ} {l : Links HsetAddr} {hash : ℕ → UInt32}

/-- What is the same is served the same. -/
theorem Served.same (hs : s.Served) (h : s.Same t) (ho : OneWorker t.eio) : t.Served := by
  obtain ⟨F, hr⟩ := hs.registry.registry
  have hreg {fd : Int32} {b ioe : ℕ} {ev : IoEvent} :
      Registered t.eio.abs fd servWorkerCbAddr b ioe ev ↔
        Registered s.eio.abs fd servWorkerCbAddr b ioe ev := registered_same hr h.records
  have hfds : t.eio.fds = s.eio.fds := h.records.1
  refine ⟨ho, fun fd hfd => ?_, fun b hb => ?_, fun fd b ioe ev hev => ?_⟩
  · rw [hfds] at hfd
    rw [h.isOpen]
    exact hs.opened fd hfd
  · rw [h.live] at hb
    obtain ⟨k, ioe, ev, hk, hodd, hev⟩ := hs.server b hb
    exact ⟨k, ioe, ev, (h.get b hb).trans hk, hodd, hreg.2 hev⟩
  · obtain ⟨hb, k, hk, hfd⟩ := hs.event fd b ioe ev (hreg.1 hev)
    exact ⟨(h.live b).trans hb, k, (h.get b hb).trans hk, hfd⟩

/-- And found the same by `hset_get`. -/
theorem Served.found (hs : s.Served) (h : s.Same t) (ho : OneWorker t.eio) (hfuel : 2 ≤ fuel)
    (k : UInt32) : t.eio.iodFds.hsetGet fuel k = s.eio.iodFds.hsetGet fuel k := by
  have hfds : t.eio.fds = s.eio.fds := h.records.1
  rw [ho.sound.hsetGet hfuel, hs.registry.sound.hsetGet hfuel, hfds]

/-- A block that is allocated and freed. -/
theorem same_undo (hlive : s.servs.isLive a = false) {servs : BlockHeap NetServ}
    (hservs : ∀ b ≠ a, servs.isLive b = s.servs.isLive b ∧ servs.get? b = s.servs.get? b)
    {isOpen : Int32 → Bool} (hopen : isOpen = s.isOpen) {e : LinkedEio}
    (hrec : s.eio.abs.SameRecords e.abs) (hepoll : e.eio.epoll = s.eio.eio.epoll) :
    s.Same ⟨servs.free a, isOpen, e⟩ := by
  refine ⟨fun b => ?_, fun b hb => ?_, hopen, hrec, hepoll⟩
  · by_cases hba : b = a
    · subst hba
      simp [hlive]
    · exact (BlockHeap.isLive_free_of_ne _ hba).trans (hservs b hba).1
  · have hba : b ≠ a := by
      rintro rfl
      exact absurd (hlive.symm.trans hb) (by decide)
    exact (BlockHeap.get?_free _ _ _).trans (hservs b hba).2

/-- A server at `a` with its registration. -/
structure Opened (s t : ServNet) (a : ℕ) (k : NetServ) (ioe : ℕ) (ev : IoEvent) : Prop where
  fresh : s.servs.isLive a = false
  closed : s.isOpen k.esSock = false
  live : t.servs.isLive a = true
  get : t.servs.get? a = some k
  others : ∀ b ≠ a, t.servs.isLive b = s.servs.isLive b ∧ t.servs.get? b = s.servs.get? b
  isOpen : t.isOpen = Function.update s.isOpen k.esSock true
  cb : ev.ioeCb = servWorkerCbAddr
  data : ev.ioeData = a
  added : Added s.eio.abs t.eio.abs k.esSock ioe ev

/-- **What `edpnet_serv_create` does**: it gives back all that it has acquired, or there is a
new server. -/
theorem create_cases (hs : s.Served) (hfuel : 2 ≤ fuel) {cbs data : ℕ} {o : ServOracle}
    (hf : s.Fresh o) {ret : ℤ} {serv : Option ℕ}
    (h : s.edpnetServCreate fuel cbs data o = some (ret, serv, t)) :
    OneWorker t.eio ∧
      (ret ≠ 0 ∧ serv = none ∧ s.Same t ∨
        ret = 0 ∧ ∃ a fd ioe ev, serv = some a ∧ Opened s t a ⟨1, fd, cbs, data⟩ ioe ev) := by
  have ho := hs.registry
  have hrec : s.eio.abs.SameRecords s.eio.abs := ⟨rfl, fun _ => ⟨rfl, fun _ => rfl⟩, rfl⟩
  obtain ⟨serv', fd, nonblock, event, ctl⟩ := o
  obtain ⟨hserv, hfd, hevent, hclear⟩ := hf
  rcases serv' with _ | a
  · obtain ⟨rfl, rfl, rfl⟩ := by simpa [edpnetServCreate] using h
    exact ⟨ho, .inl ⟨by decide, rfl, fun _ => rfl, fun _ _ => rfl, rfl, hrec, rfl⟩⟩
  have hlive : s.servs.isLive a = false := hserv
  have hothers : ∀ (f : NetServ → NetServ), ∀ b ≠ a,
      ((s.servs.alloc a ⟨0, 0, cbs, data⟩).modify a f).isLive b = s.servs.isLive b ∧
        ((s.servs.alloc a ⟨0, 0, cbs, data⟩).modify a f).get? b = s.servs.get? b := by
    intro f b hb
    rw [BlockHeap.isLive_modify, BlockHeap.isLive_alloc_of_ne _ _ hb,
      BlockHeap.get?_modify_of_ne _ _ hb, BlockHeap.get?_alloc_of_ne _ _ hb]
    exact ⟨rfl, rfl⟩
  rcases fd with _ | fd
  · obtain ⟨rfl, rfl, rfl⟩ := by simpa [edpnetServCreate] using h
    refine ⟨ho, .inl ⟨by decide, rfl, same_undo hlive (fun b hb => ?_) rfl hrec rfl⟩⟩
    exact ⟨BlockHeap.isLive_alloc_of_ne _ _ hb, BlockHeap.get?_alloc_of_ne _ _ hb⟩
  have hclosed : s.isOpen fd = false := hfd
  have hopen : Function.update (Function.update s.isOpen fd true) fd false = s.isOpen := by
    rw [Function.update_idem, ← hclosed, Function.update_eq_self]
  have hothers := hothers fun k => { k with esSock := fd }
  rcases nonblock with _ | _
  · obtain ⟨rfl, rfl, rfl⟩ := by simpa [edpnetServCreate] using h
    exact ⟨ho, .inl ⟨by decide, rfl, same_undo hlive hothers hopen hrec rfl⟩⟩
  simp only [edpnetServCreate, Bool.not_true, Bool.false_eq_true, if_false] at h
  obtain ⟨⟨e, r⟩, hadd, h⟩ := Option.map_eq_some_iff.1 h
  obtain ⟨ho', hcases⟩ := ho.addfd hfuel hevent (of_decide_eq_true hclear) hadd
  rcases hcases with ⟨hret, hsame, hepoll⟩ | ⟨hret, ioe, ev, hcb, hdata, hadded⟩
  · rw [if_pos hret] at h
    obtain ⟨rfl, rfl, rfl⟩ := by simpa using h
    exact ⟨ho', .inl ⟨by decide, rfl, same_undo hlive hothers hopen hsame hepoll⟩⟩
  · rw [if_neg (not_not_intro hret)] at h
    obtain ⟨rfl, rfl, rfl⟩ := by simpa using h
    refine ⟨ho', .inr ⟨rfl, a, fd, ioe, ev, rfl, hlive, hclosed, ?_, ?_, fun b hb => ?_, rfl,
      hcb, hdata, hadded⟩⟩
    · simp
    · simp
    · rw [BlockHeap.isLive_modify, BlockHeap.get?_modify_of_ne _ _ hb]
      exact hothers b hb

/-- A new server is served. -/
theorem Served.opened_served (hs : s.Served) {k : NetServ} {ioe : ℕ} {ev : IoEvent}
    (h : Opened s t a k ioe ev) (hodd : k.esStatus % 2 = 1) (ho : OneWorker t.eio) :
    t.Served := by
  obtain ⟨F, hr⟩ := hs.registry.registry
  have hfds : t.eio.fds = Function.update s.eio.fds k.esSock.toUInt32 (some ioe) := h.added.fds
  have hnew : Registered t.eio.abs k.esSock servWorkerCbAddr a ioe ev :=
    (registered_added hr h.added).2 (.inl ⟨rfl, rfl, rfl, h.cb, h.data⟩)
  refine ⟨ho, fun fd hfd => ?_, fun b hb => ?_, fun fd b i v hv => ?_⟩
  · rw [h.isOpen]
    by_cases hk : fd = k.esSock
    · subst hk
      exact Function.update_self ..
    · rw [Function.update_of_ne hk]
      refine hs.opened fd ?_
      rwa [hfds, update_fd_of_ne hk] at hfd
  · by_cases hba : b = a
    · subst hba
      exact ⟨k, ioe, ev, h.get, hodd, hnew⟩
    · obtain ⟨hl, hg⟩ := h.others b hba
      obtain ⟨k', i, v, hk', hodd', hv⟩ := hs.server b (hl.symm.trans hb)
      -- the fd of a server was open before
      have hne : k'.esSock ≠ k.esSock := by
        intro e
        have hopen := hs.opened k'.esSock hv.watched
        rw [e, h.closed] at hopen
        cases hopen
      exact ⟨k', i, v, hg.trans hk', hodd', (registered_added hr h.added).2 (.inr ⟨hne, hv⟩)⟩
  · rcases (registered_added hr h.added).1 hv with ⟨rfl, rfl, rfl, -, hdata⟩ | ⟨-, hv⟩
    · obtain rfl : a = b := h.data.symm.trans hdata
      exact ⟨h.live, k, h.get, rfl⟩
    · obtain ⟨hb, k', hk', hfd⟩ := hs.event fd b i v hv
      have hba : b ≠ a := by
        rintro rfl
        exact absurd (h.fresh.symm.trans hb) (by decide)
      obtain ⟨hl, hg⟩ := h.others b hba
      exact ⟨hl.trans hb, k', hg.trans hk', hfd⟩

/-- **What `edpnet_serv_destroy` does** to a server: its registration is removed, its fd closed
and its block freed. -/
theorem destroy_cases (hs : s.Served) (hfuel : 2 ≤ fuel) (ha : s.servs.isLive a = true)
    (h : s.edpnetServDestroy fuel a 0 = some t) :
    OneWorker t.eio ∧
      ∃ k ioe ev, s.servs.get? a = some k ∧ Deleted s.eio.abs t.eio.abs k.esSock ioe ev ∧
        Registered s.eio.abs k.esSock servWorkerCbAddr a ioe ev ∧
        t.isOpen = Function.update s.isOpen k.esSock false ∧ t.servs.isLive a = false ∧
        ∀ b ≠ a, t.servs.isLive b = s.servs.isLive b ∧ t.servs.get? b = s.servs.get? b := by
  obtain ⟨k, ioe, ev, hk, -, hev⟩ := hs.server a ha
  rw [edpnetServDestroy, hk, Option.bind_some] at h
  obtain ⟨⟨e, ret⟩, hdel, rfl⟩ := Option.map_eq_some_iff.1 h
  obtain ⟨ho, hcases⟩ := hs.registry.delfd hfuel hdel
  rcases hcases with ⟨-, hout⟩ | ⟨i, v, hdeleted⟩
  · exact absurd (hev.fds.symm.trans hout) (by simp)
  · obtain rfl : ioe = i := Option.some.inj (hev.fds.symm.trans hdeleted.present)
    obtain rfl : ev = v := Option.some.inj (hev.get.symm.trans hdeleted.get)
    refine ⟨ho, k, ioe, ev, hk, hdeleted, hev, rfl, ?_, fun b hb => ⟨?_, ?_⟩⟩
    · exact BlockHeap.isLive_free_self _ _
    · simp only [freeServ, close]
      exact (BlockHeap.isLive_free_of_ne _ hb).trans (BlockHeap.isLive_modify ..)
    · simp only [freeServ, close]
      exact (BlockHeap.get?_free ..).trans (BlockHeap.get?_modify_of_ne _ _ hb)

/-- It returns. -/
theorem Served.destroys (hs : s.Served) (hfuel : 2 ≤ fuel) (ha : s.servs.isLive a = true) :
    ∃ t, s.edpnetServDestroy fuel a 0 = some t := by
  obtain ⟨k, ioe, ev, hk, -, hev⟩ := hs.server a ha
  obtain ⟨u, ret, hdel, -⟩ := hs.registry.sound.eioDelfd hfuel 0 fun i hi => by
    obtain rfl : ioe = i := Option.some.inj (hev.fds.symm.trans hi)
    exact fun hnone => absurd (hev.get.symm.trans hnone) (by simp)
  rw [edpnetServDestroy, hk, Option.bind_some, hdel]
  exact ⟨_, rfl⟩

theorem Served.destroy (hs : s.Served) (hfuel : 2 ≤ fuel) (ha : s.servs.isLive a = true)
    (h : s.edpnetServDestroy fuel a 0 = some t) : t.Served := by
  obtain ⟨ho, k, ioe, ev, hk, hdel, hev, hopen, hdead, hothers⟩ := destroy_cases hs hfuel ha h
  have hfds : t.eio.fds = Function.update s.eio.fds k.esSock.toUInt32 none := hdel.fds
  refine ⟨ho, fun fd hfd => ?_, fun b hb => ?_, fun fd b i v hv => ?_⟩
  · rw [hfds] at hfd
    have hne : fd ≠ k.esSock := by
      rintro rfl
      exact hfd (Function.update_self ..)
    rw [hopen, Function.update_of_ne hne]
    refine hs.opened fd ?_
    rwa [update_fd_of_ne hne] at hfd
  · have hba : b ≠ a := by
      rintro rfl
      exact absurd (hdead.symm.trans hb) (by decide)
    obtain ⟨hl, hg⟩ := hothers b hba
    obtain ⟨k', i, v, hk', hodd, hv⟩ := hs.server b (hl.symm.trans hb)
    -- no other server has the fd
    have hne : k'.esSock ≠ k.esSock := by
      intro e
      rw [e] at hv
      obtain rfl : ioe = i := Option.some.inj (hev.fds.symm.trans hv.fds)
      obtain rfl : ev = v := Option.some.inj (hev.get.symm.trans hv.get)
      exact hba (hv.data.symm.trans hev.data)
    exact ⟨k', i, v, hg.trans hk', hodd, (registered_deleted hdel).2 ⟨hne, hv⟩⟩
  · obtain ⟨hne, hv⟩ := (registered_deleted hdel).1 hv
    obtain ⟨hb, k', hk', hfd⟩ := hs.event fd b i v hv
    have hba : b ≠ a := by
      rintro rfl
      obtain rfl := Option.some.inj (hk.symm.trans hk')
      exact hne hfd.symm
    obtain ⟨hl, hg⟩ := hothers b hba
    exact ⟨hl.trans hb, k', hg.trans hk', hfd⟩

/-- Others' calls of `eio` on fds of their own. -/
theorem Served.others (hs : s.Served) (hfuel : 2 ≤ fuel) {op : Eio.Op} (hC : s.Proper (.eio op))
    {e : LinkedEio} (h : s.eio.step fuel op = some e) : Served { s with eio := e } := by
  obtain ⟨F, hr⟩ := hs.registry.registry
  obtain ⟨⟨e, ret⟩, hexec, rfl⟩ := Option.map_eq_some_iff.1 h
  rcases op with ⟨fd, cb, data, ptr, ctl⟩ | ⟨fd, ctl⟩
  · obtain ⟨hopen, hcb, hclear⟩ := hC
    rw [LinkedEio.exec] at hexec
    split at hexec
    · cases hexec
    · rename_i hfree
      obtain ⟨ho, hcases⟩ := hs.registry.addfd hfuel (Bool.eq_false_iff.2 hfree) hclear hexec
      rcases hcases with ⟨-, hsame, hepoll⟩ | ⟨-, ioe, ev, hcb', hdata, hadded⟩
      · exact hs.same ⟨fun _ => rfl, fun _ _ => rfl, rfl, hsame, hepoll⟩ ho
      · have hfds : e.fds = Function.update s.eio.fds fd.toUInt32 (some ioe) := hadded.fds
        -- the new registration is for another callback
        have hreg {fd' : Int32} {a ioe' : ℕ} {ev' : IoEvent}
            (h : Registered e.abs fd' servWorkerCbAddr a ioe' ev') :
            Registered s.eio.abs fd' servWorkerCbAddr a ioe' ev' := by
          rcases (registered_added hr hadded).1 h with ⟨-, -, -, h, -⟩ | ⟨-, h⟩
          · exact absurd (hcb'.symm.trans h) hcb
          · exact h
        refine ⟨ho, fun fd' hfd => ?_, fun a ha => ?_, fun fd' a i v hv => ?_⟩
        · by_cases hfd' : fd' = fd
          · exact hfd' ▸ hopen
          · refine hs.opened fd' ?_
            rwa [hfds, update_fd_of_ne hfd'] at hfd
        · obtain ⟨k, i, v, hk, hodd, hv⟩ := hs.server a ha
          have hne : k.esSock ≠ fd := by
            rintro rfl
            exact hv.watched hadded.absent
          exact ⟨k, i, v, hk, hodd, (registered_added hr hadded).2 (.inr ⟨hne, hv⟩)⟩
        · exact hs.event fd' a i v (hreg hv)
  · obtain ⟨hnot, rfl⟩ := hC
    obtain ⟨ho, hcases⟩ := hs.registry.delfd hfuel hexec
    rcases hcases with ⟨habs, -⟩ | ⟨ioe, ev, hdel⟩
    · have hepoll : e.abs.epoll = s.eio.abs.epoll := by rw [habs]
      refine hs.same ⟨fun _ => rfl, fun _ _ => rfl, rfl, ?_, hepoll⟩ ho
      rw [habs]
      exact ⟨rfl, fun _ => ⟨rfl, fun _ => rfl⟩, rfl⟩
    · have hfds : e.fds = Function.update s.eio.fds fd.toUInt32 none := hdel.fds
      have hin : s.eio.fds fd.toUInt32 = some ioe := hdel.present
      refine ⟨ho, fun fd' hfd => ?_, fun a ha => ?_, fun fd' a i v hv => ?_⟩
      · refine hs.opened fd' ?_
        by_cases hfd' : fd' = fd
        · rw [hfd', hin]
          exact Option.some_ne_none _
        · rwa [hfds, update_fd_of_ne hfd'] at hfd
      · obtain ⟨k, i, v, hk, hodd, hv⟩ := hs.server a ha
        -- what is removed is no server's
        have hne : k.esSock ≠ fd := by
          rintro rfl
          have hservs : s.isServs k.esSock = true := by
            have hi : s.eio.fds k.esSock.toUInt32 = some i := hv.fds
            have hget : s.eio.eio.iodEvcache.mem.get? i = some v := hv.get
            simp [isServs, hi, hget, hv.cb]
          exact absurd (hnot.symm.trans hservs) (by decide)
        exact ⟨k, i, v, hk, hodd, (registered_deleted hdel).2 ⟨hne, hv⟩⟩
      · exact hs.event fd' a i v ((registered_deleted hdel).1 hv).2

/-- What `edpnet_serv_listen` does: nothing, or the server has one more bit in its status. -/
theorem listen_cases {addr : AddrType} {bind listen ret : ℤ}
    (h : s.edpnetServListen a addr bind listen = some (ret, t)) :
    t = s ∨ t = { s with
      servs := s.servs.modify a fun k => { k with esStatus := k.esStatus ||| 2 } } := by
  rcases addr with _ | _ | _
  · simp only [edpnetServListen] at h
    split_ifs at h
    · exact .inl (congrArg Prod.snd (Option.some.inj h)).symm
    · exact .inr (congrArg Prod.snd (Option.some.inj h)).symm
    · exact .inl (congrArg Prod.snd (Option.some.inj h)).symm
  · cases h
  · exact .inl (congrArg Prod.snd (Option.some.inj h)).symm

theorem Served.listen (hs : s.Served) {addr : AddrType} {bind listen ret : ℤ}
    (h : s.edpnetServListen a addr bind listen = some (ret, t)) : t.Served := by
  rcases listen_cases h with rfl | rfl
  · exact hs
  · refine ⟨hs.registry, hs.opened, fun b hb => ?_, fun fd b i v hv => ?_⟩
    · rw [BlockHeap.isLive_modify] at hb
      obtain ⟨k, i, v, hk, hodd, hv⟩ := hs.server b hb
      have hk' := BlockHeap.get?_modify_of_get? hk a fun k =>
        { k with esStatus := k.esStatus ||| 2 }
      refine ⟨_, i, v, hk', ?_, ?_⟩
      · split_ifs
        · show (k.esStatus ||| 2) % 2 ^ 1 = 1
          rw [Nat.or_mod_two_pow, pow_one, hodd]
          rfl
        · exact hodd
      · split_ifs <;> exact hv
    · obtain ⟨hb, k, hk, hfd⟩ := hs.event fd b i v hv
      have hk' := BlockHeap.get?_modify_of_get? hk a fun k =>
        { k with esStatus := k.esStatus ||| 2 }
      refine ⟨by simpa only [BlockHeap.isLive_modify] using hb, _, hk', ?_⟩
      split_ifs <;> exact hfd

theorem served_init : (init l hash).Served := by
  obtain ⟨hsound, habs⟩ := LinkedEio.sound_init 1 l hash
  have hnone (k : UInt32) : (init l hash).eio.fds k = none := congrFun (congrArg Eio.iodFds habs) k
  refine ⟨⟨hsound, ⟨∅, habs ▸ Eio.registry_init 1⟩, rfl⟩, fun fd h => absurd (hnone _) h,
    fun a ha => ?_, fun fd a ioe ev h => absurd (hnone _) h.watched⟩
  cases ha

/-- Every step keeps the invariant. -/
theorem Served.step (hs : s.Served) (hfuel : 2 ≤ fuel) {act : Act} (hC : s.Proper act)
    (h : s.step fuel act = some t) : t.Served := by
  rcases act with ⟨cbs, data, o⟩ | ⟨a, addr, bind, listen⟩ | ⟨a, ctl⟩ | fd | fd | op
  · obtain ⟨⟨ret, serv, t⟩, hcreate, rfl⟩ := Option.map_eq_some_iff.1 h
    obtain ⟨ho, ⟨-, -, hsame⟩ | ⟨-, a, fd, ioe, ev, -, hopened⟩⟩ :=
      create_cases hs hfuel hC hcreate
    · exact hs.same hsame ho
    · exact hs.opened_served hopened rfl ho
  · obtain ⟨⟨ret, u⟩, hlisten, rfl⟩ := Option.map_eq_some_iff.1 h
    exact hs.listen hlisten
  · obtain ⟨ha, rfl⟩ := hC
    exact hs.destroy hfuel ha h
  · obtain rfl := Option.some.inj h
    refine ⟨hs.registry, fun fd' hfd => ?_, hs.server, hs.event⟩
    by_cases hfd' : fd' = fd
    · subst hfd'
      exact Function.update_self ..
    · exact (Function.update_of_ne hfd' ..).trans (hs.opened fd' hfd)
  · obtain rfl := Option.some.inj h
    refine ⟨hs.registry, fun fd' hfd => ?_, hs.server, hs.event⟩
    have hfd' : fd' ≠ fd := by
      rintro rfl
      exact hfd hC
    exact (Function.update_of_ne hfd' ..).trans (hs.opened fd' hfd)
  · obtain ⟨e, he, rfl⟩ := Option.map_eq_some_iff.1 h
    exact hs.others hfuel hC he

theorem served_run (hfuel : 2 ≤ fuel) {as : List Act}
    (hC : StepSystem.Meets (ServNet.step fuel) Proper (init l hash) as)
    (hrun : StepSystem.run (ServNet.step fuel) (init l hash) as = some s) : s.Served :=
  StepSystem.run_invariant (fun _ _ _ hs hC h => Served.step hs hfuel hC h) served_init hC hrun

/-- A new server is registered at the worker `0`. -/
theorem Served.epoll_zero (hs : s.Served) {fd : Int32} {cb data ioe : ℕ} {ev : IoEvent}
    (h : Registered s.eio.abs fd cb data ioe ev) : s.eio.eio.epoll 0 fd = some ioe := by
  obtain ⟨F, hr⟩ := hs.registry.registry
  obtain ⟨⟨hlive, -⟩, i, hi⟩ := hr.entry fd ioe h.fds
  obtain ⟨ioe', hioe⟩ := Option.ne_none_iff_exists'.1 hi
  obtain ⟨hin, hworker⟩ := hr.epoll i fd ioe' hioe
  obtain rfl : ioe = ioe' := Option.some.inj (h.fds.symm.trans hin)
  have hmem := hr.worker ioe ev hlive h.get
  have hnum : s.eio.abs.iodNum = 1 := hs.registry.num
  rw [hnum, hworker ev h.get, Finset.mem_Ico] at hmem
  have hone : (1 : Int32).toInt = 1 := rfl
  obtain rfl : i = 0 := by omega
  exact hioe

/-- **Every server is served, and no other.**  In every state reached, each server has an fd of
its own, open, that `hset_get` finds and the kernel watches for that server; what the kernel
watches for `serv_worker_cb` is the fd of a server that has not been freed. -/
theorem servers_served (hfuel : 2 ≤ fuel) {as : List Act}
    (hC : StepSystem.Meets (ServNet.step fuel) Proper (init l hash) as)
    (hrun : StepSystem.run (ServNet.step fuel) (init l hash) as = some s) :
    (∀ a, s.servs.isLive a = true → ∃ k ioe ev, s.servs.get? a = some k ∧ k.esStatus % 2 = 1 ∧
      s.isOpen k.esSock = true ∧
      s.eio.iodFds.hsetGet fuel k.esSock.toUInt32 = some (0, some ioe) ∧
      s.eio.eio.epoll 0 k.esSock = some ioe ∧ s.eio.eio.iodEvcache.mem.get? ioe = some ev ∧
      ev.ioeCb = servWorkerCbAddr ∧ ev.ioeData = a) ∧
    (∀ a b k l, s.servs.isLive a = true → s.servs.isLive b = true → s.servs.get? a = some k →
      s.servs.get? b = some l → k.esSock = l.esSock → a = b) ∧
    ∀ i fd ioe ev, s.eio.eio.epoll i fd = some ioe → s.eio.eio.iodEvcache.mem.get? ioe = some ev →
      ev.ioeCb = servWorkerCbAddr →
      s.servs.isLive ev.ioeData = true ∧ ∃ k, s.servs.get? ev.ioeData = some k ∧ k.esSock = fd := by
  have hs := served_run hfuel hC hrun
  obtain ⟨F, hr⟩ := hs.registry.registry
  refine ⟨fun a ha => ?_, fun a b k l ha hb hk hl hfd => ?_, fun i fd ioe ev hi hev hcb => ?_⟩
  · obtain ⟨k, ioe, ev, hk, hodd, hreg⟩ := hs.server a ha
    have hopen := hs.opened k.esSock hreg.watched
    have hin : s.eio.fds k.esSock.toUInt32 = some ioe := hreg.fds
    have hget : s.eio.iodFds.hsetGet fuel k.esSock.toUInt32 = some (0, some ioe) := by
      rw [hs.registry.sound.hsetGet hfuel, HsetMap.lookup, hin]
    exact ⟨k, ioe, ev, hk, hodd, hopen, hget, hs.epoll_zero hreg, hreg.get, hreg.cb, hreg.data⟩
  · obtain ⟨k', ioe, ev, hk', -, hreg⟩ := hs.server a ha
    obtain ⟨l', i, v, hl', -, hv⟩ := hs.server b hb
    obtain rfl := Option.some.inj (hk.symm.trans hk')
    obtain rfl := Option.some.inj (hl.symm.trans hl')
    -- one fd has one event, and the event one server
    rw [← hfd] at hv
    obtain rfl : ioe = i := Option.some.inj (hreg.fds.symm.trans hv.fds)
    obtain rfl : ev = v := Option.some.inj (hreg.get.symm.trans hv.get)
    exact hreg.data.symm.trans hv.data
  · exact hs.event fd ev.ioeData ioe ev ⟨(hr.epoll i fd ioe hi).1, hev, hcb, rfl⟩

/-- A server that listens, another party's fd, and a server that is destroyed. -/
theorem servers_served_two : ∃ s : ServNet, s.servs.isLive 1 = true := by
  have hrun := Eq.refl (StepSystem.run (ServNet.step 2) (init ⟨id, id⟩ fun _ => 0)
    [.create 7 0 ⟨some 1, some 3, true, some 11, 0⟩, .listen 1 .ipv4 0 0, .openFd 4,
      .eio (.addfd 4 9 2 (some 12) 0), .create 7 0 ⟨some 2, some 5, true, some 13, 0⟩,
      .destroy 2 0])
  have h := servers_served (Nat.le_refl 2) (by decide) hrun
  exact ⟨_, (h.2.2 0 3 11 _ rfl rfl rfl).1⟩

/-- The fds `4` and `36` have one bucket: after the second server the first is watched and not
found. -/
example : (StepSystem.run (ServNet.step 2) (init ⟨id, id⟩ fun _ => 0)
    [.create 7 0 ⟨some 1, some 4, true, some 11, 0⟩,
      .create 7 0 ⟨some 2, some 36, true, some 12, 0⟩]).any (fun s =>
        s.servs.isLive 1 && s.eio.eio.epoll 0 4 == some 11 &&
          s.eio.iodFds.hsetGet 2 4 == some (-1, none)) = true := by
  decide

/-- `eio_addfd` of an fd that is not registered fails only for want of memory or in the
kernel. -/
theorem addfd_iff {e e' : Eio} {fd : Int32} (habsent : e.iodFds fd.toUInt32 = none)
    {cb data : ℕ} {event : Option ℕ} {ctl ret : ℤ}
    (hfree : event.any e.iodEvcache.isLive = false)
    (h : e.eioAddfd fd cb data event ctl = (e', ret)) : ret = 0 ↔ event ≠ none ∧ ctl = 0 := by
  have hexec : e.exec (.addfd fd cb data event ctl) = some (e', ret) := by
    rw [Eio.exec, hfree, ← h]
    rfl
  cases Eio.exec_cases hexec with
  | noMem => simp
  | «exists» _ _ _ _ _ _ _ hin => exact absurd (habsent.symm.trans hin) (by simp)
  | addFailed _ _ _ _ _ _ _ hctl => simp
  | added => simp

/-- What an fd that is closed is added with. -/
theorem Served.addfd (hs : s.Served) (hfuel : 2 ≤ fuel) {fd : Int32} (hclosed : s.isOpen fd = false)
    (hc : s.eio.Clear fd) {event : Option ℕ} (cb data : ℕ) (ctl : ℤ)
    (hfree : event.any s.eio.eio.iodEvcache.isLive = false) :
    ∃ e ret, s.eio.eioAddfd fuel fd cb data event ctl = some (e, ret) ∧
      (ret = 0 ↔ event ≠ none ∧ ctl = 0) := by
  obtain ⟨hsound, ⟨F, hr⟩, -⟩ := hs.registry
  have habsent : s.eio.fds fd.toUInt32 = none := by
    by_contra hin
    exact absurd (hclosed.symm.trans (hs.opened fd hin)) (by decide)
  obtain ⟨habs, -⟩ := hsound.exec_abs hfuel hr (.addfd fd cb data event ctl) hc
  have hlive : ¬ event.any s.eio.abs.iodEvcache.isLive = true := Bool.eq_false_iff.1 hfree
  rw [Eio.exec, LinkedEio.exec, if_neg hlive, if_neg (Bool.eq_false_iff.1 hfree)] at habs
  obtain ⟨⟨e, ret⟩, hadd, he⟩ := Option.map_eq_some_iff.1 habs.symm
  exact ⟨e, ret, hadd, addfd_iff (e := s.eio.abs) habsent hfree he.symm⟩

/-- **`edpnet_serv_create` fails only where something it asks for fails, and leaves nothing
behind.** -/
theorem create_iff (hfuel : 2 ≤ fuel) {as : List Act}
    (hC : StepSystem.Meets (ServNet.step fuel) Proper (init l hash) as)
    (hrun : StepSystem.run (ServNet.step fuel) (init l hash) as = some s) (cbs data : ℕ)
    {o : ServOracle} (hf : s.Fresh o) :
    ∃ ret serv t, s.edpnetServCreate fuel cbs data o = some (ret, serv, t) ∧
      (ret = 0 ↔ o.serv ≠ none ∧ o.fd ≠ none ∧ o.nonblock = true ∧ o.event ≠ none ∧ o.ctl = 0) ∧
      (ret ≠ 0 → serv = none ∧ s.Same t ∧
        ∀ k, t.eio.iodFds.hsetGet fuel k = s.eio.iodFds.hsetGet fuel k) := by
  have hs := served_run hfuel hC hrun
  obtain ⟨⟨ret, serv, t⟩, h, hiff⟩ : ∃ r : ℤ × Option ℕ × ServNet,
      s.edpnetServCreate fuel cbs data o = some r ∧ (r.1 = 0 ↔ o.serv ≠ none ∧ o.fd ≠ none ∧
        o.nonblock = true ∧ o.event ≠ none ∧ o.ctl = 0) := by
    obtain ⟨serv, fd, nonblock, event, ctl⟩ := o
    obtain ⟨-, hfd, hevent, hclear⟩ := hf
    rcases serv with _ | a
    · exact ⟨_, rfl, by simp⟩
    rcases fd with _ | fd
    · exact ⟨_, rfl, by simp⟩
    rcases nonblock with _ | _
    · exact ⟨_, rfl, by simp⟩
    obtain ⟨e, r, hadd, hiff⟩ := hs.addfd hfuel hfd (of_decide_eq_true hclear) servWorkerCbAddr a
      ctl hevent
    simp only [edpnetServCreate, Bool.not_true, Bool.false_eq_true, if_false, hadd, Option.map_some]
    refine ⟨_, rfl, ?_⟩
    by_cases hr : r = 0
    · rw [if_neg (not_not_intro hr)]
      simpa using hiff.1 hr
    · rw [if_pos hr]
      simpa [hr] using hiff
  refine ⟨ret, serv, t, h, hiff, fun hret => ?_⟩
  obtain ⟨ho, ⟨-, hserv, hsame⟩ | ⟨hzero, -⟩⟩ := create_cases hs hfuel hf h
  · exact ⟨hserv, hsame, hs.found hsame ho hfuel⟩
  · exact absurd hzero hret

/-- `epoll_ctl` fails for the second server. -/
theorem create_iff_ctl : ∃ s t : ServNet, s.Same t := by
  have hrun := Eq.refl (StepSystem.run (ServNet.step 2) (init ⟨id, id⟩ fun _ => 0)
    [.create 7 0 ⟨some 1, some 3, true, some 11, 0⟩])
  obtain ⟨ret, serv, t, -, hiff, hsame⟩ := create_iff (Nat.le_refl 2) (by decide) hrun
    7 0 (o := ⟨some 2, some 5, true, some 12, -28⟩) (by decide)
  exact ⟨_, t, (hsame fun h => absurd (hiff.1 h).2.2.2.2 (by decide)).2.1⟩

/-- What `edpnet_serv_listen(a, ..)`, called any number of times, leaves. -/
structure Listened (s t : ServNet) (a : ℕ) : Prop where
  isOpen : t.isOpen = s.isOpen
  eio : t.eio = s.eio
  live : ∀ b, t.servs.isLive b = s.servs.isLive b
  others : ∀ b ≠ a, t.servs.get? b = s.servs.get? b
  get : ∀ k, s.servs.get? a = some k → ∃ k', t.servs.get? a = some k' ∧ k'.esSock = k.esSock

theorem listened_run (hs : s.Served) {ls : List (AddrType × ℤ × ℤ)}
    (h : StepSystem.run (ServNet.step fuel) s (ls.map fun l => .listen a l.1 l.2.1 l.2.2) =
      some t) :
    t.Served ∧ Listened s t a := by
  induction ls generalizing s with
  | nil =>
    obtain rfl := Option.some.inj h
    exact ⟨hs, rfl, rfl, fun _ => rfl, fun _ _ => rfl, fun k hk => ⟨k, hk, rfl⟩⟩
  | cons l ls ih =>
    obtain ⟨u, hu, h⟩ := StepSystem.run_cons.1 h
    obtain ⟨⟨ret, u⟩, hlisten, rfl⟩ := Option.map_eq_some_iff.1 hu
    obtain ⟨ht, hopen, heio, hlive, hothers, hget⟩ := ih (hs.listen hlisten) h
    rcases listen_cases hlisten with rfl | rfl
    · exact ⟨ht, hopen, heio, hlive, hothers, hget⟩
    · refine ⟨ht, hopen, heio, fun b => ?_, fun b hb => ?_, fun k hk => ?_⟩
      · simpa using hlive b
      · rw [hothers b hb]
        simp only [BlockHeap.get?_modify_of_ne s.servs _ hb]
      · exact hget { k with esStatus := k.esStatus ||| 2 } (by simp [hk])

/-- A registration that is added and removed. -/
theorem removed_same {e e' e'' : Eio} {F : Finset Int32} (hr : e.Registry F) {fd : Int32}
    {ioe i : ℕ} {ev v : IoEvent} (hadd : Added e e' fd ioe ev) (hdel : Deleted e' e'' fd i v) :
    e.SameRecords e'' ∧ e''.epoll = e.epoll := by
  have hin : e'.iodFds fd.toUInt32 = some ioe := by simp [hadd.fds]
  have hget : e'.iodEvcache.mem.get? ioe = some ev := by simp [hadd.cache]
  obtain rfl : ioe = i := Option.some.inj (hin.symm.trans hdel.present)
  obtain rfl : ev = v := Option.some.inj (hget.symm.trans hdel.get)
  refine ⟨⟨?_, fun b => ?_, ?_⟩, ?_⟩
  · rw [hdel.fds, hadd.fds, Function.update_idem, ← hadd.absent, Function.update_eq_self]
  · rw [hdel.cache, hadd.cache]
    by_cases hb : b = ioe
    · subst hb
      simp [hadd.free]
    · refine ⟨?_, fun _ => ?_⟩
      · rw [MemCache.isLive_mcacheFree_of_ne _ hb, MemCache.isLive_mcacheAlloc_of_ne _ hb]
      · rw [MemCache.get?_mcacheFree, MemCache.get?_mcacheAlloc_of_ne _ hb]
  · rw [hdel.count, hadd.count, Function.update_idem, Function.update_self, add_sub_cancel_right,
      Function.update_eq_self]
  · funext i fd'
    rw [hdel.epoll, hadd.epoll]
    by_cases h : i = ev.ioeWorker ∧ fd' = fd
    · rw [if_pos h, h.2, eq_comm, Option.eq_none_iff_forall_ne_some]
      intro ioe' hi
      exact absurd (hadd.absent.symm.trans (hr.epoll i fd ioe' hi).1) (by simp)
    · rw [if_neg h, if_neg h]

/-- **A server that has been destroyed leaves nothing behind**, however often it was listening in
between, and its destruction is carried out. -/
theorem create_listen_destroy (hfuel : 2 ≤ fuel) {as : List Act}
    (hC : StepSystem.Meets (ServNet.step fuel) Proper (init l hash) as)
    (hrun : StepSystem.run (ServNet.step fuel) (init l hash) as = some s) {cbs data : ℕ}
    {o : ServOracle} (hf : s.Fresh o)
    (h : s.edpnetServCreate fuel cbs data o = some (0, some a, t))
    {ls : List (AddrType × ℤ × ℤ)} {u : ServNet}
    (hls : StepSystem.run (ServNet.step fuel) t (ls.map fun l => .listen a l.1 l.2.1 l.2.2) =
      some u) :
    ∃ v, u.edpnetServDestroy fuel a 0 = some v ∧ s.Same v ∧
      ∀ k, v.eio.iodFds.hsetGet fuel k = s.eio.iodFds.hsetGet fuel k := by
  have hs := served_run hfuel hC hrun
  obtain ⟨F, hr⟩ := hs.registry.registry
  obtain ⟨ho, ⟨hret, -⟩ | ⟨-, a', fd, ioe, ev, ha', hopened⟩⟩ := create_cases hs hfuel hf h
  · exact absurd rfl hret
  obtain rfl := Option.some.inj ha'
  have ht := hs.opened_served hopened rfl ho
  obtain ⟨hu, hopen, heio, hlive, hothers, hget⟩ := listened_run ht hls
  have ha := (hlive a).trans hopened.live
  obtain ⟨v, hd⟩ := hu.destroys hfuel ha
  obtain ⟨ho', k, i, w, hk, hdel, -, hclosed, hdead, hrest⟩ := destroy_cases hu hfuel ha hd
  -- the fd is still the one of `create`
  obtain ⟨k', hk', hfd⟩ := hget _ hopened.get
  obtain rfl : k = k' := Option.some.inj (hk.symm.trans hk')
  rw [heio, hfd] at hdel
  obtain ⟨hrec, hepoll⟩ := removed_same hr hopened.added hdel
  have hsame : s.Same v := by
    refine ⟨fun b => ?_, fun b hb => ?_, ?_, hrec, hepoll⟩
    · by_cases hb : b = a
      · rw [hb, hdead, hopened.fresh]
      · rw [(hrest b hb).1, hlive, (hopened.others b hb).1]
    · have hba : b ≠ a := by
        rintro rfl
        exact absurd (hopened.fresh.symm.trans hb) (by decide)
      rw [(hrest b hba).2, hothers b hba, (hopened.others b hba).2]
    · rw [hclosed, hopen, hopened.isOpen, hfd, Function.update_idem]
      have hfree : s.isOpen fd = false := hopened.closed
      rw [← hfree, Function.update_eq_self]
  exact ⟨v, hd, hsame, hs.found hsame ho' hfuel⟩

/-- A second server that listens at its second try. -/
theorem create_listen_destroy_two : ∃ s t : ServNet, s.Same t := by
  have hrun := Eq.refl (StepSystem.run (ServNet.step 2) (init ⟨id, id⟩ fun _ => 0)
    [.create 7 0 ⟨some 1, some 3, true, some 11, 0⟩])
  have hls (t : ServNet) := Eq.refl (StepSystem.run (ServNet.step 2) t
    ([(.ipv4, -98, 0), (.ipv4, 0, 0)].map fun l => .listen 2 l.1 l.2.1 l.2.2))
  have hcreate (s : ServNet) := Eq.refl
    (s.edpnetServCreate 2 7 0 ⟨some 2, some 5, true, some 12, 0⟩)
  obtain ⟨v, -, hsame, -⟩ := create_listen_destroy (Nat.le_refl 2) (by decide) hrun
    (by decide) (hcreate _) (hls _)
  exact ⟨_, v, hsame⟩

end Calls

end ServNet
end EdpIo
