/-
# The library running

Any number of calls in progress on any number of socks, deliveries of epoll events,
and `n` workers, in any interleaving.  `edpnet_sock_create`, `serv_worker_cb`,
`edpnet_serv_create` and `edpnet_serv_destroy` are one step each where they succeed
(a created sock goes on into `edpnet_sock_set`); the kernel hands out only fds that
are not open, and the allocator only addresses that are new.  Callers pass only
socks that they have not begun to destroy, `eio` delivers only to an fd that
`epoll_ctl` has added, but even once it is closed, as `epoll_wait` may have returned the
event before.  Events that other parties dispatch, with other handlers than
the emitters', come at any time (`post`).
-/

import EdpIo.Lib.Run
import EdpIo.Net.Model

namespace EdpIo

/-- The steps of a call, one constructor for each way on; `k` is the sock of the call
before the step. -/
inductive Call.Step {n : ℕ} (s : Library n) : Call n → Library n → Option (Call n) → Prop
  | watched (a cbs data : ℕ) (k : NetSock) (hk : s.socks.get? a = some k) (hm : k.monitor = true) :
      Step s (.set a (.testing cbs data))
        { s with socks := s.socks.modify a (NetSock.store cbs data) } none
  | unwatched (a cbs data : ℕ) (k : NetSock) (hk : s.socks.get? a = some k)
      (hm : k.monitor = false) :
      Step s (.set a (.testing cbs data))
        { s with socks := s.socks.modify a (NetSock.store cbs data) } (some (.set a .adding))
  | add (a : ℕ) (k : NetSock) (hk : s.socks.get? a = some k) (hf : s.fds k.esSock = none) :
      Step s (.set a .adding)
        { s with fds := Function.update s.fds k.esSock (some ⟨.sockWorkerCb, a, false⟩) }
        (some (.set a .polling))
  | refuse (a : ℕ) : Step s (.set a .adding) s (some (.set a .closing))
  | poll (a : ℕ) (k : NetSock) (hk : s.socks.get? a = some k) :
      Step s (.set a .polling)
        { s with fds := Function.update s.fds k.esSock
                    ((s.fds k.esSock).map fun e => { e with watched := true }) }
        (some (.set a .marking))
  | unpoll (a : ℕ) (k : NetSock) (hk : s.socks.get? a = some k) :
      Step s (.set a .polling) { s with fds := Function.update s.fds k.esSock none }
        (some (.set a .closing))
  | mark (a : ℕ) : Step s (.set a .marking) { s with socks := s.socks.modify a NetSock.mark } none
  | close (a : ℕ) (isOpen : ℕ → Bool) : Step s (.set a .closing) { s with isOpen := isOpen } none
  | zero (a : ℕ) :
      Step s (.destroy a .zeroing) { s with socks := s.socks.modify a NetSock.zero }
        (some (.destroy a .fini))
  | unwatch (a : ℕ) (k : NetSock) (hk : s.socks.get? a = some k) (hm : k.monitor = true) :
      Step s (.destroy a .fini)
        { s with socks := s.socks.modify a NetSock.unmark
                 fds := Function.update s.fds k.esSock none }
        (some (.destroy a .closing))
  | fini (a : ℕ) (k : NetSock) (hk : s.socks.get? a = some k) (hm : k.monitor = false) :
      Step s (.destroy a .fini) s (some (.destroy a .closing))
  | closeFd (a : ℕ) (isOpen : ℕ → Bool) :
      Step s (.destroy a .closing) { s with isOpen := isOpen } (some (.destroy a .emitting))
  | busy (a : ℕ) (k : NetSock) (hk : s.socks.get? a = some k) (hem : k.esEmit ≠ 0) (e : Emit)
      (he : s.emit.emits.get? k.esEmit = some e) (hp : e.eePendings ≠ 0) :
      Step s (.destroy a .emitting) s (some (.destroy a .freeing))
  | idle (a : ℕ) (k : NetSock) (hk : s.socks.get? a = some k) (hem : k.esEmit ≠ 0) (e : Emit)
      (he : s.emit.emits.get? k.esEmit = some e) (hp : e.eePendings = 0) :
      Step s (.destroy a .emitting) s (some (.destroy a .uniniting))
  | uninit (a : ℕ) (k : NetSock) (hk : s.socks.get? a = some k) :
      Step s (.destroy a .uniniting)
        { s with emit.emits := s.emit.emits.modify k.esEmit Emit.uninit }
        (some (.destroy a .freeingEmit))
  | freeEmit (a : ℕ) (k : NetSock) (hk : s.socks.get? a = some k) :
      Step s (.destroy a .freeingEmit) { s with emit.emits := s.emit.emits.free k.esEmit }
        (some (.destroy a .freeing))
  | free (a : ℕ) : Step s (.destroy a .freeing) { s with socks := s.socks.free a } none
  | delivered (a : ℕ) : Step s (.deliver a []) s none
  | nomem (a : ℕ) (type : ℤ) (types : List ℤ) :
      Step s (.deliver a (type :: types)) s (some (.deliver a types))
  | begin (a : ℕ) (type : ℤ) (types : List ℤ) (addr : ℕ) (k : NetSock)
      (hk : s.socks.get? a = some k) (hem : k.esEmit ≠ 0) :
      Step s (.deliver a (type :: types)) s
        (some (.dispatch a types ⟨k.esEmit, sockEvent addr type, edpnetSockDone, 0, .checking⟩))
  | goOn (a : ℕ) (types : List ℤ) (c c' : EmitCall n) (e : Emitters n)
      (hc : c.Step s.emit e (.next c')) :
      Step s (.dispatch a types c) { s with emit := e } (some (.dispatch a types c'))
  | ended (a : ℕ) (types : List ℤ) (c : EmitCall n) (e : Emitters n) (code : ℤ)
      (hc : c.Step s.emit e (.ret code)) :
      Step s (.dispatch a types c) { s with emit := e } (some (.deliver a types))

theorem Call.step_cases {n : ℕ} {s t : Library n} {o : Oracle n} {c : Call n}
    {c' : Option (Call n)} (h : c.step s o = some (t, c')) : c.Step s t c' := by
  match c with
  | .set a (.testing cbs data) =>
    obtain ⟨k, hk, h⟩ := Option.map_eq_some_iff.1 h
    obtain ⟨rfl, rfl⟩ := Prod.mk.inj h
    cases hm : k.monitor
    · exact .unwatched a cbs data k hk hm
    · exact .watched a cbs data k hk hm
  | .set a .adding =>
    obtain ⟨k, hk, h⟩ := Option.map_eq_some_iff.1 h
    split at h
    · rename_i hf
      obtain ⟨rfl, rfl⟩ := Prod.mk.inj h
      rw [Bool.and_eq_true, Option.isNone_iff_eq_none] at hf
      exact .add a k hk hf.2
    · obtain ⟨rfl, rfl⟩ := Prod.mk.inj h
      exact .refuse a
  | .set a .polling =>
    obtain ⟨k, hk, h⟩ := Option.map_eq_some_iff.1 h
    split at h
    · obtain ⟨rfl, rfl⟩ := Prod.mk.inj h
      exact .poll a k hk
    · obtain ⟨rfl, rfl⟩ := Prod.mk.inj h
      exact .unpoll a k hk
  | .set a .marking =>
    obtain ⟨rfl, rfl⟩ := Prod.mk.inj (Option.some.inj h)
    exact .mark a
  | .set a .closing =>
    obtain ⟨k, -, h⟩ := Option.map_eq_some_iff.1 h
    obtain ⟨rfl, rfl⟩ := Prod.mk.inj h
    exact .close a _
  | .destroy a .zeroing =>
    obtain ⟨rfl, rfl⟩ := Prod.mk.inj (Option.some.inj h)
    exact .zero a
  | .destroy a .fini =>
    obtain ⟨k, hk, h⟩ := Option.bind_eq_some_iff.1 h
    split at h
    · cases h
    · split at h
      · obtain ⟨rfl, rfl⟩ := Prod.mk.inj (Option.some.inj h)
        exact .unwatch a k hk ‹_›
      · obtain ⟨rfl, rfl⟩ := Prod.mk.inj (Option.some.inj h)
        exact .fini a k hk (by simpa using ‹¬ k.monitor = true›)
  | .destroy a .closing =>
    obtain ⟨k, -, h⟩ := Option.map_eq_some_iff.1 h
    obtain ⟨rfl, rfl⟩ := Prod.mk.inj h
    exact .closeFd a _
  | .destroy a .emitting =>
    obtain ⟨k, hk, h⟩ := Option.bind_eq_some_iff.1 h
    split at h
    · cases h
    · obtain ⟨e, he, h⟩ := Option.map_eq_some_iff.1 h
      obtain ⟨rfl, rfl⟩ := Prod.mk.inj h
      by_cases hp : e.eePendings = 0
      · simpa [hp] using Step.idle a k hk ‹_› e he hp
      · simpa [hp] using Step.busy a k hk ‹_› e he hp
  | .destroy a .uniniting =>
    obtain ⟨k, hk, h⟩ := Option.map_eq_some_iff.1 h
    obtain ⟨rfl, rfl⟩ := Prod.mk.inj h
    exact .uninit a k hk
  | .destroy a .freeingEmit =>
    obtain ⟨k, hk, h⟩ := Option.map_eq_some_iff.1 h
    obtain ⟨rfl, rfl⟩ := Prod.mk.inj h
    exact .freeEmit a k hk
  | .destroy a .freeing =>
    obtain ⟨rfl, rfl⟩ := Prod.mk.inj (Option.some.inj h)
    exact .free a
  | .deliver a [] =>
    obtain ⟨rfl, rfl⟩ := Prod.mk.inj (Option.some.inj h)
    exact .delivered a
  | .deliver a (type :: types) =>
    rw [Call.step] at h
    split at h
    · obtain ⟨rfl, rfl⟩ := Prod.mk.inj (Option.some.inj h)
      exact .nomem a type types
    · obtain ⟨k, hk, h⟩ := Option.bind_eq_some_iff.1 h
      split at h
      · cases h
      · obtain ⟨rfl, rfl⟩ := Prod.mk.inj (Option.some.inj h)
        exact .begin a type types _ k hk ‹_›
  | .dispatch a types c =>
    obtain ⟨⟨e, r⟩, hc, h⟩ := Option.map_eq_some_iff.1 h
    obtain ⟨rfl, rfl⟩ := Prod.mk.inj h
    cases r with
    | next c' => exact .goOn a types c c' e (EmitCall.step_cases hc)
    | ret code => exact .ended a types c e code (EmitCall.step_cases hc)

namespace Library

variable {n : ℕ}

/-- Nothing created yet. -/
def init : Library n where
  emit := .init
  socks := .empty
  fds := fun _ => none
  isOpen := fun _ => false
  calls := []

/-- The steps. -/
inductive Act (n : ℕ)
  /-- `edpnet_sock_create`, as far as its call of `edpnet_sock_set`: the sock at `a` with
  the emitter at `em`, on the fd that `socket` returns. -/
  | create (a em fd cbs data : ℕ)
  /-- `serv_worker_cb` accepts a connection: the sock at `a`. -/
  | accept (a fd : ℕ)
  /-- `edpnet_serv_create`, for the server at `v`. -/
  | servCreate (v fd : ℕ)
  /-- `edpnet_serv_destroy`, for the server on `fd`. -/
  | servDestroy (fd : ℕ)
  /-- A call of `edpnet_sock_set`. -/
  | set (a cbs data : ℕ)
  /-- A call of `edpnet_sock_destroy`. -/
  | destroy (a : ℕ)
  /-- The end of a call of `edpnet_sock_write`. -/
  | write (a : ℕ)
  /-- A delivery of epoll events to the sock registered for the fd. -/
  | deliver (fd events : ℕ)
  /-- A step of a call in progress. -/
  | call (c : Call n) (o : Oracle n)
  /-- A worker's own step. -/
  | work (i : Fin n)
  /-- A worker's step in `emit_event_handler`. -/
  | handle (i : Fin n) (ret : ℤ)
  /-- The locked section of `__edp_dispatch` for an event of another party. -/
  | post (i : Fin n) (ev : EdpEvent)
  /-- Its signal. -/
  | wake (i : Fin n)
deriving DecidableEq, Repr

/-- One step. -/
def step (s : Library n) : Act n → Option (Library n)
  | .create a em fd cbs data =>
    if (s.socks a).isNone && (s.emit.emits em).isNone && em ≠ 0 && !s.isOpen fd then
      some { emit := { s.emit with emits := s.emit.emits.alloc em (sockEmit a) }
             socks := s.socks.alloc a ⟨true, false, fd, 0, 0, em⟩
             fds := s.fds
             isOpen := Function.update s.isOpen fd true
             calls := .set a (.testing cbs data) :: s.calls }
    else none
  | .accept a fd =>
    if (s.socks a).isNone && !s.isOpen fd then
      some { s with socks := s.socks.alloc a ⟨true, false, fd, 0, 0, 0⟩
                    isOpen := Function.update s.isOpen fd true }
    else none
  | .servCreate v fd =>
    if !s.isOpen fd && (s.fds fd).isNone then
      some { s with fds := Function.update s.fds fd (some ⟨.servWorkerCb, v, true⟩)
                    isOpen := Function.update s.isOpen fd true }
    else none
  | .servDestroy fd =>
    if (s.fds fd).any fun e => e.ioeCb = .servWorkerCb then
      some { s with fds := Function.update s.fds fd none
                    isOpen := Function.update s.isOpen fd false }
    else none
  | .set a cbs data =>
    if s.usable a then some { s with calls := .set a (.testing cbs data) :: s.calls } else none
  | .destroy a =>
    if s.usable a then some { s with calls := .destroy a .zeroing :: s.calls } else none
  | .write a => if s.usable a then some { s with calls := .deliver a [0] :: s.calls } else none
  | .deliver fd events =>
    match s.fds fd with
    | some ⟨.sockWorkerCb, a, true⟩ =>
      some { s with calls := .deliver a (sockWorkerCb events) :: s.calls }
    | _ => none
  | .call c o =>
    if c ∈ s.calls then
      (c.step s o).map fun r => { r.1 with calls := r.2.toList ++ s.calls.erase c }
    else none
  | .work i => (s.emit.work i).map fun e => { s with emit := e }
  | .handle i ret => (s.emit.handle i ret).map fun e => { s with emit := e }
  | .post i ev =>
    match ev.class? with
    | some p =>
      if ev.evHandler ≠ emitEventHandler then some { s with emit := s.emit.enqueue i p ev }
      else none
    | none => none
  | .wake i => some { s with emit := s.emit.signal i }

/-- The steps, with those of the calls as their own steps say. -/
inductive Step (s : Library n) : Act n → Library n → Prop
  | create (a em fd cbs data : ℕ) (ha : s.socks a = none) (hem : s.emit.emits em = none)
      (h0 : em ≠ 0) (hfd : s.isOpen fd = false) :
      Step s (.create a em fd cbs data)
        { emit := { s.emit with emits := s.emit.emits.alloc em (sockEmit a) }
          socks := s.socks.alloc a ⟨true, false, fd, 0, 0, em⟩
          fds := s.fds
          isOpen := Function.update s.isOpen fd true
          calls := .set a (.testing cbs data) :: s.calls }
  | accept (a fd : ℕ) (ha : s.socks a = none) (hfd : s.isOpen fd = false) :
      Step s (.accept a fd)
        { s with socks := s.socks.alloc a ⟨true, false, fd, 0, 0, 0⟩
                 isOpen := Function.update s.isOpen fd true }
  | servCreate (v fd : ℕ) (hfd : s.isOpen fd = false) (hf : s.fds fd = none) :
      Step s (.servCreate v fd)
        { s with fds := Function.update s.fds fd (some ⟨.servWorkerCb, v, true⟩)
                 isOpen := Function.update s.isOpen fd true }
  | servDestroy (fd : ℕ) (e : EioEvent) (he : s.fds fd = some e) (hcb : e.ioeCb = .servWorkerCb) :
      Step s (.servDestroy fd)
        { s with fds := Function.update s.fds fd none
                 isOpen := Function.update s.isOpen fd false }
  | set (a cbs data : ℕ) (ha : s.usable a = true) :
      Step s (.set a cbs data) { s with calls := .set a (.testing cbs data) :: s.calls }
  | destroy (a : ℕ) (ha : s.usable a = true) :
      Step s (.destroy a) { s with calls := .destroy a .zeroing :: s.calls }
  | write (a : ℕ) (ha : s.usable a = true) :
      Step s (.write a) { s with calls := .deliver a [0] :: s.calls }
  | deliver (fd events a : ℕ) (hf : s.fds fd = some ⟨.sockWorkerCb, a, true⟩) :
      Step s (.deliver fd events) { s with calls := .deliver a (sockWorkerCb events) :: s.calls }
  | call (c : Call n) (o : Oracle n) (hc : c ∈ s.calls) (t : Library n) (c' : Option (Call n))
      (h : c.Step s t c') :
      Step s (.call c o) { t with calls := c'.toList ++ s.calls.erase c }
  | work (i : Fin n) (e : Emitters n) (h : s.emit.work i = some e) :
      Step s (.work i) { s with emit := e }
  | handle (i : Fin n) (ret : ℤ) (e : Emitters n) (h : s.emit.handle i ret = some e) :
      Step s (.handle i ret) { s with emit := e }
  | post (i : Fin n) (ev : EdpEvent) (p : Priority) (hp : ev.class? = some p)
      (hh : ev.evHandler ≠ emitEventHandler) :
      Step s (.post i ev) { s with emit := s.emit.enqueue i p ev }
  | wake (i : Fin n) : Step s (.wake i) { s with emit := s.emit.signal i }

theorem step_cases {s t : Library n} {a : Act n} (h : step s a = some t) : s.Step a t := by
  cases a with
  | create a em fd cbs data =>
    rw [step] at h
    split at h
    · rename_i hg
      obtain rfl := Option.some.inj h
      have hg : ((s.socks a = none ∧ s.emit.emits em = none) ∧ em ≠ 0) ∧ s.isOpen fd = false := by
        simpa using hg
      exact .create a em fd cbs data hg.1.1.1 hg.1.1.2 hg.1.2 hg.2
    · cases h
  | accept a fd =>
    rw [step] at h
    split at h
    · rename_i hg
      obtain rfl := Option.some.inj h
      have hg : s.socks a = none ∧ s.isOpen fd = false := by simpa using hg
      exact .accept a fd hg.1 hg.2
    · cases h
  | servCreate v fd =>
    rw [step] at h
    split at h
    · rename_i hg
      obtain rfl := Option.some.inj h
      have hg : s.isOpen fd = false ∧ s.fds fd = none := by simpa using hg
      exact .servCreate v fd hg.1 hg.2
    · cases h
  | servDestroy fd =>
    rw [step] at h
    split at h
    · rename_i hg
      obtain rfl := Option.some.inj h
      obtain ⟨e, he, hcb⟩ := by simpa [Option.any_eq_true] using hg
      exact .servDestroy fd e he hcb
    · cases h
  | set a cbs data =>
    rw [step] at h
    split at h
    · obtain rfl := Option.some.inj h
      exact .set a cbs data ‹_›
    · cases h
  | destroy a =>
    rw [step] at h
    split at h
    · obtain rfl := Option.some.inj h
      exact .destroy a ‹_›
    · cases h
  | write a =>
    rw [step] at h
    split at h
    · obtain rfl := Option.some.inj h
      exact .write a ‹_›
    · cases h
  | deliver fd events =>
    rw [step] at h
    split at h
    · obtain rfl := Option.some.inj h
      exact .deliver fd events _ ‹_›
    · cases h
  | call c o =>
    rw [step] at h
    split at h
    · obtain ⟨⟨t, c'⟩, hc, rfl⟩ := Option.map_eq_some_iff.1 h
      exact .call c o ‹_› t c' (Call.step_cases hc)
    · cases h
  | work i =>
    obtain ⟨e, he, rfl⟩ := Option.map_eq_some_iff.1 h
    exact .work i e he
  | handle i ret =>
    obtain ⟨e, he, rfl⟩ := Option.map_eq_some_iff.1 h
    exact .handle i ret e he
  | post i ev =>
    rw [step] at h
    split at h
    · split at h
      · obtain rfl := Option.some.inj h
        exact .post i ev _ ‹_› ‹_›
      · cases h
    · cases h
  | wake i =>
    obtain rfl := Option.some.inj h
    exact .wake i

end Library
end EdpIo
