/-
# The events of `edpnet` and their cache

`edpnet_alloc_event`, `edpnet_free_event`, `edpnet_sock_dispatch` and `edpnet_sock_done` of
`posix/edpnet.c`, with `n` workers, any number of socks, each known by its emitter, and
`edp_fini`.  The types that `sock_worker_cb` finds in a mask, or the one that
`edpnet_sock_write` dispatches at its end, are dispatched one after the other; a call is at a
`DispatchPc`, and each test of `ed_init`, each use of the cache and each step of
`emit_dispatch` is a step of its own.  A worker that completes an event of a sock stands in
`edpnet_free_event` twice: before its assertion and, with `passed` set, before `mcache_free`.

The events travel by value: from `mcache_alloc` on an event is in one place, whose owner alone
writes to it.  Other parties post events of their own and create and change emitters at any
time, so `emit_dispatch` may fail for any reason it has.  The memory that the C library hands
out may be memory it has got back.

`edp_fini` runs on a thread of its own, one store or call after the other.  `eio_fini` only
cancels its threads, so deliveries may go on after it.
-/

import EdpIo.Base.Mcache
import EdpIo.Emitter.Flight
import EdpIo.Lib.Pool
import EdpIo.Lib.Run
import EdpIo.Sock.Workers
import EdpIo.Worker.Fini

namespace EdpIo

/-- The event was dispatched by `edpnet_sock_dispatch`: nobody else has the address of
`edpnet_sock_done`. -/
def EdpEvent.ofSock (ev : EdpEvent) : Bool :=
  ev.evHandler = emitEventHandler && ev.evCb = edpnetSockDone

/-- The event of a call of `emit_dispatch`, until it is queued. -/
def EmitCall.unqueued {n : ℕ} (c : EmitCall n) : Option ℕ :=
  match c.pc with
  | .signalling _ => none
  | _ => some c.ev.addr

/-- Where a call of `edpnet_sock_dispatch` is. -/
inductive DispatchPc (n : ℕ)
  /-- In `edpnet_alloc_event`, before the test of `ed_init`. -/
  | testing
  /-- Before `mcache_alloc`. -/
  | allocating
  /-- In `emit_dispatch`. -/
  | emitting (c : EmitCall n)
  /-- It failed; in `edpnet_free_event`, before its assertion. -/
  | asserting (ev : ℕ)
  /-- Before `mcache_free`. -/
  | freeing (ev : ℕ)
deriving DecidableEq, Repr

/-- `edpnet_sock_dispatch(sock, type)` for a sock with the emitter `em`, and the types that
its caller has still to dispatch after it. -/
structure SockDispatch (n : ℕ) where
  em : ℕ
  type : ℤ
  rest : List ℤ
  pc : DispatchPc n
deriving DecidableEq, Repr

/-- Where `edp_fini` is. -/
inductive EdpFiniPc
  /-- In `edpnet_fini`, before `eio_fini`. -/
  | eioFini
  /-- Before `ed->ed_init = 0`. -/
  | uniniting
  /-- Before `mcache_destroy(ed->ed_evcache)`. -/
  | destroying
  /-- Before `emit_fini`. -/
  | emitFini
  /-- In `worker_fini`, before `wd_threads[i].wk_status = kWORKER_STATUS_STOP`. -/
  | stopping (i : ℕ)
  | returned
deriving DecidableEq, Repr

/-- What is recorded of the cache. -/
inductive CacheObs
  | alloc (a : ℕ)
  | free (a : ℕ)
deriving DecidableEq, Repr

/-- The workers and emitters; `ed_init`, `ed_evcache` and whether it has been destroyed; the
calls of `edpnet_sock_dispatch` in progress, the workers that are past the assertion of
`edpnet_free_event`, `edp_fini` once it is called, and the history, newest first. -/
structure EvcacheSys (n : ℕ) where
  emit : Emitters n
  edInit : Bool
  edEvcache : MemCache Unit
  destroyed : Bool
  calls : List (SockDispatch n)
  passed : Fin n → Bool
  fini : Option EdpFiniPc
  hist : List CacheObs

namespace SockDispatch

variable {n : ℕ}

/-- The call for the first of the types. -/
def begin? (em : ℕ) : List ℤ → Option (SockDispatch n)
  | [] => none
  | type :: rest => some ⟨em, type, rest, .testing⟩

/-- What its caller does when it returns. -/
def return? (c : SockDispatch n) : Option (SockDispatch n) := begin? c.em c.rest

/-- The event that the call has allocated and neither queued nor freed. -/
def held (c : SockDispatch n) : Option ℕ :=
  match c.pc with
  | .testing | .allocating => none
  | .emitting e => e.unqueued
  | .asserting a | .freeing a => some a

end SockDispatch

namespace EvcacheSys

variable {n : ℕ}

/-- The library after `edp_init`. -/
def init : EvcacheSys n where
  emit := .init
  edInit := true
  edEvcache := .create
  destroyed := false
  calls := []
  passed := fun _ => false
  fini := none
  hist := []

/-- `mcache_alloc(ed->ed_evcache)` returns the event at `a`. -/
def allocEvent (s : EvcacheSys n) (a : ℕ) : EvcacheSys n :=
  { s with edEvcache := s.edEvcache.mcacheAlloc a (), hist := .alloc a :: s.hist }

/-- `mcache_free(ed->ed_evcache, a)`. -/
def freeEvent (s : EvcacheSys n) (a : ℕ) : EvcacheSys n :=
  { s with edEvcache := s.edEvcache.mcacheFree a, hist := .free a :: s.hist }

/-- One step of `edpnet_sock_dispatch`, with what is left of it and of its caller; `none`
where the assertion of `edpnet_free_event` fails. -/
def dispatchStep (s : EvcacheSys n) (o : Oracle n) (c : SockDispatch n) :
    Option (EvcacheSys n × Option (SockDispatch n)) :=
  match c.pc with
  | .testing => some (s, if s.edInit then some { c with pc := .allocating } else c.return?)
  | .allocating =>
    match o.event with
    | none => some (s, c.return?)
    | some a =>
      if s.edEvcache.isLive a then none
      else some (s.allocEvent a,
        some { c with pc := .emitting ⟨c.em, sockEvent a c.type, edpnetSockDone, 0, .checking⟩ })
  | .emitting e =>
    (e.step s.emit o.worker).map fun r =>
      ({ s with emit := r.1 },
        match r.2 with
        | .next e' => some { c with pc := .emitting e' }
        | .ret code => if code ≠ 0 then some { c with pc := .asserting e.ev.addr } else c.return?)
  | .asserting a => if s.edInit then some (s, some { c with pc := .freeing a }) else none
  | .freeing a => some (s.freeEvent a, c.return?)

/-- The event of a sock that worker `i` is about to free. -/
def frees? (s : EvcacheSys n) (i : Fin n) : Option ℕ :=
  match s.emit.phases i with
  | .completing ev _ => if ev.ofSock then some ev.addr else none
  | _ => none

/-- One step of `edp_fini`. -/
def finiStep (s : EvcacheSys n) : EdpFiniPc → Option (EvcacheSys n)
  | .eioFini => some { s with fini := some .uniniting }
  | .uniniting => some { s with edInit := false, fini := some .destroying }
  | .destroying =>
    -- what `mcache_destroy` returns is not looked at
    some { s with destroyed := s.edEvcache.mcacheDestroy = 0, fini := some .emitFini }
  | .emitFini => some { s with fini := some (.stopping n) }
  | .stopping i =>
    some { s with emit.workers := FiniSys.stop s.emit.workers i
                  fini := some (match i with
                    | 0 => .returned
                    | i + 1 => .stopping i) }
  | .returned => none

/-- The steps. -/
inductive Act (n : ℕ)
  /-- `sock_worker_cb` is called with a mask for a sock with the emitter `em`. -/
  | deliver (em events : ℕ)
  /-- A call of `edpnet_sock_write` on such a sock comes to its dispatch. -/
  | write (em : ℕ)
  /-- A step of a call of `edpnet_sock_dispatch`. -/
  | call (c : SockDispatch n) (o : Oracle n)
  /-- A worker's own step. -/
  | work (i : Fin n)
  /-- A worker that completes the event of a sock passes the assertion. -/
  | assert (i : Fin n)
  /-- A worker's step in `emit_event_handler`, with what the handler returns. -/
  | handle (i : Fin n) (ret : ℤ)
  /-- The locked section of `__edp_dispatch` for an event of another party. -/
  | post (i : Fin n) (ev : EdpEvent)
  /-- Its signal. -/
  | wake (i : Fin n)
  /-- An emitter is created or changed. -/
  | touch (em : ℕ) (e : Emit)
  /-- `edp_fini` is called. -/
  | shutdown
  /-- A step of it. -/
  | fini

/-- One step. -/
def step (s : EvcacheSys n) : Act n → Option (EvcacheSys n)
  | .deliver em events =>
    some { s with calls := (SockDispatch.begin? em (sockWorkerCb events)).toList ++ s.calls }
  | .write em => some { s with calls := (SockDispatch.begin? em [0]).toList ++ s.calls }
  | .call c o =>
    if c ∈ s.calls then
      (s.dispatchStep o c).map fun r => { r.1 with calls := r.2.toList ++ r.1.calls.erase c }
    else none
  | .work i => (s.emit.work i).map fun e => { s with emit := e }
  | .assert i =>
    if (s.frees? i).isSome && s.edInit then
      some { s with passed := Function.update s.passed i true }
    else none
  | .handle i ret =>
    match s.frees? i with
    | none => (s.emit.handle i ret).map fun e => { s with emit := e }
    | some a =>
      -- `mcache_free`, and the returns from there to `worker_routine`
      if s.passed i then
        (s.emit.handle i ret).map fun e =>
          { s.freeEvent a with emit := e, passed := Function.update s.passed i false }
      else none
  | .post i ev =>
    match ev.class? with
    | some p => if ev.ofSock then none else some { s with emit := s.emit.enqueue i p ev }
    | none => none
  | .wake i => some { s with emit := s.emit.signal i }
  | .touch em e => some { s with emit.emits := s.emit.emits.alloc em e }
  | .shutdown => if s.fini = none then some { s with fini := some .eioFini } else none
  | .fini => s.fini.bind s.finiStep

/-- The steps of `edpnet_sock_dispatch`, one constructor for each way on. -/
inductive DispatchStep (s : EvcacheSys n) (c : SockDispatch n) :
    EvcacheSys n → Option (SockDispatch n) → Prop
  | test (hpc : c.pc = .testing) (hi : s.edInit = true) :
      DispatchStep s c s (some { c with pc := .allocating })
  | uninit (hpc : c.pc = .testing) (hi : s.edInit = false) : DispatchStep s c s c.return?
  | noMem (hpc : c.pc = .allocating) : DispatchStep s c s c.return?
  | alloc (hpc : c.pc = .allocating) (a : ℕ) (ha : s.edEvcache.isLive a = false) :
      DispatchStep s c (s.allocEvent a)
        (some { c with pc := .emitting ⟨c.em, sockEvent a c.type, edpnetSockDone, 0, .checking⟩ })
  | emit (e : EmitCall n) (hpc : c.pc = .emitting e) (t : Emitters n) (e' : EmitCall n)
      (h : e.Step s.emit t (.next e')) :
      DispatchStep s c { s with emit := t } (some { c with pc := .emitting e' })
  | fail (e : EmitCall n) (hpc : c.pc = .emitting e) (t : Emitters n) (code : ℤ)
      (h : e.Step s.emit t (.ret code)) (hcode : code ≠ 0) :
      DispatchStep s c { s with emit := t } (some { c with pc := .asserting e.ev.addr })
  | done (e : EmitCall n) (hpc : c.pc = .emitting e) (t : Emitters n) (code : ℤ)
      (h : e.Step s.emit t (.ret code)) (hcode : code = 0) :
      DispatchStep s c { s with emit := t } c.return?
  | assert (a : ℕ) (hpc : c.pc = .asserting a) (hi : s.edInit = true) :
      DispatchStep s c s (some { c with pc := .freeing a })
  | free (a : ℕ) (hpc : c.pc = .freeing a) : DispatchStep s c (s.freeEvent a) c.return?

theorem dispatchStep_cases {s t : EvcacheSys n} {o : Oracle n} {c : SockDispatch n}
    {c' : Option (SockDispatch n)} (h : s.dispatchStep o c = some (t, c')) :
    s.DispatchStep c t c' := by
  unfold dispatchStep at h
  split at h
  · obtain ⟨rfl, rfl⟩ := Prod.mk.inj (Option.some.inj h)
    cases hi : s.edInit
    · exact .uninit ‹_› hi
    · exact .test ‹_› hi
  · split at h
    · obtain ⟨rfl, rfl⟩ := Prod.mk.inj (Option.some.inj h)
      exact .noMem ‹_›
    · split at h
      · cases h
      · obtain ⟨rfl, rfl⟩ := Prod.mk.inj (Option.some.inj h)
        exact .alloc ‹_› _ (Bool.eq_false_iff.2 ‹_›)
  · obtain ⟨⟨e, r⟩, hstep, h⟩ := Option.map_eq_some_iff.1 h
    obtain ⟨rfl, rfl⟩ := Prod.mk.inj h
    have hstep := EmitCall.step_cases hstep
    cases r with
    | next e' => exact .emit _ ‹_› e e' hstep
    | ret code =>
      by_cases hcode : code = 0
      · simpa [hcode] using DispatchStep.done _ ‹_› e code hstep hcode
      · simpa [hcode] using DispatchStep.fail _ ‹_› e code hstep hcode
  · split at h
    · obtain ⟨rfl, rfl⟩ := Prod.mk.inj (Option.some.inj h)
      exact .assert _ ‹_› ‹_›
    · cases h
  · obtain ⟨rfl, rfl⟩ := Prod.mk.inj (Option.some.inj h)
    exact .free _ ‹_›

/-- The steps of `edp_fini`, one constructor for each. -/
inductive FiniStep (s : EvcacheSys n) : EdpFiniPc → EvcacheSys n → Prop
  | eio : FiniStep s .eioFini { s with fini := some .uniniting }
  | uninit : FiniStep s .uniniting { s with edInit := false, fini := some .destroying }
  | destroy :
      FiniStep s .destroying
        { s with destroyed := s.edEvcache.mcacheDestroy = 0, fini := some .emitFini }
  | emit : FiniStep s .emitFini { s with fini := some (.stopping n) }
  | stop (i : ℕ) (pc : EdpFiniPc) (hpc : pc ≠ .destroying) :
      FiniStep s (.stopping i)
        { s with emit.workers := FiniSys.stop s.emit.workers i, fini := some pc }

theorem finiStep_cases {s t : EvcacheSys n} {pc : EdpFiniPc} (h : s.finiStep pc = some t) :
    s.FiniStep pc t := by
  cases pc with
  | eioFini =>
    obtain rfl := Option.some.inj h
    exact .eio
  | uniniting =>
    obtain rfl := Option.some.inj h
    exact .uninit
  | destroying =>
    obtain rfl := Option.some.inj h
    exact .destroy
  | emitFini =>
    obtain rfl := Option.some.inj h
    exact .emit
  | stopping i =>
    obtain rfl := Option.some.inj h
    exact .stop i _ (by cases i <;> exact fun h => by cases h)
  | returned => cases h

/-- The steps, with those of the parts as their own steps say. -/
inductive Step (s : EvcacheSys n) : Act n → EvcacheSys n → Prop
  | deliver (em events : ℕ) :
      Step s (.deliver em events)
        { s with calls := (SockDispatch.begin? em (sockWorkerCb events)).toList ++ s.calls }
  | write (em : ℕ) :
      Step s (.write em) { s with calls := (SockDispatch.begin? em [0]).toList ++ s.calls }
  | call (c : SockDispatch n) (o : Oracle n) (hc : c ∈ s.calls) (t : EvcacheSys n)
      (c' : Option (SockDispatch n)) (h : s.DispatchStep c t c') :
      Step s (.call c o) { t with calls := c'.toList ++ t.calls.erase c }
  | work (i : Fin n) (e : Emitters n) (h : s.emit.work i = some e) :
      Step s (.work i) { s with emit := e }
  | assert (i : Fin n) (a : ℕ) (hf : s.frees? i = some a) (hi : s.edInit = true) :
      Step s (.assert i) { s with passed := Function.update s.passed i true }
  | handle (i : Fin n) (ret : ℤ) (hf : s.frees? i = none) (e : Emitters n)
      (h : s.emit.handle i ret = some e) : Step s (.handle i ret) { s with emit := e }
  | free (i : Fin n) (ret : ℤ) (a : ℕ) (hf : s.frees? i = some a) (hp : s.passed i = true)
      (e : Emitters n) (h : s.emit.handle i ret = some e) :
      Step s (.handle i ret)
        { s.freeEvent a with emit := e, passed := Function.update s.passed i false }
  | post (i : Fin n) (ev : EdpEvent) (p : Priority) (hp : ev.class? = some p)
      (hev : ev.ofSock = false) : Step s (.post i ev) { s with emit := s.emit.enqueue i p ev }
  | wake (i : Fin n) : Step s (.wake i) { s with emit := s.emit.signal i }
  | touch (em : ℕ) (e : Emit) :
      Step s (.touch em e) { s with emit.emits := s.emit.emits.alloc em e }
  | shutdown (h : s.fini = none) : Step s .shutdown { s with fini := some .eioFini }
  | fini (pc : EdpFiniPc) (hpc : s.fini = some pc) (t : EvcacheSys n) (h : s.FiniStep pc t) :
      Step s .fini t

theorem step_cases {s t : EvcacheSys n} {a : Act n} (h : step s a = some t) : s.Step a t := by
  cases a with
  | deliver em events =>
    obtain rfl := Option.some.inj h
    exact .deliver em events
  | write em =>
    obtain rfl := Option.some.inj h
    exact .write em
  | call c o =>
    rw [step] at h
    split at h
    · obtain ⟨⟨u, c'⟩, hu, rfl⟩ := Option.map_eq_some_iff.1 h
      exact .call c o ‹_› u c' (dispatchStep_cases hu)
    · cases h
  | work i =>
    obtain ⟨e, he, rfl⟩ := Option.map_eq_some_iff.1 h
    exact .work i e he
  | assert i =>
    rw [step] at h
    split at h
    · obtain rfl := Option.some.inj h
      obtain ⟨hf, hi⟩ := Bool.and_eq_true_iff.1 ‹_›
      obtain ⟨a, hf⟩ := Option.isSome_iff_exists.1 hf
      exact .assert i a hf hi
    · cases h
  | handle i ret =>
    rw [step] at h
    split at h
    · obtain ⟨e, he, rfl⟩ := Option.map_eq_some_iff.1 h
      exact .handle i ret ‹_› e he
    · split at h
      · obtain ⟨e, he, rfl⟩ := Option.map_eq_some_iff.1 h
        exact .free i ret _ ‹_› ‹_› e he
      · cases h
  | post i ev =>
    rw [step] at h
    split at h
    · split at h
      · cases h
      · obtain rfl := Option.some.inj h
        exact .post i ev _ ‹_› (Bool.eq_false_iff.2 ‹_›)
    · cases h
  | wake i =>
    obtain rfl := Option.some.inj h
    exact .wake i
  | touch em e =>
    obtain rfl := Option.some.inj h
    exact .touch em e
  | shutdown =>
    rw [step] at h
    split at h
    · obtain rfl := Option.some.inj h
      exact .shutdown ‹_›
    · cases h
  | fini =>
    obtain ⟨pc, hpc, h⟩ := Option.bind_eq_some_iff.1 h
    exact .fini pc hpc t (finiStep_cases h)

end EvcacheSys

/-! ### The deliveries of a sock's own model -/

/-- What is left of the caller of `edpnet_sock_dispatch`, without the use of the cache. -/
def SockDispatch.toDelivery {n : ℕ} : Option (SockDispatch n) → Delivery n
  | none => .deliver []
  | some c =>
    match c.pc with
    | .testing | .allocating => .deliver (c.type :: c.rest)
    | .emitting e => .dispatch c.rest e
    | .asserting _ | .freeing _ => .deliver c.rest

@[simp] theorem SockDispatch.toDelivery_return {n : ℕ} (c : SockDispatch n) :
    toDelivery c.return? = .deliver c.rest := by
  cases hr : c.rest <;> simp [return?, begin?, hr, toDelivery]

/-- A step of `edpnet_sock_dispatch` does to the emitters what a delivery does, or nothing. -/
theorem EvcacheSys.dispatchStep_toDelivery {n : ℕ} {s t : EvcacheSys n} {o : Oracle n}
    {c : SockDispatch n} {c' : Option (SockDispatch n)}
    (h : s.dispatchStep o c = some (t, c')) :
    (t.emit = s.emit ∧ SockDispatch.toDelivery c' = SockDispatch.toDelivery (some c)) ∨
      ∃ o', (SockDispatch.toDelivery (some c)).step c.em s.emit o' =
        some (t.emit, some (SockDispatch.toDelivery c')) := by
  obtain ⟨em, type, rest, pc⟩ := c
  cases pc with
  | emitting e =>
    obtain ⟨⟨u, r⟩, hstep, h⟩ := Option.map_eq_some_iff.1 h
    obtain ⟨rfl, rfl⟩ := Prod.mk.inj h
    refine .inr ⟨o, (congrArg (Option.map _) hstep).trans ?_⟩
    cases r with
    | next e' => rfl
    | ret code =>
      by_cases hcode : code = 0
      · subst hcode
        exact congrArg (fun d => some (u, some d)) (SockDispatch.toDelivery_return _).symm
      · simp only [ne_eq, hcode, not_false_eq_true, if_true]
        rfl
  | testing =>
    obtain ⟨rfl, rfl⟩ := Prod.mk.inj (Option.some.inj h)
    cases s.edInit
    · refine .inr ⟨⟨true, none, none⟩, ?_⟩
      rw [if_neg Bool.false_ne_true, SockDispatch.toDelivery_return]
      rfl
    · exact .inl ⟨rfl, rfl⟩
  | allocating =>
    obtain ⟨ok, event, worker⟩ := o
    cases event with
    | none =>
      obtain ⟨rfl, rfl⟩ := Prod.mk.inj (Option.some.inj h)
      refine .inr ⟨⟨ok, none, worker⟩, ?_⟩
      rw [SockDispatch.toDelivery_return]
      rfl
    | some a =>
      obtain ⟨-, h⟩ := Option.ite_none_left_eq_some.1 h
      obtain ⟨rfl, rfl⟩ := Prod.mk.inj (Option.some.inj h)
      exact .inr ⟨⟨ok, some a, worker⟩, rfl⟩
  | asserting a =>
    obtain ⟨-, h⟩ := Option.ite_none_right_eq_some.1 h
    obtain ⟨rfl, rfl⟩ := Prod.mk.inj (Option.some.inj h)
    exact .inl ⟨rfl, rfl⟩
  | freeing a =>
    obtain ⟨rfl, rfl⟩ := Prod.mk.inj (Option.some.inj h)
    exact .inl ⟨rfl, SockDispatch.toDelivery_return _⟩

end EdpIo
