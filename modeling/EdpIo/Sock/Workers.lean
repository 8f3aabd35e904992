/-
# A sock on `n` workers

The events of one sock from the masks that `epoll` delivers to the runs of its four
handlers: `sock_worker_cb` splits a mask into events and `edpnet_sock_dispatch` puts
each on the worker that `__edp_dispatch` picks (`Delivery`), a worker that takes one
goes through `emit_event_handler`, and there runs the handler of its type
(`SockFrame`).  The thread of `eio` delivers one mask after the other; calls of
`edpnet_sock_write` come from any thread and dispatch `EPOLLOUT` events of their own.

The sock is set up and not destroyed while this goes on; setting it up and destroying
it have their own model.  Of the reads only their clearing of `READ` is kept.  Events of
other parties and other emitters come and change at any time (`post`, `touch`).
-/

import EdpIo.Emitter.Load
import EdpIo.Net.Library
import EdpIo.Sock.Read

namespace EdpIo

/-- A run of `edpnet_sock_epollerr_handler`: before `sock_error(s, s->es_data)`, or in
it. -/
inductive ErrFrame
  | enter
  | inCb
deriving DecidableEq, Repr

/-- A run of `edpnet_sock_epollhup_handler`: before the section that clears `CONNECT`,
before `sock_close(s, s->es_data)`, or in it. -/
inductive HupFrame
  | enter
  | closing
  | inCb
deriving DecidableEq, Repr

/-- A run of one of the sock's handlers. -/
inductive SockFrame
  | epollout (f : HandlerFrame)
  | epollin (f : InFrame)
  | epollerr (f : ErrFrame)
  | epollhup (f : HupFrame)
deriving DecidableEq, Repr

namespace SockFrame

/-- The run that a call of the handler begins. -/
def ofHandler? : Handler → Option SockFrame
  | .default => none
  | .fn addr =>
    if addr = edpnetSockEpolloutHandler then some (.epollout .enter)
    else if addr = edpnetSockEpollinHandler then some (.epollin .enter)
    else if addr = edpnetSockEpollerrHandler then some (.epollerr .enter)
    else if addr = edpnetSockEpollhupHandler then some (.epollhup .enter)
    else none

/-- One step of a handler: the sock, its `READ` bit and what is left of the run; `none`
when an assertion fails. -/
def step (s : SockIo) (read : Bool) (k : KernelWrite) :
    SockFrame → Option (SockIo × Bool × Option SockFrame)
  | .epollout f => (f.step s k).map fun r => (r.1, read, r.2.1.map .epollout)
  | .epollin f => (f.step s.connect read).map fun r => (s, r.1, r.2.map .epollin)
  | .epollerr .enter => some (s, read, some (.epollerr .inCb))
  | .epollerr .inCb => some (s, read, none)
  | .epollhup .enter => some ({ s with connect := false }, read, some (.epollhup .closing))
  | .epollhup .closing => some (s, read, some (.epollhup .inCb))
  | .epollhup .inCb => some (s, read, none)

/-- The steps of the handlers, with those of `EPOLLOUT` and `EPOLLIN` as their own steps say. -/
inductive Step (s : SockIo) (read : Bool) (k : KernelWrite) :
    SockFrame → SockIo → Bool → Option SockFrame → Prop
  | epollout (f : HandlerFrame) (s' : SockIo) (f' : Option HandlerFrame) (l : SockLabel)
      (h : HandlerFrame.Step s k f s' f' l) :
      Step s read k (.epollout f) s' read (f'.map .epollout)
  | epollin (f : InFrame) (read' : Bool) (f' : Option InFrame)
      (h : InFrame.Step s.connect read f read' f') :
      Step s read k (.epollin f) s read' (f'.map .epollin)
  | error : Step s read k (.epollerr .enter) s read (some (.epollerr .inCb))
  | errorBack : Step s read k (.epollerr .inCb) s read none
  | hup : Step s read k (.epollhup .enter) { s with connect := false } read
      (some (.epollhup .closing))
  | close : Step s read k (.epollhup .closing) s read (some (.epollhup .inCb))
  | closeBack : Step s read k (.epollhup .inCb) s read none

theorem step_cases {s s' : SockIo} {read read' : Bool} {k : KernelWrite} {f : SockFrame}
    {f' : Option SockFrame} (h : f.step s read k = some (s', read', f')) :
    f.Step s read k s' read' f' := by
  cases f with
  | epollout f =>
    obtain ⟨⟨s₁, f₁, l⟩, hf, he⟩ := Option.map_eq_some_iff.1 h
    obtain ⟨rfl, hrest⟩ := Prod.mk.inj he
    obtain ⟨rfl, rfl⟩ := Prod.mk.inj hrest
    exact .epollout f _ _ l (HandlerFrame.step_cases hf)
  | epollin f =>
    obtain ⟨⟨r, f₁⟩, hf, he⟩ := Option.map_eq_some_iff.1 h
    obtain ⟨rfl, hrest⟩ := Prod.mk.inj he
    obtain ⟨rfl, rfl⟩ := Prod.mk.inj hrest
    exact .epollin f _ _ (InFrame.step_cases hf)
  | epollerr f =>
    cases f with
    | enter =>
      obtain ⟨rfl, rfl, rfl⟩ := by simpa [step] using h
      exact .error
    | inCb =>
      obtain ⟨rfl, rfl, rfl⟩ := by simpa [step] using h
      exact .errorBack
  | epollhup f =>
    cases f with
    | enter =>
      obtain ⟨rfl, rfl, rfl⟩ := by simpa [step] using h
      exact .hup
    | closing =>
      obtain ⟨rfl, rfl, rfl⟩ := by simpa [step] using h
      exact .close
    | inCb =>
      obtain ⟨rfl, rfl, rfl⟩ := by simpa [step] using h
      exact .closeBack

/-- The type of the event, while the run has still to do what it does to `CONNECT` or
relies on of it. -/
def effect : SockFrame → Option ℤ
  | .epollout .enter | .epollout .connecting => some 0
  | .epollin .enter => some 1
  | .epollerr .enter => some 2
  | .epollhup .enter => some 3
  | _ => none

/-- How a step of a run changes `CONNECT`, and what it has still to do after it. -/
inductive Moves : Bool → Option ℤ → Bool → Option ℤ → Prop
  | keep (c : Bool) (o : Option ℤ) : Moves c o c o
  /-- An `EPOLLOUT` handler sets `CONNECT`. -/
  | set (c : Bool) : Moves c (some 0) true none
  /-- A handler goes on; an `EPOLLOUT` handler does so with `CONNECT` set. -/
  | pass (c : Bool) (type : ℤ) (h0 : type = 0 → c = true) (h3 : type ≠ 3) :
      Moves c (some type) c none
  /-- The `EPOLLHUP` handler clears `CONNECT`. -/
  | clear (c : Bool) : Moves c (some 3) false none

theorem step_moves {s s' : SockIo} {read read' : Bool} {k : KernelWrite} {f : SockFrame}
    {f' : Option SockFrame} (h : f.step s read k = some (s', read', f')) :
    Moves s.connect f.effect s'.connect (f'.bind effect) := by
  cases step_cases h with
  | epollout f s' f' l hf =>
    cases hf with
    | connect => exact .set _
    | ask hc => exact .pass _ 0 (fun _ => hc) (by decide)
    | _ => exact .keep _ _
  | epollin f read' f' hf =>
    cases hf with
    | connected => exact .pass _ 1 (fun h => absurd h (by decide)) (by decide)
    | _ => exact .keep _ _
  | error => exact .pass _ 2 (fun h => absurd h (by decide)) (by decide)
  | hup => exact .clear _
  | errorBack | close | closeBack => exact .keep _ _

end SockFrame

/-- `sock_worker_cb`, or the end of `edpnet_sock_write`, with the types that are still to
be dispatched: between two dispatches, or in `emit_dispatch`. -/
inductive Delivery (n : ℕ)
  | deliver (types : List ℤ)
  | dispatch (types : List ℤ) (c : EmitCall n)
deriving DecidableEq, Repr

namespace Delivery

variable {n : ℕ}

/-- One step, for the sock with the emitter `em`. -/
def step (em : ℕ) (s : Emitters n) (o : Oracle n) :
    Delivery n → Option (Emitters n × Option (Delivery n))
  | .deliver [] => some (s, none)
  | .deliver (type :: types) =>
    match o.event with
    -- `edpnet_alloc_event` failed
    | none => some (s, some (.deliver types))
    | some addr =>
      some (s, some (.dispatch types ⟨em, sockEvent addr type, edpnetSockDone, 0, .checking⟩))
  | .dispatch types c =>
    (c.step s o.worker).map fun r =>
      (r.1, some (match r.2 with
        | .next c => .dispatch types c
        | .ret _ => .deliver types))

/-- The delivery as a call of the library. -/
def toCall (a : ℕ) : Delivery n → Call n
  | .deliver types => .deliver a types
  | .dispatch types c => .dispatch a types c

/-- A delivery does what the call does in the library that holds the sock. -/
theorem toCall_step {s : Library n} {a : ℕ} {k : NetSock} (hk : s.socks.get? a = some k)
    (hem : k.esEmit ≠ 0) (o : Oracle n) (d : Delivery n) :
    (d.toCall a).step s o =
      (d.step k.esEmit s.emit o).map fun r => ({ s with emit := r.1 }, r.2.map (toCall a)) := by
  match d with
  | .deliver [] => rfl
  | .deliver (type :: types) =>
    rw [toCall, Call.step, step]
    cases o.event with
    | none => rfl
    | some addr => simp [hk, hem, toCall]
  | .dispatch types c =>
    rw [toCall, Call.step, step, Option.map_map]
    refine congrArg (fun f => Option.map f (c.step s.emit o.worker)) (funext fun r => ?_)
    obtain ⟨e, r⟩ := r
    cases r <;> rfl

/-- The types that have still to be put on a worker's queue. -/
def todo : Delivery n → List ℤ
  | .deliver types => types
  | .dispatch types c =>
    match c.pc with
    | .checking | .counting | .queueing => c.ev.evType :: types
    | .signalling _ => types

end Delivery

/-- The workers and emitters; the sock with the emitter `em`, its fields and the runs of
its handlers, by worker; the delivery in progress on the thread of `eio`, the calls of
`edpnet_sock_write` and their deliveries; the masks delivered and the types whose handlers
were called, newest first. -/
structure SockWorkers (n : ℕ) where
  emit : Emitters n
  em : ℕ
  sock : SockIo
  read : Bool
  frames : Fin n → Option SockFrame
  eio : Option (Delivery n)
  writers : List WriteFrame
  ios : ℕ
  calls : List (Delivery n)
  masks : List ℕ
  hist : List ℤ

namespace SockWorkers

variable {n : ℕ}

/-- The sock at `a` with the emitter at `em`, before the first mask. -/
def init (a em : ℕ) : SockWorkers n :=
  { emit := { Emitters.init with emits := BlockHeap.empty.alloc em (sockEmit a) }
    em := em
    sock := ⟨false, false, none, 0, []⟩
    read := false
    frames := fun _ => none
    eio := none
    writers := []
    ios := 0
    calls := []
    masks := []
    hist := [] }

/-- The steps. -/
inductive Act (n : ℕ)
  /-- `eio` calls `sock_worker_cb` with a mask. -/
  | mask (events : ℕ)
  /-- A step of that call. -/
  | eio (o : Oracle n)
  /-- A call of `edpnet_sock_write`. -/
  | submit
  /-- A step of such a call, up to its dispatch. -/
  | writer (f : WriteFrame) (k : KernelWrite)
  /-- A step of the dispatch at its end. -/
  | call (d : Delivery n) (o : Oracle n)
  /-- The section of `edpnet_sock_read` that clears `READ`. -/
  | clearRead
  /-- A worker's own step. -/
  | work (i : Fin n)
  /-- A worker's step in `emit_event_handler`; `ret` is what a handler of another emitter
  returns. -/
  | handle (i : Fin n) (ret : ℤ)
  /-- A worker's step in a handler of the sock. -/
  | frame (i : Fin n) (k : KernelWrite)
  /-- The locked section of `__edp_dispatch` for an event of another party. -/
  | post (i : Fin n) (ev : EdpEvent)
  /-- Its signal. -/
  | wake (i : Fin n)
  /-- Another emitter is created or changed. -/
  | touch (em : ℕ) (e : Emit)

/-- The event whose handler, one of the sock's, `emit_event_handler` calls next on worker
`i`, and the run that this begins. -/
def begins? (s : SockWorkers n) (i : Fin n) : Option (ℤ × SockFrame) :=
  match s.emit.phases i with
  | .entered ev =>
    if ev.evEmit = s.em then
      (s.emit.emits.get? s.em).bind fun e =>
        if e.Installed ev.evType then
          (SockFrame.ofHandler? (e.eeHandler ev.evType)).map fun f => (ev.evType, f)
        else none
    else none
  | _ => none

/-- What the handler on worker `i` returns: the sock's return `0`. -/
def returns (s : SockWorkers n) (i : Fin n) (ret : ℤ) : ℤ :=
  match s.emit.phases i with
  | .inside ev => if ev.evEmit = s.em then 0 else ret
  | _ => ret

/-- One step. -/
def step (s : SockWorkers n) : Act n → Option (SockWorkers n)
  | .mask events =>
    if s.eio.isNone then
      some { s with eio := some (.deliver (sockWorkerCb events)), masks := events :: s.masks }
    else none
  | .eio o =>
    s.eio.bind fun d =>
      (d.step s.em s.emit o).map fun r => { s with emit := r.1, eio := r.2 }
  | .submit => some { s with writers := .enter s.ios :: s.writers, ios := s.ios + 1 }
  | .writer f k =>
    if f ∈ s.writers then
      let (sock, f', l) := f.step s.sock k
      some { s with sock := sock, writers := f'.toList ++ s.writers.erase f
                    calls := (if l = .dispatch then [.deliver [0]] else []) ++ s.calls }
    else none
  | .call d o =>
    if d ∈ s.calls then
      (d.step s.em s.emit o).map fun r =>
        { s with emit := r.1, calls := r.2.toList ++ s.calls.erase d }
    else none
  | .clearRead => some { s with read := false }
  | .work i => (s.emit.work i).map fun e => { s with emit := e }
  | .handle i ret =>
    -- a run of the sock's handler has to return first
    if (s.frames i).isSome then none
    else
      (s.emit.handle i (s.returns i ret)).map fun e =>
        { s with emit := e
                 frames := Function.update s.frames i ((s.begins? i).map Prod.snd)
                 hist := ((s.begins? i).map Prod.fst).toList ++ s.hist }
  | .frame i k =>
    (s.frames i).bind fun f =>
      (f.step s.sock s.read k).map fun r =>
        { s with sock := r.1, read := r.2.1, frames := Function.update s.frames i r.2.2 }
  | .post i ev =>
    match ev.class? with
    | some p => if ev.ForEmit s.em then none else some { s with emit := s.emit.enqueue i p ev }
    | none => none
  | .wake i => some { s with emit := s.emit.signal i }
  | .touch em e =>
    if em = s.em then none else some { s with emit.emits := s.emit.emits.alloc em e }

/-- The steps, with those of the parts as their own steps say. -/
inductive Step (s : SockWorkers n) : Act n → SockWorkers n → Prop
  | mask (events : ℕ) (h : s.eio = none) :
      Step s (.mask events)
        { s with eio := some (.deliver (sockWorkerCb events)), masks := events :: s.masks }
  | eio (o : Oracle n) (d : Delivery n) (hd : s.eio = some d) (e : Emitters n)
      (d' : Option (Delivery n)) (h : d.step s.em s.emit o = some (e, d')) :
      Step s (.eio o) { s with emit := e, eio := d' }
  | submit : Step s .submit { s with writers := .enter s.ios :: s.writers, ios := s.ios + 1 }
  | writer (f : WriteFrame) (k : KernelWrite) (hf : f ∈ s.writers) (sock : SockIo)
      (f' : Option WriteFrame) (l : SockLabel) (h : WriteFrame.Step s.sock k f sock f' l) :
      Step s (.writer f k)
        { s with sock := sock, writers := f'.toList ++ s.writers.erase f
                 calls := (if l = .dispatch then [.deliver [0]] else []) ++ s.calls }
  | call (d : Delivery n) (o : Oracle n) (hd : d ∈ s.calls) (e : Emitters n)
      (d' : Option (Delivery n)) (h : d.step s.em s.emit o = some (e, d')) :
      Step s (.call d o) { s with emit := e, calls := d'.toList ++ s.calls.erase d }
  | clearRead : Step s .clearRead { s with read := false }
  | work (i : Fin n) (e : Emitters n) (h : s.emit.work i = some e) :
      Step s (.work i) { s with emit := e }
  | handle (i : Fin n) (ret : ℤ) (hi : s.frames i = none) (e : Emitters n)
      (h : s.emit.handle i (s.returns i ret) = some e) :
      Step s (.handle i ret)
        { s with emit := e
                 frames := Function.update s.frames i ((s.begins? i).map Prod.snd)
                 hist := ((s.begins? i).map Prod.fst).toList ++ s.hist }
  | frame (i : Fin n) (k : KernelWrite) (f : SockFrame) (hf : s.frames i = some f) (sock : SockIo)
      (read : Bool) (f' : Option SockFrame) (h : f.step s.sock s.read k = some (sock, read, f')) :
      Step s (.frame i k)
        { s with sock := sock, read := read, frames := Function.update s.frames i f' }
  | post (i : Fin n) (ev : EdpEvent) (p : Priority) (hp : ev.class? = some p)
      (hev : ¬ ev.ForEmit s.em) : Step s (.post i ev) { s with emit := s.emit.enqueue i p ev }
  | wake (i : Fin n) : Step s (.wake i) { s with emit := s.emit.signal i }
  | touch (em : ℕ) (e : Emit) (h : em ≠ s.em) :
      Step s (.touch em e) { s with emit.emits := s.emit.emits.alloc em e }

theorem step_cases {s t : SockWorkers n} {a : Act n} (h : step s a = some t) : s.Step a t := by
  cases a with
  | mask events =>
    rw [step] at h
    split at h
    · obtain rfl := Option.some.inj h
      exact .mask events (Option.isNone_iff_eq_none.1 ‹_›)
    · cases h
  | eio o =>
    obtain ⟨d, hd, h⟩ := Option.bind_eq_some_iff.1 h
    obtain ⟨⟨e, d'⟩, hstep, rfl⟩ := Option.map_eq_some_iff.1 h
    exact .eio o d hd e d' hstep
  | submit =>
    obtain rfl := Option.some.inj h
    exact .submit
  | writer f k =>
    rw [step] at h
    split at h
    · obtain rfl := Option.some.inj h
      exact .writer f k ‹_› _ _ _ (WriteFrame.step_cases s.sock k f)
    · cases h
  | call d o =>
    rw [step] at h
    split at h
    · obtain ⟨⟨e, d'⟩, hstep, rfl⟩ := Option.map_eq_some_iff.1 h
      exact .call d o ‹_› e d' hstep
    · cases h
  | clearRead =>
    obtain rfl := Option.some.inj h
    exact .clearRead
  | work i =>
    obtain ⟨e, he, rfl⟩ := Option.map_eq_some_iff.1 h
    exact .work i e he
  | handle i ret =>
    rw [step] at h
    split at h
    · cases h
    · obtain ⟨e, he, rfl⟩ := Option.map_eq_some_iff.1 h
      exact .handle i ret (by simpa using ‹¬ (s.frames i).isSome = true›) e he
  | frame i k =>
    obtain ⟨f, hf, h⟩ := Option.bind_eq_some_iff.1 h
    obtain ⟨⟨sock, read, f'⟩, hstep, rfl⟩ := Option.map_eq_some_iff.1 h
    exact .frame i k f hf sock read f' hstep
  | post i ev =>
    rw [step] at h
    split at h
    · split at h
      · cases h
      · obtain rfl := Option.some.inj h
        exact .post i ev _ ‹_› ‹_›
    · cases h
  | wake i =>
    obtain rfl := Option.some.inj h
    exact .wake i
  | touch em e =>
    rw [step] at h
    split at h
    · cases h
    · obtain rfl := Option.some.inj h
      exact .touch em e ‹_›

end SockWorkers
end EdpIo
