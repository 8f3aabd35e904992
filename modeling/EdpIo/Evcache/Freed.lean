/-
# Who frees an event

An event that `edpnet_sock_dispatch` has allocated is in one place until it is freed: in the
hands of that call, in a queue or list of a worker, or with a worker that handles it.
`places q` counts the places of the events whose address passes the test `q`.  A step either
leaves them as they are, or allocates an event into one, or frees the event of one
(`effect`), so the counts of the cache differ by the number of events in flight, and each
address is allocated and freed in turns (`freed_once`).
-/

import EdpIo.Evcache.Model
import EdpIo.Lib.Rounds

namespace EdpIo

/-- What the record says of the event at `a`. -/
def CacheObs.kind (a : ℕ) : CacheObs → Rounds.Kind Unit
  | .alloc b => if b = a then .req () else .other
  | .free b => if b = a then .ans () else .other

section

variable {a b : ℕ}

theorem CacheObs.kind_alloc_self : kind a (.alloc a) = .req () := if_pos rfl

theorem CacheObs.kind_free_self : kind a (.free a) = .ans () := if_pos rfl

theorem CacheObs.kind_alloc_of_ne (h : a ≠ b) : kind a (.alloc b) = .other := if_neg h.symm

theorem CacheObs.kind_free_of_ne (h : a ≠ b) : kind a (.free b) = .other := if_neg h.symm

end

namespace EvcacheSys

variable {n : ℕ}

/-- The event is one of a sock and its address passes the test. -/
def test (q : ℕ → Bool) (ev : EdpEvent) : Bool := ev.ofSock && q ev.addr

/-- The places of the events of socks whose address passes the test. -/
def places (s : EvcacheSys n) (q : ℕ → Bool) : ℕ :=
  s.emit.flight (test q) + s.calls.countP fun c => c.held.any q

/-- The events that `edpnet_sock_dispatch` has allocated and that are still queued, being
handled, or held inside it. -/
def inFlight (s : EvcacheSys n) : ℕ := s.places fun _ => true

/-- Socket events are freed exactly once: the counts of the cache differ by the number of
events in flight; an address is allocated and freed in turns; whoever has an event has one
that is not freed; and when none is in flight the cache can be destroyed. -/
structure FreedOnce (s : EvcacheSys n) : Prop where
  count : s.edEvcache.mcAllocs - s.edEvcache.mcFrees = s.inFlight
  turns : ∀ a, Rounds.Matched (CacheObs.kind a) s.hist
  carried : ∀ ev, s.emit.Carries ev → ev.ofSock = true → s.edEvcache.isLive ev.addr = true
  held : ∀ c ∈ s.calls, ∀ a ∈ c.held, s.edEvcache.isLive a = true
  destroy : s.inFlight = 0 → s.edEvcache.mcacheDestroy = 0

/-! ### What a step does to the events -/

/-- What the call of `emit_dispatch` is to queue, or has queued, is an event of a sock. -/
def Ours (e : EmitCall n) : Prop :=
  e.cb = edpnetSockDone ∧ (e.pc ≠ .checking → e.ev.ofSock = true)

/-- So are the events of all calls of `edpnet_sock_dispatch`. -/
def Written (s : EvcacheSys n) : Prop := ∀ c ∈ s.calls, ∀ e, c.pc = .emitting e → Ours e

/-- What a step does to the events: nothing, or it allocates one, or it frees one. -/
inductive Effect (s t : EvcacheSys n) : Prop
  | none (hh : t.hist = s.hist) (hc : t.edEvcache = s.edEvcache)
      (hp : ∀ q, t.places q = s.places q)
  | alloc (a : ℕ) (ha : s.edEvcache.isLive a = false) (hh : t.hist = .alloc a :: s.hist)
      (hc : t.edEvcache = s.edEvcache.mcacheAlloc a ())
      (hp : ∀ q, t.places q = s.places q + (q a).toNat)
  | free (a : ℕ) (hh : t.hist = .free a :: s.hist) (hc : t.edEvcache = s.edEvcache.mcacheFree a)
      (hp : ∀ q, t.places q + (q a).toNat = s.places q)

theorem ite_eq_toNat (b : Bool) : (if b = true then 1 else 0) = b.toNat := by cases b <;> rfl

/-- The event that a worker frees next is the one it completes. -/
theorem countP_completes (s : EvcacheSys n) (i : Fin n) (q : ℕ → Bool) :
    (s.emit.phases i).completes?.toList.countP (test q) =
      ((s.frees? i).any q).toNat := by
  rw [frees?]
  cases s.emit.phases i with
  | completing ev errcode =>
    cases ho : ev.ofSock <;> cases hq : q ev.addr <;> simp [Phase.completes?, test, ho, hq]
  | _ => rfl

theorem any_held_return (c : SockDispatch n) (q : ℕ → Bool) :
    (c.return?.any fun c => c.held.any q) = false := by
  rw [SockDispatch.return?]
  cases c.rest <;> rfl

/-- How the places change when a call takes a step. -/
theorem places_call {s t : EvcacheSys n} {c : SockDispatch n} (hc : c ∈ s.calls)
    (c' : Option (SockDispatch n)) (ht : t.calls = s.calls) (q : ℕ → Bool) :
    places { t with calls := c'.toList ++ t.calls.erase c } q + (c.held.any q).toNat +
        s.emit.flight (test q) =
      s.places q + (c'.any fun c => c.held.any q).toNat + t.emit.flight (test q) := by
  have := Pool.countP_swap hc c' fun c => c.held.any q
  rw [ite_eq_toNat, ite_eq_toNat] at this
  simp only [places, ht]
  omega

theorem unqueued_of_pc {e : EmitCall n} (h : ∀ w, e.pc ≠ .signalling w) :
    e.unqueued = some e.ev.addr := by
  rw [EmitCall.unqueued]
  split
  · exact absurd ‹_› (h _)
  · rfl

theorem unqueued_of_signalling {e : EmitCall n} {w : Fin n} (h : e.pc = .signalling w) :
    e.unqueued = none := by
  rw [EmitCall.unqueued, h]

/-- A step of `emit_dispatch` that goes on is one before the event is queued. -/
theorem unqueued_of_next {s t : Emitters n} {e e' : EmitCall n} (h : e.Step s t (.next e')) :
    e.unqueued = some e.ev.addr := by
  cases h with
  | pass hpc | count hpc | queue hpc =>
    exact unqueued_of_pc (by rw [hpc]; exact fun w h => by cases h)

/-- It keeps the event in its hands or queues it. -/
theorem flight_next {s t : Emitters n} {e e' : EmitCall n}
    (hev : e.pc ≠ .checking → e.ev.ofSock = true) (h : e.Step s t (.next e')) (q : ℕ → Bool) :
    t.flight (test q) + (e'.unqueued.any q).toNat =
      s.flight (test q) + (e.unqueued.any q).toNat := by
  rw [unqueued_of_next h]
  cases h with
  | pass hpc em he hz => rfl
  | count hpc => rfl
  | queue hpc p hp w =>
    have hq : test q e.ev = q e.ev.addr := by
      rw [test, hev (by rw [hpc]; exact fun h => by cases h), Bool.true_and]
    rw [Emitters.flight_enqueue, hq, ite_eq_toNat]
    rfl

/-- One that returns an error still has the event in its hands. -/
theorem unqueued_of_error {s t : Emitters n} {e : EmitCall n} {code : ℤ}
    (h : e.Step s t (.ret code)) (hcode : code ≠ 0) :
    t = s ∧ e.unqueued = some e.ev.addr := by
  cases h with
  | refuse hpc em he hne =>
    exact ⟨rfl, unqueued_of_pc (by rw [hpc]; exact fun w h => by cases h)⟩
  | range hpc hclass => exact ⟨rfl, unqueued_of_pc (by rw [hpc]; exact fun w h => by cases h)⟩
  | signal w hpc => exact absurd rfl hcode

/-- One that returns `0` has queued it before. -/
theorem unqueued_of_done {s t : Emitters n} {e : EmitCall n} {code : ℤ}
    (h : e.Step s t (.ret code)) (hcode : code = 0) :
    (∀ q, t.flight q = s.flight q) ∧ e.unqueued = none := by
  cases h with
  | refuse hpc em he hne => exact absurd hcode hne
  | range hpc hclass => exact absurd hcode (by decide)
  | signal w hpc =>
    exact ⟨Emitters.flight_of_held (Worker.held_signal _), unqueued_of_signalling hpc⟩

/-- **A step of `edpnet_sock_dispatch`.** -/
theorem effect_call {s t : EvcacheSys n} {c : SockDispatch n} {c' : Option (SockDispatch n)}
    (hs : s.Written) (hc : c ∈ s.calls) (h : s.DispatchStep c t c') :
    Effect s { t with calls := c'.toList ++ t.calls.erase c } := by
  have ht : t.calls = s.calls := by cases h <;> rfl
  have hplaces := places_call hc c' ht
  -- the event that the call holds, by its place
  have hheld : ∀ pc, c.pc = pc → c.held = SockDispatch.held { c with pc := pc } := by
    rintro pc rfl
    rfl
  cases h with
  | test hpc hi =>
    refine .none rfl rfl fun q => ?_
    have hq := hplaces q
    rw [hheld _ hpc] at hq
    exact Nat.add_right_cancel hq
  | uninit hpc hi | noMem hpc =>
    refine .none rfl rfl fun q => ?_
    have hq := hplaces q
    rw [hheld _ hpc, any_held_return] at hq
    exact Nat.add_right_cancel hq
  | alloc hpc a ha =>
    refine .alloc a ha rfl rfl fun q => ?_
    have hq := hplaces q
    rw [hheld _ hpc] at hq
    exact Nat.add_right_cancel hq
  | emit e hpc u e' hstep =>
    have hnext := flight_next (hs c hc e hpc).2 hstep
    refine .none rfl rfl fun q => ?_
    have hq := hplaces q
    rw [hheld _ hpc] at hq
    have hq : places _ q + (e.unqueued.any q).toNat + _ =
      s.places q + (e'.unqueued.any q).toNat + u.flight (test q) := hq
    have := hnext q
    omega
  | fail e hpc u code hstep hcode =>
    obtain ⟨rfl, he⟩ := unqueued_of_error hstep hcode
    refine .none rfl rfl fun q => ?_
    have hq := hplaces q
    have he : SockDispatch.held { c with pc := .emitting e } = some e.ev.addr := he
    rw [hheld _ hpc, he] at hq
    exact Nat.add_right_cancel (Nat.add_right_cancel hq)
  | done e hpc u code hstep hcode =>
    obtain ⟨hf, he⟩ := unqueued_of_done hstep hcode
    refine .none rfl rfl fun q => ?_
    have hq := hplaces q
    have he : SockDispatch.held { c with pc := .emitting e } = none := he
    rw [hheld _ hpc, he, any_held_return, hf] at hq
    exact Nat.add_right_cancel hq
  | assert a hpc hi =>
    refine .none rfl rfl fun q => ?_
    have hq := hplaces q
    rw [hheld _ hpc] at hq
    exact Nat.add_right_cancel (Nat.add_right_cancel hq)
  | free a hpc =>
    refine .free a rfl rfl fun q => ?_
    have hq := hplaces q
    rw [hheld _ hpc, any_held_return] at hq
    exact Nat.add_right_cancel hq

theorem Ours.next {s t : Emitters n} {e e' : EmitCall n} (he : Ours e)
    (h : e.Step s t (.next e')) : Ours e' := by
  obtain ⟨hcb, hev⟩ := he
  cases h with
  | pass hpc em hem hz =>
    exact ⟨hcb, fun _ => by simp [EdpEvent.ofSock, EmitCall.event, hcb]⟩
  | count hpc | queue hpc =>
    exact ⟨hcb, fun _ => hev (by rw [hpc]; exact fun h => by cases h)⟩

/-- A call begins with the test of `ed_init`. -/
theorem pc_begin {em : ℕ} {types : List ℤ} {c : SockDispatch n}
    (h : SockDispatch.begin? em types = some c) : c.pc = .testing := by
  cases types with
  | nil => cases h
  | cons type rest =>
    obtain rfl := Option.some.inj h
    rfl

theorem mem_begin {em : ℕ} {types : List ℤ} {calls : List (SockDispatch n)} {c : SockDispatch n}
    (h : c ∈ (SockDispatch.begin? em types).toList ++ calls) : c.pc = .testing ∨ c ∈ calls :=
  (List.mem_append.1 h).imp_left fun h => pc_begin (Option.mem_toList.1 h)

theorem Written.begin {s : EvcacheSys n} (hs : s.Written) (em : ℕ) (types : List ℤ) :
    Written { s with calls := (SockDispatch.begin? em types).toList ++ s.calls } := by
  intro c hc e hpc
  rcases mem_begin hc with hc | hc
  · cases hc.symm.trans hpc
  · exact hs c hc e hpc

theorem Written.call {s t : EvcacheSys n} {c : SockDispatch n} {c' : Option (SockDispatch n)}
    (hs : s.Written) (hc : c ∈ s.calls) (h : s.DispatchStep c t c') :
    Written { t with calls := c'.toList ++ t.calls.erase c } := by
  have ht : t.calls = s.calls := by cases h <;> rfl
  intro d hd e hpc
  rcases Pool.mem_swap hd with hnew | hold
  · cases h with
    | test | fail | assert =>
      obtain rfl := Option.some.inj hnew
      cases hpc
    | uninit | noMem | done | free =>
      rw [pc_begin hnew] at hpc
      cases hpc
    | alloc hpc' a ha =>
      obtain rfl := Option.some.inj hnew
      obtain rfl := DispatchPc.emitting.inj hpc
      exact ⟨rfl, fun h => absurd rfl h⟩
    | emit e' hpc' u e'' hstep =>
      obtain rfl := Option.some.inj hnew
      obtain rfl := DispatchPc.emitting.inj hpc
      exact (hs c hc e' hpc').next hstep
  · exact hs d (ht ▸ hold) e hpc

/-- A step keeps the calls, or begins one, or is one of a call. -/
theorem Written.step {s t : EvcacheSys n} {a : Act n} (hs : s.Written)
    (h : EvcacheSys.step s a = some t) : t.Written := by
  cases step_cases h with
  | deliver em events => exact hs.begin em (sockWorkerCb events)
  | write em => exact hs.begin em [0]
  | call c o hc u c' hstep => exact hs.call hc hstep
  | fini pc hpc u hstep => cases hstep <;> exact hs
  | _ => exact hs

/-- **What a step does to the events.** -/
theorem effect {s t : EvcacheSys n} {a : Act n} (hs : s.Written)
    (h : EvcacheSys.step s a = some t) : Effect s t := by
  -- a step that changes the emitters alone
  have hemit : ∀ e : Emitters n, (∀ q, e.flight (test q) = s.emit.flight (test q)) →
      Effect s { s with emit := e } := fun e he =>
    .none rfl rfl fun q => congrArg (· + _) (he q)
  have hbegin : ∀ em types,
      Effect s { s with calls := (SockDispatch.begin? em types).toList ++ s.calls } :=
    fun em types => .none rfl rfl fun q => by
      cases types <;> simp [places, SockDispatch.begin?, SockDispatch.held]
  cases step_cases h with
  | deliver em events => exact hbegin em (sockWorkerCb events)
  | write em => exact hbegin em [0]
  | call c o hc u c' hstep => exact effect_call hs hc hstep
  | work i e hwork =>
    refine hemit e fun q => Emitters.flight_work_of hwork fun ev _ hq => ?_
    have := (Bool.and_eq_true_iff.1 hq).1
    exact of_decide_eq_true (Bool.and_eq_true_iff.1 this).1
  | assert i a hf hi => exact .none rfl rfl fun _ => rfl
  | handle i ret hf e hhandle =>
    refine hemit e fun q => ?_
    have := Emitters.flight_handle (Emitters.handle_cases hhandle) (test q)
    rw [countP_completes, hf] at this
    exact this
  | free i ret a hf hp e hhandle =>
    refine .free a rfl rfl fun q => ?_
    have := Emitters.flight_handle (Emitters.handle_cases hhandle) (test q)
    rw [countP_completes, hf] at this
    show e.flight (test q) + _ + _ = s.emit.flight (test q) + _
    rw [← this]
    exact Nat.add_right_comm _ _ _
  | post i ev p hp hev =>
    refine hemit _ fun q => ?_
    rw [Emitters.flight_enqueue, test, hev]
    rfl
  | wake i => exact hemit _ fun q => Emitters.flight_of_held (Worker.held_signal _) _
  | touch em e => exact hemit _ fun q => rfl
  | shutdown h0 => exact .none rfl rfl fun _ => rfl
  | fini pc hpc u hstep =>
    cases hstep with
    | stop i pc' hne =>
      refine .none rfl rfl fun q => congrArg (· + _) (Emitters.flight_congr ?_ ?_ (test q))
      · exact FiniSys.held_stop s.emit.workers i
      · rfl
    | _ => exact .none rfl rfl fun _ => rfl

/-! ### The account -/

/-- The events that are not freed are those in flight, each in one place, and the history and
the counts of the cache say so. -/
structure Tracked (s : EvcacheSys n) : Prop where
  written : s.Written
  count : s.edEvcache.mcAllocs - s.edEvcache.mcFrees = s.inFlight
  once : ∀ a, s.places (· = a) = (s.edEvcache.isLive a).toNat
  pending : ∀ a, Rounds.pending (CacheObs.kind a) s.hist =
    if s.edEvcache.isLive a then some () else none
  turns : ∀ a, Rounds.Matched (CacheObs.kind a) s.hist

theorem places_init (q : ℕ → Bool) : (init : EvcacheSys n).places q = 0 := by
  simp [places, init, Emitters.init, Emitters.flight, Emitters.total, coreFlight, Worker.held,
    Worker.start, Phase.event?]

theorem tracked_init : (init : EvcacheSys n).Tracked where
  written := fun c hc => absurd hc List.not_mem_nil
  count := by rw [inFlight, places_init]; rfl
  once := fun a => by rw [places_init]; rfl
  pending := fun a => rfl
  turns := fun a => trivial

/-- An event that is allocated. -/
theorem Tracked.alloc {s t : EvcacheSys n} (hs : s.Tracked) (hw : t.Written) {b : ℕ}
    (hb : s.edEvcache.isLive b = false) (hh : t.hist = .alloc b :: s.hist)
    (hc : t.edEvcache = s.edEvcache.mcacheAlloc b ())
    (hp : ∀ q, t.places q = s.places q + (q b).toNat) : t.Tracked := by
  have hcount := hs.count
  refine ⟨hw, ?_, fun a => ?_, fun a => ?_, fun a => ?_⟩
  · rw [hc, inFlight, hp]
    simp only [MemCache.mcacheAlloc, Bool.toNat_true]
    rw [inFlight] at hcount
    omega
  · have hone := hs.once a
    rw [hp, hone, hc]
    by_cases hab : a = b
    · subst hab
      simp [hb]
    · simp [MemCache.isLive_mcacheAlloc_of_ne _ hab, Ne.symm hab]
  · have hpend := hs.pending a
    rw [hh, hc]
    by_cases hab : a = b
    · subst hab
      rw [Rounds.pending_req CacheObs.kind_alloc_self, MemCache.isLive_mcacheAlloc_self]
      rfl
    · rw [Rounds.pending_other (CacheObs.kind_alloc_of_ne hab),
        MemCache.isLive_mcacheAlloc_of_ne _ hab]
      exact hpend
  · have hpend := hs.pending a
    rw [hh]
    by_cases hab : a = b
    · subst hab
      rw [hb] at hpend
      exact (hs.turns a).req CacheObs.kind_alloc_self hpend
    · exact (hs.turns a).other (CacheObs.kind_alloc_of_ne hab)

/-- An event that is freed. -/
theorem Tracked.free {s t : EvcacheSys n} (hs : s.Tracked) (hw : t.Written) {b : ℕ}
    (hh : t.hist = .free b :: s.hist) (hc : t.edEvcache = s.edEvcache.mcacheFree b)
    (hp : ∀ q, t.places q + (q b).toNat = s.places q) : t.Tracked := by
  have hcount := hs.count
  -- its place was the only one
  have hb : s.edEvcache.isLive b = true ∧ t.places (· = b) = 0 := by
    have hone := hs.once b
    rw [← hp, decide_eq_true rfl, Bool.toNat_true] at hone
    have hle := Bool.toNat_le (s.edEvcache.isLive b)
    exact ⟨Bool.toNat_eq_one.1 (by omega), by omega⟩
  refine ⟨hw, ?_, fun a => ?_, fun a => ?_, fun a => ?_⟩
  · rw [inFlight, ← hp, Bool.toNat_true] at hcount
    rw [hc, inFlight]
    simp only [MemCache.mcacheFree]
    omega
  · by_cases hab : a = b
    · subst hab
      rw [hb.2, hc, MemCache.isLive_mcacheFree_self]
      rfl
    · have hone := hs.once a
      rw [← hp, decide_eq_false (Ne.symm hab)] at hone
      rw [hc, MemCache.isLive_mcacheFree_of_ne _ hab]
      exact hone
  · have hpend := hs.pending a
    rw [hh, hc]
    by_cases hab : a = b
    · subst hab
      rw [Rounds.pending_ans CacheObs.kind_free_self, MemCache.isLive_mcacheFree_self]
      rfl
    · rw [Rounds.pending_other (CacheObs.kind_free_of_ne hab),
        MemCache.isLive_mcacheFree_of_ne _ hab]
      exact hpend
  · have hpend := hs.pending a
    rw [hh]
    by_cases hab : a = b
    · subst hab
      rw [hb.1] at hpend
      exact (hs.turns a).ans CacheObs.kind_free_self hpend
    · exact (hs.turns a).other (CacheObs.kind_free_of_ne hab)

theorem Tracked.step {s t : EvcacheSys n} {a : Act n} (hs : s.Tracked)
    (h : EvcacheSys.step s a = some t) : t.Tracked := by
  have hw := hs.written.step h
  cases effect hs.written h with
  | none hh hc hp =>
    refine ⟨hw, ?_, fun b => ?_, fun b => ?_, fun b => ?_⟩
    · rw [hc, inFlight, hp]
      exact hs.count
    · rw [hc, hp]
      exact hs.once b
    · rw [hc, hh]
      exact hs.pending b
    · rw [hh]
      exact hs.turns b
  | alloc b hb hh hc hp => exact hs.alloc hw hb hh hc hp
  | free b hh hc hp => exact hs.free hw hh hc hp

theorem tracked_run {as : List (Act n)} {s : EvcacheSys n}
    (hrun : StepSystem.run step init as = some s) : s.Tracked :=
  StepSystem.run_preserves (fun _ _ _ => Tracked.step) tracked_init hrun

/-- What is in a place is not freed. -/
theorem Tracked.live_of_places {s : EvcacheSys n} (hs : s.Tracked) {a : ℕ}
    (ha : s.places (· = a) ≠ 0) : s.edEvcache.isLive a = true := by
  rw [hs.once a] at ha
  exact Bool.ne_false_iff.1 fun h => ha (by rw [h]; rfl)

theorem places_of_carried {s : EvcacheSys n} {ev : EdpEvent} (hev : s.emit.Carries ev)
    (ho : ev.ofSock = true) {q : ℕ → Bool} (hq : q ev.addr = true) : s.places q ≠ 0 := by
  have hf : s.emit.flight (test q) ≠ 0 :=
    Emitters.flight_ne_zero.2 ⟨ev, hev, by rw [test, ho, hq]; rfl⟩
  rw [places]
  omega

theorem places_of_held {s : EvcacheSys n} {c : SockDispatch n} (hc : c ∈ s.calls) {a : ℕ}
    (ha : c.held = some a) {q : ℕ → Bool} (hq : q a = true) : s.places q ≠ 0 := by
  have hcount : 0 < s.calls.countP fun c => c.held.any q :=
    List.countP_pos_iff.2 ⟨c, hc, by rw [ha]; exact hq⟩
  rw [places]
  omega

/-- **Socket events are freed exactly once.**  In every run of deliveries, writes, workers and
other parties, with any failures, the counts of the cache differ by the number of events in
flight, no event is freed twice or used after it is freed, and `mcache_destroy` succeeds when
none is in flight. -/
theorem freed_once {as : List (Act n)} {s : EvcacheSys n}
    (hrun : StepSystem.run step init as = some s) : s.FreedOnce := by
  have hs := tracked_run hrun
  refine ⟨hs.count, hs.turns, fun ev hev ho => ?_, fun c hc a ha => ?_, fun h0 => ?_⟩
  · exact hs.live_of_places (places_of_carried hev ho (decide_eq_true rfl))
  · exact hs.live_of_places (places_of_held hc ha (decide_eq_true rfl))
  · have hcount := hs.count
    rw [h0] at hcount
    rw [MemCache.mcacheDestroy, if_neg (by omega)]

/-- An emitter without handlers refuses an event, which the dispatcher frees; its memory is handed
out again for an event that is queued, handled and freed by a worker. -/
theorem freed_once_refused : ∃ s : EvcacheSys 2, s.inFlight = 0 ∧
    s.hist = [.free 100, .alloc 100, .free 100, .alloc 100] ∧ s.FreedOnce := by
  let o : Oracle 2 := ⟨true, some 100, some 0⟩
  let c : EmitCall 2 := ⟨1, sockEvent 100 0, edpnetSockDone, 0, .checking⟩
  have hrun := Eq.refl (StepSystem.run (step (n := 2)) init
    ([.touch 1 (emitCreate 7), .write 1, .call ⟨1, 0, [], .testing⟩ o,
      .call ⟨1, 0, [], .allocating⟩ o, .call ⟨1, 0, [], .emitting c⟩ o,
      .call ⟨1, 0, [], .asserting 100⟩ o, .call ⟨1, 0, [], .freeing 100⟩ o,
      .touch 1 (sockEmit 7), .write 1, .call ⟨1, 0, [], .testing⟩ o,
      .call ⟨1, 0, [], .allocating⟩ o, .call ⟨1, 0, [], .emitting c⟩ o,
      .call ⟨1, 0, [], .emitting { c with ev := c.event, pc := .counting }⟩ o,
      .call ⟨1, 0, [], .emitting { c with ev := c.event, pc := .queueing }⟩ o,
      .call ⟨1, 0, [], .emitting { c with ev := c.event, pc := .signalling 0 }⟩ o] ++
        List.replicate 10 (.work 0) ++ List.replicate 3 (.handle 0 0) ++
        [.assert 0, .handle 0 0]))
  exact ⟨_, rfl, rfl, freed_once hrun⟩

end EvcacheSys
end EdpIo
