/-
# Connections to a server

`serv_worker_cb` of `posix/edpnet.c` on the listening fd of one server.  The fd is
registered `EPOLLET`: a connection that arrives joins the backlog and raises the edge, a
delivery takes the edge down and runs `serv_worker_cb`, which accepts one connection and
hands it to `connected`.  The worker that watches the fd runs one delivery at a time.

Connections that arrive before their edge is delivered share it, and one `accept` does not
take them all.  `caught` holds of every run in which each `accept` takes the last one or
finds the edge raised again; otherwise the delivery ends with a connection that nobody
will accept (`missed`).
-/

import EdpIo.Lib.Run
import Mathlib.Data.Nat.Notation

namespace EdpIo

/-- Where a run of `serv_worker_cb(events, s)` is. -/
inductive ServPc
  /-- Before the test of `EPOLLIN` and `mheap_alloc`. -/
  | entered (events : ℕ)
  /-- Before `accept`. -/
  | accepting (events : ℕ)
  /-- Before `sock_init`. -/
  | initing (events : ℕ) (conn : ℕ)
  /-- Before the callback `connected`. -/
  | handing (events : ℕ) (conn : ℕ)
  /-- In that callback. -/
  | inConnected (events : ℕ)
  /-- Before the tests of `EPOLLOUT`, `EPOLLERR` and `EPOLLHUP`. -/
  | testing (events : ℕ)
  /-- In the callback `close`. -/
  | inClose
deriving DecidableEq, Repr

/-- The next step is `accept`. -/
def ServPc.accepts : ServPc → Bool
  | .accepting _ => true
  | _ => false

/-- The next step is `sock_init`. -/
def ServPc.inits : ServPc → Bool
  | .initing _ _ => true
  | _ => false

/-- The listening fd's backlog, oldest first, and its edge; the delivery in progress; the
connections that have arrived and those handed to `connected`, in order. -/
structure ServSys where
  backlog : List ℕ
  edge : Bool
  call : Option ServPc
  arrived : List ℕ
  handed : List ℕ
deriving DecidableEq, Repr

/-- `EPOLLIN`. -/
def epollin : ℕ := 1

namespace ServSys

/-- No connection yet. -/
def init : ServSys := ⟨[], false, none, [], []⟩

/-- The steps. -/
inductive Act
  | arrive (conn : ℕ)
  /-- The edge is delivered, with `EPOLLIN`. -/
  | deliver
  /-- A step of `serv_worker_cb`, with whether the allocation, `accept` or
  `set_nonblock` in it succeeds. -/
  | serv (ok : Bool)
deriving DecidableEq, Repr

/-- One step of `serv_worker_cb`; `none` where an assertion fails. -/
def servStep (s : ServSys) (ok : Bool) : ServPc → Option ServSys
  | .entered events =>
    some <|
      if events &&& epollin ≠ 0 then
        { s with call := if ok then some (.accepting events) else none }
      else { s with call := some (.testing events) }
  | .accepting events =>
    some <|
      match ok, s.backlog with
      | true, conn :: backlog =>
        { s with backlog := backlog, call := some (.initing events conn) }
      | _, _ => { s with call := none }
  | .initing events conn =>
    -- after a failed `sock_init` the list that `sock_fini` tests has no head yet
    if ok then some { s with call := some (.handing events conn) } else none
  | .handing events conn =>
    some { s with call := some (.inConnected events), handed := s.handed ++ [conn] }
  | .inConnected events => some { s with call := some (.testing events) }
  | .testing events =>
    if events &&& 4 ≠ 0 then none
    else some { s with call := if events &&& (8 ||| 16) ≠ 0 then some .inClose else none }
  | .inClose => some { s with call := none }

/-- One step. -/
def step (s : ServSys) : Act → Option ServSys
  | .arrive conn =>
    some { s with backlog := s.backlog ++ [conn], edge := true, arrived := s.arrived ++ [conn] }
  | .deliver =>
    if s.edge = true ∧ s.call = none then
      some { s with edge := false, call := some (.entered epollin) }
    else none
  | .serv ok => s.call.bind (s.servStep ok)

/-- Memory and `accept` succeed. -/
def Supplied (s : ServSys) : Act → Prop
  | .serv ok => s.call.any ServPc.inits = false → ok = true
  | .arrive _ | .deliver => True

instance (s : ServSys) : (a : Act) → Decidable (s.Supplied a)
  | .serv _ => inferInstanceAs (Decidable (_ → _))
  | .arrive _ | .deliver => inferInstanceAs (Decidable True)

/-- What is accepted is the last connection that waits, or the edge is raised. -/
def TakesLast (s : ServSys) : Act → Prop
  | .serv _ => s.call.any ServPc.accepts = true → s.backlog.length ≤ 1 ∨ s.edge = true
  | .arrive _ | .deliver => True

instance (s : ServSys) : (a : Act) → Decidable (s.TakesLast a)
  | .serv _ => inferInstanceAs (Decidable (_ → _))
  | .arrive _ | .deliver => inferInstanceAs (Decidable True)

/-- Without an edge or a delivery in progress, no connection waits, and all that have
arrived have been handed to `connected`. -/
def Caught (s : ServSys) : Prop :=
  s.edge = false → s.call = none → s.backlog = [] ∧ s.handed = s.arrived

/-- The connection that the delivery has accepted and not handed over. -/
def inHand : Option ServPc → List ℕ
  | some (.initing _ conn) | some (.handing _ conn) => [conn]
  | _ => []

/-- The delivery has still to accept. -/
def BeforeAccept (call : Option ServPc) : Prop :=
  call = some (.entered epollin) ∨ call = some (.accepting epollin)

/-- The events of the delivery. -/
def ServPc.events? : ServPc → Option ℕ
  | .entered e | .accepting e | .initing e _ | .handing e _ | .inConnected e | .testing e => some e
  | .inClose => none

/-- What the runs keep. -/
structure Kept (s : ServSys) : Prop where
  events : ∀ pc, s.call = some pc → ServPc.events? pc = some epollin
  order : s.arrived = s.handed ++ inHand s.call ++ s.backlog
  caught : s.edge = true ∨ BeforeAccept s.call ∨ s.backlog = []

theorem kept_init : init.Kept where
  events pc h := by cases h
  order := rfl
  caught := .inr (.inr rfl)

/-- A step of a delivery that takes nothing from the backlog. -/
theorem Kept.move {s : ServSys} {call : Option ServPc} {handed : List ℕ} (hs : s.Kept)
    (hev : ∀ pc, call = some pc → ServPc.events? pc = some epollin)
    (horder : handed ++ inHand call = s.handed ++ inHand s.call)
    (hcaught : BeforeAccept s.call → BeforeAccept call) :
    Kept { s with call := call, handed := handed } where
  events := hev
  order := hs.order.trans (congrArg (· ++ s.backlog) horder.symm)
  caught := hs.caught.imp id (Or.imp hcaught id)

/-- A step of a delivery. -/
theorem Kept.serv {s t : ServSys} {pc : ServPc} (hs : s.Kept) (hpc : s.call = some pc)
    (hlast : s.TakesLast (.serv true)) (h : s.servStep true pc = some t) : t.Kept := by
  have hev := hs.events pc hpc
  cases pc with
  | entered events =>
    obtain rfl : events = epollin := Option.some.inj hev
    obtain rfl := Option.some.inj h
    refine hs.move (fun pc h => ?_) (by rw [hpc]; rfl) fun _ => .inr rfl
    obtain rfl := Option.some.inj h
    rfl
  | accepting events =>
    obtain rfl : events = epollin := Option.some.inj hev
    have horder := hs.order
    rw [hpc] at horder
    cases hb : s.backlog with
    | nil =>
      simp only [servStep, hb] at h
      obtain rfl := Option.some.inj h
      rw [hb] at horder
      exact ⟨(fun _ h => by cases h), horder, .inr (.inr rfl)⟩
    | cons conn backlog =>
      simp only [servStep, hb] at h
      obtain rfl := Option.some.inj h
      rw [hb] at horder
      refine ⟨fun pc h => ?_, ?_, ?_⟩
      · obtain rfl := Option.some.inj h
        rfl
      · simpa [inHand] using horder
      · refine (hlast (by rw [hpc]; rfl)).symm.imp id fun hle => .inr ?_
        rw [hb] at hle
        exact List.length_eq_zero_iff.1 (Nat.le_zero.1 (Nat.le_of_succ_le_succ hle))
  | initing events conn =>
    obtain rfl := Option.some.inj h
    refine hs.move (fun pc h => ?_) (by rw [hpc]; rfl) fun h => ?_
    · obtain rfl := Option.some.inj h
      exact hev
    · rw [hpc] at h
      rcases h with h | h <;> cases h
  | handing events conn =>
    obtain rfl := Option.some.inj h
    refine hs.move (fun pc h => ?_) (by rw [hpc]; exact List.append_nil _) fun h => ?_
    · obtain rfl := Option.some.inj h
      exact hev
    · rw [hpc] at h
      rcases h with h | h <;> cases h
  | inConnected events =>
    obtain rfl := Option.some.inj h
    refine hs.move (fun pc h => ?_) (by rw [hpc]; rfl) fun h => ?_
    · obtain rfl := Option.some.inj h
      exact hev
    · rw [hpc] at h
      rcases h with h | h <;> cases h
  | testing events =>
    obtain rfl : events = epollin := Option.some.inj hev
    obtain rfl := Option.some.inj h
    refine hs.move (fun pc h => by cases h) (by rw [hpc]; rfl) fun h => ?_
    rw [hpc] at h
    rcases h with h | h <;> cases h
  | inClose => cases hev

theorem Kept.step {s t : ServSys} {a : Act} (hs : s.Kept) (hok : s.Supplied a)
    (hlast : s.TakesLast a) (h : ServSys.step s a = some t) : t.Kept := by
  cases a with
  | arrive conn =>
    obtain rfl := Option.some.inj h
    refine ⟨hs.events, ?_, .inl rfl⟩
    show s.arrived ++ [conn] = s.handed ++ inHand s.call ++ (s.backlog ++ [conn])
    rw [← List.append_assoc, ← hs.order]
  | deliver =>
    rw [ServSys.step] at h
    split at h
    · rename_i hc
      obtain rfl := Option.some.inj h
      refine ⟨fun pc h => ?_, ?_, .inr (.inl (.inl rfl))⟩
      · obtain rfl := Option.some.inj h
        rfl
      · have horder := hs.order
        rw [hc.2] at horder
        exact horder
    · cases h
  | serv ok =>
    obtain ⟨pc, hpc, h⟩ := Option.bind_eq_some_iff.1 h
    cases ok with
    | true => exact hs.serv hpc hlast h
    | false =>
      -- only `set_nonblock` may fail, and then an assertion does
      rw [Supplied, hpc] at hok
      cases pc with
      | initing events conn => cases h
      | _ => cases hok rfl

/-- **No connection is left waiting**, in every order of arrivals and deliveries in which
memory and `accept` succeed and what is accepted is the last connection that waits or the
edge is raised. -/
theorem caught {acts : List Act} {s : ServSys}
    (ha : StepSystem.Meets step (fun s a => s.Supplied a ∧ s.TakesLast a) init acts)
    (hrun : StepSystem.run step init acts = some s) : s.Caught := by
  have hs : s.Kept := StepSystem.run_invariant (fun _ _ _ hs ha h => hs.step ha.1 ha.2 h)
    kept_init ha hrun
  intro hedge hcall
  have horder := hs.order
  have hempty : s.backlog = [] := by
    rcases hs.caught with h | h | h
    · rw [hedge] at h
      cases h
    · rw [hcall] at h
      rcases h with h | h <;> cases h
    · exact h
  rw [hcall, hempty] at horder
  refine ⟨hempty, ?_⟩
  simpa [inHand] using horder.symm

/-- A connection, and another that arrives during its delivery: a run that meets the
hypotheses of `caught`. -/
theorem caught_two :
    ∃ acts s, StepSystem.run step init acts = some s ∧ s.handed = [7, 8] ∧ s.Caught :=
  have hrun := Eq.refl (StepSystem.run step init
    [.arrive 7, .deliver, .serv true, .arrive 8, .serv true, .serv true, .serv true, .serv true,
      .serv true, .deliver, .serv true, .serv true, .serv true, .serv true, .serv true,
      .serv true])
  ⟨_, _, hrun, rfl, caught (by decide) hrun⟩

/-- **What a delivery leaves is left.**  If more than one connection waits when the delivery
accepts and no more arrive, it ends with the edge down and a connection waiting. -/
theorem missed {s : ServSys} (hcall : s.call = some (.accepting epollin)) (hedge : s.edge = false)
    (hb : 2 ≤ s.backlog.length) :
    ∃ t, StepSystem.run step s (List.replicate 5 (.serv true)) = some t ∧ t.edge = false ∧
      t.call = none ∧ t.backlog ≠ [] := by
  obtain ⟨backlog, edge, call, arrived, handed⟩ := s
  obtain rfl : call = some (.accepting epollin) := hcall
  obtain rfl : edge = false := hedge
  match backlog, hb with
  | conn :: next :: backlog, _ =>
    exact ⟨⟨next :: backlog, false, none, arrived, handed ++ [conn]⟩, rfl, rfl, rfl, by simp⟩

/-- **Two connections on one edge.**  Both arrive before the delivery, and only the first is
accepted. -/
theorem left_waiting :
    ¬ ∀ acts s, StepSystem.Meets step Supplied init acts →
      StepSystem.run step init acts = some s → s.Caught := by
  intro h
  have hrun := Eq.refl (StepSystem.run step init
    [.arrive 7, .arrive 8, .deliver, .serv true, .serv true, .serv true, .serv true, .serv true,
      .serv true])
  exact absurd (h _ _ (by decide) hrun rfl rfl).1 (by decide)

end ServSys
end EdpIo
