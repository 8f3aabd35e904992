/-
# Deliveries that fail

`serv_worker_cb` of `posix/edpnet.c` as one call for each delivery, over what it acquires
for the sock of a new connection: a block, an fd and the head of the pending list.  A
delivery should hand one initialised sock with an open fd to `connected`, or release what
it acquired once (`Delivered`), so that the socks alive are those handed over.

When `accept` fails the block is not freed.  When `set_nonblock` fails, `sock_init` returns
before it initialises the pending list, and `sock_fini` on the error path asserts that the
list is empty (`sockFini_uninited`): the program ends.  `delivered_iff`: a run is without
fault exactly when these two never fail.
-/

import EdpIo.Net.Object
import EdpIo.Serv.Accept

namespace EdpIo

/-- What a delivery gets from outside: the block, the fd, whether `set_nonblock` succeeds, and
what `epoll_ctl` returns. -/
structure AcceptOracle where
  sock : Option ℕ
  fd : Option ℕ
  nonblock : Bool
  ctl : ℤ
deriving DecidableEq, Repr

/-- What the socks hold, and the socks handed to `connected`, newest first. -/
structure ServWorld where
  net : NetWorld
  handed : List ℕ

namespace ServWorld

/-- `serv_worker_cb(events, s)`; `none` where an assertion fails. -/
def servWorkerCb (s : ServWorld) (events : ℕ) (o : AcceptOracle) : Option ServWorld :=
  -- the callback `close`, for `EPOLLERR` and `EPOLLHUP`, is the owner's
  let rest (s : ServWorld) : Option ServWorld := if events &&& 4 ≠ 0 then none else some s
  if events &&& epollin ≠ 0 then
    match o.sock with
    | none => some s
    | some a =>
      let net := s.net.allocSock a
      match o.fd with
      | none => some { s with net := net }
      | some fd =>
        ((net.openFd a fd).sockInit a o.nonblock).bind fun (ret, net) =>
          if ret < 0 then
            (net.sockFini a o.ctl).bind fun net => rest { s with net := net.freeSock a }
          else rest { net := net, handed := a :: s.handed }
  else rest s

/-- A delivery of `EPOLLIN`. -/
def step (s : ServWorld) (o : AcceptOracle) : Option ServWorld := s.servWorkerCb epollin o

/-- One initialised sock with an open fd has been handed over. -/
def Handed (s t : ServWorld) : Prop :=
  ∃ a k, t.handed = a :: s.handed ∧ t.net.socks.get? a = some k ∧ k.statusInit = true ∧
    t.net.isOpen k.esSock = true ∧ listEmpty t.net.links (.iowrites a) = true

/-- Nothing has been handed over, and what was acquired has been released once. -/
def Released (s t : ServWorld) : Prop :=
  t.handed = s.handed ∧ ∃ new, t.net.log = new ++ s.net.log ∧ Ledger.Settled new

/-- The socks alive are those handed to `connected`. -/
def LiveHanded (s : ServWorld) : Prop := ∀ a, s.net.socks.isLive a = true ↔ a ∈ s.handed

/-- **What a delivery should do.**  No assertion fails, one sock is handed over or all is
released, and afterwards the socks alive are those handed over. -/
def Delivered (s : ServWorld) (o : AcceptOracle) : Prop :=
  ∃ t, s.step o = some t ∧ (Handed s t ∨ Released s t) ∧ t.LiveHanded

/-- If there is memory for the sock, `accept` and `set_nonblock` succeed. -/
def Succeeds (o : AcceptOracle) : Prop := o.sock ≠ none → o.fd ≠ none ∧ o.nonblock = true

variable {s : ServWorld}

/-- The sock with its fd, before `sock_init`. -/
theorem get?_accepted (w : NetWorld) (a fd : ℕ) :
    ((w.allocSock a).openFd a fd).socks.get? a = some ⟨false, false, fd, 0, 0, 0⟩ := by
  simp [NetWorld.openFd, NetWorld.allocSock, NetSock.zeroed]

/-- **The destructor of a sock that `sock_init` has not finished** fails its assertion. -/
theorem sockFini_uninited (w : NetWorld) (a fd : ℕ) (ctl : ℤ) :
    (((w.allocSock a).openFd a fd).close fd).sockFini a ctl = none := by
  have hget : (((w.allocSock a).openFd a fd).close fd).socks.get? a =
      some ⟨false, false, fd, 0, 0, 0⟩ := get?_accepted w a fd
  rw [NetWorld.sockFini, hget]
  simp [NetWorld.close, NetWorld.openFd, NetWorld.allocSock, listEmpty]

/-- Without memory for the sock nothing happens. -/
theorem step_noMem (s : ServWorld) (fd : Option ℕ) (nonblock : Bool) (ctl : ℤ) :
    s.step ⟨none, fd, nonblock, ctl⟩ = some s := rfl

/-- A failed `accept` leaves the block. -/
theorem step_noAccept (s : ServWorld) (a : ℕ) (nonblock : Bool) (ctl : ℤ) :
    s.step ⟨some a, none, nonblock, ctl⟩ = some { s with net := s.net.allocSock a } := rfl

/-- A failed `set_nonblock` ends the program. -/
theorem step_blocking (s : ServWorld) (a fd : ℕ) (ctl : ℤ) :
    s.step ⟨some a, some fd, false, ctl⟩ = none := by
  show (((s.net.allocSock a).openFd a fd).sockInit a false).bind _ = none
  rw [NetWorld.sockInit, get?_accepted]
  show (((((s.net.allocSock a).openFd a fd).close fd).sockFini a ctl).bind _ :
    Option ServWorld) = none
  rw [sockFini_uninited]
  rfl

/-- The sock after `sock_init`. -/
def accepted (w : NetWorld) (a fd : ℕ) : NetWorld :=
  { (w.allocSock a).openFd a fd with
    socks := ((w.allocSock a).openFd a fd).socks.modify a fun k => { k with statusInit := true }
    links := initListHead ((w.allocSock a).openFd a fd).links (.iowrites a) }

/-- Else the sock is handed over. -/
theorem step_handed (s : ServWorld) (a fd : ℕ) (ctl : ℤ) :
    s.step ⟨some a, some fd, true, ctl⟩ = some ⟨accepted s.net a fd, a :: s.handed⟩ := by
  show (((s.net.allocSock a).openFd a fd).sockInit a true).bind _ = _
  rw [NetWorld.sockInit, get?_accepted]
  rfl

/-- It is initialised and its fd is open. -/
theorem handed_accepted (s : ServWorld) (a fd : ℕ) :
    Handed s ⟨accepted s.net a fd, a :: s.handed⟩ := by
  refine ⟨a, ⟨true, false, fd, 0, 0, 0⟩, rfl, ?_, rfl, ?_, ?_⟩
  · rw [accepted, BlockHeap.get?_modify_self, get?_accepted]
    rfl
  · simp [accepted, NetWorld.openFd]
  · exact (listEmpty_iff (initListHead_isRing _ (IowAddr.iowrites a))).2 rfl

/-- It is one more that is alive. -/
theorem LiveHanded.accepted (hs : s.LiveHanded) (a fd : ℕ) :
    LiveHanded ⟨accepted s.net a fd, a :: s.handed⟩ := by
  intro b
  by_cases hb : b = a
  · subst hb
    simp [ServWorld.accepted, NetWorld.openFd, NetWorld.allocSock]
  · have hlive := BlockHeap.isLive_alloc_of_ne s.net.socks NetSock.zeroed hb
    simp [ServWorld.accepted, NetWorld.openFd, NetWorld.allocSock, hlive, hs b, hb]

/-- A block that is left is neither handed over nor released. -/
theorem not_handed_noAccept (s : ServWorld) (a : ℕ) :
    ¬ (Handed s { s with net := s.net.allocSock a } ∨
      Released s { s with net := s.net.allocSock a }) := by
  rintro (⟨b, k, hlen, -⟩ | ⟨-, new, hlog, hsettled⟩)
  · exact List.cons_ne_self b s.handed hlen.symm
  · exact s.net.not_settled_allocSock a hlog hsettled

/-- One delivery. -/
theorem delivered_step_iff (hs : s.LiveHanded) (o : AcceptOracle) :
    s.Delivered o ↔ Succeeds o := by
  obtain ⟨sock, fd, nonblock, ctl⟩ := o
  cases sock with
  | none =>
    refine iff_of_true ⟨s, step_noMem s fd nonblock ctl, Or.inr ⟨rfl, [], rfl, ?_⟩, hs⟩ ?_
    · exact Ledger.settled_nil
    · exact fun h => absurd rfl h
  | some a =>
    cases fd with
    | none =>
      refine iff_of_false ?_ fun h => (h (Option.some_ne_none a)).1 rfl
      rintro ⟨t, ht, hdone, -⟩
      obtain rfl := Option.some.inj ((step_noAccept s a nonblock ctl).symm.trans ht)
      exact not_handed_noAccept s a hdone
    | some fd =>
      cases nonblock with
      | false =>
        refine iff_of_false ?_ fun h => Bool.false_ne_true (h (Option.some_ne_none a)).2
        rintro ⟨t, ht, -⟩
        rw [step_blocking] at ht
        cases ht
      | true =>
        refine iff_of_true ?_ fun _ => ⟨Option.some_ne_none fd, rfl⟩
        exact ⟨_, step_handed s a fd ctl, Or.inl (handed_accepted s a fd), hs.accepted a fd⟩

/-- **When deliveries do what they should.**  From any state in which the socks alive are
those handed over, every delivery of a run hands over one sock or releases what it acquired,
with no assertion failing and the socks alive those handed over, if and only if `accept` and
`set_nonblock` succeed in each that gets memory for the sock. -/
theorem delivered_iff (hs : s.LiveHanded) (os : List AcceptOracle) :
    StepSystem.Meets step Delivered s os ↔ ∀ o ∈ os, Succeeds o := by
  induction os generalizing s with
  | nil => simp [StepSystem.Meets]
  | cons o os ih =>
    rw [List.forall_mem_cons, ← delivered_step_iff hs o]
    refine and_congr_right fun ho => ?_
    obtain ⟨t, ht, -, htlive⟩ := ho
    rw [ht]
    exact ih htlive

/-- Two connections and, between them, no memory for a third. -/
theorem delivered_three : StepSystem.Meets step Delivered
    ⟨⟨true, .empty, ⟨id, id⟩, .empty, fun _ => false, .init 1, []⟩, []⟩
    [⟨some 1, some 7, true, 0⟩, ⟨none, some 8, true, 0⟩, ⟨some 2, some 8, true, 0⟩] :=
  (delivered_iff (s := ⟨⟨true, .empty, ⟨id, id⟩, .empty, fun _ => false, .init 1, []⟩, []⟩)
    (fun a => by simp) _).2 (by simp [Succeeds])

/-- **`set_nonblock` fails once.** -/
theorem not_delivered_blocking :
    ¬ ∀ (s : ServWorld) (os : List AcceptOracle), s.LiveHanded →
      StepSystem.Meets step Delivered s os := by
  intro hall
  obtain ⟨⟨t, ht, -⟩, -⟩ := hall
    ⟨⟨true, .empty, ⟨id, id⟩, .empty, fun _ => false, .init 1, []⟩, []⟩
    [⟨some 1, some 7, false, 0⟩] fun a => by simp
  cases ht

end ServWorld

end EdpIo
