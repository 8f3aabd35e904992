/-
# How often a connection is announced

The calls of `sock_connect` and `sock_close` for one sock on `n` workers, recorded by an
observer.  `AtMostOnce` says that wherever one looks between two calls of `sock_close`
there is at most one of `sock_connect`.

`edpnet_sock_epollout_handler` tests `CONNECT` outside the section that sets it, so two
workers with an `EPOLLOUT` event each may both find it clear (`announced_twice`).
`announced_once` holds of every run in which a handler that finds it clear is the only
one to do so, and the last connection that was announced has been closed since (`Alone`);
`not_atMostOnce` shows that a step that is not `Alone` can go on to a second announcement.
On one worker every run is so (`announced_once_alone`).
-/

import EdpIo.Lib.Watch
import EdpIo.Sock.Connected

namespace EdpIo

/-- A callback about the connection. -/
inductive Announce
  | sockConnect
  | sockClose
deriving DecidableEq, Repr

namespace Announce

/-- A stretch of the history without `sock_close` has at most one `sock_connect`. -/
def AtMostOnce (m : List Announce) : Prop :=
  ∀ l₁ l₂ l₃, m = l₁ ++ l₂ ++ l₃ → .sockClose ∉ l₂ → l₂.count .sockConnect ≤ 1

variable {m : List Announce}

theorem atMostOnce_nil : AtMostOnce [] := by
  intro l₁ l₂ l₃ h hl
  obtain ⟨h, -⟩ := List.append_eq_nil_iff.1 h.symm
  obtain ⟨-, rfl⟩ := List.append_eq_nil_iff.1 h
  exact Nat.zero_le 1

theorem AtMostOnce.close (h : AtMostOnce m) : AtMostOnce (.sockClose :: m) := by
  intro l₁ l₂ l₃ hm hl
  cases l₁ with
  | nil =>
    cases l₂ with
    | nil => exact Nat.zero_le 1
    | cons x l₂ =>
      obtain ⟨rfl, -⟩ := List.cons.inj hm
      exact absurd List.mem_cons_self hl
  | cons x l₁ =>
    obtain ⟨-, hm⟩ := List.cons.inj hm
    exact h l₁ l₂ l₃ hm hl

theorem AtMostOnce.connect (h : AtMostOnce m) (hlast : m.head? ≠ some .sockConnect) :
    AtMostOnce (.sockConnect :: m) := by
  intro l₁ l₂ l₃ hm hl
  cases l₁ with
  | nil =>
    match l₂ with
    | [] => exact Nat.zero_le 1
    | [x] => exact List.count_le_length
    | x :: .sockClose :: l₂ => exact absurd (List.mem_cons_of_mem _ List.mem_cons_self) hl
    | x :: .sockConnect :: l₂ =>
      obtain ⟨-, rfl⟩ := List.cons.inj hm
      exact absurd rfl hlast
  | cons x l₁ =>
    obtain ⟨-, hm⟩ := List.cons.inj hm
    exact h l₁ l₂ l₃ hm hl

/-- Two calls of `sock_connect` in a row. -/
theorem not_atMostOnce_cons (m : List Announce) :
    ¬ AtMostOnce (.sockConnect :: .sockConnect :: m) :=
  fun h => absurd (h [] [.sockConnect, .sockConnect] m rfl (by decide)) (by decide)

end Announce

namespace SockWorkers

variable {n : ℕ} {s t : SockWorkers n} {m : List Announce}

/-- The callback that the next step of a handler's run calls, if it is one about the
connection. -/
def announces : Option SockFrame → Option Announce
  | some (.epollout .connected) => some .sockConnect
  | some (.epollhup .closing) => some .sockClose
  | _ => none

/-- What the observer notes. -/
def note (s : SockWorkers n) (a : Act n) (_ : SockWorkers n) (m : List Announce) :
    List Announce :=
  match a with
  | .frame i _ => (announces (s.frames i)).toList ++ m
  | _ => m

/-- The run has found `CONNECT` clear and has still to call `sock_connect`. -/
def Announcing (f : Option SockFrame) : Prop :=
  f = some (.epollout .connecting) ∨ f = some (.epollout .connected)

instance (f : Option SockFrame) : Decidable (Announcing f) := inferInstanceAs (Decidable (_ ∨ _))

/-- A handler that finds `CONNECT` clear is the only one to do so, and `sock_connect` is not
the last that was called. -/
def Alone (s : SockWorkers n) (m : List Announce) : Act n → Prop
  | .frame i _ =>
    s.frames i = some (.epollout .enter) → s.sock.connect = false →
      (∀ j, ¬ Announcing (s.frames j)) ∧ m.head? ≠ some .sockConnect
  | _ => True

instance (s : SockWorkers n) (m : List Announce) : (a : Act n) → Decidable (s.Alone m a)
  | .frame _ _ => inferInstanceAs (Decidable (_ → _))
  | .mask _ | .eio _ | .submit | .writer _ _ | .call _ _ | .clearRead | .work _ | .handle _ _
  | .post _ _ | .wake _ | .touch _ _ => inferInstanceAs (Decidable True)

/-- What the runs keep. -/
structure Announced (s : SockWorkers n) (m : List Announce) : Prop where
  only : ∀ i j, Announcing (s.frames i) → Announcing (s.frames j) → i = j
  last : ∀ i, Announcing (s.frames i) → m.head? ≠ some .sockConnect
  once : Announce.AtMostOnce m

theorem announcing_of_announces {f : Option SockFrame}
    (h : announces f = some .sockConnect) : Announcing f := by
  unfold announces at h
  split at h
  · exact .inr rfl
  · cases h
  · cases h

/-- A run begins before the first step of its handler. -/
theorem ofHandler?_enter {h : Handler} {f : SockFrame} (hf : SockFrame.ofHandler? h = some f) :
    f = .epollout .enter ∨ f = .epollin .enter ∨ f = .epollerr .enter ∨ f = .epollhup .enter := by
  cases h with
  | default => cases hf
  | fn addr =>
    rw [SockFrame.ofHandler?] at hf
    split at hf
    · exact .inl (Option.some.inj hf).symm
    · split at hf
      · exact .inr (.inl (Option.some.inj hf).symm)
      · split at hf
        · exact .inr (.inr (.inl (Option.some.inj hf).symm))
        · split at hf
          · exact .inr (.inr (.inr (Option.some.inj hf).symm))
          · cases hf

theorem begins_enter {i : Fin n} {f : SockFrame} (h : (s.begins? i).map Prod.snd = some f) :
    f = .epollout .enter ∨ f = .epollin .enter ∨ f = .epollerr .enter ∨ f = .epollhup .enter := by
  obtain ⟨⟨type, f⟩, hb, rfl⟩ := Option.map_eq_some_iff.1 h
  rw [begins?] at hb
  split at hb
  · split at hb
    · obtain ⟨e, -, hb⟩ := Option.bind_eq_some_iff.1 hb
      split at hb
      · obtain ⟨f, hf, he⟩ := Option.map_eq_some_iff.1 hb
        obtain ⟨-, rfl⟩ := Prod.mk.inj he
        exact ofHandler?_enter hf
      · cases hb
    · cases hb
  · cases hb

theorem not_announcing_begins (i : Fin n) : ¬ Announcing ((s.begins? i).map Prod.snd) := by
  rintro (h | h)
  · rcases begins_enter h with h | h | h | h <;> cases h
  · rcases begins_enter h with h | h | h | h <;> cases h

/-- A run comes to announce the connection by finding `CONNECT` clear. -/
theorem announcing_of_step {f : SockFrame} {sock sock' : SockIo} {read read' : Bool}
    {k : KernelWrite} {f' : Option SockFrame} (h : f.step sock read k = some (sock', read', f'))
    (hf' : Announcing f') :
    (f = .epollout .enter ∧ sock.connect = false) ∨ f = .epollout .connecting := by
  cases SockFrame.step_cases h with
  | epollout f s' f' l hf =>
    cases hf with
    | unconnected hc => exact .inl ⟨rfl, hc⟩
    | connect => exact .inr rfl
    | _ => rcases hf' with hf' | hf' <;> cases hf'
  | epollin f read' f' hf => cases f' <;> rcases hf' with hf' | hf' <;> cases hf'
  | error | errorBack | hup | close | closeBack => rcases hf' with hf' | hf' <;> cases hf'

theorem announced_init (a em : ℕ) : (init a em : SockWorkers n).Announced [] where
  only i j hi := by rcases hi with hi | hi <;> cases hi
  last i hi := by rcases hi with hi | hi <;> cases hi
  once := Announce.atMostOnce_nil

/-- The observer does not look at the rest. -/
theorem Announced.congr (hs : s.Announced m) (h : t.frames = s.frames) : t.Announced m := by
  obtain ⟨honly, hlast, honce⟩ := hs
  rw [← h] at honly hlast
  exact ⟨honly, hlast, honce⟩

/-- A worker's run of a handler is not announcing after the step. -/
theorem Announced.quiet {i : Fin n} {f : Option SockFrame} {o : Option Announce}
    (hs : s.Announced m) (hframes : t.frames = Function.update s.frames i f) (hf : ¬ Announcing f)
    (ho : o = some .sockConnect → Announcing (s.frames i)) : t.Announced (o.toList ++ m) := by
  have hother : ∀ {j}, Announcing (t.frames j) → j ≠ i ∧ Announcing (s.frames j) := by
    intro j hj
    rw [hframes] at hj
    by_cases hji : j = i
    · subst hji
      rw [Function.update_self] at hj
      exact absurd hj hf
    · rw [Function.update_of_ne hji] at hj
      exact ⟨hji, hj⟩
  refine ⟨fun j k hj hk => hs.only j k (hother hj).2 (hother hk).2, fun j hj => ?_, ?_⟩
  · obtain ⟨hji, hj⟩ := hother hj
    match o with
    | none => exact hs.last j hj
    | some .sockClose => exact fun h => by cases h
    | some .sockConnect => exact absurd (hs.only j i hj (ho rfl)) hji
  · match o with
    | none => exact hs.once
    | some .sockClose => exact hs.once.close
    | some .sockConnect => exact hs.once.connect (hs.last i (ho rfl))

/-- A step of a handler's run. -/
theorem Announced.frame {i : Fin n} {k : KernelWrite} {f : SockFrame} {sock : SockIo}
    {read : Bool} {f' : Option SockFrame} (hs : s.Announced m) (ha : s.Alone m (.frame i k))
    (hf : s.frames i = some f) (h : f.step s.sock s.read k = some (sock, read, f')) :
    Announced { s with sock := sock, read := read, frames := Function.update s.frames i f' }
      ((announces (s.frames i)).toList ++ m) := by
  by_cases hf' : Announcing f'
  · -- the run was announcing, or it begins to, with nobody else
    have hbefore : announces (s.frames i) = none ∧
        (∀ j, j ≠ i → ¬ Announcing (s.frames j)) ∧ m.head? ≠ some .sockConnect := by
      rcases announcing_of_step h hf' with ⟨rfl, hc⟩ | rfl
      · obtain ⟨hnone, hlast⟩ := ha hf hc
        exact ⟨by rw [hf]; rfl, fun j _ => hnone j, hlast⟩
      · have hi : Announcing (s.frames i) := .inl hf
        exact ⟨by rw [hf]; rfl, fun j hji hj => hji (hs.only j i hj hi), hs.last i hi⟩
    obtain ⟨hnone, hother, hlast⟩ := hbefore
    have honly : ∀ j, Announcing (Function.update s.frames i f' j) → j = i := by
      intro j hj
      by_contra hji
      rw [Function.update_of_ne hji] at hj
      exact hother j hji hj
    rw [hnone]
    exact ⟨fun j k hj hk => (honly j hj).trans (honly k hk).symm, fun _ _ => hlast, hs.once⟩
  · refine hs.quiet rfl hf' fun hcall => ?_
    rw [hf] at hcall ⊢
    exact announcing_of_announces hcall

theorem Announced.step {a : Act n} (hs : s.Announced m) (ha : s.Alone m a)
    (h : SockWorkers.step s a = some t) : t.Announced (note s a t m) := by
  cases step_cases h with
  | handle i ret hi e hh =>
    exact hs.quiet (o := none) rfl (not_announcing_begins i) fun h => by cases h
  | frame i k f hf sock read f' hstep => exact hs.frame ha hf hstep
  | _ => exact hs.congr rfl

/-- **At most one `sock_connect` between two calls of `sock_close`.**  For any number of
workers, any masks and every interleaving of the handlers' steps: if a handler that finds
`CONNECT` clear is the only one to do so and the last connection announced has been closed
since. -/
theorem announced_once {a em : ℕ} {acts : List (Act n)}
    (ha : StepSystem.Meets (StepSystem.watch step note) (fun s a => s.1.Alone s.2 a)
      (init a em, []) acts)
    (hrun : StepSystem.run (StepSystem.watch step note) (init a em, []) acts = some (s, m)) :
    Announce.AtMostOnce m := by
  have hs : s.Announced m :=
    StepSystem.run_invariant (I := fun s => s.1.Announced s.2) (fun s a t hs ha h => by
      obtain ⟨ht, hn⟩ := StepSystem.watch_eq_some.1 h
      rw [hn]
      exact hs.step ha ht) (announced_init a em) ha hrun
  exact hs.once

/-- A connection, its end and another one, on two workers: a run that meets the hypotheses
of `announced_once`. -/
theorem announced_once_again :
    ∃ acts s, StepSystem.run (StepSystem.watch step note) ((init 1 2 : SockWorkers 2), []) acts =
        some (s, [.sockConnect, .sockClose, .sockConnect]) ∧
      Announce.AtMostOnce [.sockConnect, .sockClose, .sockConnect] := by
  let acts : List (Act 2) :=
    .mask 4 :: [dispatchSteps 1 0, [.eio ⟨true, none, none⟩, .mask 16], dispatchSteps 2 0,
      [.eio ⟨true, none, none⟩, .mask 4], dispatchSteps 3 1, List.replicate 10 (.work 0),
      handleSteps 0 4, List.replicate 5 (.work 0), handleSteps 0 3, List.replicate 10 (.work 1),
      handleSteps 1 4].flatten
  have hm : (StepSystem.run (StepSystem.watch step note) (init 1 2, []) acts).map (·.2) =
      some [.sockConnect, .sockClose, .sockConnect] := by
    decide +kernel
  obtain ⟨⟨s, m⟩, hrun, rfl⟩ := Option.map_eq_some_iff.1 hm
  exact ⟨acts, s, hrun, announced_once (by decide +kernel) hrun⟩

/-- **Two workers find `CONNECT` clear.**  Two masks with `EPOLLOUT` are delivered, their
events come on two workers, and both handlers make the test before either sets the bit. -/
theorem announced_twice :
    ¬ ∀ n a em (acts : List (Act n)) s m,
      StepSystem.run (StepSystem.watch step note) (init a em, []) acts = some (s, m) →
        Announce.AtMostOnce m := by
  let acts : List (Act 2) :=
    .mask 4 :: [dispatchSteps 1 0, [.eio ⟨true, none, none⟩, .mask 4], dispatchSteps 2 1,
      List.replicate 10 (.work 0), List.replicate 10 (.work 1), [.handle 0 0, .handle 1 0,
      .frame 0 ⟨0, 0⟩, .frame 1 ⟨0, 0⟩, .frame 0 ⟨0, 0⟩, .frame 0 ⟨0, 0⟩, .frame 1 ⟨0, 0⟩,
      .frame 1 ⟨0, 0⟩]].flatten
  have hm : (StepSystem.run (StepSystem.watch step note) (init 1 2, []) acts).map (·.2) =
      some [.sockConnect, .sockConnect] := by
    decide +kernel
  obtain ⟨⟨s, m⟩, hrun, rfl⟩ := Option.map_eq_some_iff.1 hm
  exact fun h => Announce.not_atMostOnce_cons [] (h 2 1 2 acts s _ hrun)

/-! ### Where the condition is not met -/

theorem watch_frame {i : Fin n} {k : KernelWrite} {f : SockFrame} {sock : SockIo} {read : Bool}
    {f' : Option SockFrame} (hf : s.frames i = some f)
    (h : f.step s.sock s.read k = some (sock, read, f')) (m : List Announce) :
    StepSystem.watch step note (s, m) (.frame i k) =
      some ({ s with sock := sock, read := read, frames := Function.update s.frames i f' },
        (announces (some f)).toList ++ m) := by
  rw [StepSystem.watch_eq_some]
  refine ⟨?_, by rw [← hf]; rfl⟩
  rw [SockWorkers.step, hf, Option.bind_some, h]
  rfl

/-- A run that has found `CONNECT` clear goes on to call `sock_connect`. -/
theorem announce {i : Fin n} (hi : Announcing (s.frames i)) (m : List Announce) :
    ∃ acts t, StepSystem.run (StepSystem.watch step note) (s, m) acts =
        some (t, .sockConnect :: m) ∧ ∀ j, j ≠ i → t.frames j = s.frames j := by
  have hlast : ∀ {u : SockWorkers n}, u.frames i = some (.epollout .connected) →
      ∃ t, StepSystem.watch step note (u, m) (.frame i ⟨0, 0⟩) = some (t, .sockConnect :: m) ∧
        ∀ j, j ≠ i → t.frames j = u.frames j := fun hu =>
    ⟨_, watch_frame hu rfl m, fun j hj => Function.update_of_ne hj _ _⟩
  rcases hi with hi | hi
  · have hset := watch_frame (k := ⟨0, 0⟩) hi rfl m
    obtain ⟨t, ht, hother⟩ := hlast (u := { s with
      sock := { s.sock with connect := true }
      frames := Function.update s.frames i (some (.epollout .connected)) }) (by simp)
    refine ⟨[.frame i ⟨0, 0⟩, .frame i ⟨0, 0⟩], t,
      StepSystem.run_cons.2 ⟨_, hset, StepSystem.run_cons.2 ⟨_, ht, rfl⟩⟩, fun j hj => ?_⟩
    exact (hother j hj).trans (Function.update_of_ne hj _ _)
  · obtain ⟨t, ht, hother⟩ := hlast hi
    exact ⟨[.frame i ⟨0, 0⟩], t, StepSystem.run_cons.2 ⟨_, ht, rfl⟩, hother⟩

/-- **A step that is not `Alone` may be followed by a second announcement.** -/
theorem not_atMostOnce {i : Fin n} {k : KernelWrite} (h : ¬ s.Alone m (.frame i k)) :
    ∃ acts t m', StepSystem.run (StepSystem.watch step note) (s, m) acts = some (t, m') ∧
      ¬ Announce.AtMostOnce m' := by
  rw [Alone, Classical.not_imp, Classical.not_imp, not_and_or] at h
  obtain ⟨hi, hc, h⟩ := h
  -- the run makes its test
  have htest : (SockFrame.epollout .enter).step s.sock s.read k =
      some (s.sock, s.read, some (.epollout .connecting)) := by
    simp [SockFrame.step, HandlerFrame.step, hc]
  have hwatch := watch_frame hi htest m
  set u : SockWorkers n :=
    { s with frames := Function.update s.frames i (some (.epollout .connecting)) } with hu
  have hui : Announcing (u.frames i) := .inl (Function.update_self ..)
  rcases h with h | h
  · -- another run calls `sock_connect`, then this one
    obtain ⟨j, hj⟩ := not_forall.1 h
    have hj := Classical.not_not.1 hj
    have hji : j ≠ i := by
      rintro rfl
      rw [hi] at hj
      rcases hj with hj | hj <;> cases hj
    have huj : Announcing (u.frames j) := by
      rw [hu]
      dsimp only
      rwa [Function.update_of_ne hji]
    obtain ⟨acts, t, ht, hother⟩ := announce huj m
    have hti : Announcing (t.frames i) := by rwa [hother i hji.symm]
    obtain ⟨acts', t', ht', -⟩ := announce hti (.sockConnect :: m)
    refine ⟨.frame i k :: (acts ++ acts'), t', _, StepSystem.run_cons.2 ⟨_, hwatch, ?_⟩,
      Announce.not_atMostOnce_cons m⟩
    exact (StepSystem.run_append ht acts').trans ht'
  · obtain ⟨acts, t, ht, -⟩ := announce hui m
    refine ⟨.frame i k :: acts, t, _, StepSystem.run_cons.2 ⟨_, hwatch, ht⟩, ?_⟩
    obtain ⟨m', rfl⟩ := List.head?_eq_some_iff.1 (Classical.not_not.1 h)
    exact Announce.not_atMostOnce_cons m'

/-! ### One worker -/

/-- What one worker's run of a handler keeps: `CONNECT` is set when `sock_connect` is about to
be called, and also later, unless `sock_close` is about to be or has been. -/
structure Told (f : Option SockFrame) (connect : Bool) (m : List Announce) : Prop where
  connected : f = some (.epollout .connected) → connect = true
  settled : ¬ Announcing f → announces f ≠ some .sockClose → connect = false →
    m.head? ≠ some .sockConnect

/-- A run that announces nothing next. -/
theorem Told.quiet {f f' : Option SockFrame} {connect : Bool} (h : Told f connect m)
    (hf : ¬ Announcing f) (hclose : announces f ≠ some .sockClose) (hf' : ¬ Announcing f') :
    Told f' connect m :=
  ⟨fun e => absurd (.inr e) hf', fun _ _ => h.settled hf hclose⟩

theorem Told.step {f : SockFrame} {sock sock' : SockIo} {read read' : Bool} {k : KernelWrite}
    {f' : Option SockFrame} (h : Told (some f) sock.connect m)
    (hstep : f.step sock read k = some (sock', read', f')) :
    Told f' sock'.connect ((announces (some f)).toList ++ m) := by
  cases SockFrame.step_cases hstep with
  | epollout f s' f' l hf =>
    cases hf with
    | unconnected => exact ⟨(fun e => by cases e), fun hn => absurd (.inl rfl) hn⟩
    | connect => exact ⟨fun _ => rfl, fun hn => absurd (.inr rfl) hn⟩
    | connected =>
      refine ⟨(fun e => by cases e), fun _ _ hc => ?_⟩
      rw [h.connected rfl] at hc
      cases hc
    | _ =>
      exact h.quiet (by rintro (e | e) <;> cases e) (fun e => by cases e)
        (by rintro (e | e) <;> cases e)
  | epollin f read' f' hf =>
    refine h.quiet (by rintro (e | e) <;> cases e) (fun e => by cases e) ?_
    cases f' <;> rintro (e | e) <;> cases e
  | error | errorBack | closeBack =>
    exact h.quiet (by rintro (e | e) <;> cases e) (fun e => by cases e)
      (by rintro (e | e) <;> cases e)
  | hup => exact ⟨(fun e => by cases e), fun _ hn => absurd rfl hn⟩
  | close => exact ⟨(fun e => by cases e), (fun _ _ _ e => by cases e)⟩

/-- On one worker every step is `Alone`. -/
theorem Told.alone {s : SockWorkers 1} (h : Told (s.frames 0) s.sock.connect m) (a : Act 1) :
    s.Alone m a := by
  cases a with
  | frame i k =>
    intro hi hc
    rw [Subsingleton.elim i 0] at hi
    rw [hi] at h
    refine ⟨fun j hj => ?_, h.settled (by rintro (e | e) <;> cases e) (fun e => by cases e) hc⟩
    rw [Subsingleton.elim j 0, hi] at hj
    rcases hj with hj | hj <;> cases hj
  | _ => trivial

theorem Told.act {s t : SockWorkers 1} {a : Act 1} (h : Told (s.frames 0) s.sock.connect m)
    (hstep : SockWorkers.step s a = some t) :
    Told (t.frames 0) t.sock.connect (note s a t m) := by
  cases step_cases hstep with
  | writer f k hf sock f' l hw =>
    have hc : sock.connect = s.sock.connect := by cases hw <;> rfl
    show Told (s.frames 0) sock.connect m
    rw [hc]
    exact h
  | handle i ret hi e hh =>
    obtain rfl : i = 0 := Subsingleton.elim i 0
    rw [hi] at h
    show Told (Function.update s.frames 0 _ 0) _ _
    rw [Function.update_self]
    exact h.quiet (by rintro (e | e) <;> cases e) (fun e => by cases e) (not_announcing_begins 0)
  | frame i k f hf sock read f' hf' =>
    obtain rfl : i = 0 := Subsingleton.elim i 0
    show Told (Function.update s.frames 0 f' 0) sock.connect ((announces (s.frames 0)).toList ++ m)
    rw [Function.update_self, hf]
    rw [hf] at h
    exact h.step hf'
  | _ => exact h

/-- **One worker announces each connection once.** -/
theorem announced_once_alone {a em : ℕ} {acts : List (Act 1)} {s : SockWorkers 1}
    (hrun : StepSystem.run (StepSystem.watch step note) (init a em, []) acts = some (s, m)) :
    Announce.AtMostOnce m := by
  have hs : s.Announced m ∧ Told (s.frames 0) s.sock.connect m :=
    StepSystem.run_preserves (I := fun s => s.1.Announced s.2 ∧
      Told (s.1.frames 0) s.1.sock.connect s.2)
      (fun s a t hs h => by
        obtain ⟨ht, hn⟩ := StepSystem.watch_eq_some.1 h
        rw [hn]
        exact ⟨hs.1.step (hs.2.alone a) ht, hs.2.act ht⟩)
      ⟨announced_init a em, (fun e => by cases e), (fun _ _ _ e => by cases e)⟩ hrun
  exact hs.1.once

end SockWorkers
end EdpIo
