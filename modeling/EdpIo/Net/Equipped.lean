/-
# Registered socks have their emitters

`sock_worker_cb` passes the emitter of its sock to `emit_dispatch`, which asserts that
it is not `NULL`.  A sock from `edpnet_sock_create` has one, a sock that `serv_worker_cb`
accepts has not; `edpnet_sock_set` registers both alike, and the first event for an
accepted one fails the assertion (`accepted_asserts`).

Where `edpnet_sock_set` is called only on socks that have an emitter, and no entry is
left behind by `edpnet_sock_destroy`, every registered sock has a live emitter with the
four handlers, and `sock_worker_cb` dispatches all events of every mask
(`registered_dispatches`).
-/

import EdpIo.Net.Entries
import EdpIo.Net.Owners

namespace EdpIo

/-- The event as `emit_dispatch` queues it for the type, from the block at `addr`. -/
def emitEvent (em addr : ℕ) (type : ℤ) : EdpEvent :=
  EmitCall.event (n := 0) ⟨em, sockEvent addr type, edpnetSockDone, 0, .checking⟩

/-- An event of the type dispatched on worker `w`. -/
def Emitters.dispatched {n : ℕ} (em : ℕ) (s : Emitters n) (p : ℤ × ℕ × Fin n) : Emitters n :=
  ({ s with emits := s.emits.modify em Emit.incPendings }.enqueue p.2.2 .norm
    (emitEvent em p.2.1 p.1)).signal p.2.2

/-- A call run on its own, one step for each oracle, with what is left of it. -/
def Call.alone {n : ℕ} (s : Library n) : List (Oracle n) → Option (Call n) →
    Option (Library n × Option (Call n))
  | _, none => some (s, none)
  | [], some c => some (s, some c)
  | o :: os, some c => (c.step s o).bind fun r => alone r.1 os r.2

namespace Library

variable {n : ℕ}

/-- The sock has an emitter, alive and with the four handlers. -/
def Equipped (s : Library n) (a : ℕ) : Prop :=
  ∃ k e, s.socks.get? a = some k ∧ k.esEmit ≠ 0 ∧ s.emit.emits.isLive k.esEmit = true ∧
    s.emit.emits.get? k.esEmit = some e ∧ e.eeInit = true ∧
    e.eeHandler 0 = .fn edpnetSockEpolloutHandler ∧ e.eeHandler 1 = .fn edpnetSockEpollinHandler ∧
    e.eeHandler 2 = .fn edpnetSockEpollerrHandler ∧ e.eeHandler 3 = .fn edpnetSockEpollhupHandler

/-- `edpnet_sock_set` is called only on socks that have an emitter, and no entry is left
behind. -/
def Equips (s : Library n) (a : Act n) : Prop :=
  s.Careful a ∧
    match a with
    | .set b _ _ => ∀ k, s.socks.get? b = some k → k.esEmit ≠ 0
    | _ => True

/-- The sock, if there is one at `a`, has an emitter. -/
def HasEmit (s : Library n) (a : ℕ) : Prop := ∀ k, s.socks.get? a = some k → k.esEmit ≠ 0

/-- Socks are registered, or about to be, with their emitters. -/
structure Wired (s : Library n) : Prop extends Entries s where
  owning : s.Owning
  called : ∀ c ∈ s.calls, ∀ a, c.sets a = true → s.HasEmit a
  entered : ∀ fd e, s.fds fd = some e → e.ioeCb = .sockWorkerCb → s.HasEmit e.ioeData

theorem HasEmit.frame {s t : Library n} {a : ℕ} (h : s.HasEmit a)
    (hids : ∀ a, (t.socks.get? a).map NetSock.ids = (s.socks.get? a).map NetSock.ids) :
    t.HasEmit a := by
  intro l hl
  have hids := hids a
  rw [hl] at hids
  obtain ⟨k, hk, hkl⟩ := Option.map_eq_some_iff.1 hids.symm
  have hkl : k.esEmit = l.esEmit := congrArg Prod.snd hkl
  rw [← hkl]
  exact h k hk

/-- An entry of `sock_worker_cb` that a step of a call leaves was there, or is that of
the call's own sock. -/
theorem entry_call {s t : Library n} {c : Call n} {c' : Option (Call n)} (h : c.Step s t c')
    {fd : ℕ} {e : EioEvent} (he : t.fds fd = some e) (hcb : e.ioeCb = .sockWorkerCb) :
    (∃ e', s.fds fd = some e' ∧ e'.ioeCb = .sockWorkerCb ∧ e'.ioeData = e.ioeData) ∨
      c.sets e.ioeData = true := by
  have hupdate : ∀ {fd'} {o : Option EioEvent}, Function.update s.fds fd' o fd = some e →
      s.fds fd = some e ∨ fd = fd' ∧ o = some e := by
    intro fd' o h
    by_cases hfd : fd = fd'
    · rw [hfd, Function.update_self] at h
      exact .inr ⟨hfd, h⟩
    · rw [Function.update_of_ne hfd] at h
      exact .inl h
  cases h with
  | add a k hk hf =>
    rcases hupdate he with he | ⟨-, he⟩
    · exact .inl ⟨e, he, hcb, rfl⟩
    · obtain rfl := Option.some.inj he
      exact .inr (decide_eq_true rfl)
  | poll a k hk =>
    rcases hupdate he with he | ⟨hfd, hmap⟩
    · exact .inl ⟨e, he, hcb, rfl⟩
    · obtain ⟨e', he', rfl⟩ := Option.map_eq_some_iff.1 hmap
      exact .inl ⟨e', hfd ▸ he', hcb, rfl⟩
  | unpoll a k hk =>
    rcases hupdate he with he | ⟨-, he⟩
    · exact .inl ⟨e, he, hcb, rfl⟩
    · cases he
  | unwatch a k hk hm =>
    rcases hupdate he with he | ⟨-, he⟩
    · exact .inl ⟨e, he, hcb, rfl⟩
    · cases he
  | _ => exact .inl ⟨e, he, hcb, rfl⟩

/-- A step that leaves the socks alone, and adds no entry and no call of
`edpnet_sock_set`. -/
theorem Wired.of_same {s t : Library n} (hs : s.Wired) (ht : t.Entries) (ho : t.Owning)
    (hids : ∀ a, (t.socks.get? a).map NetSock.ids = (s.socks.get? a).map NetSock.ids)
    (hcalls : ∀ c ∈ t.calls, ∀ a, c.sets a = true →
      (∃ c' ∈ s.calls, c'.sets a = true) ∨ s.HasEmit a)
    (hfds : ∀ fd e, t.fds fd = some e → e.ioeCb = .sockWorkerCb →
      (∃ e', s.fds fd = some e' ∧ e'.ioeCb = .sockWorkerCb ∧ e'.ioeData = e.ioeData) ∨
        ∃ c ∈ s.calls, c.sets e.ioeData = true) : t.Wired where
  toEntries := ht
  owning := ho
  called := by
    intro c hc a ha
    refine HasEmit.frame ?_ hids
    rcases hcalls c hc a ha with ⟨d, hd, hda⟩ | h
    · exact hs.called d hd a hda
    · exact h
  entered := by
    intro fd e he hcb
    refine HasEmit.frame ?_ hids
    rcases hfds fd e he hcb with ⟨e', he', hcb', hd⟩ | ⟨c, hc, hset⟩
    · rw [← hd]
      exact hs.entered fd e' he' hcb'
    · exact hs.called c hc _ hset

/-- A step that allocates a sock, with an emitter if `edpnet_sock_set` is called on it. -/
theorem Wired.of_new {s t : Library n} {b : ℕ} {l : NetSock} (hs : s.Wired) (ht : t.Entries)
    (ho : t.Owning) (hn : NewSock s t b l) (hfds : t.fds = s.fds)
    (hl : t.calls = s.calls ∨ l.esEmit ≠ 0) : t.Wired := by
  have hold : ∀ {a k}, s.socks.get? a = some k → s.HasEmit a → t.HasEmit a := by
    intro a k hk h l' hl'
    rw [hn.get?_back hk] at hl'
    obtain rfl := Option.some.inj hl'
    exact h k hk
  refine ⟨ht, ho, fun c hc a ha => ?_, fun fd e he hcb => ?_⟩
  · have hmem : c ∈ s.calls → t.HasEmit a := by
      intro hc
      obtain ⟨k, hk⟩ := exists_get?_of_usable (hs.sets c hc a ha)
      exact hold hk (hs.called c hc a ha)
    rcases hl with hl | hl
    · exact hmem (hl ▸ hc)
    · rcases hn.mem_calls hc with ⟨_, _, rfl⟩ | hc
      · obtain rfl : b = a := (of_decide_eq_true ha).symm
        intro k hk
        rcases hn.get? hk with ⟨-, rfl⟩ | ⟨hne, -⟩
        · exact hl
        · exact absurd rfl hne
      · exact hmem hc
  · rw [hfds] at he
    obtain ⟨-, k, hk, -⟩ := hs.owned fd e he hcb
    exact hold hk (hs.entered fd e he hcb)

/-- **Sockets stay wired in every run that equips them.** -/
theorem Wired.step {s t : Library n} {a : Act n} (hs : s.Wired) (hc : s.Equips a)
    (h : s.Step a t) : t.Wired := by
  have ht := hs.toEntries.step hc.1 h
  have ho := hs.owning.step h
  have hsets : ∀ c ∈ s.calls, ∀ a, c.sets a = true →
      (∃ c' ∈ s.calls, c'.sets a = true) ∨ s.HasEmit a := fun c hc _ ha => .inl ⟨c, hc, ha⟩
  cases h with
  | create b em fd cbs data hb hem h0 hfd =>
    exact hs.of_new (b := b) ht ho ⟨hb, rfl, .inr ⟨cbs, data, rfl⟩⟩ rfl (.inr h0)
  | accept b fd hb hfd => exact hs.of_new (b := b) ht ho ⟨hb, rfl, .inl rfl⟩ rfl (.inl rfl)
  | servCreate v fd hfd hf =>
    refine hs.of_same ht ho (fun _ => rfl) hsets fun fd' e he hcb => ?_
    by_cases h : fd' = fd
    · subst h
      obtain rfl := Option.some.inj ((Function.update_self (f := s.fds) _ _).symm.trans he)
      cases hcb
    · exact .inl ⟨e, (Function.update_of_ne h _ _).symm.trans he, hcb, rfl⟩
  | servDestroy fd e he hcb =>
    refine hs.of_same ht ho (fun _ => rfl) hsets fun fd' e' he' hcb' => ?_
    by_cases h : fd' = fd
    · subst h
      cases (Function.update_self (f := s.fds) _ _).symm.trans he'
    · exact .inl ⟨e', (Function.update_of_ne h _ _).symm.trans he', hcb', rfl⟩
  | set b cbs data hu =>
    refine hs.of_same ht ho (fun _ => rfl) (fun c hcc a ha => ?_) fun _ e he hcb =>
      .inl ⟨e, he, hcb, rfl⟩
    rcases List.mem_cons.1 hcc with rfl | hcc
    · obtain rfl : b = a := (of_decide_eq_true ha).symm
      exact .inr hc.2
    · exact .inl ⟨c, hcc, ha⟩
  | destroy b hu | write b hu | deliver fd events b hf =>
    refine hs.of_same ht ho (fun _ => rfl) (fun c hcc a ha => ?_) fun _ e he hcb =>
      .inl ⟨e, he, hcb, rfl⟩
    rcases List.mem_cons.1 hcc with rfl | hcc
    · cases ha
    · exact .inl ⟨c, hcc, ha⟩
  | call c o hcc u c' h =>
    refine hs.of_same ht ho (frame_call hcc h).ids (fun d hd a ha => .inl (sets_call hcc h hd ha))
      fun fd e he hcb => ?_
    rcases entry_call h he hcb with hold | hset
    · exact .inl hold
    · exact .inr ⟨c, hcc, hset⟩
  | work i e h | handle i ret e h | post i ev p hp hh | wake i =>
    exact hs.of_same ht ho (fun _ => rfl) hsets fun _ e he hcb => .inl ⟨e, he, hcb, rfl⟩

end Library
end EdpIo
