/-
# Registration follows the sock's life

Three things say that `eio` watches a sock: the entry of its fd in the table, the
`MONITOR` bit, and a call of `edpnet_sock_set` that has added the entry and not set
the bit yet.  `edpnet_sock_destroy` zeroes `es_status` before `sock_fini` tests the
bit, so `eio_delfd` is never called and the entry stays behind when the sock is freed
(`destroy_leaves_registration`).

The other defect is in `edpnet_sock_set`: when `eio_addfd` fails it closes the fd of
a sock that lives on, so that the kernel may give its number to another.  In the runs
that keep clear of both, registration, bit and life agree whenever no call is
changing them (`registration_follows`); in between they do so up to the calls in
progress (`Registry`).
-/

import EdpIo.Net.Entries

namespace EdpIo

/-- The entry is that of the sock at `a`. -/
def EioEvent.isSock (a : ℕ) (e : EioEvent) : Bool := e.ioeCb = .sockWorkerCb ∧ e.ioeData = a

/-- A server's entry is no sock's. -/
theorem any_isSock_eq_false {o : Option EioEvent} (h : ∀ e, o = some e → e.ioeCb = .servWorkerCb)
    (a : ℕ) : o.any (EioEvent.isSock a) = false := by
  rw [Option.any_eq_false]
  refine fun e he => Bool.eq_false_iff.2 fun hsock => ?_
  have hcb := (of_decide_eq_true hsock).1
  rw [h e he] at hcb
  cases hcb

namespace Library

variable {n : ℕ}

/-- No call that changes the registration of the sock is in progress. -/
def Settled (s : Library n) (a : ℕ) : Prop :=
  ∀ c ∈ s.calls, c.sets a = false ∧ c.destroys a = false

/-- Every fd registered for a sock is that of the live sock that is its data, so that
none is left for a freed one, and a live sock has its `MONITOR` bit set exactly when its
fd is registered for a sock, unless a call is changing that. -/
structure Follows (s : Library n) : Prop where
  registered : ∀ fd e, s.fds fd = some e → e.ioeCb = .sockWorkerCb →
    s.socks.isLive e.ioeData = true ∧ ∃ k, s.socks.get? e.ioeData = some k ∧ k.esSock = fd
  monitored : ∀ a k, s.Settled a → s.socks.isLive a = true → s.socks.get? a = some k →
    (k.monitor = true ↔ ∃ e, s.fds k.esSock = some e ∧ e.ioeCb = .sockWorkerCb)

/-- A sock is destroyed only with its `MONITOR` bit clear and no call that could set
it in progress, and a new sock gets no fd number that one in use still carries. -/
def Orderly (s : Library n) (a : Act n) : Prop :=
  s.Careful a ∧
    match a with
    | .create _ _ fd _ _ | .accept _ fd =>
      ∀ b k, s.usable b = true → s.socks.get? b = some k → k.esSock ≠ fd
    | _ => True

/-- The sock has an entry exactly when its bit is set or a call will set it, and never
both. -/
def Marked (s : Library n) (a : ℕ) (k : NetSock) : Prop :=
  s.publishing a + (if k.monitor then 1 else 0) =
    if (s.fds k.esSock).any (EioEvent.isSock a) then 1 else 0

theorem Marked.le {s : Library n} {a : ℕ} {k : NetSock} (h : s.Marked a k) :
    s.publishing a + (if k.monitor then 1 else 0) ≤ 1 := by
  rw [Marked] at h
  rw [h]
  split <;> omega

/-- Registrations, bits and lives agree up to the calls in progress. -/
structure Registry (s : Library n) : Prop extends Entries s where
  marked : ∀ a k, s.usable a = true → s.socks.get? a = some k → s.Marked a k
  distinct : ∀ a b k l, s.usable a = true → s.usable b = true → s.socks.get? a = some k →
    s.socks.get? b = some l → k.esSock = l.esSock → a = b

theorem registry_init : Registry (init : Library n) where
  toEntries := entries_init
  marked := fun _ _ h => absurd h (by simp [usable, init])
  distinct := fun _ _ _ _ h => absurd h (by simp [usable, init])

/-- The fds stay distinct in every step that leaves the socks alone. -/
theorem Registry.of_frame {s t : Library n} (hs : s.Registry) (ht : t.Entries) (hf : Frame s t)
    (hmarked : ∀ a k l, s.usable a = true → s.socks.get? a = some k → t.socks.get? a = some l →
      l.esSock = k.esSock → t.Marked a l) : t.Registry where
  toEntries := ht
  marked := by
    intro a l ha hl
    obtain ⟨k, hk, hids⟩ := hf.get? hl
    exact hmarked a k l ((hf.usable a).symm.trans ha) hk hl (congrArg Prod.fst hids).symm
  distinct := by
    intro a b k l ha hb hk hl hkl
    obtain ⟨k', hk', hidk⟩ := hf.get? hk
    obtain ⟨l', hl', hidl⟩ := hf.get? hl
    refine hs.distinct a b k' l' ((hf.usable a).symm.trans ha) ((hf.usable b).symm.trans hb) hk'
      hl' ?_
    exact ((congrArg Prod.fst hidk).trans hkl).trans (congrArg Prod.fst hidl).symm

/-- A step that leaves the table alone has to account for the bits it changes. -/
theorem Registry.of_bits {s t : Library n} (hs : s.Registry) (ht : t.Entries) (hf : Frame s t)
    (hfds : t.fds = s.fds)
    (hbits : ∀ a k l, s.usable a = true → s.socks.get? a = some k → t.socks.get? a = some l →
      t.publishing a + (if l.monitor then 1 else 0) =
        s.publishing a + if k.monitor then 1 else 0) : t.Registry := by
  refine hs.of_frame ht hf fun a k l ha hk hl hfd => ?_
  rw [Marked, hbits a k l ha hk hl, hfds, hfd]
  exact hs.marked a k ha hk

/-- A step that changes no registration, no bit and nothing a call will do about them. -/
theorem Registry.of_same {s t : Library n} (hs : s.Registry) (ht : t.Entries) (hf : Frame s t)
    (hfds : t.fds = s.fds) (hpub : ∀ a, t.publishing a = s.publishing a)
    (hmon : ∀ a k l, s.usable a = true → s.socks.get? a = some k → t.socks.get? a = some l →
      l.monitor = k.monitor) : t.Registry := by
  refine hs.of_bits ht hf hfds fun a k l ha hk hl => ?_
  rw [hpub a, hmon a k l ha hk hl]

/-- A step that changes the entry of one fd, that of the usable sock at `b` if there is
one, and leaves the socks alone. -/
theorem Registry.of_entry {s t : Library n} {b : ℕ} {l : NetSock} {o : Option EioEvent}
    (hs : s.Registry) (ht : t.Entries) (hf : Frame s t)
    (hfds : t.fds = Function.update s.fds l.esSock o)
    (hget : ∀ a, t.socks.get? a = s.socks.get? a) (hu : s.usable b = true)
    (hl : s.socks.get? b = some l) (ho : ∀ e, o = some e → e.isSock b = true)
    (hpub : ∀ a, a ≠ b → t.publishing a = s.publishing a)
    (hb : t.publishing b + (if l.monitor then 1 else 0) = if o.isSome then 1 else 0) :
    t.Registry := by
  refine hs.of_frame ht hf fun a k k' ha hk hk' _ => ?_
  rw [hget, hk] at hk'
  obtain rfl := Option.some.inj hk'
  by_cases hab : a = b
  · subst hab
    obtain rfl : l = k := Option.some.inj (hl.symm.trans hk)
    rw [Marked, hb, hfds, Function.update_self]
    cases o with
    | none => rfl
    | some e => simp [ho e rfl]
  · -- another usable sock has another fd
    have hne : k.esSock ≠ l.esSock := fun h => hab (hs.distinct a b k l ha hu hk hl h)
    rw [Marked, hpub a hab, hfds, Function.update_of_ne hne]
    exact hs.marked a k ha hk

/-- A call that has added the entry of its sock and not set the bit is alone in that. -/
theorem Registry.published {s : Library n} (hs : s.Registry) {b : ℕ} {c : Call n} {k : NetSock}
    (hc : c ∈ s.calls) (hp : c.publishes b = true) (hu : s.usable b = true)
    (hk : s.socks.get? b = some k) :
    s.publishing b = 1 ∧ k.monitor = false ∧
      ∃ e, s.fds k.esSock = some e ∧ e.isSock b = true := by
  have hpos : 0 < s.publishing b := List.countP_pos_iff.2 ⟨c, hc, hp⟩
  have hm := hs.marked b k hu hk
  have hle := hm.le
  have hmon : k.monitor = false := by
    cases h : k.monitor
    · rfl
    · rw [h, if_pos rfl] at hle
      omega
  refine ⟨by omega, hmon, ?_⟩
  rw [← Option.any_eq_true]
  rw [Marked, hmon] at hm
  by_contra hany
  rw [if_neg hany] at hm
  omega

/-- **A step of a call keeps the registry.** -/
theorem Registry.call {s t : Library n} {c : Call n} {c' : Option (Call n)} (hs : s.Registry)
    (hc : c ∈ s.calls) (h : c.Step s t c') :
    Registry { t with calls := c'.toList ++ s.calls.erase c } := by
  have ht := hs.toEntries.call hc h
  have hf := frame_call hc h
  have hpub := fun a => publishing_call t c' hc a
  cases h with
  | watched b cbs data k hk hm | unwatched b cbs data k hk hm =>
    refine hs.of_same ht hf rfl (fun a => by simpa [Call.publishes] using hpub a)
      fun a k l _ hk hl => ?_
    exact monitor_of_modify (fun _ => rfl) hk hl
  | mark b =>
    refine hs.of_bits ht hf rfl fun a k l ha hk hl => ?_
    have hpa := hpub a
    obtain ⟨k', hk', hor⟩ := BlockHeap.get?_modify_eq_some hl
    obtain rfl := Option.some.inj (hk.symm.trans hk')
    rcases hor with ⟨rfl, rfl⟩ | ⟨hne, rfl⟩
    · -- one call is about to set the bit, so that it is not set yet
      have hmon := (hs.published hc (decide_eq_true rfl) ha hk).2.1
      simp [Call.publishes, NetSock.mark, hmon] at hpa ⊢
      omega
    · simp [Call.publishes, Ne.symm hne] at hpa ⊢
      omega
  | zero b =>
    refine hs.of_same ht hf rfl (fun a => by simpa [Call.publishes] using hpub a)
      fun a k l ha hk hl => ?_
    have hne : a ≠ b := by
      rintro rfl
      rw [not_usable_of_destroys hc (decide_eq_true rfl)] at ha
      cases ha
    exact monitor_of_modify (fun h => absurd h hne) hk hl
  | unwatch b k hk hm =>
    rw [hs.zeroed b k hc hk] at hm
    cases hm
  | add b k hk hfd =>
    have hu := hs.sets _ hc b (decide_eq_true rfl)
    have hm : s.publishing b + (if k.monitor then 1 else 0) = 0 := by
      rw [hs.marked b k hu hk, hfd]
      rfl
    refine hs.of_entry ht hf rfl (fun _ => rfl) hu hk (fun e he => ?_) (fun a hab => ?_) ?_
    · obtain rfl := Option.some.inj he
      exact decide_eq_true ⟨rfl, rfl⟩
    · simpa [Call.publishes, Ne.symm hab] using hpub a
    · have hpb := hpub b
      simp [Call.publishes] at hpb ⊢
      omega
  | poll b k hk =>
    have hu := hs.sets _ hc b (decide_eq_true rfl)
    obtain ⟨hpos, hmon, e, he, hsock⟩ := hs.published hc (decide_eq_true rfl) hu hk
    refine hs.of_entry ht hf rfl (fun _ => rfl) hu hk (fun e' he' => ?_) (fun a hab => ?_) ?_
    · rw [he] at he'
      obtain rfl := Option.some.inj he'
      exact hsock
    · simpa [Call.publishes] using hpub a
    · have hpb := hpub b
      simp [Call.publishes, he, hmon] at hpb ⊢
      omega
  | unpoll b k hk =>
    have hu := hs.sets _ hc b (decide_eq_true rfl)
    obtain ⟨hpos, hmon, -⟩ := hs.published hc (decide_eq_true rfl) hu hk
    refine hs.of_entry ht hf rfl (fun _ => rfl) hu hk (fun e' he' => by cases he')
      (fun a hab => ?_) ?_
    · simpa [Call.publishes, Ne.symm hab] using hpub a
    · have hpb := hpub b
      simp [Call.publishes, hmon] at hpb ⊢
      omega
  | free b =>
    refine hs.of_same ht hf rfl (fun a => by simpa [Call.publishes] using hpub a)
      fun a k l _ hk hl => ?_
    have hl : (s.socks.free b).get? a = some l := hl
    rw [BlockHeap.get?_free, hk] at hl
    rw [Option.some.inj hl]
  | _ =>
    refine hs.of_same ht hf rfl (fun a => by simpa [Call.publishes] using hpub a)
      fun a k l _ hk hl => ?_
    rw [Option.some.inj (hk.symm.trans hl)]

/-- A step that allocates a sock, on an fd that no usable sock has. -/
theorem Registry.of_new {s t : Library n} {b : ℕ} {l : NetSock} (hs : s.Registry)
    (hn : NewSock s t b l) (hfds : t.fds = s.fds) (hl : l.monitor = false)
    (hfd : ∀ a k, s.usable a = true → s.socks.get? a = some k → k.esSock ≠ l.esSock) :
    t.Registry := by
  have hold : ∀ {a k}, t.usable a = true → t.socks.get? a = some k →
      (a = b ∧ k = l) ∨ (s.usable a = true ∧ s.socks.get? a = some k) := by
    intro a k ha hk
    rcases hn.get? hk with h | ⟨hab, hk⟩
    · exact .inl h
    · exact .inr ⟨(hn.usable_of_ne hab).symm.trans ha, hk⟩
  refine ⟨hs.toEntries.of_new hn hfds, fun a k ha hk => ?_, fun a c k m ha hc hk hm hkm => ?_⟩
  · rw [Marked, publishing, hn.countP fun _ _ => rfl, hfds]
    rcases hold ha hk with ⟨rfl, rfl⟩ | ⟨ha, hk⟩
    · have hnone : s.usable a = false := by
        rw [usable, BlockHeap.isLive, hn.fresh]
        rfl
      obtain ⟨hpub, hno⟩ := hs.unknown hnone
      have hany : (s.fds k.esSock).any (EioEvent.isSock a) = false := by
        rw [Option.any_eq_false]
        refine fun e he => Bool.eq_false_iff.2 fun hsock => ?_
        obtain ⟨hcb, hd⟩ := of_decide_eq_true hsock
        exact hno _ e he hcb hd
      rw [publishing] at hpub
      rw [hpub, hany, hl]
      rfl
    · exact hs.marked a k ha hk
  · rcases hold ha hk with ⟨rfl, rfl⟩ | ⟨ha, hk⟩ <;> rcases hold hc hm with ⟨rfl, rfl⟩ | ⟨hc, hm⟩
    · rfl
    · exact absurd hkm.symm (hfd c m hc hm)
    · exact absurd hkm (hfd a k ha hk)
    · exact hs.distinct a c k m ha hc hk hm hkm

/-- A step that registers a server or takes its entry away. -/
theorem Registry.of_serv {s t : Library n} {fd : ℕ} {o : Option EioEvent} (hs : s.Registry)
    (ht : t.Entries) (hsocks : t.socks = s.socks) (hcalls : t.calls = s.calls)
    (hfds : t.fds = Function.update s.fds fd o)
    (hold : ∀ e, s.fds fd = some e → e.ioeCb = .servWorkerCb)
    (hnew : ∀ e, o = some e → e.ioeCb = .servWorkerCb) : t.Registry := by
  refine hs.of_frame ht (frame_rest hsocks hcalls) fun a k l ha hk hl _ => ?_
  rw [hsocks, hk] at hl
  obtain rfl := Option.some.inj hl
  have hany : (t.fds k.esSock).any (EioEvent.isSock a) =
      (s.fds k.esSock).any (EioEvent.isSock a) := by
    rw [hfds]
    by_cases h : k.esSock = fd
    · rw [h, Function.update_self, any_isSock_eq_false hnew, any_isSock_eq_false hold]
    · rw [Function.update_of_ne h]
  rw [Marked, publishing, hcalls, hany]
  exact hs.marked a k ha hk

/-- **The registry is an invariant** of the runs that keep clear of the two defects. -/
theorem Registry.step {s t : Library n} {a : Act n} (hs : s.Registry) (ho : s.Orderly a)
    (h : s.Step a t) : t.Registry := by
  have ht := hs.toEntries.step ho.1 h
  cases h with
  | create b em fd cbs data hb hem h0 hfd =>
    exact hs.of_new (b := b) ⟨hb, rfl, .inr ⟨cbs, data, rfl⟩⟩ rfl rfl ho.2
  | accept b fd hb hfd => exact hs.of_new (b := b) ⟨hb, rfl, .inl rfl⟩ rfl rfl ho.2
  | servCreate v fd hfd hf =>
    refine hs.of_serv ht rfl rfl rfl (fun e he => ?_) (fun e he => ?_)
    · rw [hf] at he
      cases he
    · obtain rfl := Option.some.inj he
      rfl
  | servDestroy fd e he hcb =>
    refine hs.of_serv ht rfl rfl rfl (fun e' he' => ?_) (fun e' he' => by cases he')
    obtain rfl : e = e' := Option.some.inj (he.symm.trans he')
    exact hcb
  | set b cbs data hu =>
    refine hs.of_same ht (frame_cons (fun a ha => ?_) fun _ => rfl) rfl
      (fun _ => List.countP_cons_of_neg (by simp [Call.publishes])) fun a k l _ hk hl => ?_
    · obtain rfl : b = a := (of_decide_eq_true ha).symm
      exact hu
    · rw [Option.some.inj (hk.symm.trans hl)]
  | destroy b hu =>
    have hold : ∀ a, usable { s with calls := .destroy b .zeroing :: s.calls } a = true →
        s.usable a = true := by
      intro a ha
      rw [usable_destroy, Bool.and_eq_true] at ha
      exact ha.1
    refine ⟨ht, fun a k ha hk => hs.marked a k (hold a ha) hk, fun a c k m ha hc => ?_⟩
    exact hs.distinct a c k m (hold a ha) (hold c hc)
  | write b hu | deliver fd events b hf =>
    refine hs.of_same ht (frame_cons (fun a ha => by cases ha) fun _ => rfl) rfl
      (fun _ => List.countP_cons_of_neg (by simp [Call.publishes])) fun a k l _ hk hl => ?_
    rw [Option.some.inj (hk.symm.trans hl)]
  | call c o hc u c' h => exact hs.call hc h
  | work i e h | handle i ret e h | post i ev p hp hh | wake i =>
    refine hs.of_same ht (frame_rest rfl rfl) rfl (fun _ => rfl) fun a k l _ hk hl => ?_
    rw [Option.some.inj (hk.symm.trans hl)]

end Library
end EdpIo
