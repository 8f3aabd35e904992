/-
# The entries of the table

An entry of `sock_worker_cb` is meant to be there for a sock that is still in use and
whose `MONITOR` bit says so, or will as soon as the `edpnet_sock_set` that added it
goes on (`Entries`).  Only `edpnet_sock_destroy` breaks that: it zeroes `es_status`
before `sock_fini` tests the bit, so that `eio_delfd` is never called.  `Careful` are
the steps that leave that out.
-/

import EdpIo.Net.Frame

namespace EdpIo
namespace Call

variable {n : ℕ}

/-- The call is `edpnet_sock_set(a, ..)`, past `hset_add` and before `MONITOR` is set. -/
def publishes (a : ℕ) : Call n → Bool
  | .set b .polling | .set b .marking => b = a
  | _ => false

theorem sets_of_publishes {a : ℕ} {c : Call n} (h : c.publishes a = true) : c.sets a = true := by
  unfold publishes at h
  split at h
  · exact decide_eq_true (of_decide_eq_true h).symm
  · exact decide_eq_true (of_decide_eq_true h).symm
  · cases h

end Call

namespace Library

variable {n : ℕ}

/-- Calls that have added the entry of the sock at `a` and not set its bit. -/
def publishing (s : Library n) (a : ℕ) : ℕ := s.calls.countP (Call.publishes a)

/-- What a step of a call does to the number of calls that will set a bit. -/
theorem publishing_call {s : Library n} (t : Library n) {c : Call n} (c' : Option (Call n))
    (hc : c ∈ s.calls) (a : ℕ) :
    publishing { t with calls := c'.toList ++ s.calls.erase c } a +
        (if c.publishes a then 1 else 0) =
      s.publishing a + if c'.any (Call.publishes a) then 1 else 0 :=
  Pool.countP_swap hc c' (Call.publishes a)

/-- Without a call of `edpnet_sock_set` on the sock, none will set its bit. -/
theorem publishing_eq_zero {s : Library n} {a : ℕ} (h : ∀ c ∈ s.calls, c.sets a = false) :
    s.publishing a = 0 := by
  rw [publishing, List.countP_eq_zero]
  intro c hc hp
  have := Call.sets_of_publishes hp
  rw [h c hc] at this
  cases this

/-- The sock at `a` is in use, on the fd, and watched as far as it knows. -/
def Owns (s : Library n) (a fd : ℕ) : Prop :=
  s.usable a = true ∧
    ∃ k, s.socks.get? a = some k ∧ k.esSock = fd ∧ (k.monitor = true ∨ 0 < s.publishing a)

/-- The entries of `sock_worker_cb` are of socks that know of them. -/
structure Entries (s : Library n) : Prop where
  owned : ∀ fd e, s.fds fd = some e → e.ioeCb = .sockWorkerCb → s.Owns e.ioeData fd
  sets : ∀ c ∈ s.calls, ∀ a, c.sets a = true → s.usable a = true
  destroys : ∀ c ∈ s.calls, ∀ a, c.destroys a = true → ∃ k, s.socks.get? a = some k
  /-- `sock_fini` always finds the bit clear. -/
  zeroed : ∀ a k, .destroy a .fini ∈ s.calls → s.socks.get? a = some k → k.monitor = false

theorem entries_init : Entries (init : Library n) where
  owned := fun _ _ h => nomatch h
  sets := fun _ h => absurd h List.not_mem_nil
  destroys := fun _ h => absurd h List.not_mem_nil
  zeroed := fun _ _ h => absurd h List.not_mem_nil

/-- A sock is destroyed only with its `MONITOR` bit clear and no call that could set
it in progress. -/
def Careful (s : Library n) : Act n → Prop
  | .destroy a =>
    (∀ k, s.socks.get? a = some k → k.monitor = false) ∧ ∀ c ∈ s.calls, c.sets a = false
  | _ => True

/-! ### Steps that leave the socks alone -/

theorem Owns.keep {s t : Library n} {a fd : ℕ} (h : s.Owns a fd) (hf : Frame s t)
    (hm : ∀ k l, s.socks.get? a = some k → t.socks.get? a = some l →
      k.monitor = true ∨ 0 < s.publishing a → l.monitor = true ∨ 0 < t.publishing a) :
    t.Owns a fd := by
  obtain ⟨hu, k, hk, hfd, hor⟩ := h
  obtain ⟨l, hl, hids⟩ := hf.get?_back hk
  exact ⟨(hf.usable a).trans hu, l, hl, (congrArg Prod.fst hids).trans hfd, hm k l hk hl hor⟩

theorem Entries.of_frame {s t : Library n} (hs : s.Entries) (hf : Frame s t)
    (howned : ∀ fd e, t.fds fd = some e → e.ioeCb = .sockWorkerCb → t.Owns e.ioeData fd)
    (hzeroed : ∀ a k, .destroy a .fini ∈ t.calls → t.socks.get? a = some k → k.monitor = false) :
    t.Entries where
  owned := howned
  sets := by
    intro c hc a hca
    rw [hf.usable]
    rcases hf.sets c hc a hca with ⟨d, hd, hda⟩ | hu
    · exact hs.sets d hd a hda
    · exact hu
  destroys := by
    intro c hc a hca
    obtain ⟨d, hd, hda⟩ := hf.destroys c hc a hca
    obtain ⟨k, hk⟩ := hs.destroys d hd a hda
    obtain ⟨l, hl, -⟩ := hf.get?_back hk
    exact ⟨l, hl⟩
  zeroed := hzeroed

/-- A step that changes neither a bit nor who sets one, and adds no entry of a sock. -/
theorem Entries.of_same {s t : Library n} (hs : s.Entries) (hf : Frame s t)
    (hfds : ∀ fd e, t.fds fd = some e → e.ioeCb = .sockWorkerCb →
      ∃ e', s.fds fd = some e' ∧ e'.ioeCb = .sockWorkerCb ∧ e'.ioeData = e.ioeData)
    (hbit : ∀ a k l, s.socks.get? a = some k → t.socks.get? a = some l → l.monitor = k.monitor)
    (hpub : ∀ a, t.publishing a = s.publishing a)
    (hfini : ∀ a, .destroy a .fini ∈ t.calls → .destroy a .fini ∈ s.calls) : t.Entries := by
  refine hs.of_frame hf (fun fd e he hcb => ?_) (fun a l hd hl => ?_)
  · obtain ⟨e', he', hcb', hd⟩ := hfds fd e he hcb
    rw [← hd]
    refine (hs.owned fd e' he' hcb').keep hf fun k l hk hl => ?_
    rw [hbit _ k l hk hl, hpub]
    exact id
  · obtain ⟨k, hk, -⟩ := hf.get? hl
    rw [hbit a k l hk hl]
    exact hs.zeroed a k (hfini a hd) hk

/-- A step that changes the entry of the sock at `b`, and leaves the socks alone. -/
theorem Entries.of_entry {s t : Library n} {b : ℕ} {l : NetSock} {o : Option EioEvent}
    (hs : s.Entries) (hf : Frame s t) (hfds : t.fds = Function.update s.fds l.esSock o)
    (hget : ∀ a, t.socks.get? a = s.socks.get? a) (hu : s.usable b = true)
    (hl : s.socks.get? b = some l) (ho : ∀ e, o = some e → e.ioeData = b ∧ 0 < t.publishing b)
    (hpub : ∀ a, a ≠ b → t.publishing a = s.publishing a)
    (hfini : ∀ a, .destroy a .fini ∈ t.calls → .destroy a .fini ∈ s.calls) : t.Entries := by
  refine hs.of_frame hf (fun fd e he hcb => ?_) fun a k hc hk =>
    hs.zeroed a k (hfini a hc) ((hget a).symm.trans hk)
  by_cases hfd : fd = l.esSock
  · subst hfd
    rw [hfds, Function.update_self] at he
    obtain ⟨hd, hpos⟩ := ho e he
    rw [hd]
    exact ⟨(hf.usable b).trans hu, l, (hget b).trans hl, rfl, .inr hpos⟩
  · rw [hfds, Function.update_of_ne hfd] at he
    have hown := hs.owned fd e he hcb
    refine hown.keep hf fun k k' hk hk' => ?_
    rw [hget, hk] at hk'
    obtain rfl := Option.some.inj hk'
    rw [hpub]
    · exact id
    · -- the only entry of a sock is that of its fd
      intro hd
      obtain ⟨-, k', hk', hfd', -⟩ := hown
      rw [hd, hl] at hk'
      obtain rfl := Option.some.inj hk'
      exact hfd hfd'.symm

/-- A write that keeps the bit of a sock keeps those of all. -/
theorem monitor_of_modify {h : BlockHeap NetSock} {b a : ℕ} {f : NetSock → NetSock} {k l : NetSock}
    (hf : a = b → (f k).monitor = k.monitor) (hk : h.get? a = some k)
    (hl : (h.modify b f).get? a = some l) : l.monitor = k.monitor := by
  obtain ⟨k', hk', hor⟩ := BlockHeap.get?_modify_eq_some hl
  obtain rfl : k = k' := Option.some.inj (hk.symm.trans hk')
  rcases hor with ⟨hab, rfl⟩ | ⟨-, rfl⟩
  · exact hf hab
  · rfl

/-- A step that sets the bit of a sock in use. -/
theorem Entries.of_mark {s t : Library n} {b : ℕ} (hs : s.Entries) (hf : Frame s t)
    (hfds : t.fds = s.fds) (hsocks : t.socks = s.socks.modify b NetSock.mark)
    (hb : s.usable b = true) (hpub : ∀ a, a ≠ b → t.publishing a = s.publishing a)
    (hfini : ∀ a, .destroy a .fini ∈ t.calls → .destroy a .fini ∈ s.calls) : t.Entries := by
  refine hs.of_frame hf (fun fd e he hcb => ?_) (fun a l hd hl => ?_)
  · refine (hs.owned fd e (hfds ▸ he) hcb).keep hf fun k l hk hl => ?_
    rw [hsocks] at hl
    by_cases hab : e.ioeData = b
    · obtain ⟨_, -, ⟨-, rfl⟩ | ⟨hne, -⟩⟩ := BlockHeap.get?_modify_eq_some hl
      · exact fun _ => .inl rfl
      · exact absurd hab hne
    · rw [monitor_of_modify (fun h => absurd h hab) hk hl, hpub _ hab]
      exact id
  · have hda := hfini a hd
    have hab : a ≠ b := by
      rintro rfl
      rw [not_usable_of_destroys hda (decide_eq_true rfl)] at hb
      cases hb
    obtain ⟨k, hk, -⟩ := hf.get? hl
    rw [hsocks] at hl
    rw [monitor_of_modify (fun h => absurd h hab) hk hl]
    exact hs.zeroed a k hda hk

/-- A step that zeroes the status of a sock under destruction. -/
theorem Entries.of_zero {s t : Library n} {b : ℕ} (hs : s.Entries) (hf : Frame s t)
    (hfds : t.fds = s.fds) (hsocks : t.socks = s.socks.modify b NetSock.zero)
    (hb : s.usable b = false) (hpub : ∀ a, t.publishing a = s.publishing a)
    (hfini : ∀ a, .destroy a .fini ∈ t.calls → b = a ∨ .destroy a .fini ∈ s.calls) :
    t.Entries := by
  refine hs.of_frame hf (fun fd e he hcb => ?_) (fun a l hd hl => ?_)
  · have ho := hs.owned fd e (hfds ▸ he) hcb
    have hne : e.ioeData ≠ b := by
      intro hd
      have hu := ho.1
      rw [hd, hb] at hu
      cases hu
    refine ho.keep hf fun k l hk hl => ?_
    rw [hsocks] at hl
    rw [monitor_of_modify (fun h => absurd h hne) hk hl, hpub]
    exact id
  · rw [hsocks] at hl
    obtain ⟨k, hk, ⟨-, rfl⟩ | ⟨hne, rfl⟩⟩ := BlockHeap.get?_modify_eq_some hl
    · rfl
    · exact hs.zeroed a _ ((hfini a hd).resolve_left (Ne.symm hne)) hk

/-- **A step of a call keeps the entries.** -/
theorem Entries.call {s t : Library n} {c : Call n} {c' : Option (Call n)} (hs : s.Entries)
    (hc : c ∈ s.calls) (h : c.Step s t c') :
    Entries { t with calls := c'.toList ++ s.calls.erase c } := by
  have hf := frame_call hc h
  have hpub := fun a => publishing_call t c' hc a
  have hfini : ∀ a, .destroy a .fini ∈ c'.toList ++ s.calls.erase c →
      c' = some (.destroy a .fini) ∨ .destroy a .fini ∈ s.calls := fun a => Pool.mem_swap
  cases h with
  | watched b cbs data k hk hm | unwatched b cbs data k hk hm =>
    refine hs.of_same hf (fun _ e he hcb => ⟨e, he, hcb, rfl⟩) (fun a k l hk hl => ?_)
      (fun a => ?_) (fun a hd => ?_)
    · exact monitor_of_modify (fun _ => rfl) hk hl
    · simpa [Call.publishes] using hpub a
    · simpa using hfini a hd
  | mark b =>
    refine hs.of_mark hf rfl rfl (hs.sets _ hc b (decide_eq_true rfl)) (fun a hab => ?_)
      (fun a hd => ?_)
    · simpa [Call.publishes, Ne.symm hab] using hpub a
    · simpa using hfini a hd
  | zero b =>
    refine hs.of_zero hf rfl rfl (not_usable_of_destroys hc (decide_eq_true rfl)) (fun a => ?_)
      (fun a hd => ?_)
    · simpa [Call.publishes] using hpub a
    · simpa using hfini a hd
  | unwatch b k hk hm =>
    rw [hs.zeroed b k hc hk] at hm
    cases hm
  | add b k hk hfd =>
    refine hs.of_entry hf rfl (fun _ => rfl) (hs.sets _ hc b (decide_eq_true rfl)) hk
      (fun e he => ?_) (fun a hab => ?_) (fun a hd => ?_)
    · obtain rfl := Option.some.inj he
      have hpb := hpub b
      simp [Call.publishes] at hpb ⊢
      omega
    · simpa [Call.publishes, Ne.symm hab] using hpub a
    · simpa using hfini a hd
  | poll b k hk =>
    refine hs.of_same hf (fun fd e he hcb => ?_) (fun a k l hk hl => ?_) (fun a => ?_)
      (fun a hd => ?_)
    · by_cases hfd : fd = k.esSock
      · subst hfd
        obtain ⟨e', he', rfl⟩ := Option.map_eq_some_iff.1
          ((Function.update_self (f := s.fds) _ _).symm.trans he)
        exact ⟨e', he', hcb, rfl⟩
      · exact ⟨e, (Function.update_of_ne hfd _ _).symm.trans he, hcb, rfl⟩
    · rw [Option.some.inj (hk.symm.trans hl)]
    · simpa [Call.publishes] using hpub a
    · simpa using hfini a hd
  | unpoll b k hk =>
    refine hs.of_entry hf rfl (fun _ => rfl) (hs.sets _ hc b (decide_eq_true rfl)) hk
      (fun e he => nomatch he) (fun a hab => ?_) (fun a hd => ?_)
    · simpa [Call.publishes, Ne.symm hab] using hpub a
    · simpa using hfini a hd
  | free b =>
    refine hs.of_same hf (fun _ e he hcb => ⟨e, he, hcb, rfl⟩) (fun a k l hk hl => ?_)
      (fun a => ?_) (fun a hd => ?_)
    · have hl : (s.socks.free b).get? a = some l := hl
      rw [BlockHeap.get?_free, hk] at hl
      rw [Option.some.inj hl]
    · simpa [Call.publishes] using hpub a
    · simpa using hfini a hd
  | _ =>
    refine hs.of_same hf (fun _ e he hcb => ⟨e, he, hcb, rfl⟩) (fun a k l hk hl => ?_)
      (fun a => ?_) (fun a hd => ?_)
    · rw [Option.some.inj (hk.symm.trans hl)]
    · simpa [Call.publishes] using hpub a
    · simpa using hfini a hd

/-! ### Steps of the callers -/

/-- No call and no entry knows of a sock that is not in use. -/
theorem Entries.unknown {s : Library n} (hs : s.Entries) {a : ℕ} (ha : s.usable a = false) :
    s.publishing a = 0 ∧ ∀ fd e, s.fds fd = some e → e.ioeCb = .sockWorkerCb → e.ioeData ≠ a := by
  refine ⟨publishing_eq_zero fun c hc => Bool.eq_false_iff.2 fun hset => ?_,
    fun fd e he hcb hd => ?_⟩
  · have hu := hs.sets c hc a hset
    rw [ha] at hu
    cases hu
  · have hu := (hs.owned fd e he hcb).1
    rw [hd, ha] at hu
    cases hu

theorem Entries.usable_new {s t : Library n} {b : ℕ} {l : NetSock} (hs : s.Entries)
    (hn : NewSock s t b l) : t.usable b = true := by
  refine hn.usable_self fun c hc => Bool.eq_false_iff.2 fun hd => ?_
  obtain ⟨k, hk⟩ := hs.destroys c hc b hd
  exact absurd rfl (hn.ne hk)

/-- A step that allocates a sock. -/
theorem Entries.of_new {s t : Library n} {b : ℕ} {l : NetSock} (hs : s.Entries)
    (hn : NewSock s t b l) (hfds : t.fds = s.fds) : t.Entries := by
  refine ⟨fun fd e he hcb => ?_, fun c hc a hca => ?_, fun c hc a hca => ?_, fun a k hc hk => ?_⟩
  · obtain ⟨hu, k, hk, hfd, hor⟩ := hs.owned fd e (hfds ▸ he) hcb
    refine ⟨(hn.usable_of_ne (hn.ne hk)).trans hu, k, hn.get?_back hk, hfd, ?_⟩
    rw [publishing, hn.countP fun _ _ => rfl]
    exact hor
  · rcases hn.mem_calls hc with ⟨_, _, rfl⟩ | hc
    · obtain rfl : b = a := (of_decide_eq_true hca).symm
      exact hs.usable_new hn
    · have hu := hs.sets c hc a hca
      obtain ⟨k, hk⟩ := exists_get?_of_usable hu
      exact (hn.usable_of_ne (hn.ne hk)).trans hu
  · rcases hn.mem_calls hc with ⟨_, _, rfl⟩ | hc
    · cases hca
    · obtain ⟨k, hk⟩ := hs.destroys c hc a hca
      exact ⟨k, hn.get?_back hk⟩
  · rcases hn.mem_calls hc with ⟨_, _, h⟩ | hc
    · cases h
    · obtain ⟨k', hk'⟩ := hs.destroys _ hc a (decide_eq_true rfl)
      rw [hn.get?_back hk'] at hk
      obtain rfl := Option.some.inj hk
      exact hs.zeroed a k' hc hk'

/-- A sock whose bit is clear, and will not be set, has no entry. -/
theorem Entries.no_entry {s : Library n} (hs : s.Entries) {b : ℕ}
    (hc : s.Careful (.destroy b)) (fd : ℕ) (e : EioEvent) (he : s.fds fd = some e)
    (hcb : e.ioeCb = .sockWorkerCb) : e.ioeData ≠ b := by
  rintro rfl
  obtain ⟨-, k, hk, -, hor⟩ := hs.owned fd e he hcb
  rw [hc.1 k hk, publishing_eq_zero hc.2] at hor
  simp at hor

/-- The destruction of a sock with its bit clear begins. -/
theorem Entries.of_destroy {s : Library n} {b : ℕ} (hs : s.Entries) (hu : s.usable b = true)
    (hc : s.Careful (.destroy b)) : Entries { s with calls := .destroy b .zeroing :: s.calls } := by
  have hkeep : ∀ a, a ≠ b → s.usable a = true →
      usable { s with calls := .destroy b .zeroing :: s.calls } a = true := by
    intro a hab ha
    rw [usable_destroy, ha, decide_eq_true hab]
    rfl
  refine ⟨fun fd e he hcb => ?_, fun c hcc a hca => ?_, fun c hcc a hca => ?_, fun a k hcc hk => ?_⟩
  · obtain ⟨hua, h⟩ := hs.owned fd e he hcb
    exact ⟨hkeep _ (hs.no_entry hc fd e he hcb) hua, h⟩
  · rcases List.mem_cons.1 hcc with rfl | hmem
    · cases hca
    · refine hkeep a ?_ (hs.sets c hmem a hca)
      rintro rfl
      rw [hc.2 c hmem] at hca
      cases hca
  · rcases List.mem_cons.1 hcc with rfl | hmem
    · obtain rfl : b = a := (of_decide_eq_true hca).symm
      obtain ⟨k, hk⟩ := exists_get?_of_usable hu
      exact ⟨k, hk⟩
    · exact hs.destroys c hmem a hca
  · rcases List.mem_cons.1 hcc with h | hcc
    · cases h
    · exact hs.zeroed a k hcc hk

/-- **The entries are sound in every careful run.** -/
theorem Entries.step {s t : Library n} {a : Act n} (hs : s.Entries) (hc : s.Careful a)
    (h : s.Step a t) : t.Entries := by
  have hsame : ∀ (a : ℕ) (k l : NetSock), s.socks.get? a = some k → s.socks.get? a = some l →
      l.monitor = k.monitor := by
    intro a k l hk hl
    rw [Option.some.inj (hk.symm.trans hl)]
  cases h with
  | create b em fd cbs data hb hem h0 hfd =>
    exact hs.of_new (b := b) ⟨hb, rfl, .inr ⟨cbs, data, rfl⟩⟩ rfl
  | accept b fd hb hfd => exact hs.of_new (b := b) ⟨hb, rfl, .inl rfl⟩ rfl
  | servCreate v fd hfd hf =>
    refine hs.of_same (frame_rest rfl rfl) (fun fd' e he hcb => ?_) hsame (fun _ => rfl)
      fun _ h => h
    by_cases h : fd' = fd
    · subst h
      obtain rfl := Option.some.inj ((Function.update_self (f := s.fds) _ _).symm.trans he)
      cases hcb
    · exact ⟨e, (Function.update_of_ne h _ _).symm.trans he, hcb, rfl⟩
  | servDestroy fd e he hcb =>
    refine hs.of_same (frame_rest rfl rfl) (fun fd' e' he' hcb' => ?_) hsame (fun _ => rfl)
      fun _ h => h
    by_cases h : fd' = fd
    · subst h
      cases (Function.update_self (f := s.fds) _ _).symm.trans he'
    · exact ⟨e', (Function.update_of_ne h _ _).symm.trans he', hcb', rfl⟩
  | set b cbs data hu =>
    refine hs.of_same (frame_cons (fun a ha => ?_) fun _ => rfl)
      (fun _ e he hcb => ⟨e, he, hcb, rfl⟩) hsame (fun a => ?_) (fun a hd => ?_)
    · obtain rfl : b = a := (of_decide_eq_true ha).symm
      exact hu
    · exact List.countP_cons_of_neg (by simp [Call.publishes])
    · simpa using hd
  | destroy b hu => exact hs.of_destroy hu hc
  | write b hu | deliver fd events b hf =>
    refine hs.of_same (frame_cons (fun a ha => nomatch ha) fun _ => rfl)
      (fun _ e he hcb => ⟨e, he, hcb, rfl⟩) hsame (fun a => ?_) (fun a hd => ?_)
    · exact List.countP_cons_of_neg (by simp [Call.publishes])
    · simpa using hd
  | call c o hcc u c' h => exact hs.call hcc h
  | work i e h | handle i ret e h | post i ev p hp hh | wake i =>
    exact hs.of_same (frame_rest rfl rfl) (fun _ e he hcb => ⟨e, he, hcb, rfl⟩) hsame (fun _ => rfl)
      (fun _ h => h)

end Library
end EdpIo
