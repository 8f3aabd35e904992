/-
# What the steps leave alone

A step of a call changes neither the fd nor the emitter of a sock, and leaves the
same socks usable: a sock is freed only by a call of `edpnet_sock_destroy` that made
it unusable when it began.  Calls of `edpnet_sock_set` and `edpnet_sock_destroy` on a
sock come only from callers, and from `edpnet_sock_create`.
-/

import EdpIo.Lib.Pool
import EdpIo.Net.Library

namespace EdpIo

/-- The fd and the emitter of a sock. -/
def NetSock.ids (k : NetSock) : ℕ × ℕ := (k.esSock, k.esEmit)

/-- A write that keeps the ids of a sock keeps those of all. -/
theorem ids_modify (h : BlockHeap NetSock) (a b : ℕ) {f : NetSock → NetSock}
    (hf : ∀ k, (f k).ids = k.ids) :
    ((h.modify a f).get? b).map NetSock.ids = (h.get? b).map NetSock.ids := by
  by_cases hb : b = a
  · subst hb
    rw [BlockHeap.get?_modify_self, Option.map_map]
    exact congrArg (fun g => Option.map g _) (funext hf)
  · rw [BlockHeap.get?_modify_of_ne h f hb]

namespace Library

variable {n : ℕ}

/-- The same socks are usable, with the same fds and emitters; `edpnet_sock_set` has been
called on usable socks only, and `edpnet_sock_destroy` not at all. -/
structure Frame (s t : Library n) : Prop where
  usable : ∀ a, t.usable a = s.usable a
  ids : ∀ a, (t.socks.get? a).map NetSock.ids = (s.socks.get? a).map NetSock.ids
  sets : ∀ c ∈ t.calls, ∀ a, c.sets a = true →
    (∃ c' ∈ s.calls, c'.sets a = true) ∨ s.usable a = true
  destroys : ∀ c ∈ t.calls, ∀ a, c.destroys a = true → ∃ c' ∈ s.calls, c'.destroys a = true

namespace Frame

variable {s t : Library n}

/-- A sock after the step was there before. -/
theorem get? (h : Frame s t) {a : ℕ} {k : NetSock} (hk : t.socks.get? a = some k) :
    ∃ l, s.socks.get? a = some l ∧ l.ids = k.ids := by
  have hids := h.ids a
  rw [hk] at hids
  exact Option.map_eq_some_iff.1 hids.symm

/-- A sock before the step is there after it. -/
theorem get?_back (h : Frame s t) {a : ℕ} {k : NetSock} (hk : s.socks.get? a = some k) :
    ∃ l, t.socks.get? a = some l ∧ l.ids = k.ids := by
  have hids := h.ids a
  rw [hk] at hids
  exact Option.map_eq_some_iff.1 hids

end Frame

/-- A usable sock is allocated. -/
theorem exists_get?_of_usable {s : Library n} {a : ℕ} (h : s.usable a = true) :
    ∃ k, s.socks.get? a = some k :=
  BlockHeap.exists_get?_of_isLive (Bool.and_eq_true_iff.1 h).1

/-- A sock with a destruction in progress is not usable. -/
theorem not_usable_of_destroys {s : Library n} {a : ℕ} {c : Call n} (hc : c ∈ s.calls)
    (hd : c.destroys a = true) : s.usable a = false := by
  rw [usable, Bool.and_eq_false_iff]
  refine .inr (List.all_eq_false.2 ⟨c, hc, ?_⟩)
  rw [hd]
  simp

/-- New calls that destroy nothing leave the same socks usable. -/
theorem usable_cons (s : Library n) {c : Call n} (h : ∀ a, c.destroys a = false) (a : ℕ) :
    usable { s with calls := c :: s.calls } a = s.usable a := by
  simp [usable, h]

/-- Whether a sock is in use, once the destruction of one begins. -/
theorem usable_destroy (s : Library n) (a b : ℕ) :
    usable { s with calls := .destroy b .zeroing :: s.calls } a =
      (s.usable a && decide (a ≠ b)) := by
  by_cases hab : a = b <;> simp [usable, Call.destroys, hab]

/-- A step of a call that frees nothing and goes on if it is a destruction leaves the
same socks usable. -/
theorem usable_swap {s t : Library n} {c : Call n} {c' : Option (Call n)} (hc : c ∈ s.calls) {a : ℕ}
    (hl : t.socks.isLive a = s.socks.isLive a)
    (hd : c'.all (fun c => !c.destroys a) = !c.destroys a) :
    usable { t with calls := c'.toList ++ s.calls.erase c } a = s.usable a := by
  rw [usable, usable, Pool.all_swap hc hd]
  exact congrArg (· && _) hl

/-- A step of a call turns no other call into one of `edpnet_sock_set`. -/
theorem sets_call {s t : Library n} {c : Call n} {c' : Option (Call n)} (hc : c ∈ s.calls)
    (h : c.Step s t c') {d : Call n} (hd : d ∈ c'.toList ++ s.calls.erase c) {a : ℕ}
    (ha : d.sets a = true) : ∃ d' ∈ s.calls, d'.sets a = true := by
  rcases Pool.mem_swap hd with rfl | hd
  · exact ⟨c, hc, by cases h <;> exact ha⟩
  · exact ⟨d, hd, ha⟩

/-- Nor into one of `edpnet_sock_destroy`. -/
theorem destroys_call {s t : Library n} {c : Call n} {c' : Option (Call n)} (hc : c ∈ s.calls)
    (h : c.Step s t c') {d : Call n} (hd : d ∈ c'.toList ++ s.calls.erase c) {a : ℕ}
    (ha : d.destroys a = true) : ∃ d' ∈ s.calls, d'.destroys a = true := by
  rcases Pool.mem_swap hd with rfl | hd
  · exact ⟨c, hc, by cases h <;> exact ha⟩
  · exact ⟨d, hd, ha⟩

/-- **What a step of a call leaves alone.** -/
theorem frame_call {s t : Library n} {c : Call n} {c' : Option (Call n)} (hc : c ∈ s.calls)
    (h : c.Step s t c') : Frame s { t with calls := c'.toList ++ s.calls.erase c } := by
  refine ⟨fun a => ?_, fun a => ?_, fun _ hd _ hda => .inl (sets_call hc h hd hda),
    fun _ hd _ hda => destroys_call hc h hd hda⟩
  · cases h with
    | free b =>
      by_cases hb : a = b
      · subst hb
        rw [not_usable_of_destroys hc (by simp [Call.destroys])]
        simp [usable]
      · refine usable_swap hc (BlockHeap.isLive_free_of_ne _ hb) ?_
        simp [Call.destroys, hb]
    | _ => exact usable_swap hc (by simp) (by simp [Call.destroys])
  · cases h with
    | watched | unwatched | mark | zero | unwatch => exact ids_modify _ _ _ fun _ => rfl
    | free b => exact congrArg _ (BlockHeap.get?_free _ _ _)
    | _ => rfl

/-- So do a new call that destroys nothing, and all steps that leave the socks and the
calls as they are. -/
theorem frame_cons {s : Library n} {c : Call n} (hs : ∀ a, c.sets a = true → s.usable a = true)
    (hd : ∀ a, c.destroys a = false) : Frame s { s with calls := c :: s.calls } := by
  refine ⟨usable_cons s hd, fun _ => rfl, fun d hdc a hda => ?_, fun d hdc a hda => ?_⟩
  · rcases List.mem_cons.1 hdc with rfl | hdc
    · exact .inr (hs a hda)
    · exact .inl ⟨d, hdc, hda⟩
  · rcases List.mem_cons.1 hdc with rfl | hdc
    · rw [hd] at hda
      cases hda
    · exact ⟨d, hdc, hda⟩

theorem frame_rest {s t : Library n} (hsocks : t.socks = s.socks) (hcalls : t.calls = s.calls) :
    Frame s t := by
  refine ⟨fun a => ?_, fun a => by rw [hsocks], fun c hc a hca => ?_, fun c hc a hca => ?_⟩
  · rw [usable, usable, hsocks, hcalls]
  · exact .inl ⟨c, hcalls ▸ hc, hca⟩
  · exact ⟨c, hcalls ▸ hc, hca⟩

/-! ### New socks -/

/-- The step allocates the sock at `b`, and may begin `edpnet_sock_set` on it. -/
structure NewSock (s t : Library n) (b : ℕ) (l : NetSock) : Prop where
  fresh : s.socks b = none
  socks : t.socks = s.socks.alloc b l
  calls : t.calls = s.calls ∨ ∃ cbs data, t.calls = .set b (.testing cbs data) :: s.calls

namespace NewSock

variable {s t : Library n} {b : ℕ} {l : NetSock}

theorem ne (h : NewSock s t b l) {a : ℕ} {k : NetSock} (hk : s.socks.get? a = some k) : a ≠ b := by
  rintro rfl
  rw [BlockHeap.get?, h.fresh] at hk
  cases hk

/-- A sock after the step is the new one, or was there before. -/
theorem get? (h : NewSock s t b l) {a : ℕ} {k : NetSock} (hk : t.socks.get? a = some k) :
    (a = b ∧ k = l) ∨ (a ≠ b ∧ s.socks.get? a = some k) := by
  rw [h.socks] at hk
  exact BlockHeap.get?_alloc_eq_some hk

theorem get?_back (h : NewSock s t b l) {a : ℕ} {k : NetSock} (hk : s.socks.get? a = some k) :
    t.socks.get? a = some k := by
  rw [h.socks, BlockHeap.get?_alloc_of_ne _ _ (h.ne hk)]
  exact hk

/-- The new call, if there is one, is that of `edpnet_sock_set`. -/
theorem mem_calls (h : NewSock s t b l) {c : Call n} (hc : c ∈ t.calls) :
    (∃ cbs data, c = .set b (.testing cbs data)) ∨ c ∈ s.calls := by
  rcases h.calls with h | ⟨cbs, data, h⟩
  · exact .inr (h ▸ hc)
  · rw [h, List.mem_cons] at hc
    exact hc.imp_left fun hc => ⟨cbs, data, hc⟩

/-- The call that is new does nothing of what a test asks that it fails. -/
theorem countP (h : NewSock s t b l) {p : Call n → Bool}
    (hp : ∀ cbs data, p (.set b (.testing cbs data)) = false) :
    t.calls.countP p = s.calls.countP p := by
  rcases h.calls with h | ⟨cbs, data, h⟩
  · rw [h]
  · rw [h, List.countP_cons_of_neg (by rw [hp]; simp)]

theorem usable_of_ne (h : NewSock s t b l) {a : ℕ} (ha : a ≠ b) : t.usable a = s.usable a := by
  have hcalls : t.calls.all (fun c => !c.destroys a) = s.calls.all fun c => !c.destroys a := by
    rcases h.calls with h | ⟨cbs, data, h⟩ <;> rw [h]
    rfl
  rw [usable, usable, hcalls, h.socks, BlockHeap.isLive_alloc_of_ne _ _ ha]

theorem usable_self (h : NewSock s t b l) (hd : ∀ c ∈ s.calls, c.destroys b = false) :
    t.usable b = true := by
  rw [usable, h.socks, BlockHeap.isLive_alloc_self, Bool.true_and, List.all_eq_true]
  intro c hc
  rcases h.mem_calls hc with ⟨_, _, rfl⟩ | hc
  · rfl
  · rw [hd c hc]
    rfl

end NewSock

end Library
end EdpIo
