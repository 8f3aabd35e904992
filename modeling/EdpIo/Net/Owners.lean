/-
# The emitters of the socks

`edpnet_sock_create` gives its sock an emitter of its own, with the four handlers and
the sock as its data, and only `edpnet_sock_destroy` takes it away again.  So in every
run a sock that is in use and has an emitter has a live one (`Owning`).
-/

import EdpIo.Emitter.Load
import EdpIo.Net.Frame

namespace EdpIo

/-- The types that a mask asks for are those of the four handlers. -/
theorem mem_sockWorkerCb {events : ℕ} {type : ℤ} (h : type ∈ sockWorkerCb events) :
    0 ≤ type ∧ type < 4 := by
  unfold sockWorkerCb at h
  simp only [List.mem_append, List.mem_ite_nil_right, List.mem_singleton] at h
  omega

/-- The four handlers are installed on the emitter that `edpnet_sock_create` makes. -/
theorem sockEmit_installed (a : ℕ) {type : ℤ} (h : 0 ≤ type ∧ type < 4) :
    (sockEmit a).Installed type := by
  obtain ⟨h0, h4⟩ := h
  have : type = 0 ∨ type = 1 ∨ type = 2 ∨ type = 3 := by omega
  refine ⟨h0, by rw [kEmitEventTypeMax]; omega, ?_⟩
  rcases this with rfl | rfl | rfl | rfl <;> simp [sockEmit, Emit.addHandler, Function.update]

namespace Emitters

variable {n : ℕ}

/-- The emitter is there after the step, with the data and the handlers it had. -/
def KeepsEmit (s t : Emitters n) (em : ℕ) (e : Emit) : Prop :=
  ∃ e', t.emits.get? em = some e' ∧ e'.eeData = e.eeData ∧ e'.eeHandler = e.eeHandler ∧
    e'.eeInit = e.eeInit ∧ t.emits.isLive em = s.emits.isLive em

/-- So are all. -/
def KeepsEmits (s t : Emitters n) : Prop := ∀ em e, s.emits.get? em = some e → s.KeepsEmit t em e

theorem keepsEmits_of_eq {s t : Emitters n} (h : t.emits = s.emits) : s.KeepsEmits t :=
  fun em e he => ⟨e, by rw [h, he], rfl, rfl, rfl, by rw [h]⟩

/-- A change of the pending count. -/
theorem keepsEmits_modify {s t : Emitters n} {em : ℕ} {f : Emit → Emit}
    (h : t.emits = s.emits.modify em f) (hd : ∀ e, (f e).eeData = e.eeData)
    (hh : ∀ e, (f e).eeHandler = e.eeHandler) (hi : ∀ e, (f e).eeInit = e.eeInit) :
    s.KeepsEmits t := by
  intro em' e he
  refine ⟨if em' = em then f e else e, ?_, ?_, ?_, ?_, ?_⟩
  · rw [h, BlockHeap.get?_modify_of_get? he]
  · split
    · exact hd e
    · rfl
  · split
    · exact hh e
    · rfl
  · split
    · exact hi e
    · rfl
  · rw [h, BlockHeap.isLive_modify]

theorem keepsEmits_work {s t : Emitters n} {i : Fin n} (h : s.work i = some t) : s.KeepsEmits t :=
  keepsEmits_of_eq (load_work h 0).2

theorem keepsEmits_handle {s t : Emitters n} {i : Fin n} {ret : ℤ} (h : s.handle i ret = some t) :
    s.KeepsEmits t := by
  cases handle_cases h with
  | refuse | call | returned | complete => exact keepsEmits_of_eq rfl
  | decrement => exact keepsEmits_modify rfl (fun _ => rfl) (fun _ => rfl) fun _ => rfl

theorem keepsEmits_dispatch {s t : Emitters n} {c : EmitCall n} {r : EmitResult n}
    (h : c.Step s t r) : s.KeepsEmits t := by
  cases h with
  | count hpc => exact keepsEmits_modify rfl (fun _ => rfl) (fun _ => rfl) fun _ => rfl
  | _ => exact keepsEmits_of_eq rfl

end Emitters

namespace Library

variable {n : ℕ}

/-- Each sock with an emitter has one of its own, as `edpnet_sock_create` made it, that
is alive as long as the sock may be used. -/
def Owning (s : Library n) : Prop :=
  ∀ a k, s.socks.get? a = some k → k.esEmit ≠ 0 →
    ∃ e, s.emit.emits.get? k.esEmit = some e ∧ e.eeData = a ∧
      e.eeHandler = (sockEmit a).eeHandler ∧
      (s.usable a = true → s.emit.emits.isLive k.esEmit = true ∧ e.eeInit = true)

theorem owning_init : Owning (init : Library n) := fun _ _ h => nomatch h

/-- What a step may do to the emitters: end one whose owner is not in use. -/
theorem Owning.of_emits {s t : Library n} (hs : s.Owning)
    (hsocks : ∀ a, (t.socks.get? a).map NetSock.ids = (s.socks.get? a).map NetSock.ids)
    (hu : ∀ a, t.usable a = true → s.usable a = true)
    (hemits : ∀ em e, em ≠ 0 → s.emit.emits.get? em = some e →
      ∃ e', t.emit.emits.get? em = some e' ∧ e'.eeData = e.eeData ∧ e'.eeHandler = e.eeHandler ∧
        (t.usable e.eeData = true →
          e'.eeInit = e.eeInit ∧ t.emit.emits.isLive em = s.emit.emits.isLive em)) : t.Owning := by
  intro a l hl hem
  have hids := hsocks a
  rw [hl] at hids
  obtain ⟨k, hk, hkl⟩ := Option.map_eq_some_iff.1 hids.symm
  have hkl : k.esEmit = l.esEmit := congrArg Prod.snd hkl
  obtain ⟨e, he, hd, hh, halive⟩ := hs a k hk (hkl ▸ hem)
  rw [hkl] at he halive
  obtain ⟨e', he', hd', hh', hkeep⟩ := hemits _ e hem he
  refine ⟨e', he', hd'.trans hd, hh'.trans hh, fun ha => ?_⟩
  obtain ⟨hi, hlive⟩ := hkeep (hd ▸ ha)
  obtain ⟨hlive', hi'⟩ := halive (hu a ha)
  exact ⟨hlive.trans hlive', hi.trans hi'⟩

/-- A step that keeps all emitters. -/
theorem Owning.of_keeps {s t : Library n} (hs : s.Owning)
    (hsocks : ∀ a, (t.socks.get? a).map NetSock.ids = (s.socks.get? a).map NetSock.ids)
    (hu : ∀ a, t.usable a = true → s.usable a = true) (hk : s.emit.KeepsEmits t.emit) :
    t.Owning := by
  refine hs.of_emits hsocks hu fun em e _ he => ?_
  obtain ⟨e', he', hd, hh, hi, hl⟩ := hk em e he
  exact ⟨e', he', hd, hh, fun _ => ⟨hi, hl⟩⟩

/-- The emitter that a call of `edpnet_sock_destroy` ends is that of its own sock. -/
theorem Owning.own {s : Library n} (hs : s.Owning) {b em : ℕ} {k : NetSock} {e : Emit}
    (hem : em ≠ 0) (hk : s.socks.get? b = some k) (he : s.emit.emits.get? em = some e)
    (h : em = k.esEmit) : e.eeData = b := by
  subst h
  obtain ⟨e', he', hd, -⟩ := hs b k hk hem
  rw [Option.some.inj (he.symm.trans he')]
  exact hd

/-- **A step of a call keeps the owners.** -/
theorem Owning.call {s t : Library n} {c : Call n} {c' : Option (Call n)} (hs : s.Owning)
    (hc : c ∈ s.calls) (h : c.Step s t c') :
    Owning { t with calls := c'.toList ++ s.calls.erase c } := by
  have hf := frame_call hc h
  have hu := fun a (ha : usable _ a = true) => (hf.usable a).symm.trans ha
  cases h with
  | uninit b k hk =>
    have hb := not_usable_of_destroys (a := b) hc (decide_eq_true rfl)
    refine hs.of_emits hf.ids hu fun em e hem he => ?_
    refine ⟨if em = k.esEmit then e.uninit else e, BlockHeap.get?_modify_of_get? he _ _, ?_, ?_,
      fun ha => ⟨?_, BlockHeap.isLive_modify _ _ _ _⟩⟩
    · split <;> rfl
    · split <;> rfl
    · rw [if_neg]
      intro hek
      rw [hs.own hem hk he hek, hf.usable, hb] at ha
      cases ha
  | freeEmit b k hk =>
    have hb := not_usable_of_destroys (a := b) hc (decide_eq_true rfl)
    refine hs.of_emits hf.ids hu fun em e hem he => ?_
    refine ⟨e, (BlockHeap.get?_free _ _ _).trans he, rfl, rfl, fun ha => ⟨rfl, ?_⟩⟩
    refine BlockHeap.isLive_free_of_ne _ fun hek => ?_
    rw [hs.own hem hk he hek, hf.usable, hb] at ha
    cases ha
  | goOn b types c c' e hstep | ended b types c e code hstep =>
    exact hs.of_keeps hf.ids hu (Emitters.keepsEmits_dispatch hstep)
  | _ => exact hs.of_keeps hf.ids hu (Emitters.keepsEmits_of_eq rfl)

/-- A step that allocates a sock, and the emitter it has if it has one. -/
theorem Owning.of_new {s t : Library n} {b : ℕ} {l : NetSock} (hs : s.Owning)
    (hn : NewSock s t b l)
    (hl : l.esEmit ≠ 0 → t.emit.emits.get? l.esEmit = some (sockEmit b) ∧
      t.emit.emits.isLive l.esEmit = true)
    (hemits : ∀ em e, s.emit.emits.get? em = some e →
      t.emit.emits.get? em = some e ∧ t.emit.emits.isLive em = s.emit.emits.isLive em) :
    t.Owning := by
  intro a k hk hem
  rcases hn.get? hk with ⟨rfl, rfl⟩ | ⟨hab, hk⟩
  · obtain ⟨he, hlive⟩ := hl hem
    exact ⟨sockEmit a, he, rfl, rfl, fun _ => ⟨hlive, rfl⟩⟩
  · obtain ⟨e, he, hd, hh, halive⟩ := hs a k hk hem
    obtain ⟨he', hlive⟩ := hemits _ e he
    refine ⟨e, he', hd, hh, fun ha => ?_⟩
    rw [hlive]
    exact halive ((hn.usable_of_ne hab).symm.trans ha)

/-- **Every step keeps the owners.** -/
theorem Owning.step {s t : Library n} {a : Act n} (hs : s.Owning) (h : s.Step a t) : t.Owning := by
  cases h with
  | create b em fd cbs data hb hem h0 hfd =>
    refine hs.of_new (b := b) ⟨hb, rfl, .inr ⟨cbs, data, rfl⟩⟩ (fun _ => ⟨?_, ?_⟩)
      fun em' e he => ?_
    · exact BlockHeap.get?_alloc_self _ _ _
    · exact BlockHeap.isLive_alloc_self _ _ _
    · have hne : em' ≠ em := by
        rintro rfl
        rw [BlockHeap.get?, hem] at he
        cases he
      exact ⟨(BlockHeap.get?_alloc_of_ne _ _ hne).trans he, BlockHeap.isLive_alloc_of_ne _ _ hne⟩
  | accept b fd hb hfd =>
    exact hs.of_new (b := b) ⟨hb, rfl, .inl rfl⟩ (fun h => absurd rfl h) fun _ _ he => ⟨he, rfl⟩
  | servCreate | servDestroy =>
    exact hs.of_keeps (fun _ => rfl) (fun _ => id) (Emitters.keepsEmits_of_eq rfl)
  | set b cbs data hu | write b hu | deliver fd events b hf =>
    refine hs.of_keeps (fun _ => rfl) (fun a ha => ?_) (Emitters.keepsEmits_of_eq rfl)
    rwa [usable_cons s (fun _ => rfl)] at ha
  | destroy b hu =>
    refine hs.of_keeps (fun _ => rfl) (fun a ha => ?_) (Emitters.keepsEmits_of_eq rfl)
    rw [usable_destroy, Bool.and_eq_true] at ha
    exact ha.1
  | call c o hc u c' h => exact hs.call hc h
  | work i e h =>
    exact hs.of_keeps (fun _ => rfl) (fun _ => id) (Emitters.keepsEmits_work h)
  | handle i ret e h =>
    exact hs.of_keeps (fun _ => rfl) (fun _ => id) (Emitters.keepsEmits_handle h)
  | post i ev p hp hh | wake i =>
    exact hs.of_keeps (fun _ => rfl) (fun _ => id) (Emitters.keepsEmits_of_eq rfl)

end Library
end EdpIo
