/-
# No handler after the end of a sock

`edpnet_sock_destroy` relies on `emit_destroy` for the events of the sock that are still
on their way: with `ee_pendings` not zero it returns `-EINVAL`.  Nobody looks at that,
so the sock is freed and the events find it freed (`destroyed_handled`).

The count itself is sound: it is the number of events of the emitter that workers hold
or are handling, and of the calls that are about to queue one (`Calm.balanced`).  So in
the runs in which `emit_destroy` finds it zero, with no call in progress that has yet to
raise it, and in which no event is delivered to a sock whose destruction has got that
far, no handler runs after it (`destroyed_silent`).
-/

import EdpIo.Net.Owners

namespace EdpIo
namespace Call

variable {n : ℕ}

/-- The call has yet to queue an event of the sock at `a`. -/
def queues (a : ℕ) : Call n → Bool
  | .deliver b types => a = b ∧ types ≠ []
  | .dispatch b types c => a = b ∧ (types ≠ [] ∨ ∀ w, c.pc ≠ .signalling w)
  | _ => false

/-- The call has raised the count of `em` and not queued its event. -/
def raised (em : ℕ) : Call n → Bool
  | .dispatch _ _ c => c.em = em ∧ c.pc = .queueing
  | _ => false

/-- The call is `edpnet_sock_destroy(a)`, past the test of `emit_destroy`. -/
def past (a : ℕ) : Call n → Bool
  | .destroy b .uniniting | .destroy b .freeingEmit | .destroy b .freeing => a = b
  | _ => false

theorem destroys_of_past {a : ℕ} {c : Call n} (h : c.past a = true) : c.destroys a = true := by
  unfold past at h
  split at h
  · exact h
  · exact h
  · exact h
  · cases h

end Call

namespace Library

variable {n : ℕ}

/-- The destruction of the sock has got past the test of `emit_destroy`, or is over. -/
def Past (s : Library n) (a : ℕ) : Prop :=
  (s.socks.isLive a = false ∧ ∃ k, s.socks.get? a = some k) ∨ ∃ c ∈ s.calls, c.past a = true

/-- The destruction of a sock finds no event pending and no call that has yet to queue
one, and nothing is delivered to a sock whose destruction has got past that. -/
def Clear (s : Library n) : Act n → Prop
  | .call (.destroy a .emitting) _ =>
    (∀ k e, s.socks.get? a = some k → s.emit.emits.get? k.esEmit = some e → e.eePendings = 0) ∧
      ∀ c ∈ s.calls, c.queues a = false
  | .deliver fd _ => ∀ e, s.fds fd = some e → ¬ s.Past e.ioeData
  | _ => True

/-- No event of a freed sock is held by a worker, and no handler runs for one. -/
def Silent (s : Library n) : Prop :=
  ∀ a k, s.socks.get? a = some k → s.socks.isLive a = false → ∀ i,
    (∀ ev ∈ (s.emit.workers i).held, ¬ ev.ForEmit k.esEmit) ∧
      ∀ ev, s.emit.phases i = .inside ev → ev.evEmit ≠ k.esEmit

/-- The calls that have raised the count of `em` and not queued their event. -/
def queueing (s : Library n) (em : ℕ) : ℕ := s.calls.countP (Call.raised em)

/-- A delivery is of the types of the handlers, by the emitter of its sock. -/
def Fit (s : Library n) : Call n → Prop
  | .deliver _ types => ∀ type ∈ types, 0 ≤ type ∧ type < 4
  | .dispatch a types c =>
    (∀ type ∈ types, 0 ≤ type ∧ type < 4) ∧
      (∃ k, s.socks.get? a = some k ∧ k.esEmit = c.em) ∧ c.em ≠ 0 ∧
      (0 ≤ c.ev.evType ∧ c.ev.evType < 4) ∧ c.ev.class? = some .norm ∧
      (c.pc ≠ .checking → c.ev.evHandler = emitEventHandler ∧ c.ev.evEmit = c.em)
  | _ => True

/-- The sock has an emitter, with no event on its way and none to come. -/
structure Drained (s : Library n) (a : ℕ) : Prop where
  load : ∀ k, s.socks.get? a = some k → k.esEmit ≠ 0 ∧ s.emit.load k.esEmit = 0
  calls : ∀ c ∈ s.calls, c.queues a = false

/-- The counts are right, and socks past the test are drained. -/
structure Calm (s : Library n) : Prop where
  owning : s.Owning
  served : s.emit.Served
  balanced : s.emit.Balanced s.queueing
  fit : ∀ c ∈ s.calls, s.Fit c
  destroys : ∀ c ∈ s.calls, ∀ a, c.destroys a = true → ∃ k, s.socks.get? a = some k
  past : ∀ a, s.Past a → s.Drained a

theorem calm_init : Calm (init : Library n) where
  owning := owning_init
  served := ⟨fun i ev hev => by simp [init, Emitters.init, Worker.held, Worker.start] at hev,
    fun _ _ h => nomatch h⟩
  balanced := fun _ _ h => nomatch h
  fit := fun _ h => absurd h List.not_mem_nil
  destroys := fun _ h => absurd h List.not_mem_nil
  past := by
    rintro a (⟨-, k, hk⟩ | ⟨c, hc, -⟩)
    · cases hk
    · exact absurd hc List.not_mem_nil

/-- **A freed sock is silent**, as its emitter has no load. -/
theorem Calm.silent {s : Library n} (hs : s.Calm) : s.Silent := by
  intro a k hk hl i
  have hload := ((hs.past a (.inl ⟨hl, k, hk⟩)).load k hk).2
  refine ⟨Emitters.not_forEmit_of_load hload i, fun ev hev heq => ?_⟩
  have howes := Emitters.owes_eq_zero hload i
  rw [hev, Phase.owes, if_pos (by simp [Phase.ev?, heq])] at howes
  cases howes

/-! ### A step of a call -/

/-- Two socks with one emitter are one. -/
theorem Owning.unique {s : Library n} (hs : s.Owning) {a b : ℕ} {k l : NetSock}
    (hk : s.socks.get? a = some k) (hl : s.socks.get? b = some l) (hem : k.esEmit ≠ 0)
    (h : k.esEmit = l.esEmit) : a = b := by
  obtain ⟨e, he, hd, -⟩ := hs a k hk hem
  obtain ⟨e', he', hd', -⟩ := hs b l hl (h ▸ hem)
  rw [h, he'] at he
  obtain rfl := Option.some.inj he
  exact hd.symm.trans hd'

/-- Calls that come to be past the test were, or are at it. -/
theorem past_call {s t : Library n} {c : Call n} {c' : Option (Call n)} (hc : c ∈ s.calls)
    (h : c.Step s t c') {a : ℕ} (hp : Past { t with calls := c'.toList ++ s.calls.erase c } a) :
    s.Past a ∨ c = .destroy a .emitting := by
  rcases hp with ⟨hl, l, hget⟩ | ⟨d, hd, hpd⟩
  · obtain ⟨k, hk, -⟩ := (frame_call hc h).get? hget
    by_cases hla : s.socks.isLive a = false
    · exact .inl (.inl ⟨hla, k, hk⟩)
    · -- only the end of its own destruction frees the sock
      cases h with
      | free b =>
        have hb : b = a := by
          by_contra hne
          exact hla ((BlockHeap.isLive_free_of_ne _ (Ne.symm hne)).symm.trans hl)
        exact .inl (.inr ⟨_, hc, decide_eq_true hb.symm⟩)
      | watched | unwatched | mark | zero | unwatch =>
        exact absurd ((BlockHeap.isLive_modify _ _ _ _).symm.trans hl) hla
      | _ => exact absurd hl hla
  · rcases Pool.mem_swap hd with rfl | hd
    · cases h with
      | busy b | idle b => exact .inr (congrArg (Call.destroy · _) (of_decide_eq_true hpd).symm)
      | uninit b | freeEmit b => exact .inl (.inr ⟨_, hc, hpd⟩)
      | _ => cases hpd
    · exact .inl (.inr ⟨d, hd, hpd⟩)

/-- A step of a call leaves no more events of a sock to queue than there were. -/
theorem queues_call {s t : Library n} {c : Call n} {c' : Option (Call n)} (hc : c ∈ s.calls)
    (h : c.Step s t c') {a : ℕ} (hd : ∀ d ∈ s.calls, d.queues a = false) :
    ∀ d ∈ c'.toList ++ s.calls.erase c, d.queues a = false := by
  intro d hmem
  rcases Pool.mem_swap hmem with rfl | hmem
  · have hca := hd c hc
    cases h with
    | nomem b type types =>
      have hab : a ≠ b := by simpa [Call.queues] using hca
      simp [Call.queues, hab]
    | begin b type types addr k hk hem =>
      have hab : a ≠ b := by simpa [Call.queues] using hca
      simp [Call.queues, hab]
    | goOn b types c c' e hstep =>
      by_cases hab : a = b
      · -- a call that goes on is before its signal
        obtain ⟨-, w, hw⟩ : types = [] ∧ ∃ w, c.pc = .signalling w := by
          simpa [Call.queues, hab] using hca
        cases hstep with
        | pass hpc | count hpc | queue hpc =>
          rw [hw] at hpc
          cases hpc
      · simp [Call.queues, hab]
    | ended b types c e code hstep =>
      by_cases hab : a = b
      · obtain ⟨rfl, -⟩ : types = [] ∧ ∃ w, c.pc = .signalling w := by
          simpa [Call.queues, hab] using hca
        simp [Call.queues]
      · simp [Call.queues, hab]
    | _ => rfl
  · exact hd d hmem

theorem Fit.frame {s t : Library n} {c : Call n} (h : s.Fit c)
    (hids : ∀ a, (t.socks.get? a).map NetSock.ids = (s.socks.get? a).map NetSock.ids) :
    t.Fit c := by
  cases c with
  | dispatch a types c =>
    obtain ⟨htypes, ⟨k, hk, hem⟩, hrest⟩ := h
    have hids := hids a
    rw [hk] at hids
    obtain ⟨l, hl, hlk⟩ := Option.map_eq_some_iff.1 hids
    exact ⟨htypes, ⟨l, hl, (congrArg Prod.snd hlk).trans hem⟩, hrest⟩
  | _ => exact h

/-- The calls go on as they began. -/
theorem Calm.fit_call {s t : Library n} {c : Call n} {c' : Option (Call n)} (hs : s.Calm)
    (hc : c ∈ s.calls) (h : c.Step s t c') :
    ∀ d ∈ c'.toList ++ s.calls.erase c, Fit { t with calls := c'.toList ++ s.calls.erase c } d := by
  intro d hmem
  refine Fit.frame ?_ (frame_call hc h).ids
  rcases Pool.mem_swap hmem with rfl | hmem
  · have hfit := hs.fit c hc
    cases h with
    | nomem b type types => exact fun x hx => hfit x (List.mem_cons_of_mem _ hx)
    | begin b type types addr k hk hem =>
      exact ⟨fun x hx => hfit x (List.mem_cons_of_mem _ hx), ⟨k, hk, rfl⟩, hem,
        hfit type List.mem_cons_self, rfl, fun h => absurd rfl h⟩
    | goOn b types c c' e hstep =>
      obtain ⟨htypes, hk, hem, htype, hclass, hset⟩ := hfit
      cases hstep with
      | pass hpc e he hchk => exact ⟨htypes, hk, hem, htype, hclass, fun _ => ⟨rfl, rfl⟩⟩
      | count hpc => exact ⟨htypes, hk, hem, htype, hclass, fun _ => hset (by simp [hpc])⟩
      | queue hpc p hp w => exact ⟨htypes, hk, hem, htype, hclass, fun _ => hset (by simp [hpc])⟩
    | ended b types c e code hstep => exact hfit.1
    | _ => trivial
  · exact hs.fit d hmem

/-- The event that a call queues has a handler. -/
theorem Calm.known {s : Library n} (hs : s.Calm) {a : ℕ} {types : List ℤ} {c : EmitCall n}
    (hc : .dispatch a types c ∈ s.calls) (hpc : c.pc = .queueing) : s.emit.Known c.ev := by
  obtain ⟨-, ⟨k, hk, hem⟩, hne, htype, -, hset⟩ := hs.fit _ hc
  obtain ⟨-, hev⟩ := hset (by simp [hpc])
  obtain ⟨e, he, -, hh, -⟩ := hs.owning a k hk (hem ▸ hne)
  refine ⟨e, by rw [hev, ← hem, he], ?_⟩
  obtain ⟨h0, hlt, hins⟩ := sockEmit_installed a htype
  exact ⟨h0, hlt, by rwa [hh]⟩

theorem Calm.served_call {s t : Library n} {c : Call n} {c' : Option (Call n)} (hs : s.Calm)
    (hc : c ∈ s.calls) (h : c.Step s t c') : t.emit.Served := by
  have hkeeps : ∀ em (f : Emit → Emit), (∀ e, (f e).eeHandler = e.eeHandler) →
      Emitters.Served { s.emit with emits := s.emit.emits.modify em f } := fun em f hf =>
    hs.served.mono (Emitters.keeps_modify s.emit em f hf _ _) rfl rfl
  cases h with
  | uninit b k hk => exact hkeeps _ _ fun _ => rfl
  | freeEmit b k hk =>
    refine hs.served.mono (fun em e he => ⟨e, ?_, rfl⟩) rfl rfl
    exact (BlockHeap.get?_free _ _ _).trans he
  | goOn b types c c' e hstep =>
    cases hstep with
    | pass => exact hs.served
    | count => exact hkeeps _ _ fun _ => rfl
    | queue hpc p hp w => exact hs.served.enqueue (fun _ => hs.known hc hpc) w p
  | ended b types c e code hstep =>
    cases hstep with
    | refuse | range => exact hs.served
    | signal w hpc => exact hs.served.signal w
  | _ => exact hs.served

/-- What a step of a call does to the calls that have raised a count. -/
theorem queueing_call {s : Library n} (t : Library n) {c : Call n} (c' : Option (Call n))
    (hc : c ∈ s.calls) (em : ℕ) :
    queueing { t with calls := c'.toList ++ s.calls.erase c } em + (if c.raised em then 1 else 0) =
      s.queueing em + if c'.any (Call.raised em) then 1 else 0 :=
  Pool.countP_swap hc c' (Call.raised em)

theorem Calm.balanced_call {s t : Library n} {c : Call n} {c' : Option (Call n)} (hs : s.Calm)
    (hc : c ∈ s.calls) (h : c.Step s t c') :
    t.emit.Balanced (queueing { t with calls := c'.toList ++ s.calls.erase c }) := by
  have hq := queueing_call t c' hc
  have hsame : ∀ em e, s.emit.emits.get? em = some e →
      ∃ e', s.emit.emits.get? em = some e' ∧ e.eePendings = e'.eePendings :=
    fun em e he => ⟨e, he, rfl⟩
  cases h with
  | uninit b k hk =>
    refine hs.balanced.of_same (fun em e' he' => ?_) (fun _ => rfl) fun em => ?_
    · obtain ⟨e, he, ⟨-, rfl⟩ | ⟨-, rfl⟩⟩ := BlockHeap.get?_modify_eq_some he'
      · exact ⟨e, he, rfl⟩
      · exact ⟨_, he, rfl⟩
    · simpa [Call.raised] using hq em
  | freeEmit b k hk =>
    refine hs.balanced.of_same (fun em e' he' => ?_) (fun _ => rfl) fun em => ?_
    · exact ⟨e', (BlockHeap.get?_free _ _ _).symm.trans he', rfl⟩
    · simpa [Call.raised] using hq em
  | goOn b types c c' e hstep =>
    cases hstep with
    | pass hpc =>
      refine hs.balanced.of_same hsame (fun _ => rfl) fun em => ?_
      simpa [Call.raised, hpc] using hq em
    | count hpc =>
      refine hs.balanced.count fun em => ?_
      simpa [Call.raised, hpc, eq_comm] using hq em
    | queue hpc p hp w =>
      obtain ⟨-, -, -, -, -, hset⟩ := hs.fit _ hc
      refine hs.balanced.enqueue (hset (by simp [hpc])) (fun em => ?_) w p
      simpa [Call.raised, hpc, eq_comm] using hq em
  | ended b types c e code hstep =>
    cases hstep with
    | refuse hpc =>
      refine hs.balanced.of_same hsame (fun _ => rfl) fun em => ?_
      simpa [Call.raised, hpc] using hq em
    | range hpc hclass =>
      rw [(hs.fit _ hc).2.2.2.2.1] at hclass
      cases hclass
    | signal w hpc =>
      refine hs.balanced.of_same hsame (Emitters.load_signal s.emit w) fun em => ?_
      simpa [Call.raised, hpc] using hq em
  | _ =>
    refine hs.balanced.of_same hsame (fun _ => rfl) fun em => ?_
    simpa [Call.raised] using hq em

/-- A drained sock stays so: the events that calls queue are of other emitters. -/
theorem Calm.drained_call {s t : Library n} {c : Call n} {c' : Option (Call n)} (hs : s.Calm)
    (hc : c ∈ s.calls) (h : c.Step s t c') {a : ℕ} (hd : s.Drained a) :
    Drained { t with calls := c'.toList ++ s.calls.erase c } a := by
  refine ⟨fun l hl => ?_, queues_call hc h hd.calls⟩
  obtain ⟨k, hk, hids⟩ := (frame_call hc h).get? hl
  have hkl : k.esEmit = l.esEmit := congrArg Prod.snd hids
  obtain ⟨hem, hload⟩ := hd.load k hk
  rw [hkl] at hem hload
  refine ⟨hem, ?_⟩
  cases h with
  | goOn b types c c' e hstep =>
    cases hstep with
    | queue hpc p hp w =>
      obtain ⟨-, ⟨k', hk', hem'⟩, -, -, -, hset⟩ := hs.fit _ hc
      refine (Emitters.load_enqueue s.emit w p c.ev l.esEmit).trans ?_
      rw [if_neg, hload]
      rintro ⟨-, hev⟩
      rw [(hset (by simp [hpc])).2, ← hem', ← hkl] at hev
      -- the call would have an event of the sock to queue
      obtain rfl := hs.owning.unique hk' hk (hev ▸ hkl ▸ hem) hev
      have hq := hd.calls _ hc
      simp [Call.queues, hpc] at hq
    | _ => exact hload
  | ended b types c e code hstep =>
    cases hstep with
    | signal w hpc => exact (Emitters.load_signal s.emit w _).trans hload
    | _ => exact hload
  | _ => exact hload

/-- Where `emit_destroy` finds nothing pending, the sock is drained. -/
theorem Calm.drained {s t : Library n} {o : Oracle n} {a : ℕ} {c' : Option (Call n)} (hs : s.Calm)
    (hc : s.Clear (.call (.destroy a .emitting) o)) (h : (Call.destroy a .emitting).Step s t c') :
    s.Drained a := by
  refine ⟨fun k hk => ?_, hc.2⟩
  have hkem : k.esEmit ≠ 0 ∧ ∃ e, s.emit.emits.get? k.esEmit = some e := by
    cases h with
    | busy _ k' hk' hem e he hp | idle _ k' hk' hem e he hp =>
      obtain rfl := Option.some.inj (hk.symm.trans hk')
      exact ⟨hem, e, he⟩
  obtain ⟨hem, e, he⟩ := hkem
  have hb := hs.balanced _ e he
  rw [hc.1 k e hk he] at hb
  exact ⟨hem, by omega⟩

/-- **A step of a call keeps the calm**, if `emit_destroy` finds nothing pending. -/
theorem Calm.call {s t : Library n} {c : Call n} {o : Oracle n} {c' : Option (Call n)} (hs : s.Calm)
    (hc : c ∈ s.calls) (hclear : s.Clear (.call c o)) (h : c.Step s t c') :
    Calm { t with calls := c'.toList ++ s.calls.erase c } where
  owning := hs.owning.call hc h
  served := by
    have hserved := hs.served_call hc h
    exact hserved
  balanced := by
    have hbal := hs.balanced_call hc h
    exact hbal
  fit := hs.fit_call hc h
  destroys := by
    intro d hd a hda
    obtain ⟨d', hd', hda'⟩ := destroys_call hc h hd hda
    obtain ⟨k, hk⟩ := hs.destroys d' hd' a hda'
    obtain ⟨l, hl, -⟩ := (frame_call hc h).get?_back hk
    exact ⟨l, hl⟩
  past := by
    intro a hp
    refine hs.drained_call hc h ?_
    rcases past_call hc h hp with hp | rfl
    · exact hs.past a hp
    · exact hs.drained hclear h

/-! ### The other steps -/

/-- A step that leaves the socks alone, and begins only calls that queue nothing for a
sock past the test. -/
theorem Calm.of_rest {s t : Library n} (hs : s.Calm) (ho : t.Owning) (hserved : t.emit.Served)
    (hbal : t.emit.Balanced t.queueing) (hsocks : t.socks = s.socks)
    (hload : ∀ em, t.emit.load em ≤ s.emit.load em)
    (hcalls : ∀ c ∈ t.calls, c ∈ s.calls ∨
      (t.Fit c ∧ (∀ a, c.destroys a = true → s.usable a = true) ∧ (∀ a, c.past a = false) ∧
        ∀ a, c.queues a = true → ¬ s.Past a)) : t.Calm where
  owning := ho
  served := hserved
  balanced := hbal
  fit := by
    intro c hc
    rcases hcalls c hc with hc | hc
    · exact (hs.fit c hc).frame fun a => by rw [hsocks]
    · exact hc.1
  destroys := by
    intro c hc a ha
    rw [hsocks]
    rcases hcalls c hc with hc | hc
    · exact hs.destroys c hc a ha
    · exact exists_get?_of_usable (hc.2.1 a ha)
  past := by
    intro a hp
    have hp : s.Past a := by
      rcases hp with ⟨hl, hk⟩ | ⟨c, hc, hpc⟩
      · rw [hsocks] at hl hk
        exact .inl ⟨hl, hk⟩
      · rcases hcalls c hc with hc | hc
        · exact .inr ⟨c, hc, hpc⟩
        · rw [hc.2.2.1 a] at hpc
          cases hpc
    have hd := hs.past a hp
    refine ⟨fun k hk => ?_, fun c hc => ?_⟩
    · rw [hsocks] at hk
      obtain ⟨hem, hl⟩ := hd.load k hk
      exact ⟨hem, Nat.le_zero.1 (hl ▸ hload _)⟩
    · rcases hcalls c hc with hc | hc
      · exact hd.calls c hc
      · exact Bool.eq_false_iff.2 fun hq => hc.2.2.2 a hq hp

/-- A new call that queues nothing for a sock past the test. -/
theorem Calm.of_cons {s : Library n} {c : Call n} (hs : s.Calm)
    (ho : Owning { s with calls := c :: s.calls }) (hraised : ∀ em, c.raised em = false)
    (hfit : s.Fit c) (hdestroys : ∀ a, c.destroys a = true → s.usable a = true)
    (hpast : ∀ a, c.past a = false) (hqueues : ∀ a, c.queues a = true → ¬ s.Past a) :
    Calm { s with calls := c :: s.calls } := by
  refine hs.of_rest ho hs.served (hs.balanced.of_same (fun _ e he => ⟨e, he, rfl⟩) (fun _ => rfl)
    fun em => List.countP_cons_of_neg (by simp [hraised])) rfl (fun _ => le_rfl) fun d hd => ?_
  rcases List.mem_cons.1 hd with rfl | hd
  · exact .inr ⟨hfit, hdestroys, hpast, hqueues⟩
  · exact .inl hd

/-- A step that allocates a sock, and an emitter or none. -/
theorem Calm.of_new {s t : Library n} {b : ℕ} {l : NetSock} (hs : s.Calm) (ho : t.Owning)
    (hn : NewSock s t b l) (hserved : t.emit.Served) (hbal : t.emit.Balanced s.queueing)
    (hload : ∀ em, t.emit.load em = s.emit.load em) : t.Calm where
  owning := ho
  served := hserved
  balanced := hbal.of_same (fun _ e he => ⟨e, he, rfl⟩) (fun _ => rfl) fun em =>
    hn.countP (fun _ _ => rfl)
  fit := by
    intro c hc
    rcases hn.mem_calls hc with ⟨_, _, rfl⟩ | hc
    · trivial
    · have hfit := hs.fit c hc
      cases c with
      | dispatch a types c =>
        obtain ⟨htypes, ⟨k, hk, hem⟩, hrest⟩ := hfit
        exact ⟨htypes, ⟨k, hn.get?_back hk, hem⟩, hrest⟩
      | _ => exact hfit
  destroys := by
    intro c hc a ha
    rcases hn.mem_calls hc with ⟨_, _, rfl⟩ | hc
    · cases ha
    · obtain ⟨k, hk⟩ := hs.destroys c hc a ha
      exact ⟨k, hn.get?_back hk⟩
  past := by
    intro a hp
    have hp : s.Past a ∧ a ≠ b := by
      rcases hp with ⟨hl, k, hk⟩ | ⟨c, hc, hpc⟩
      · rcases hn.get? hk with ⟨rfl, -⟩ | ⟨hab, hk⟩
        · rw [hn.socks, BlockHeap.isLive_alloc_self] at hl
          cases hl
        · rw [hn.socks, BlockHeap.isLive_alloc_of_ne _ _ hab] at hl
          exact ⟨.inl ⟨hl, k, hk⟩, hab⟩
      · rcases hn.mem_calls hc with ⟨_, _, rfl⟩ | hc
        · cases hpc
        · obtain ⟨k, hk⟩ := hs.destroys c hc a (Call.destroys_of_past hpc)
          exact ⟨.inr ⟨c, hc, hpc⟩, hn.ne hk⟩
    have hd := hs.past a hp.1
    refine ⟨fun k hk => ?_, fun c hc => ?_⟩
    · rcases hn.get? hk with ⟨hab, -⟩ | ⟨-, hk⟩
      · exact absurd hab hp.2
      · rw [hload]
        exact hd.load k hk
    · rcases hn.mem_calls hc with ⟨_, _, rfl⟩ | hc
      · rfl
      · exact hd.calls c hc

/-- A sock in use has not got past the test. -/
theorem not_past_of_usable {s : Library n} {a : ℕ} (h : s.usable a = true) : ¬ s.Past a := by
  rintro (⟨hl, -⟩ | ⟨c, hc, hp⟩)
  · rw [usable, hl] at h
    cases h
  · rw [not_usable_of_destroys hc (Call.destroys_of_past hp)] at h
    cases h

/-- An address that holds no emitter yet has no events on their way. -/
theorem Calm.balanced_alloc {s : Library n} (hs : s.Calm) {em : ℕ} (h : s.emit.emits em = none)
    (e : Emit) (he : e.eePendings = 0) :
    Emitters.Balanced { s.emit with emits := s.emit.emits.alloc em e } s.queueing := by
  have hget : s.emit.emits.get? em = none := by
    rw [BlockHeap.get?, h]
    rfl
  have hqueueing : s.queueing em = 0 := by
    rw [queueing, List.countP_eq_zero]
    intro c hc hr
    unfold Call.raised at hr
    split at hr
    · obtain ⟨rfl, -⟩ := of_decide_eq_true hr
      obtain ⟨-, ⟨k, hk, hem⟩, hne, -⟩ := hs.fit _ hc
      obtain ⟨e', he', -⟩ := hs.owning _ k hk (hem ▸ hne)
      rw [hem, hget] at he'
      cases he'
    · cases hr
  intro em' e' he'
  rcases BlockHeap.get?_alloc_eq_some he' with ⟨rfl, rfl⟩ | ⟨-, he'⟩
  · have hload : Emitters.load { s.emit with emits := s.emit.emits.alloc em' e' } em' = 0 :=
      hs.served.load_eq_zero hget
    rw [he, hload, hqueueing]
    rfl
  · exact hs.balanced em' e' he'

/-- **Every step keeps the calm**, if it meets the condition. -/
theorem Calm.step {s t : Library n} {a : Act n} (hs : s.Calm) (hc : s.Clear a) (h : s.Step a t) :
    t.Calm := by
  have ho := hs.owning.step h
  have hold : ∀ c ∈ s.calls, c ∈ s.calls ∨
      (s.Fit c ∧ (∀ a, c.destroys a = true → s.usable a = true) ∧ (∀ a, c.past a = false) ∧
        ∀ a, c.queues a = true → ¬ s.Past a) := fun c hc => .inl hc
  cases h with
  | create b em fd cbs data hb hem h0 hfd =>
    refine hs.of_new (b := b) ho ⟨hb, rfl, .inr ⟨cbs, data, rfl⟩⟩ ?_
      (hs.balanced_alloc hem (sockEmit b) rfl) fun _ => rfl
    refine hs.served.mono (fun em' e he => ⟨e, ?_, rfl⟩) rfl rfl
    refine (BlockHeap.get?_alloc_of_ne _ _ ?_).trans he
    rintro rfl
    rw [BlockHeap.get?, hem] at he
    cases he
  | accept b fd hb hfd =>
    exact hs.of_new (b := b) ho ⟨hb, rfl, .inl rfl⟩ hs.served hs.balanced fun _ => rfl
  | servCreate v fd hfd hf | servDestroy fd e he hcb =>
    exact hs.of_rest ho hs.served hs.balanced rfl (fun _ => le_rfl) hold
  | set b cbs data hu =>
    exact hs.of_cons ho (fun _ => rfl) trivial (fun _ h => by cases h) (fun _ => rfl)
      fun _ h => by cases h
  | destroy b hu =>
    refine hs.of_cons ho (fun _ => rfl) trivial (fun a ha => ?_) (fun _ => rfl)
      fun _ h => by cases h
    rw [of_decide_eq_true ha]
    exact hu
  | write b hu =>
    refine hs.of_cons ho (fun _ => rfl) (fun type htype => ?_) (fun _ h => by cases h)
      (fun _ => rfl) fun a hq => ?_
    · rw [List.mem_singleton.1 htype]
      omega
    · rw [(of_decide_eq_true hq).1]
      exact not_past_of_usable hu
  | deliver fd events b hf =>
    refine hs.of_cons ho (fun _ => rfl) (fun _ => mem_sockWorkerCb) (fun _ h => by cases h)
      (fun _ => rfl) fun a hq => ?_
    rw [(of_decide_eq_true hq).1]
    exact hc _ hf
  | call c o hcc u c' h => exact hs.call hcc hc h
  | work i e h =>
    refine hs.of_rest ho (hs.served.work h) (hs.balanced.of_same (fun em e' he' => ?_)
      (fun em => (Emitters.load_work h em).1) fun _ => rfl) rfl
      (fun em => (Emitters.load_work h em).1.le) hold
    have he' : e.emits.get? em = some e' := he'
    rw [(Emitters.load_work h em).2] at he'
    exact ⟨e', he', rfl⟩
  | handle i ret e h =>
    obtain ⟨hserved, hbal⟩ := Emitters.handle_balanced hs.served hs.balanced h
    exact hs.of_rest ho hserved hbal rfl (Emitters.load_handle h) hold
  | post i ev p hp hh =>
    have hload : ∀ em, (s.emit.enqueue i p ev).load em = s.emit.load em := by
      intro em
      rw [Emitters.load_enqueue, if_neg fun h => hh h.1, Nat.add_zero]
    exact hs.of_rest ho (hs.served.enqueue (fun h => absurd h hh) i p)
      (hs.balanced.of_same (fun _ e he => ⟨e, he, rfl⟩) hload fun _ => rfl) rfl
      (fun em => (hload em).le) hold
  | wake i =>
    exact hs.of_rest ho (hs.served.signal i) (hs.balanced.of_same (fun _ e he => ⟨e, he, rfl⟩)
      (Emitters.load_signal s.emit i) fun _ => rfl) rfl
      (fun em => (Emitters.load_signal s.emit i em).le) hold

/-- **No handler runs for a destroyed sock.**  In every run in which `emit_destroy`, when
`edpnet_sock_destroy` calls it, finds no event pending and no delivery or write has yet
to queue one for the sock, and in which nothing is delivered to a sock whose destruction
has got past that: once the sock is freed no worker holds an event of it or runs a
handler for one. -/
theorem destroyed_silent {acts : List (Act n)} {s : Library n}
    (hc : StepSystem.Meets step Clear init acts)
    (hrun : StepSystem.run step init acts = some s) : s.Silent :=
  have hs : s.Calm :=
    StepSystem.run_invariant (fun _ _ _ hs hc h => hs.step hc (step_cases h)) calm_init hc hrun
  hs.silent

/-- A sock whose `EPOLLIN` is delivered, queued, handled and completed, and which is destroyed
after that: a run that meets the hypotheses of `destroyed_silent`. -/
theorem destroyed_silent_idle :
    ∃ (acts : List (Act 1)) (s : Library 1), StepSystem.run step init acts = some s ∧
      acts.count (.handle 0 0) = 4 ∧ s.socks.isLive 10 = false ∧
      (s.emit.emits.get? 1).map Emit.eePendings = some 0 ∧ s.Silent := by
  let ok : Oracle 1 := ⟨true, some 100, some 0⟩
  let c : EmitCall 1 := ⟨1, sockEvent 100 1, edpnetSockDone, 0, .checking⟩
  have hrun := Eq.refl (StepSystem.run step (init : Library 1)
    ([Act.create 10 1 5 0 0, .call (.set 10 (.testing 0 0)) ok, .call (.set 10 .adding) ok,
      .call (.set 10 .polling) ok, .call (.set 10 .marking) ok, .deliver 5 1,
      .call (.deliver 10 [1]) ok, .call (.dispatch 10 [] c) ok,
      .call (.dispatch 10 [] { c with ev := c.event, pc := .counting }) ok,
      .call (.dispatch 10 [] { c with ev := c.event, pc := .queueing }) ok,
      .call (.dispatch 10 [] { c with ev := c.event, pc := .signalling 0 }) ok,
      .call (.deliver 10 []) ok] ++ List.replicate 10 (Act.work 0) ++
        List.replicate 4 (Act.handle 0 0) ++
        [.destroy 10, .call (.destroy 10 .zeroing) ok, .call (.destroy 10 .fini) ok,
          .call (.destroy 10 .closing) ok, .call (.destroy 10 .emitting) ok,
          .call (.destroy 10 .uniniting) ok, .call (.destroy 10 .freeingEmit) ok,
          .call (.destroy 10 .freeing) ok]))
  refine ⟨_, _, hrun, by decide, rfl, rfl, destroyed_silent ?_ hrun⟩
  refine ⟨trivial, trivial, trivial, trivial, trivial, ?_, trivial, trivial, trivial, trivial,
    trivial, trivial, trivial, trivial, trivial, trivial, trivial, trivial, trivial, trivial,
    trivial, trivial, trivial, trivial, trivial, trivial, trivial, trivial, trivial, trivial,
    ⟨?_, ?_⟩, trivial, trivial, trivial, trivial⟩
  · rintro e he
    obtain rfl := Option.some.inj he
    exact not_past_of_usable rfl
  · rintro k e hk he
    obtain rfl := Option.some.inj hk
    obtain rfl := Option.some.inj he
    rfl
  · intro c hc
    obtain rfl := List.mem_singleton.1 hc
    rfl

/-- **A handler runs for a destroyed sock.**  An `EPOLLIN` is delivered and its event
queued; `edpnet_sock_destroy` frees the sock although `emit_destroy` returns `-EINVAL`,
and then the worker calls the handler. -/
theorem destroyed_handled :
    ∃ (acts : List (Act 1)) (s : Library 1) (ev : EdpEvent),
      StepSystem.run step init acts = some s ∧ s.socks.isLive 10 = false ∧
        s.emit.phases 0 = .inside ev ∧
        (s.emit.emits.get? ev.evEmit).map Emit.eeData = some 10 ∧ ¬ s.Silent := by
  let ok : Oracle 1 := ⟨true, some 100, some 0⟩
  let c : EmitCall 1 := ⟨1, sockEvent 100 1, edpnetSockDone, 0, .checking⟩
  have hrun := Eq.refl (StepSystem.run step (init : Library 1)
    ([Act.create 10 1 5 0 0, .call (.set 10 (.testing 0 0)) ok, .call (.set 10 .adding) ok,
      .call (.set 10 .polling) ok, .call (.set 10 .marking) ok, .deliver 5 1,
      .call (.deliver 10 [1]) ok, .call (.dispatch 10 [] c) ok,
      .call (.dispatch 10 [] { c with ev := c.event, pc := .counting }) ok,
      .call (.dispatch 10 [] { c with ev := c.event, pc := .queueing }) ok,
      .call (.dispatch 10 [] { c with ev := c.event, pc := .signalling 0 }) ok,
      .call (.deliver 10 []) ok, .destroy 10, .call (.destroy 10 .zeroing) ok,
      .call (.destroy 10 .fini) ok, .call (.destroy 10 .closing) ok,
      .call (.destroy 10 .emitting) ok, .call (.destroy 10 .freeing) ok] ++
        List.replicate 10 (Act.work 0) ++ [Act.handle 0 0]))
  refine ⟨_, _, c.event, hrun, rfl, rfl, rfl, fun h => ?_⟩
  exact (h 10 _ rfl rfl 0).2 c.event rfl rfl

end Library
end EdpIo
