/-
# The events of a sock on its workers

The events that `edpnet_sock_dispatch` makes are of class `norm`, so on each worker
they are handled in the order in which they were queued.  With the one being handled in
front they are the worker's `lane`; the steps of the worker and of `emit_event_handler`
keep it, and a dispatch puts its event at the end.  `Posted` is what these events, the
emitter they go to and the dispatches in progress are like in every run.
-/

import EdpIo.Emitter.Flight
import EdpIo.Net.Owners
import EdpIo.Sock.Workers
import EdpIo.Worker.Order

namespace EdpIo

/-- The type of the event of the emitter `em` whose handler is next to be called. -/
def Phase.enters (em : ℕ) : Phase → Option ℤ
  | .entered ev => if ev.evEmit = em then some ev.evType else none
  | _ => none

/-- The types of the events of the emitter `em` that wait on a worker. -/
def Worker.types (w : Worker) (em : ℕ) : List ℤ :=
  ((w.line .norm).filter fun ev => ev.ForEmit em).map EdpEvent.evType

/-- The types of the events of the emitter `em` on a worker that have still to take
effect, in the order in which they will: the one being handled, then those that wait. -/
def coreLane (em : ℕ) (w : Worker) (p : Phase) (f : Option SockFrame) : List ℤ :=
  (p.enters em).toList ++ (f.bind SockFrame.effect).toList ++ w.types em

namespace Emitters

variable {n : ℕ}

/-- The lane of worker `i`. -/
def lane (s : Emitters n) (em : ℕ) (frames : Fin n → Option SockFrame) (i : Fin n) : List ℤ :=
  coreLane em (s.workers i) (s.phases i) (frames i)

variable {s t : Emitters n} {em : ℕ} {frames frames' : Fin n → Option SockFrame} {i : Fin n}

/-- A step on one worker. -/
theorem lane_of_core {l : List ℤ} (hw : ∀ j, j ≠ i → t.workers j = s.workers j)
    (hp : ∀ j, j ≠ i → t.phases j = s.phases j) (hf : ∀ j, j ≠ i → frames' j = frames j)
    (hi : coreLane em (t.workers i) (t.phases i) (frames' i) = l) :
    t.lane em frames' = Function.update (s.lane em frames) i l := by
  funext j
  by_cases hj : j = i
  · subst hj
    rw [Function.update_self]
    exact hi
  · rw [Function.update_of_ne hj, lane, lane, hw j hj, hp j hj, hf j hj]

/-- A step on one worker that keeps its lane. -/
theorem lane_of_same (hw : ∀ j, j ≠ i → t.workers j = s.workers j)
    (hp : ∀ j, j ≠ i → t.phases j = s.phases j) (hf : ∀ j, j ≠ i → frames' j = frames j)
    (hi : coreLane em (t.workers i) (t.phases i) (frames' i) = s.lane em frames i) :
    t.lane em frames' = s.lane em frames := by
  rw [lane_of_core hw hp hf hi, Function.update_eq_self]

/-- Lanes depend on the workers and their places only. -/
theorem lane_congr (hw : t.workers = s.workers) (hp : t.phases = s.phases) :
    t.lane em frames = s.lane em frames := by
  funext i
  rw [lane, lane, hw, hp]

theorem lane_signal (w : Fin n) : (s.signal w).lane em frames = s.lane em frames := by
  refine lane_of_same (i := w) (fun j hj => ?_) (fun _ _ => rfl) (fun _ _ => rfl) ?_
  · exact Function.update_of_ne hj _ _
  · simp [signal, lane, coreLane, Worker.types]

/-- The locked section of `__edp_dispatch` puts an event of the emitter at the end of
the lane. -/
theorem lane_enqueue {ev : EdpEvent} (hc : ev.class? = some .norm) (hev : ev.ForEmit em)
    (w : Fin n) :
    (s.enqueue w .norm ev).lane em frames =
      Function.update (s.lane em frames) w (s.lane em frames w ++ [ev.evType]) := by
  refine lane_of_core (fun j hj => ?_) (fun _ _ => rfl) (fun _ _ => rfl) ?_
  · exact Function.update_of_ne hj _ _
  · simp [enqueue, lane, coreLane, Worker.types, Worker.line_enqueue _ hc, Obs.queuedOf, hc, hev]

/-- An item that fails the test is filtered out. -/
theorem filter_toList_eq_nil {α : Type*} {p : α → Prop} [DecidablePred p] {o : Option α}
    (h : ∀ e, o = some e → ¬ p e) : (o.toList.filter fun e => p e) = [] := by
  cases o with
  | none => rfl
  | some e => simpa using h e rfl

/-- An event of another party is on no lane. -/
theorem lane_post {ev : EdpEvent} {p : Priority} (hp : ev.class? = some p)
    (hev : ¬ ev.ForEmit em) (w : Fin n) :
    (s.enqueue w p ev).lane em frames = s.lane em frames := by
  refine lane_of_same (i := w) (fun j hj => ?_) (fun _ _ => rfl) (fun _ _ => rfl) ?_
  · exact Function.update_of_ne hj _ _
  · have hnil : ((Obs.queuedOf .norm (.queued ev)).toList.filter fun e => e.ForEmit em) = [] := by
      refine filter_toList_eq_nil fun e he => ?_
      rw [Obs.queuedOf] at he
      split at he
      · obtain rfl := Option.some.inj he
        exact hev
      · cases he
    simp [enqueue, lane, coreLane, Worker.types, Worker.line_enqueue _ hp, List.filter_append, hnil]

/-- A worker that takes an event of the emitter takes the head of its line, and is then
about to call the handler. -/
theorem lane_work (h : s.work i = some t) (hc : (s.workers i).Classed)
    (hheld : ∀ ev ∈ (s.workers i).held, ev.ForEmit em → ev.class? = some .norm)
    (hf : s.phases i = .out → frames i = none) : t.lane em frames = s.lane em frames := by
  obtain ⟨hout, w, l, hstep, rfl⟩ := work_cases h
  refine lane_of_same (i := i) (fun j hj => Function.update_of_ne hj _ _)
    (fun j hj => Function.update_of_ne hj _ _) (fun _ _ => rfl) ?_
  have hline := hstep.line hc (p := .norm) fun _ h => absurd h (by decide)
  simp only [Function.update_self, lane, coreLane, Worker.types, hout, hf hout, hline,
    List.filter_append, List.map_append]
  refine congrArg (· ++ _) ?_
  cases l with
  | tau | finish ev => rfl
  | start ev =>
    by_cases hev : ev.ForEmit em
    · simp [phaseAfter, hev.1, hev.2, Phase.enters, Worker.Label.startedOf,
        hheld ev hstep.mem_held hev, hev]
    · have hnil : ((Worker.Label.startedOf .norm (.start ev)).toList.filter
          fun e => e.ForEmit em) = [] := by
        refine filter_toList_eq_nil fun e he => ?_
        rw [Worker.Label.startedOf] at he
        split at he
        · obtain rfl := Option.some.inj he
          exact hev
        · cases he
      rw [hnil, phaseAfter]
      split
      · rw [Phase.enters, if_neg fun hem => hev ⟨‹_›, hem⟩]
        rfl
      · rfl

end Emitters
/-- The handler that `edpnet_sock_create` installs for a type is that of the type. -/
theorem exists_ofHandler {type : ℤ} (h : 0 ≤ type ∧ type < 4) :
    ∃ f, SockFrame.ofHandler? ((sockEmit 0).eeHandler type) = some f ∧
      f.effect = some type := by
  obtain ⟨h0, h4⟩ := h
  have : type = 0 ∨ type = 1 ∨ type = 2 ∨ type = 3 := by omega
  rcases this with rfl | rfl | rfl | rfl
  · exact ⟨.epollout .enter, rfl, rfl⟩
  · exact ⟨.epollin .enter, rfl, rfl⟩
  · exact ⟨.epollerr .enter, rfl, rfl⟩
  · exact ⟨.epollhup .enter, rfl, rfl⟩

namespace Delivery

variable {n : ℕ}

/-- The type of the event that the delivery is about to put on a worker's queue. -/
def queues? : Delivery n → Option ℤ
  | .dispatch _ c => if c.pc = .queueing then some c.ev.evType else none
  | .deliver _ => none

/-- The dispatch in progress is one of `edpnet_sock_dispatch`. -/
def Fit (em : ℕ) : Delivery n → Prop
  | .deliver _ => True
  | .dispatch _ c =>
    c.em = em ∧ c.ev.class? = some .norm ∧
      (c.pc = .counting ∨ c.pc = .queueing → c.ev.ForEmit em)

/-- What a step of the delivery does to the workers, and the types that are left. -/
inductive Moves (em : ℕ) (s : Emitters n) (o : Oracle n) (d : Delivery n) :
    Emitters n → List ℤ → Prop
  | quiet (e : Emitters n) (hw : e.workers = s.workers) (hp : e.phases = s.phases)
      (hk : s.KeepsEmits e) : Moves em s o d e d.todo
  | lose (x : ℤ) (l : List ℤ) (h : d.todo = x :: l) : Moves em s o d s l
  | queue (w : Fin n) (ev : EdpEvent) (l : List ℤ) (h : d.todo = ev.evType :: l)
      (hq : d.queues? = some ev.evType) (ho : o.worker = some w) (hev : ev.ForEmit em)
      (hc : ev.class? = some .norm) : Moves em s o d (s.enqueue w .norm ev) l
  | signal (w : Fin n) : Moves em s o d (s.signal w) d.todo

/-- The worker that the call queues on is the one that was picked. -/
theorem step_queueing (s : Emitters n) (w : Option (Fin n)) {c : EmitCall n}
    (hpc : c.pc = .queueing) {p : Priority} (hc : c.ev.class? = some p) :
    c.step s w = w.map fun i => (s.enqueue i p c.ev, .next { c with pc := .signalling i }) := by
  cases w <;> simp [EmitCall.step, hpc, hc]

theorem step_moves {em : ℕ} {s e : Emitters n} {o : Oracle n} {d : Delivery n}
    {d' : Option (Delivery n)} (hd : d.Fit em) (h : d.step em s o = some (e, d')) :
    d.Moves em s o e ((d'.map todo).getD []) ∧ ∀ d₁ ∈ d', d₁.Fit em := by
  match d with
  | .deliver [] =>
    obtain ⟨rfl, rfl⟩ := Prod.mk.inj (Option.some.inj h)
    exact ⟨.quiet s rfl rfl (Emitters.keepsEmits_of_eq rfl), nofun⟩
  | .deliver (type :: types) =>
    rw [step] at h
    split at h
    · obtain ⟨rfl, rfl⟩ := Prod.mk.inj (Option.some.inj h)
      exact ⟨.lose type types rfl, fun d₁ hd₁ => Option.some.inj hd₁ ▸ trivial⟩
    · obtain ⟨rfl, rfl⟩ := Prod.mk.inj (Option.some.inj h)
      refine ⟨.quiet s rfl rfl (Emitters.keepsEmits_of_eq rfl), ?_⟩
      rintro d₁ hd₁
      obtain rfl := Option.some.inj hd₁
      exact ⟨rfl, rfl, fun hpc => by rcases hpc with hpc | hpc <;> cases hpc⟩
  | .dispatch types c =>
    obtain ⟨⟨e', r⟩, hc, he⟩ := Option.map_eq_some_iff.1 h
    obtain ⟨rfl, rfl⟩ := Prod.mk.inj he
    obtain ⟨hem, hcls, hev⟩ := hd
    have hkeep := Emitters.keepsEmits_dispatch (EmitCall.step_cases hc)
    have hdone : ∀ d₁ ∈ some (Delivery.deliver (n := n) types), d₁.Fit em :=
      fun d₁ hd₁ => Option.some.inj hd₁ ▸ trivial
    cases EmitCall.step_cases hc with
    | refuse hpc e he hne =>
      refine ⟨.lose c.ev.evType types ?_, hdone⟩
      rw [todo, hpc]
    | pass hpc e he h0 =>
      refine ⟨?_, ?_⟩
      · have hm : Moves em s o (.dispatch types c) s _ := .quiet s rfl rfl hkeep
        rw [todo, hpc] at hm
        exact hm
      · rintro d₁ hd₁
        obtain rfl := Option.some.inj hd₁
        exact ⟨hem, hcls, fun _ => ⟨rfl, hem⟩⟩
    | count hpc =>
      refine ⟨?_, ?_⟩
      · have hm : Moves em s o (.dispatch types c) _ _ :=
          .quiet { s with emits := s.emits.modify c.em Emit.incPendings } rfl rfl hkeep
        rw [todo, hpc] at hm
        exact hm
      · rintro d₁ hd₁
        obtain rfl := Option.some.inj hd₁
        exact ⟨hem, hcls, fun _ => hev (.inl hpc)⟩
    | range hpc hnone =>
      rw [hcls] at hnone
      cases hnone
    | queue hpc p hp w =>
      obtain rfl : p = .norm := Option.some.inj (hp.symm.trans hcls)
      rw [step_queueing s o.worker hpc hp] at hc
      obtain ⟨i, ho, hi⟩ := Option.map_eq_some_iff.1 hc
      obtain ⟨he, -⟩ := Prod.mk.inj hi
      refine ⟨?_, ?_⟩
      · rw [← he]
        refine .queue i c.ev types ?_ ?_ ho (hev (.inr hpc)) hcls
        · rw [todo, hpc]
        · rw [queues?, if_pos hpc]
      · rintro d₁ hd₁
        obtain rfl := Option.some.inj hd₁
        exact ⟨hem, hcls, fun hpc => by rcases hpc with hpc | hpc <;> cases hpc⟩
    | signal w hpc =>
      refine ⟨?_, hdone⟩
      have hm : Moves em s o (.dispatch types c) _ _ := .signal w
      rw [todo, hpc] at hm
      exact hm

/-- A dispatch changes nothing of where the workers are. -/
theorem Moves.phases {em : ℕ} {s e : Emitters n} {o : Oracle n} {d : Delivery n} {l : List ℤ}
    (h : d.Moves em s o e l) : e.phases = s.phases := by
  cases h with
  | quiet e hw hp hk => exact hp
  | _ => rfl

/-- A dispatch makes no types up. -/
theorem Moves.mem_todo {em : ℕ} {s e : Emitters n} {o : Oracle n} {d : Delivery n}
    {l : List ℤ} (h : d.Moves em s o e l) {x : ℤ} (hx : x ∈ l) : x ∈ d.todo := by
  cases h with
  | quiet | signal => exact hx
  | lose y l h | queue w ev l h =>
    rw [h]
    exact List.mem_cons_of_mem _ hx

end Delivery

namespace Emitters

variable {n : ℕ}

/-- The events of the sock with the emitter `em`, wherever they are, and that emitter. -/
structure Posted (s : Emitters n) (em : ℕ) : Prop where
  classed : ∀ i, (s.workers i).Classed
  carried : ∀ ev, s.Carries ev → ev.ForEmit em →
    ev.class? = some .norm ∧ 0 ≤ ev.evType ∧ ev.evType < 4
  entered : ∀ i ev, s.phases i = .entered ev → ev.evHandler = emitEventHandler
  emitter : ∃ e, s.emits.get? em = some e ∧ e.eeHandler = (sockEmit 0).eeHandler

variable {s t : Emitters n} {em : ℕ}

theorem KeepsEmits.emitter (h : s.KeepsEmits t)
    (hs : ∃ e, s.emits.get? em = some e ∧ e.eeHandler = (sockEmit 0).eeHandler) :
    ∃ e, t.emits.get? em = some e ∧ e.eeHandler = (sockEmit 0).eeHandler := by
  obtain ⟨e, he, hh⟩ := hs
  obtain ⟨e', he', -, hh', -⟩ := h em e he
  exact ⟨e', he', hh'.trans hh⟩

theorem Posted.quiet (hs : s.Posted em) (hw : t.workers = s.workers) (hp : t.phases = s.phases)
    (hk : s.KeepsEmits t) : t.Posted em where
  classed := by
    rw [hw]
    exact hs.classed
  carried ev hev := by
    refine hs.carried ev ?_
    rwa [Carries, hw, hp] at hev
  entered := by
    rw [hp]
    exact hs.entered
  emitter := hk.emitter hs.emitter

theorem Posted.enqueue (hs : s.Posted em) {ev : EdpEvent} {p : Priority} (hp : ev.class? = some p)
    (hev : ev.ForEmit em → ev.class? = some .norm ∧ 0 ≤ ev.evType ∧ ev.evType < 4) (w : Fin n) :
    (s.enqueue w p ev).Posted em where
  classed i := by
    by_cases hi : i = w
    · subst hi
      have hcl : ((s.workers i).enqueue p ev).Classed := (hs.classed i).enqueue hp
      simpa [Emitters.enqueue] using hcl
    · simpa [Emitters.enqueue, hi] using hs.classed i
  carried ev' hev' := by
    rcases carries_enqueue hev' with rfl | hev'
    · exact hev
    · exact hs.carried ev' hev'
  entered := hs.entered
  emitter := hs.emitter

theorem Posted.signal (hs : s.Posted em) (w : Fin n) : (s.signal w).Posted em where
  classed i := by
    by_cases hi : i = w
    · subst hi
      simpa [Emitters.signal] using (hs.classed i).signal
    · simpa [Emitters.signal, hi] using hs.classed i
  carried ev hev := hs.carried ev (carries_of_held (Worker.held_signal _) hev)
  entered := hs.entered
  emitter := hs.emitter

theorem Posted.work (hs : s.Posted em) {i : Fin n} (h : s.work i = some t) : t.Posted em := by
  obtain ⟨-, w, l, hstep, ht⟩ := work_cases h
  refine ⟨fun j => ?_, fun ev hev => hs.carried ev (carries_work h hev), fun j ev hj => ?_,
    (keepsEmits_work h).emitter hs.emitter⟩
  · subst ht
    by_cases hj : j = i
    · subst hj
      simpa using (hs.classed j).step hstep
    · simpa [hj] using hs.classed j
  · subst ht
    by_cases hji : j = i
    · subst hji
      have hj : phaseAfter l = .entered ev := by simpa using hj
      rcases phaseAfter_cases l with hp | ⟨ev', -, hh, hp⟩
      · rw [hp] at hj
        cases hj
      · rw [hp] at hj
        rwa [← Phase.entered.inj hj]
    · exact hs.entered j ev (by simpa [hji] using hj)

/-- No step of `emit_event_handler` leads to its own beginning. -/
theorem entered_of_handle {i : Fin n} {ret : ℤ} (h : s.Handle i ret t) {j : Fin n} {ev : EdpEvent}
    (hj : t.phases j = .entered ev) : s.phases j = .entered ev := by
  by_cases hji : j = i
  · subst hji
    cases h with
    | _ => simp [setPhase] at hj
  · cases h with
    | _ => simpa [setPhase, hji] using hj

theorem Posted.handle (hs : s.Posted em) {i : Fin n} {ret : ℤ} (h : s.handle i ret = some t) :
    t.Posted em where
  classed := by
    have hw : t.workers = s.workers := by cases handle_cases h <;> rfl
    rw [hw]
    exact hs.classed
  carried ev hev := hs.carried ev (carries_handle (handle_cases h) hev)
  entered j ev hj := hs.entered j ev (entered_of_handle (handle_cases h) hj)
  emitter := (keepsEmits_handle h).emitter hs.emitter

theorem Posted.dispatch (hs : s.Posted em) {o : Oracle n} {d : Delivery n} {l : List ℤ}
    (hd : ∀ x ∈ d.todo, 0 ≤ x ∧ x < 4) (h : d.Moves em s o t l) : t.Posted em := by
  cases h with
  | quiet e hw hp hk => exact hs.quiet hw hp hk
  | lose x l h => exact hs
  | queue w ev l h hq ho hev hc =>
    refine hs.enqueue hc (fun _ => ⟨hc, hd ev.evType ?_⟩) w
    rw [h]
    exact List.mem_cons_self
  | signal w => exact hs.signal w

end Emitters

namespace SockWorkers

variable {n : ℕ}

/-- The invariant: the sock's events and emitter, the runs of its handlers, and the
dispatches in progress. -/
structure Posted (s : SockWorkers n) : Prop where
  emit : s.emit.Posted s.em
  inside : ∀ i, s.frames i ≠ none → ∃ ev, s.emit.phases i = .inside ev
  eio : ∀ d ∈ s.eio, d.Fit s.em ∧ ∀ x ∈ d.todo, 0 ≤ x ∧ x < 4
  calls : ∀ d ∈ s.calls, d.Fit s.em ∧ ∀ x ∈ d.todo, x = 0
  begun : ∀ i, (s.frames i).bind SockFrame.effect = some 0 → 0 ∈ s.hist

theorem posted_init (a em : ℕ) : Posted (init a em : SockWorkers n) where
  emit := {
    classed := fun _ => Worker.classed_start
    carried := fun ev hev => by
      obtain ⟨i, hi | hi⟩ := hev
      · exact absurd hi (by simp [init, Emitters.init, Worker.start, Worker.held])
      · cases hi
    entered := fun _ _ h => by cases h
    emitter := ⟨sockEmit a, BlockHeap.get?_alloc_self _ _ _, rfl⟩ }
  inside := fun _ h => absurd rfl h
  eio := fun _ h => by cases h
  calls := fun _ h => by cases h
  begun := fun _ h => by cases h

/-- Outside a handler no run is in progress. -/
theorem Posted.frames_eq_none {s : SockWorkers n} (hs : s.Posted) {i : Fin n}
    (h : ∀ ev, s.emit.phases i ≠ .inside ev) : s.frames i = none := by
  by_contra hne
  obtain ⟨ev, hev⟩ := hs.inside i hne
  exact h ev hev

/-- The handler of an event of the sock is installed, and begins a run of its type. -/
theorem Posted.begins {s : SockWorkers n} (hs : s.Posted) {i : Fin n} {ev : EdpEvent}
    (hph : s.emit.phases i = .entered ev) (hem : ev.evEmit = s.em) :
    ∃ e f, s.emit.emits.get? s.em = some e ∧ e.Installed ev.evType ∧
      s.begins? i = some (ev.evType, f) ∧ f.effect = some ev.evType := by
  obtain ⟨e, he, hh⟩ := hs.emit.emitter
  have htype := (hs.emit.carried ev ⟨i, .inr (by rw [hph]; rfl)⟩
    ⟨hs.emit.entered i ev hph, hem⟩).2
  obtain ⟨f, hf, heff⟩ := exists_ofHandler htype
  have hinst : e.Installed ev.evType := by
    obtain ⟨h0, hlt, hne⟩ := sockEmit_installed 0 htype
    exact ⟨h0, hlt, by rwa [hh]⟩
  refine ⟨e, f, he, hinst, ?_, heff⟩
  rw [begins?, hph]
  simp [hem, he, hinst, hh, hf]

/-- A run begins only from the beginning of `emit_event_handler`. -/
theorem begins?_eq_none {s : SockWorkers n} {i : Fin n}
    (h : ∀ ev, s.emit.phases i = .entered ev → ev.evEmit ≠ s.em) : s.begins? i = none := by
  rw [begins?]
  split
  · rw [if_neg (h _ ‹_›)]
  · rfl

end SockWorkers
end EdpIo
