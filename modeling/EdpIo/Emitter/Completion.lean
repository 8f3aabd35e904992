/-
# Exactly one completion for each dispatch

With fresh dispatches every call of `emit_dispatch` that returned `0` has queued its event
once, and that is followed by at most one call of `edp_event_done` on the event, with
the callback and the argument of the call; unless it has happened the event is still in a
queue, in a local list or in `emit_event_handler` (`Settled`).  The rounds of each event
come from `Tracked`; what is added here are the numbers of the calls (`Numbered`).
-/

import EdpIo.Emitter.Fresh

namespace EdpIo

/-- What the call with the number `id` queued. -/
def queuedBy (id : ℕ) (hist : List EmitObs) : List (ℕ × ℕ × ℕ × ℕ) :=
  hist.filterMap fun o =>
    match o with
    | .queued i em a cb data => if i = id then some (em, a, cb, data) else none
    | _ => none

/-- The arguments of a call. -/
def EmitCall.args {n : ℕ} (c : EmitCall n) : ℕ × ℕ × ℕ × ℕ := (c.em, c.ev.addr, c.cb, c.data)

namespace EmitSys

variable {n : ℕ}

/-- Each call has its own number, and has queued its event once if it can not do so any
more; a call that returned has done so if it returned `0`, and else never. -/
structure Numbered (s : EmitSys n) : Prop where
  unused : ∀ id, s.begun ≤ id → queuedBy id s.hist = []
  lt : ∀ c ∈ s.calls, c.id < s.begun
  nodup : (s.calls.map EmitTask.id).Nodup
  calls : ∀ c ∈ s.calls, queuedBy c.id s.hist = if c.call.early then [] else [c.call.args]
  returned : ∀ id em a cb data code, .returned id em a cb data code ∈ s.hist →
    id < s.begun ∧ (∀ c ∈ s.calls, c.id ≠ id) ∧
      queuedBy id s.hist = if code = 0 then [(em, a, cb, data)] else []

theorem numbered_init : Numbered (init : EmitSys n) :=
  ⟨fun _ _ => rfl, fun _ h => absurd h List.not_mem_nil, List.nodup_nil,
    fun _ h => absurd h List.not_mem_nil, fun _ _ _ _ _ _ h => absurd h List.not_mem_nil⟩

/-- Steps that touch no call, and record at most what is no record of one. -/
theorem Numbered.of_same {s t : EmitSys n} (hs : s.Numbered) (hcalls : t.calls = s.calls)
    (hbegun : t.begun = s.begun) (hq : ∀ id, queuedBy id t.hist = queuedBy id s.hist)
    (hret : ∀ id em a cb data code, .returned id em a cb data code ∈ t.hist →
      .returned id em a cb data code ∈ s.hist) : t.Numbered := by
  refine ⟨fun id h => ?_, fun c hc => ?_, ?_, fun c hc => ?_, fun id em a cb data code h => ?_⟩
  · rw [hq]
    exact hs.unused id (hbegun ▸ h)
  · rw [hbegun]
    exact hs.lt c (hcalls ▸ hc)
  · rw [hcalls]
    exact hs.nodup
  · rw [hq]
    exact hs.calls c (hcalls ▸ hc)
  · rw [hbegun, hcalls, hq]
    exact hs.returned id em a cb data code (hret id em a cb data code h)

theorem Numbered.dispatch {s : EmitSys n} (hs : s.Numbered) (em a cb data : ℕ) :
    Numbered { s with calls := ⟨s.begun, em, s.mem a, cb, data, .checking⟩ :: s.calls
                      begun := s.begun + 1 } := by
  refine ⟨fun id h => hs.unused id (Nat.le_of_succ_le h), fun c hc => ?_, ?_, fun c hc => ?_,
    fun id em a cb data code h => ?_⟩
  · rcases List.mem_cons.1 hc with rfl | hc
    · exact Nat.lt_succ_self _
    · exact Nat.lt_succ_of_lt (hs.lt c hc)
  · refine List.nodup_cons.2 ⟨fun hmem => ?_, hs.nodup⟩
    obtain ⟨c, hc, hid⟩ := List.mem_map.1 hmem
    have hlt := hs.lt c hc
    rw [hid] at hlt
    exact absurd hlt (Nat.lt_irrefl _)
  · rcases List.mem_cons.1 hc with rfl | hc
    · exact hs.unused s.begun (Nat.le_refl _)
    · exact hs.calls c hc
  · obtain ⟨hlt, hne, hq⟩ := hs.returned id em a cb data code h
    refine ⟨Nat.lt_succ_of_lt hlt, fun c hc => ?_, hq⟩
    rcases List.mem_cons.1 hc with rfl | hc
    · exact hlt.ne'
    · exact hne c hc

/-- The other calls have other numbers. -/
theorem Numbered.ne_of_erase {s : EmitSys n} (hs : s.Numbered) {c d : EmitTask n}
    (hc : c ∈ s.calls) (hd : d ∈ s.calls.erase c) : d.id ≠ c.id := by
  have hperm := (List.perm_cons_erase hc).map EmitTask.id
  have hnodup := hperm.nodup_iff.1 hs.nodup
  intro h
  exact (List.nodup_cons.1 hnodup).1 (List.mem_map.2 ⟨d, hd, h⟩)

/-- A call that goes on: `l` is what is recorded of the step. -/
theorem Numbered.next {s t : EmitSys n} (hs : s.Numbered) {c : EmitTask n} (hc : c ∈ s.calls)
    {d : EmitCall n} {l : List EmitObs} (hcalls : t.calls = ⟨c.id, d⟩ :: s.calls.erase c)
    (hbegun : t.begun = s.begun) (hhist : t.hist = l ++ s.hist)
    (hl : ∀ id em a cb data code, EmitObs.returned id em a cb data code ∉ l)
    (hne : ∀ id, id ≠ c.id → queuedBy id l = [])
    (hself : queuedBy c.id l ++ queuedBy c.id s.hist = if d.early then [] else [d.args]) :
    t.Numbered := by
  have hq : ∀ id, queuedBy id t.hist = queuedBy id l ++ queuedBy id s.hist := by
    intro id
    rw [hhist]
    exact List.filterMap_append
  have hlt := hs.lt c hc
  refine ⟨fun id h => ?_, fun x hx => ?_, ?_, fun x hx => ?_, fun id em a cb data code h => ?_⟩
  · rw [hbegun] at h
    rw [hq, hne id (by omega), hs.unused id h]
    rfl
  · rw [hcalls] at hx
    rw [hbegun]
    rcases List.mem_cons.1 hx with rfl | hx
    · exact hlt
    · exact hs.lt x (List.mem_of_mem_erase hx)
  · rw [hcalls]
    exact ((List.perm_cons_erase hc).map EmitTask.id).nodup_iff.1 hs.nodup
  · rw [hcalls] at hx
    rw [hq]
    rcases List.mem_cons.1 hx with rfl | hx
    · exact hself
    · rw [hne x.id (hs.ne_of_erase hc hx)]
      exact hs.calls x (List.mem_of_mem_erase hx)
  · rw [hhist] at h
    have h := (List.mem_append.1 h).resolve_left (hl id em a cb data code)
    obtain ⟨hltid, hneid, hqid⟩ := hs.returned id em a cb data code h
    refine ⟨hbegun ▸ hltid, fun x hx => ?_, ?_⟩
    · rw [hcalls] at hx
      rcases List.mem_cons.1 hx with rfl | hx
      · exact hneid c hc
      · exact hneid x (List.mem_of_mem_erase hx)
    · rw [hq, hne id (hneid c hc).symm]
      exact hqid

/-- A call that returns. -/
theorem Numbered.ret {s t : EmitSys n} (hs : s.Numbered) {c : EmitTask n} (hc : c ∈ s.calls)
    {em a cb data : ℕ} {code : ℤ} (hcalls : t.calls = s.calls.erase c)
    (hbegun : t.begun = s.begun) (hhist : t.hist = .returned c.id em a cb data code :: s.hist)
    (hself : queuedBy c.id s.hist = if code = 0 then [(em, a, cb, data)] else []) :
    t.Numbered := by
  have hq : ∀ id, queuedBy id t.hist = queuedBy id s.hist := fun id => by rw [hhist]; rfl
  refine ⟨fun id h => ?_, fun d hd => ?_, ?_, fun d hd => ?_,
    fun id em' a' cb' data' code' h => ?_⟩
  · rw [hq]
    exact hs.unused id (hbegun ▸ h)
  · rw [hbegun]
    exact hs.lt d (List.mem_of_mem_erase (hcalls ▸ hd))
  · rw [hcalls]
    exact hs.nodup.sublist (List.erase_sublist.map _)
  · rw [hq]
    exact hs.calls d (List.mem_of_mem_erase (hcalls ▸ hd))
  · rw [hhist] at h
    rw [hq, hbegun, hcalls]
    rcases List.mem_cons.1 h with heq | h
    · obtain ⟨rfl, rfl, rfl, rfl, rfl, rfl⟩ := by simpa using heq
      exact ⟨hs.lt c hc, fun d hd => hs.ne_of_erase hc hd, hself⟩
    · obtain ⟨hlt, hne, hqid⟩ := hs.returned id em' a' cb' data' code' h
      exact ⟨hlt, fun d hd => hne d (List.mem_of_mem_erase hd), hqid⟩

/-- What is recorded in `emit_event_handler` is no record of a call. -/
theorem queuedBy_obs (p : Phase) (id : ℕ) (hist : List EmitObs) :
    queuedBy id (p.obs ++ hist) = queuedBy id hist := by
  cases p <;> rfl

theorem returned_of_obs {p : Phase} {id em a cb data : ℕ} {code : ℤ} {hist : List EmitObs}
    (h : .returned id em a cb data code ∈ p.obs ++ hist) :
    .returned id em a cb data code ∈ hist := by
  refine (List.mem_append.1 h).resolve_left fun h => ?_
  cases p <;> simp [Phase.obs] at h

/-- **A step of a call.** -/
theorem Numbered.call {s : EmitSys n} (hs : s.Numbered) (htr : s.Tracked) {c : EmitTask n}
    (hc : c ∈ s.calls) {e : Emitters n} {r : EmitResult n}
    (h : (c.call.fetch s.mem).Step s.emit e r) : (s.advance c e r).Numbered := by
  have haddr : (c.call.fetch s.mem).ev.addr = c.call.ev.addr := htr.addr c.call.ev.addr
  have hq := hs.calls c hc
  -- a step that records nothing and leaves the call before its locked section
  have hgo : ∀ (e : Emitters n) (c' : EmitCall n), c.call.early = true → c'.early = true →
      (s.advance c e (.next c')).Numbered := by
    intro e c' he he'
    have hobs : (c.call.fetch s.mem).obs c.id (.next c') = [] := by
      obtain ⟨em, ev, cb, data, pc⟩ := c'
      cases pc <;> first | rfl | cases he'
    refine hs.next hc (l := []) rfl rfl ?_ (fun _ _ _ _ _ _ => List.not_mem_nil) (fun _ _ => rfl) ?_
    · show (c.call.fetch s.mem).obs c.id (.next c') ++ s.hist = [] ++ s.hist
      rw [hobs]
    · rw [if_pos he']
      rw [if_pos he] at hq
      exact hq
  cases h with
  | refuse hpc e he hcheck =>
    refine hs.ret hc rfl rfl rfl ?_
    rw [if_neg hcheck, hq, EmitCall.early, show c.call.pc = .checking from hpc]
    rfl
  | pass hpc e he hcheck =>
    exact hgo _ _ (by rw [EmitCall.early, show c.call.pc = .checking from hpc]) rfl
  | count hpc => exact hgo _ _ (by rw [EmitCall.early, show c.call.pc = .counting from hpc]) rfl
  | range hpc hclass =>
    refine hs.ret hc rfl rfl rfl ?_
    rw [hq, EmitCall.early, show c.call.pc = .queueing from hpc]
    rfl
  | queue hpc p hclass w =>
    have hpc : c.call.pc = .queueing := hpc
    refine hs.next hc (d := { c.call.fetch s.mem with pc := .signalling w })
      (l := [.queued c.id c.call.em (c.call.fetch s.mem).ev.addr c.call.cb c.call.data])
      rfl rfl rfl (fun _ _ _ _ _ _ h => by simp at h) (fun id hid => ?_) ?_
    · simp [queuedBy, hid.symm]
    · rw [hq, EmitCall.early, hpc]
      simp [queuedBy, EmitCall.early, EmitCall.args, EmitCall.fetch]
  | signal w hpc =>
    refine hs.ret hc rfl rfl rfl ?_
    rw [hq, EmitCall.early, show c.call.pc = .signalling w from hpc, EmitCall.args, haddr]
    rfl

/-- **One step.** -/
theorem Numbered.step {s t : EmitSys n} {a : Act n} (hs : s.Numbered) (htr : s.Tracked)
    (h : EmitSys.step s a = some t) : t.Numbered := by
  cases step_cases h with
  | dispatch em a cb data => exact hs.dispatch em a cb data
  | call c w hc e r hstep => exact hs.call htr hc hstep
  | handle i ret e hhandle =>
    exact hs.of_same rfl rfl (fun id => queuedBy_obs _ id s.hist)
      fun _ _ _ _ _ _ => returned_of_obs
  | close d hd e r hstep =>
    cases r with
    | next d' => exact hs.of_same rfl rfl (fun _ => rfl) fun _ _ _ _ _ _ => id
    | ret code =>
      exact hs.of_same rfl rfl (fun _ => rfl) fun _ _ _ _ _ _ h => by simpa [closed] using h
  | create em data _ | addHandler em type handler | rmvWatch em type | initEvent a type priority
  | work i e hwork | stop i | destroy em =>
    exact hs.of_same rfl rfl (fun _ => rfl) fun _ _ _ _ _ _ => id

/-! ### What the history says -/

theorem round_eq_req {o : EmitObs} {em a cb data : ℕ} (h : o.round a = .req (em, cb, data)) :
    ∃ id, o = .queued id em a cb data := by
  cases o with
  | queued id em' b cb' data' =>
    by_cases hb : b = a
    · subst hb
      rw [round_queued_self] at h
      obtain ⟨rfl, rfl, rfl⟩ := by simpa using h
      exact ⟨id, rfl⟩
    · rw [round_queued_of_ne hb] at h
      cases h
  | done em' b cb' data' errcode =>
    by_cases hb : b = a
    · subst hb
      rw [round_done_self] at h
      cases h
    · rw [round_done_of_ne hb] at h
      cases h
  | returned id em' b cb' data' code | destroyed em' code => cases h

theorem round_eq_ans {o : EmitObs} {em a cb data : ℕ} (h : o.round a = .ans (em, cb, data)) :
    ∃ errcode, o = .done em a cb data errcode := by
  cases o with
  | done em' b cb' data' errcode =>
    by_cases hb : b = a
    · subst hb
      rw [round_done_self] at h
      obtain ⟨rfl, rfl, rfl⟩ := by simpa using h
      exact ⟨errcode, rfl⟩
    · rw [round_done_of_ne hb] at h
      cases h
  | queued id em' b cb' data' =>
    by_cases hb : b = a
    · subst hb
      rw [round_queued_self] at h
      cases h
    · rw [round_queued_of_ne hb] at h
      cases h
  | returned id em' b cb' data' code | destroyed em' code => cases h

/-- Neither a record of the event with the address `a` being queued nor of its completion. -/
def Apart (a : ℕ) (l : List EmitObs) : Prop :=
  ∀ o ∈ l, (∀ id em cb data, o ≠ .queued id em a cb data) ∧
    ∀ em cb data errcode, o ≠ .done em a cb data errcode

theorem apart_of_other {a : ℕ} {l : List EmitObs} (h : ∀ o ∈ l, o.round a = .other) :
    Apart a l := by
  refine fun o ho => ⟨fun id em cb data heq => ?_, fun em cb data errcode heq => ?_⟩
  · have := h o ho
    rw [heq, round_queued_self] at this
    cases this
  · have := h o ho
    rw [heq, round_done_self] at this
    cases this

/-- What the history and the workers say of each call and of each completion. -/
structure Settled (s : EmitSys n) : Prop where
  /-- A call that returned `0` has queued its event, once. -/
  accepted : ∀ id em a cb data, .returned id em a cb data 0 ∈ s.hist →
    queuedBy id s.hist = [(em, a, cb, data)]
  /-- A call that returned anything else has not. -/
  refused : ∀ id em a cb data code, .returned id em a cb data code ∈ s.hist → code ≠ 0 →
    queuedBy id s.hist = []
  /-- An event that was queued is still on its way, or its completion was called with what
  it was queued with, before anything else happened to it. -/
  completed : ∀ id em a cb data l₂ l₁, s.hist = l₂ ++ .queued id em a cb data :: l₁ →
    (Apart a l₂ ∧ ∃ ev, s.emit.Carries ev ∧ ev.addr = a) ∨
      ∃ m₂ errcode m₁, l₂ = m₂ ++ .done em a cb data errcode :: m₁ ∧ Apart a m₁
  /-- Each completion is that of the call that queued the event last, and its first. -/
  requested : ∀ em a cb data errcode l₂ l₁, s.hist = l₂ ++ .done em a cb data errcode :: l₁ →
    ∃ m₂ id m₁, l₁ = m₂ ++ .queued id em a cb data :: m₁ ∧ Apart a m₂

/-- **Exactly one completion.**  In every state of every run in which no event is dispatched
or initialised again before its completion is called, on any number of workers, with any
handlers, and whatever happens to the handler tables and the emitters. -/
theorem completed_once {acts : List (Act n)} {s : EmitSys n}
    (hf : StepSystem.Meets step Fresh init acts)
    (hrun : StepSystem.run step init acts = some s) : s.Settled := by
  have hs : s.Tracked ∧ s.Numbered :=
    StepSystem.run_invariant (I := fun s => s.Tracked ∧ s.Numbered)
      (fun _ _ _ hs ha h => ⟨hs.1.step ha h, hs.2.step hs.1 h⟩) ⟨tracked_init, numbered_init⟩
      hf hrun
  obtain ⟨htr, hnum⟩ := hs
  refine ⟨fun id em a cb data h => (hnum.returned id em a cb data 0 h).2.2,
    fun id em a cb data code h hne => ?_, fun id em a cb data l₂ l₁ h => ?_,
    fun em a cb data errcode l₂ l₁ h => ?_⟩
  · rw [(hnum.returned id em a cb data code h).2.2, if_neg hne]
  · have hr := htr.rounds a
    have hfl := htr.flight a
    rw [h] at hr
    rw [pending, h] at hfl
    rcases hr.answer_after (round_queued_self ..) with ⟨hp, hother⟩ | ⟨m₂, x, m₁, rfl, hx, hm₁⟩
    · have hne : s.emit.flight (fun ev => ev.addr = a) ≠ 0 := by
        rw [hfl, hp]
        exact Nat.one_ne_zero
      obtain ⟨ev, hev, ha⟩ := Emitters.flight_ne_zero.1 hne
      exact .inl ⟨apart_of_other hother, ev, hev, of_decide_eq_true ha⟩
    · obtain ⟨errcode, rfl⟩ := round_eq_ans hx
      exact .inr ⟨m₂, errcode, m₁, rfl, apart_of_other hm₁⟩
  · have hr := htr.rounds a
    rw [h] at hr
    obtain ⟨m₂, x, m₁, rfl, hx, hm₂⟩ := hr.request_before (round_done_self ..)
    obtain ⟨id, rfl⟩ := round_eq_req hx
    exact ⟨m₂, id, m₁, rfl, apart_of_other hm₂⟩

/-- An event is dispatched to one emitter, completed on the first of two workers, and
dispatched again from its callback, to the other emitter and worker: a run that meets the
hypotheses of `completed_once`. -/
theorem completed_once_recycled :
    ∃ acts : List (Act 2), ∃ s, StepSystem.run step init acts = some s ∧
      s.hist = [.queued 1 2 5 6 7, .done 1 5 3 4 0, .returned 0 1 5 3 4 0, .queued 0 1 5 3 4] ∧
      s.Settled := by
  let ev : ℕ → ℕ → ℕ → ℕ → EdpEvent := fun cb data em h => ⟨5, 0, 1, -1, cb, data, em, h⟩
  let acts : List (Act 2) := [Act.create 1 0, .addHandler 1 0 (.fn 7), .create 2 0,
    .addHandler 2 0 (.fn 8), .initEvent 5 0 1, .dispatch 1 5 3 4,
    .call ⟨0, 1, ev 0 0 0 0, 3, 4, .checking⟩ none,
    .call ⟨0, 1, ev 3 4 1 1, 3, 4, .counting⟩ none,
    .call ⟨0, 1, ev 3 4 1 1, 3, 4, .queueing⟩ (some 0),
    .call ⟨0, 1, ev 3 4 1 1, 3, 4, .signalling 0⟩ none] ++ List.replicate 10 (Act.work 0) ++
    List.replicate 4 (Act.handle 0 0) ++ [Act.initEvent 5 0 1, .dispatch 2 5 6 7,
    .call ⟨1, 2, ev 3 4 1 1, 6, 7, .checking⟩ none,
    .call ⟨1, 2, ev 6 7 2 1, 6, 7, .counting⟩ none,
    .call ⟨1, 2, ev 6 7 2 1, 6, 7, .queueing⟩ (some 1)]
  have hrun : (StepSystem.run step init acts).map hist = some [.queued 1 2 5 6 7,
      .done 1 5 3 4 0, .returned 0 1 5 3 4 0, .queued 0 1 5 3 4] := by decide +kernel
  obtain ⟨s, hs, hh⟩ := Option.map_eq_some_iff.1 hrun
  exact ⟨acts, s, hs, hh, completed_once (by decide +kernel) hs⟩

end EmitSys
end EdpIo
