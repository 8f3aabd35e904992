/-
# Taking `edpnet` down with events in flight

`edpnet_fini` sets `ed_init` to zero and destroys the cache of the events without waiting for
those that are on their way.  A worker that completes one of them then fails the assertion of
`edpnet_free_event` (`overtaken`), and so does a call of `edpnet_sock_dispatch` whose event is
refused.

The shutdown is orderly when at the store to `ed_init` no event of a sock is on its way
but those whose owners are past the assertion, and no call of `edpnet_sock_dispatch` is past
its own test of `ed_init` (`Drained`); nothing brings another event after that
(`drained_step`).  `mcache_destroy` refuses while an event is not freed, so no event is freed
into a destroyed cache then (`shutdown_orderly`).
-/

import EdpIo.Evcache.Freed

namespace EdpIo

/-- The call may still come to the assertion of `edpnet_free_event`, or queue an event whose
completion does. -/
def SockDispatch.past {n : ℕ} (c : SockDispatch n) : Bool :=
  match c.pc with
  | .testing | .freeing _ => false
  | .allocating | .asserting _ => true
  | .emitting e => e.unqueued.isSome

namespace EvcacheSys

variable {n : ℕ}

/-- Somebody is at the assertion of `edpnet_free_event`. -/
def AtAssert (s : EvcacheSys n) : Prop :=
  (∃ i, s.frees? i ≠ none ∧ s.passed i = false) ∨ ∃ c ∈ s.calls, ∃ a, c.pc = .asserting a

/-- Somebody is at `mcache_free`. -/
def AtFree (s : EvcacheSys n) : Prop :=
  (∃ i, s.passed i = true) ∨ ∃ c ∈ s.calls, ∃ a, c.pc = .freeing a

/-- Nobody comes to the assertion of `edpnet_free_event` with `ed_init` zero, or frees an
event into a destroyed cache. -/
structure Orderly (s : EvcacheSys n) : Prop where
  assert : s.edInit = false → ¬ s.AtAssert
  free : s.destroyed = true → ¬ s.AtFree

/-- No event of a sock is on its way, but for those whose owners are past the assertion. -/
structure Drained (s : EvcacheSys n) : Prop where
  held : ∀ i, ∀ ev ∈ (s.emit.workers i).held, ev.ofSock = false
  phases : ∀ i, ∀ ev ∈ (s.emit.phases i).event?, ev.ofSock = true → s.passed i = true
  calls : ∀ c ∈ s.calls, c.past = false

/-- `ed_init` is set to zero when no event is on its way. -/
def Awaited (s : EvcacheSys n) : Act n → Prop
  | .fini => s.fini = some .uniniting → s.Drained
  | _ => True

instance (s : EvcacheSys n) : Decidable s.Drained :=
  decidable_of_iff
    ((∀ i, ∀ ev ∈ (s.emit.workers i).held, ev.ofSock = false) ∧
      (∀ i, ∀ ev ∈ (s.emit.phases i).event?, ev.ofSock = true → s.passed i = true) ∧
      ∀ c ∈ s.calls, c.past = false)
    ⟨fun h => ⟨h.1, h.2.1, h.2.2⟩, fun h => ⟨h.held, h.phases, h.calls⟩⟩

instance (s : EvcacheSys n) : (a : Act n) → Decidable (s.Awaited a)
  | .fini => inferInstanceAs (Decidable (_ → s.Drained))
  | .deliver _ _ | .write _ | .call _ _ | .work _ | .assert _ | .handle _ _ | .post _ _ | .wake _
  | .touch _ _ | .shutdown => inferInstanceAs (Decidable True)

/-! ### Nothing comes after the drain -/

theorem past_begin {em : ℕ} {types : List ℤ} {c : SockDispatch n}
    (h : SockDispatch.begin? em types = some c) : c.past = false := by
  rw [SockDispatch.past, pc_begin h]

/-- A call in `emit_dispatch` that is not past its test has queued its event. -/
theorem queued_of_past {c : SockDispatch n} {e : EmitCall n} (hc : c.past = false)
    (hpc : c.pc = .emitting e) : e.unqueued = none := by
  rw [SockDispatch.past, hpc] at hc
  exact Option.isNone_iff_eq_none.1 (Option.isSome_eq_false_iff.1 hc)

/-- With `ed_init` zero a call that is not past its test never is. -/
theorem past_call {s t : EvcacheSys n} {c : SockDispatch n} {c' : Option (SockDispatch n)}
    (hi : s.edInit = false) (hc : c.past = false) (h : s.DispatchStep c t c') :
    ∀ d ∈ c', d.past = false := by
  intro d hd
  cases h with
  | test hpc hi' => cases hi.symm.trans hi'
  | uninit | noMem | done | free => exact past_begin hd
  | alloc hpc | assert a hpc =>
    rw [SockDispatch.past, hpc] at hc
    cases hc
  | emit e hpc u e' hstep => cases (unqueued_of_next hstep).symm.trans (queued_of_past hc hpc)
  | fail e hpc u code hstep hcode =>
    cases (unqueued_of_error hstep hcode).2.symm.trans (queued_of_past hc hpc)

/-- Nor does it change what the workers hold. -/
theorem held_call {s t : EvcacheSys n} {c : SockDispatch n} {c' : Option (SockDispatch n)}
    (hc : c.past = false) (h : s.DispatchStep c t c') (i : Fin n) :
    (t.emit.workers i).held = (s.emit.workers i).held := by
  cases h with
  | emit e hpc u e' hstep => cases (unqueued_of_next hstep).symm.trans (queued_of_past hc hpc)
  | fail e hpc u code hstep hcode =>
    cases (unqueued_of_error hstep hcode).2.symm.trans (queued_of_past hc hpc)
  | done e hpc u code hstep hcode =>
    cases hstep with
    | refuse hpc' em he hne => exact absurd hcode hne
    | range hpc' hclass => exact absurd hcode (by decide)
    | signal w hpc' => exact Worker.held_update s.emit.workers (Worker.held_signal _) i
  | _ => rfl

/-- A call of `edpnet_sock_dispatch` moves no worker. -/
theorem phases_call {s t : EvcacheSys n} {c : SockDispatch n} {c' : Option (SockDispatch n)}
    (h : s.DispatchStep c t c') : t.emit.phases = s.emit.phases ∧ t.passed = s.passed := by
  cases h with
  | emit e hpc u e' hstep | fail e hpc u code hstep | done e hpc u code hstep =>
    exact ⟨by cases hstep <;> rfl, rfl⟩
  | _ => exact ⟨rfl, rfl⟩

/-- The own steps of a worker, by what it holds and handles. -/
theorem event_work {s t : Emitters n} {i : Fin n} (h : s.work i = some t) (j : Fin n) :
    (∀ ev ∈ (t.workers j).held, ev ∈ (s.workers j).held) ∧
      ∀ ev ∈ (t.phases j).event?, ev ∈ (s.phases j).event? ∨ ev ∈ (s.workers j).held := by
  obtain ⟨hout, w, l, hstep, rfl⟩ := Emitters.work_cases h
  by_cases hj : j = i
  · subst hj
    refine ⟨fun ev hev => hstep.held_subset (by simpa using hev), fun ev hev => .inr ?_⟩
    simp only [Function.update_self] at hev
    rcases Emitters.phaseAfter_cases l with hp | ⟨ev', rfl, -, hp⟩
    · rw [hp] at hev
      cases hev
    · rw [hp] at hev
      obtain rfl : ev' = ev := Option.some.inj hev
      exact hstep.mem_held
  · exact ⟨fun ev hev => by simpa [hj] using hev, fun ev hev => .inl (by simpa [hj] using hev)⟩

/-- The steps in `emit_event_handler`. -/
theorem event_handle {s t : Emitters n} {i : Fin n} {ret : ℤ} (h : s.handle i ret = some t) :
    t.workers = s.workers ∧ ∀ j, ∀ ev ∈ (t.phases j).event?, ev ∈ (s.phases j).event? := by
  have hset : ∀ p : Phase, (∀ ev ∈ p.event?, ev ∈ (s.phases i).event?) →
      ∀ j, ∀ ev ∈ ((s.setPhase i p).phases j).event?, ev ∈ (s.phases j).event? := by
    intro p hp j ev hev
    by_cases hj : j = i
    · subst hj
      exact hp ev (by simpa [Emitters.setPhase] using hev)
    · simpa [Emitters.setPhase, hj] using hev
  cases Emitters.handle_cases h with
  | refuse ev errcode hph e he hi =>
    exact ⟨rfl, hset (.completing ev errcode) (by rw [hph]; exact fun _ h => h)⟩
  | call ev hph e he hi => exact ⟨rfl, hset (.inside ev) (by rw [hph]; exact fun _ h => h)⟩
  | returned ev hph => exact ⟨rfl, hset (.ended ev ret) (by rw [hph]; exact fun _ h => h)⟩
  | decrement ev errcode hph =>
    exact ⟨rfl, hset (.completing ev errcode) (by rw [hph]; exact fun _ h => h)⟩
  | complete ev errcode hph => exact ⟨rfl, hset .out fun _ h => by cases h⟩

/-- They move that worker alone. -/
theorem phases_handle {s t : Emitters n} {i : Fin n} {ret : ℤ} (h : s.handle i ret = some t)
    {j : Fin n} (hj : j ≠ i) : t.phases j = s.phases j := by
  cases Emitters.handle_cases h <;> exact Function.update_of_ne hj _ _

/-- A worker that frees an event of a sock completes it. -/
theorem completing_of_frees {s : EvcacheSys n} {i : Fin n} {a : ℕ} (h : s.frees? i = some a) :
    ∃ ev errcode, s.emit.phases i = .completing ev errcode ∧ ev.ofSock = true ∧ ev.addr = a := by
  rw [frees?] at h
  split at h
  · obtain ⟨ho, h⟩ := Option.ite_none_right_eq_some.1 h
    exact ⟨_, _, ‹_›, ho, Option.some.inj h⟩
  · cases h

/-- It is out of `emit_event_handler` after that. -/
theorem handle_of_frees {s : EvcacheSys n} {i : Fin n} {a : ℕ} {ret : ℤ} {e : Emitters n}
    (hf : s.frees? i = some a) (h : s.emit.handle i ret = some e) : e = s.emit.setPhase i .out := by
  obtain ⟨ev, errcode, hph, -, -⟩ := completing_of_frees hf
  simp only [Emitters.handle, hph] at h
  split_ifs at h
  exact (Option.some.inj h).symm

/-- **Nothing comes after the drain.** -/
theorem drained_step {s t : EvcacheSys n} {a : Act n} (hi : s.edInit = false) (hs : s.Drained)
    (h : EvcacheSys.step s a = some t) : t.Drained := by
  have hbegin : ∀ em types,
      Drained { s with calls := (SockDispatch.begin? em types).toList ++ s.calls } :=
    fun em types => ⟨hs.held, hs.phases, fun c hc =>
      (mem_begin hc).elim (fun hpc => by rw [SockDispatch.past, hpc]) (hs.calls c)⟩
  cases step_cases h with
  | deliver em events => exact hbegin em (sockWorkerCb events)
  | write em => exact hbegin em [0]
  | call c o hc u c' hstep =>
    have hheld := held_call (hs.calls c hc) hstep
    obtain ⟨hph, hp⟩ := phases_call hstep
    have hu : u.calls = s.calls := by cases hstep <;> rfl
    refine ⟨fun i ev hev => hs.held i ev (hheld i ▸ hev), fun i ev hev ho => ?_, fun d hd => ?_⟩
    · show u.passed i = true
      rw [hp]
      exact hs.phases i ev (hph ▸ hev) ho
    · exact (Pool.mem_swap hd).elim (past_call hi (hs.calls c hc) hstep d)
        fun hd => hs.calls d (hu ▸ hd)
  | work i e hwork =>
    have hev := event_work hwork
    refine ⟨fun j ev h => hs.held j ev ((hev j).1 ev h), fun j ev h ho => ?_, hs.calls⟩
    rcases (hev j).2 ev h with h | h
    · exact hs.phases j ev h ho
    · cases (hs.held j ev h).symm.trans ho
  | assert i a hf hi' => cases hi.symm.trans hi'
  | handle i ret hf e hhandle =>
    obtain ⟨hw, hev⟩ := event_handle hhandle
    exact ⟨fun j ev h => hs.held j ev (hw ▸ h), fun j ev h => hs.phases j ev (hev j ev h), hs.calls⟩
  | free i ret a hf hp e hhandle =>
    obtain ⟨hw, hev⟩ := event_handle hhandle
    refine ⟨fun j ev h => hs.held j ev (hw ▸ h), fun j ev h ho => ?_, hs.calls⟩
    by_cases hj : j = i
    · subst hj
      rw [handle_of_frees hf hhandle] at h
      simp [Emitters.setPhase, Phase.event?] at h
    · have := hs.phases j ev (hev j ev h) ho
      simpa [hj] using this
  | post i ev p hp ho =>
    refine ⟨fun j e he => ?_, hs.phases, hs.calls⟩
    by_cases hj : j = i
    · subst hj
      have he : e ∈ ((s.emit.workers j).enqueue p ev).held := by simpa [Emitters.enqueue] using he
      rw [Worker.held_enqueue, Multiset.singleton_add, Multiset.mem_cons] at he
      exact he.elim (fun he => he ▸ ho) (hs.held j e)
    · exact hs.held j e (by simpa [Emitters.enqueue, hj] using he)
  | wake i =>
    have hheld := Worker.held_update s.emit.workers (Worker.held_signal (s.emit.workers i))
    exact ⟨fun j e he => hs.held j e (hheld j ▸ he), hs.phases, hs.calls⟩
  | touch em e => exact ⟨hs.held, hs.phases, hs.calls⟩
  | shutdown h0 => exact ⟨hs.held, hs.phases, hs.calls⟩
  | fini pc hpc u hstep =>
    cases hstep with
    | stop i pc' hne =>
      have hheld := FiniSys.held_stop s.emit.workers i
      exact ⟨fun j e he => hs.held j e (hheld j ▸ he), hs.phases, hs.calls⟩
    | _ => exact ⟨hs.held, hs.phases, hs.calls⟩

/-! ### Runs -/

/-- The worker past the assertion still has the event to free. -/
def Passes (s : EvcacheSys n) : Prop := ∀ i, s.passed i = true → s.frees? i ≠ none

theorem frees?_congr {s t : EvcacheSys n} {i : Fin n} (h : t.emit.phases i = s.emit.phases i) :
    t.frees? i = s.frees? i := by
  rw [frees?, frees?, h]

theorem passes_step {s t : EvcacheSys n} {a : Act n} (hs : s.Passes)
    (h : EvcacheSys.step s a = some t) : t.Passes := by
  -- a step that leaves the places of the workers as they are
  have hkeep : ∀ {t : EvcacheSys n}, t.emit.phases = s.emit.phases → t.passed = s.passed →
      t.Passes := fun hph hp i hi => by
    rw [frees?_congr (congrFun hph i)]
    exact hs i (hp ▸ hi)
  -- a step of a worker that is not past the assertion
  have hone : ∀ (i : Fin n) (e : Emitters n), s.frees? i = none →
      (∀ j, j ≠ i → e.phases j = s.emit.phases j) → Passes { s with emit := e } :=
    fun i e hf he j hj => by
      by_cases hji : j = i
      · exact absurd hf (hs i (hji ▸ hj))
      · rw [frees?_congr (he j hji)]
        exact hs j hj
  cases step_cases h with
  | deliver | write | touch | shutdown | post | wake => exact hkeep rfl rfl
  | call c o hc u c' hstep => exact hkeep (phases_call hstep).1 (phases_call hstep).2
  | work i e hwork =>
    obtain ⟨hout, w, l, hstep, rfl⟩ := Emitters.work_cases hwork
    exact hone i _ (by rw [frees?, hout]) fun j hj => Function.update_of_ne hj _ _
  | assert i a hf hi =>
    intro j hj
    by_cases hji : j = i
    · subst hji
      exact hf ▸ Option.some_ne_none a
    · exact hs j (by simpa [hji] using hj)
  | handle i ret hf e hhandle =>
    exact hone i e hf fun j hj => phases_handle hhandle hj
  | free i ret a hf hp e hhandle =>
    intro j hj
    by_cases hji : j = i
    · subst hji
      simp at hj
    · show frees? { s.freeEvent a with emit := e, passed := _ } j ≠ none
      rw [frees?_congr (s := s) (phases_handle hhandle hji)]
      exact hs j (by simpa [hji] using hj)
  | fini pc hpc u hstep => cases hstep <;> exact hkeep rfl rfl

/-- With `ed_init` zero nobody else comes to `mcache_free`. -/
theorem atFree_step {s t : EvcacheSys n} {a : Act n} (hi : s.edInit = false)
    (h : EvcacheSys.step s a = some t) (ht : t.AtFree) : s.AtFree := by
  have hbegin : ∀ em types,
      AtFree { s with calls := (SockDispatch.begin? em types).toList ++ s.calls } → s.AtFree :=
    fun em types h => h.imp_right fun ⟨c, hc, a, hpc⟩ => by
      rcases mem_begin hc with hc | hc
      · cases hc.symm.trans hpc
      · exact ⟨c, hc, a, hpc⟩
  cases step_cases h with
  | deliver em events => exact hbegin em (sockWorkerCb events) ht
  | write em => exact hbegin em [0] ht
  | call c o hc u c' hstep =>
    have hu : u.calls = s.calls := by cases hstep <;> rfl
    rcases ht with ⟨i, hp⟩ | ⟨d, hd, a, hpc⟩
    · exact .inl ⟨i, (phases_call hstep).2 ▸ hp⟩
    · rcases Pool.mem_swap hd with hnew | hold
      · cases hstep with
        | uninit | noMem | done | free =>
          rw [pc_begin hnew] at hpc
          cases hpc
        | test | alloc | emit | fail =>
          obtain rfl := Option.some.inj hnew
          cases hpc
        | assert a hpc' hi' => cases hi.symm.trans hi'
      · exact .inr ⟨d, hu ▸ hold, a, hpc⟩
  | assert i a hf hi' => cases hi.symm.trans hi'
  | free i ret a hf hp e hhandle => exact .inl ⟨i, hp⟩
  | fini pc hpc u hstep => cases hstep <;> exact ht
  | _ => exact ht

/-- At every point of a run whose shutdown waits for the events. -/
structure Closing (s : EvcacheSys n) : Prop where
  tracked : s.Tracked
  passes : s.Passes
  order : s.fini = some .destroying → s.edInit = false
  drained : s.edInit = false → s.Drained
  gone : s.destroyed = true → s.edInit = false ∧ ¬ s.AtFree

theorem closing_init : (init : EvcacheSys n).Closing where
  tracked := tracked_init
  passes := fun i hi => by cases hi
  order := fun h => by cases h
  drained := fun h => by cases h
  gone := fun h => by cases h

/-- Whoever is at `mcache_free` has an event in flight. -/
theorem Closing.inFlight_of_atFree {s : EvcacheSys n} (hs : s.Closing) (h : s.AtFree) :
    s.inFlight ≠ 0 := by
  rcases h with ⟨i, hp⟩ | ⟨c, hc, a, hpc⟩
  · obtain ⟨a, hf⟩ := Option.ne_none_iff_exists'.1 (hs.passes i hp)
    obtain ⟨ev, errcode, hph, ho, -⟩ := completing_of_frees hf
    exact places_of_carried ⟨i, .inr (by rw [hph]; rfl)⟩ ho rfl
  · exact places_of_held hc (by rw [SockDispatch.held, hpc]) rfl

/-- Only `edp_fini` changes `ed_init` and destroys the cache. -/
theorem frame_step {s t : EvcacheSys n} {a : Act n} (ha : a ≠ .fini)
    (h : EvcacheSys.step s a = some t) :
    t.edInit = s.edInit ∧ t.destroyed = s.destroyed ∧
      (t.fini = s.fini ∨ t.fini = some .eioFini) := by
  cases step_cases h with
  | call c o hc u c' hstep => cases hstep <;> exact ⟨rfl, rfl, .inl rfl⟩
  | shutdown => exact ⟨rfl, rfl, .inr rfl⟩
  | fini => exact absurd rfl ha
  | _ => exact ⟨rfl, rfl, .inl rfl⟩

/-- The cache is only destroyed when nobody is at `mcache_free`. -/
theorem Closing.not_atFree {s : EvcacheSys n} (hs : s.Closing)
    (h : s.edEvcache.mcacheDestroy = 0) : ¬ s.AtFree := fun hfree => by
  have hne := hs.inFlight_of_atFree hfree
  have hcount := hs.tracked.count
  rw [MemCache.mcacheDestroy, if_pos (by omega)] at h
  cases h

theorem Closing.step {s t : EvcacheSys n} {a : Act n} (hs : s.Closing) (ha : s.Awaited a)
    (h : EvcacheSys.step s a = some t) : t.Closing := by
  have htr := hs.tracked.step h
  have hpa := passes_step hs.passes h
  -- what holds with `ed_init` zero goes on
  have hdr : s.edInit = false → t.Drained := fun hi => drained_step hi (hs.drained hi) h
  have hgone : s.destroyed = true → s.edInit = false ∧ ¬ t.AtFree := fun hd =>
    ⟨(hs.gone hd).1, fun ht => (hs.gone hd).2 (atFree_step (hs.gone hd).1 h ht)⟩
  by_cases hfini : a = .fini
  · subst hfini
    cases step_cases h with
    | fini pc hpc u hstep =>
      cases hstep with
      | eio | emit => exact ⟨htr, hpa, (fun h => by cases h), hdr, hgone⟩
      | uninit =>
        obtain ⟨hheld, hph, hcalls⟩ := ha hpc
        exact ⟨htr, hpa, fun _ => rfl, fun _ => ⟨hheld, hph, hcalls⟩,
          fun hd => ⟨rfl, (hgone hd).2⟩⟩
      | destroy =>
        exact ⟨htr, hpa, (fun h => by cases h), hdr,
          fun hd => ⟨hs.order hpc, hs.not_atFree (of_decide_eq_true hd)⟩⟩
      | stop i pc hne => exact ⟨htr, hpa, fun h => absurd (Option.some.inj h) hne, hdr, hgone⟩
  · obtain ⟨hi, hd, hf⟩ := frame_step hfini h
    refine ⟨htr, hpa, fun h => ?_, fun h => hdr (hi ▸ h), fun h => ?_⟩
    · rcases hf with hf | hf
      · exact hi.trans (hs.order (hf ▸ h))
      · cases hf.symm.trans h
    · obtain ⟨h₁, h₂⟩ := hgone (hd ▸ h)
      exact ⟨hi.trans h₁, h₂⟩

theorem Closing.orderly {s : EvcacheSys n} (hs : s.Closing) : s.Orderly := by
  refine ⟨fun hi => ?_, fun hd => (hs.gone hd).2⟩
  have hdr := hs.drained hi
  rintro (⟨i, hf, hp⟩ | ⟨c, hc, a, hpc⟩)
  · obtain ⟨a, hf⟩ := Option.ne_none_iff_exists'.1 hf
    obtain ⟨ev, errcode, hph, ho, -⟩ := completing_of_frees hf
    cases hp.symm.trans (hdr.phases i ev (by rw [hph]; rfl) ho)
  · have := hdr.calls c hc
    rw [SockDispatch.past, hpc] at this
    cases this

/-- **Shutdown with work in flight.**  In every run of the workers, the deliveries and
`edp_fini` in which `ed_init` is set to zero when no event is on its way, nobody comes to the
assertion of `edpnet_free_event` after that, and no event is freed into a destroyed cache. -/
theorem shutdown_orderly {as : List (Act n)} {s : EvcacheSys n}
    (hc : StepSystem.Meets step Awaited (init : EvcacheSys n) as)
    (hrun : StepSystem.run step init as = some s) : s.Orderly :=
  (StepSystem.run_invariant (fun _ _ _ => Closing.step) closing_init hc hrun).orderly

/-- An event that is refused and freed before the shutdown: the cache is destroyed. -/
theorem shutdown_orderly_drained : ∃ s : EvcacheSys 1, s.destroyed = true ∧ s.Orderly := by
  have hrun := Eq.refl (StepSystem.run (step (n := 1)) init [.touch 1 (emitCreate 7), .write 1,
    .call ⟨1, 0, [], .testing⟩ ⟨true, none, none⟩,
    .call ⟨1, 0, [], .allocating⟩ ⟨true, some 100, none⟩,
    .call ⟨1, 0, [], .emitting ⟨1, sockEvent 100 0, edpnetSockDone, 0, .checking⟩⟩
      ⟨true, none, none⟩,
    .call ⟨1, 0, [], .asserting 100⟩ ⟨true, none, none⟩, .shutdown, .fini,
    .call ⟨1, 0, [], .freeing 100⟩ ⟨true, none, none⟩, .fini, .fini])
  exact ⟨_, rfl, shutdown_orderly (by decide) hrun⟩

/-- A worker takes an event of a sock from its queue, `edpnet_fini` sets `ed_init` to zero, and
the worker comes to the assertion of `edpnet_free_event`. -/
theorem overtaken : ¬ ∀ (n : ℕ) (as : List (Act n)) (s : EvcacheSys n),
    StepSystem.run step init as = some s → s.Orderly := by
  intro h
  have hrun := Eq.refl (StepSystem.run (step (n := 1)) init [.touch 1 (sockEmit 7), .deliver 1 4,
    .call ⟨1, 0, [], .testing⟩ ⟨true, none, none⟩,
    .call ⟨1, 0, [], .allocating⟩ ⟨true, some 100, none⟩,
    .call ⟨1, 0, [], .emitting ⟨1, sockEvent 100 0, edpnetSockDone, 0, .checking⟩⟩
      ⟨true, none, none⟩,
    .call ⟨1, 0, [], .emitting ⟨1, ⟨100, 0, 1, -1, 6, 0, 1, 1⟩, 6, 0, .counting⟩⟩
      ⟨true, none, none⟩,
    .call ⟨1, 0, [], .emitting ⟨1, ⟨100, 0, 1, -1, 6, 0, 1, 1⟩, 6, 0, .queueing⟩⟩
      ⟨true, none, some 0⟩,
    .call ⟨1, 0, [], .emitting ⟨1, ⟨100, 0, 1, -1, 6, 0, 1, 1⟩, 6, 0, .signalling 0⟩⟩
      ⟨true, none, none⟩,
    .work 0, .work 0, .work 0, .work 0, .work 0, .work 0, .work 0, .work 0, .work 0, .work 0,
    .shutdown, .fini, .fini, .handle 0 0, .handle 0 0, .handle 0 0])
  exact (h 1 _ _ hrun).assert rfl (.inl ⟨0, by decide, rfl⟩)

end EvcacheSys
end EdpIo
