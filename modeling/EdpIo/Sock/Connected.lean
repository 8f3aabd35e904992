/-
# Whether an `EPOLLIN` event finds `CONNECT` set

`edpnet_sock_epollin_handler` asserts `CONNECT`, which the first `EPOLLOUT` event sets
and the `EPOLLHUP` event clears.  A sock on its workers steps as `Lanes` do
(`lanes_step`), where each event queued on a lane finds what it relies on if it goes to
the right one.  But `edpnet_sock_dispatch` leaves the worker to `__edp_dispatch`, so that
the events of one mask may come on different workers and the second be handled first
(`in_before_out`).

`connect_asserted` holds of every run in which each `EPOLLIN` event is queued where it
finds `CONNECT` set or an `EPOLLOUT` event in front of it, and the `EPOLLHUP` event on
the worker that has all the `EPOLLIN` events (`Placed`).
-/

import EdpIo.Sock.Lanes
import EdpIo.Sock.Posted

namespace EdpIo

/-- The types of a mask come in ascending order. -/
theorem parted_sockWorkerCb (events : ℕ) : Parted (sockWorkerCb events) := by
  unfold sockWorkerCb
  split <;> split <;> split <;> split <;> decide

/-- A mask asks for `EPOLLHUP` only if its bit is set. -/
theorem hup_of_mem {events : ℕ} (h : 3 ∈ sockWorkerCb events) : events &&& 16 ≠ 0 := by
  unfold sockWorkerCb at h
  simp only [List.mem_append, List.mem_ite_nil_right, List.mem_singleton] at h
  omega

namespace SockWorkers

variable {n : ℕ}

/-- The sock as lanes, one for each worker. -/
def lanes (s : SockWorkers n) : Lanes (Fin n) where
  connect := s.sock.connect
  todo := (s.eio.map Delivery.todo).getD []
  lane := s.emit.lane s.em s.frames
  handled := s.hist
  hup := s.masks.any fun m => m &&& 16 ≠ 0

/-- In every run of the handler that is before its assertion it holds; the `EPOLLIN`
handler was never called before the `EPOLLOUT` handler nor after the `EPOLLHUP` handler. -/
def Asserted (s : SockWorkers n) : Prop :=
  (∀ i, s.frames i = some (.epollin .enter) → s.sock.connect = true) ∧ Between s.hist

/-- The first mask has `EPOLLOUT`, and none comes after one that has `EPOLLHUP`. -/
def Epoll (s : SockWorkers n) : Act n → Prop
  | .mask events => (s.masks = [] → events &&& 4 ≠ 0) ∧ ∀ m ∈ s.masks, m &&& 16 = 0
  | _ => True

/-- An event of the type queued on worker `w` will find what it relies on: for `EPOLLIN`
the `CONNECT` bit set, or an event on the same worker that has still to set it; for
`EPOLLHUP` no `EPOLLIN` event on another worker that has still to rely on it. -/
def MayQueue (s : SockWorkers n) (type : ℤ) (w : Fin n) : Prop :=
  (type = 1 → s.sock.connect = true ∨ 0 ∈ s.lanes.lane w) ∧
    (type = 3 → ∀ j, j ≠ w → 1 ∉ s.lanes.lane j)

/-- The step queues no event of a mask where it may not be queued. -/
def Placed (s : SockWorkers n) : Act n → Prop
  | .eio o => ∀ type ∈ s.eio.bind Delivery.queues?, ∀ w ∈ o.worker, s.MayQueue type w
  | _ => True

instance (s : SockWorkers n) : Decidable s.Asserted := inferInstanceAs (Decidable (_ ∧ _))

instance (s : SockWorkers n) : (a : Act n) → Decidable (s.Epoll a)
  | .mask _ => inferInstanceAs (Decidable (_ ∧ _))
  | .eio _ | .submit | .writer _ _ | .call _ _ | .clearRead | .work _ | .handle _ _ | .frame _ _
  | .post _ _ | .wake _ | .touch _ _ => inferInstanceAs (Decidable True)

instance (s : SockWorkers n) (type : ℤ) (w : Fin n) : Decidable (s.MayQueue type w) :=
  inferInstanceAs (Decidable (_ ∧ _))

instance (s : SockWorkers n) : (a : Act n) → Decidable (s.Placed a)
  | .eio o =>
    inferInstanceAs (Decidable (∀ type ∈ s.eio.bind Delivery.queues?, ∀ w ∈ o.worker,
      s.MayQueue type w))
  | .mask _ | .submit | .writer _ _ | .call _ _ | .clearRead | .work _ | .handle _ _ | .frame _ _
  | .post _ _ | .wake _ | .touch _ _ => inferInstanceAs (Decidable True)

variable {s t : SockWorkers n}

/-- Where a run of a handler is in progress the lane begins with what it has still to do. -/
theorem Posted.lane_of_frame (hs : s.Posted) {i : Fin n} {f : SockFrame}
    (hf : s.frames i = some f) (f' : Option SockFrame) :
    coreLane s.em (s.emit.workers i) (s.emit.phases i) f' =
      (f'.bind SockFrame.effect).toList ++ (s.emit.workers i).types s.em := by
  obtain ⟨ev, hev⟩ := hs.inside i fun h => by
    rw [hf] at h
    cases h
  rw [coreLane, hev]
  rfl

/-- A step of the sock's handler on worker `i`. -/
theorem Posted.frame_lanes (hs : s.Posted) {i : Fin n} {k : KernelWrite} {f : SockFrame}
    (hf : s.frames i = some f) {sock : SockIo} {read : Bool} {f' : Option SockFrame}
    (h : f.step s.sock s.read k = some (sock, read, f')) :
    s.lanes.Step
      { s.lanes with connect := sock.connect
                     lane := s.emit.lane s.em (Function.update s.frames i f') } := by
  have hold : s.lanes.lane i = f.effect.toList ++ (s.emit.workers i).types s.em := by
    show coreLane _ _ _ (s.frames i) = _
    rw [hs.lane_of_frame hf, hf]
    rfl
  have hnew : s.emit.lane s.em (Function.update s.frames i f') =
      Function.update s.lanes.lane i
        ((f'.bind SockFrame.effect).toList ++ (s.emit.workers i).types s.em) := by
    refine Emitters.lane_of_core (fun _ _ => rfl) (fun _ _ => rfl)
      (fun j hj => Function.update_of_ne hj _ _) ?_
    rw [Function.update_self, hs.lane_of_frame hf]
  rw [hnew]
  have hm := SockFrame.step_moves h
  have hbegun := hs.begun i
  rw [hf] at hbegun
  have hbegun : f.effect = some 0 → 0 ∈ s.hist := hbegun
  generalize hc : s.sock.connect = c at hm
  generalize sock.connect = c' at hm ⊢
  generalize f.effect = o at hm hold hbegun
  generalize f'.bind SockFrame.effect = o' at hm ⊢
  have hconn : s.lanes.connect = c := hc
  cases hm with
  | keep =>
    rw [← hold, Function.update_eq_self, ← hconn]
    exact .same
  | set => exact .set i _ hold (hbegun rfl)
  | pass type h0 h3 =>
    rw [← hconn]
    exact .pass i type _ hold (fun h => hconn.trans (h0 h)) h3
  | clear => exact .clear i _ hold

/-- A step in `emit_event_handler` on worker `i` calls a handler of the sock, or has
nothing to do with the sock's lane. -/
theorem Posted.handle_cases (hs : s.Posted) {i : Fin n} {ret : ℤ} {e : Emitters n}
    (h : s.emit.handle i ret = some e) :
    (∃ ev f, s.emit.phases i = .entered ev ∧ ev.evEmit = s.em ∧
        s.begins? i = some (ev.evType, f) ∧ f.effect = some ev.evType ∧
        e = s.emit.setPhase i (.inside ev)) ∨
      s.begins? i = none ∧ (s.emit.phases i).enters s.em = none ∧ e.workers = s.emit.workers ∧
        ∃ p : Phase, p.enters s.em = none ∧ e.phases = Function.update s.emit.phases i p := by
  have hquiet : (∀ ev, s.emit.phases i = .entered ev → ev.evEmit ≠ s.em) →
      s.begins? i = none ∧ (s.emit.phases i).enters s.em = none := fun hno => by
    refine ⟨begins?_eq_none hno, ?_⟩
    cases hi : s.emit.phases i with
    | entered ev => rw [Phase.enters, if_neg (hno ev hi)]
    | out | inside ev | ended ev errcode | completing ev errcode => rfl
  have hpast : ∀ p, s.emit.phases i = p → (∀ ev, p ≠ .entered ev) →
      s.begins? i = none ∧ (s.emit.phases i).enters s.em = none := fun p hp hne =>
    hquiet fun ev hev => absurd (hp.symm.trans hev) (hne ev)
  cases Emitters.handle_cases h with
  | refuse ev errcode hph e he hi =>
    obtain ⟨hb, hold⟩ := hquiet fun ev' hev' hem => by
      obtain ⟨e', f, he', hinst, -⟩ := hs.begins hev' hem
      obtain rfl : ev = ev' := Phase.entered.inj (hph.symm.trans hev')
      rw [hem] at he
      exact hi (by rwa [Option.some.inj (he.symm.trans he')])
    exact .inr ⟨hb, hold, rfl, _, rfl, rfl⟩
  | call ev hph e he hi =>
    by_cases hem : ev.evEmit = s.em
    · obtain ⟨e', f, -, -, hb, heff⟩ := hs.begins hph hem
      exact .inl ⟨ev, f, hph, hem, hb, heff, rfl⟩
    · obtain ⟨hb, hold⟩ := hquiet fun ev' hev' => by
        obtain rfl : ev = ev' := Phase.entered.inj (hph.symm.trans hev')
        exact hem
      exact .inr ⟨hb, hold, rfl, _, rfl, rfl⟩
  | returned ev hph =>
    obtain ⟨hb, hold⟩ := hpast _ hph fun _ => Phase.noConfusion
    exact .inr ⟨hb, hold, rfl, _, rfl, rfl⟩
  | decrement ev errcode hph =>
    obtain ⟨hb, hold⟩ := hpast _ hph fun _ => Phase.noConfusion
    exact .inr ⟨hb, hold, rfl, _, rfl, rfl⟩
  | complete ev errcode hph =>
    obtain ⟨hb, hold⟩ := hpast _ hph fun _ => Phase.noConfusion
    exact .inr ⟨hb, hold, rfl, _, rfl, rfl⟩

/-- The call of the sock's handler keeps the event at the head of the lane. -/
theorem Posted.handle_lanes (hs : s.Posted) {i : Fin n} {ret : ℤ} (hf : s.frames i = none)
    {e : Emitters n} (h : s.emit.handle i ret = some e) :
    s.lanes.Step
      { s.lanes with lane := e.lane s.em (Function.update s.frames i ((s.begins? i).map Prod.snd))
                     handled := ((s.begins? i).map Prod.fst).toList ++ s.hist } := by
  rcases hs.handle_cases h with ⟨ev, f, hph, hem, hb, heff, rfl⟩ | ⟨hb, hold, hw, p, hp, hph⟩
  · have hold : s.lanes.lane i = ev.evType :: (s.emit.workers i).types s.em := by
      show coreLane _ _ _ _ = _
      rw [coreLane, hph, hf, Phase.enters, if_pos hem]
      rfl
    have hlane : (s.emit.setPhase i (.inside ev)).lane s.em (Function.update s.frames i (some f)) =
        s.emit.lane s.em s.frames := by
      refine Emitters.lane_of_same (i := i) (fun _ _ => rfl)
        (fun j hj => Function.update_of_ne hj _ _) (fun j hj => Function.update_of_ne hj _ _) ?_
      refine Eq.trans ?_ hold.symm
      have hin : (s.emit.setPhase i (.inside ev)).phases i = .inside ev :=
        Function.update_self _ _ _
      rw [Function.update_self, coreLane, hin, Option.bind_some, heff]
      rfl
    rw [hb]
    show s.lanes.Step { s.lanes with lane := Emitters.lane _ _ _, handled := _ :: s.hist }
    rw [Option.map_some, hlane]
    exact .call i ev.evType _ hold
  · have hlane : e.lane s.em s.frames = s.emit.lane s.em s.frames :=
      Emitters.lane_of_same (i := i) (fun _ _ => by rw [hw])
        (fun j hj => by rw [hph, Function.update_of_ne hj]) (fun _ _ => rfl)
        (by rw [Emitters.lane, coreLane, coreLane, hw, hph, Function.update_self, hp, hold])
    rw [hb, Option.map_none, ← hf, Function.update_eq_self, hlane]
    exact .same

/-- **The sock steps as the lanes do**, if its events are placed. -/
theorem lanes_step {a : Act n} (hs : s.Posted) (he : s.Epoll a) (hp : s.Placed a)
    (h : step s a = some t) : s.lanes.Step t.lanes := by
  cases step_cases h with
  | mask events hnone =>
    refine .mask (sockWorkerCb events) _ ?_ (parted_sockWorkerCb events) fun h3 => ?_
    · show (s.masks.any _) = false
      rw [List.any_eq_false]
      exact fun m hm => by simpa using he.2 m hm
    · show (List.any (events :: s.masks) _) = true
      rw [List.any_cons, decide_eq_true (hup_of_mem h3), Bool.true_or]
  | eio o d hd e d' hstep =>
    obtain ⟨hfit, -⟩ := hs.eio d hd
    obtain ⟨hm, -⟩ := Delivery.step_moves hfit hstep
    have htodo : s.lanes.todo = d.todo := by rw [lanes, hd]; rfl
    show s.lanes.Step { s.lanes with todo := (d'.map Delivery.todo).getD []
                                     lane := e.lane s.em s.frames }
    generalize (d'.map Delivery.todo).getD [] = l at hm ⊢
    cases hm with
    | quiet e hw hph hk =>
      rw [Emitters.lane_congr hw hph, ← htodo]
      exact .same
    | lose x l hl => exact .lose x l (htodo.trans hl)
    | queue w ev l hl hq ho hev hc =>
      have hmay : s.MayQueue ev.evType w := by
        refine hp ev.evType ?_ w ho
        rw [hd]
        exact hq
      rw [Emitters.lane_enqueue hc hev]
      exact .queue w ev.evType l (htodo.trans hl) hmay.1 hmay.2
    | signal w =>
      rw [Emitters.lane_signal, ← htodo]
      exact .same
  | submit => exact .same
  | writer f k hf sock f' l hstep =>
    have hconn : sock.connect = s.sock.connect := by cases hstep <;> rfl
    show s.lanes.Step { s.lanes with connect := sock.connect }
    rw [hconn]
    exact .same
  | call d o hd e d' hstep =>
    obtain ⟨hfit, hzero⟩ := hs.calls d hd
    obtain ⟨hm, -⟩ := Delivery.step_moves hfit hstep
    show s.lanes.Step { s.lanes with lane := e.lane s.em s.frames }
    generalize (d'.map Delivery.todo).getD [] = l at hm
    cases hm with
    | quiet e hw hph hk =>
      rw [Emitters.lane_congr hw hph]
      exact .same
    | lose x l hl => exact .same
    | queue w ev l hl hq ho hev hc =>
      have h0 : ev.evType = 0 := hzero ev.evType (hl ▸ List.mem_cons_self)
      rw [Emitters.lane_enqueue hc hev, h0]
      exact .write w
    | signal w =>
      rw [Emitters.lane_signal]
      exact .same
  | clearRead => exact .same
  | work i e hwork =>
    have hlane : e.lane s.em s.frames = s.emit.lane s.em s.frames := by
      refine Emitters.lane_work hwork (hs.emit.classed i) (fun ev hev hem => ?_) fun hout => ?_
      · exact (hs.emit.carried ev ⟨i, .inl hev⟩ hem).1
      · exact hs.frames_eq_none fun ev h => by rw [hout] at h; cases h
    show s.lanes.Step { s.lanes with lane := e.lane s.em s.frames }
    rw [hlane]
    exact .same
  | handle i ret hi e hhandle => exact hs.handle_lanes hi hhandle
  | frame i k f hf sock read f' hstep => exact hs.frame_lanes hf hstep
  | post i ev p hcls hev =>
    show s.lanes.Step { s.lanes with lane := (s.emit.enqueue i p ev).lane s.em s.frames }
    rw [Emitters.lane_post hcls hev]
    exact .same
  | wake i =>
    show s.lanes.Step { s.lanes with lane := (s.emit.signal i).lane s.em s.frames }
    rw [Emitters.lane_signal]
    exact .same
  | touch em e hem => exact .same

/-- The frames and the history after a step in `emit_event_handler`. -/
theorem Posted.handle (hs : s.Posted) {i : Fin n} {ret : ℤ} (hi : s.frames i = none)
    {e : Emitters n} (h : s.emit.handle i ret = some e) :
    Posted { s with emit := e
                    frames := Function.update s.frames i ((s.begins? i).map Prod.snd)
                    hist := ((s.begins? i).map Prod.fst).toList ++ s.hist } := by
  have hemit := hs.emit.handle h
  rcases hs.handle_cases h with ⟨ev, f, -, -, hb, heff, rfl⟩ | ⟨hb, -, -, p, -, hph⟩
  · rw [hb]
    refine ⟨hemit, fun j hj => ?_, hs.eio, hs.calls, fun j hj => ?_⟩
    · by_cases hji : j = i
      · subst hji
        exact ⟨ev, Function.update_self _ _ _⟩
      · obtain ⟨ev', hev'⟩ := hs.inside j (by simpa [hji] using hj)
        exact ⟨ev', (Function.update_of_ne hji _ _).trans hev'⟩
    · by_cases hji : j = i
      · subst hji
        have hj : f.effect = some 0 := by simpa using hj
        rw [Option.some.inj (heff.symm.trans hj)]
        exact List.mem_cons_self
      · exact List.mem_cons_of_mem _ (hs.begun j (by simpa [hji] using hj))
  · rw [hb, Option.map_none, ← hi, Function.update_eq_self]
    refine ⟨hemit, fun j hj => ?_, hs.eio, hs.calls, hs.begun⟩
    obtain ⟨ev', hev'⟩ := hs.inside j hj
    have hji : j ≠ i := by
      rintro rfl
      exact hj hi
    refine ⟨ev', ?_⟩
    rw [hph, Function.update_of_ne hji]
    exact hev'

/-- The frames after a step of the sock's handler on worker `i`. -/
theorem Posted.frame (hs : s.Posted) {i : Fin n} {k : KernelWrite} {f : SockFrame}
    (hf : s.frames i = some f) {sock : SockIo} {read : Bool} {f' : Option SockFrame}
    (h : f.step s.sock s.read k = some (sock, read, f')) :
    Posted { s with sock := sock, read := read, frames := Function.update s.frames i f' } := by
  have hin : ∀ j, Function.update s.frames i f' j ≠ none → s.frames j ≠ none := fun j hj => by
    by_cases hji : j = i
    · subst hji
      rw [hf]
      exact Option.some_ne_none f
    · rwa [Function.update_of_ne hji] at hj
  refine ⟨hs.emit, fun j hj => hs.inside j (hin j hj), hs.eio, hs.calls, fun j hj => ?_⟩
  by_cases hji : j = i
  · subst hji
    have hj : f'.bind SockFrame.effect = some 0 := by simpa using hj
    have hm := SockFrame.step_moves h
    rw [hj] at hm
    refine hs.begun j ?_
    rw [hf]
    -- a run that has still to set `CONNECT` had so before
    show f.effect = some 0
    generalize f.effect = o at hm ⊢
    generalize s.sock.connect = c at hm
    generalize sock.connect = c' at hm
    cases hm
    rfl
  · exact hs.begun j (by simpa [hji] using hj)

theorem Posted.step {a : Act n} (hs : s.Posted) (h : SockWorkers.step s a = some t) :
    t.Posted := by
  cases step_cases h with
  | mask events hnone =>
    refine ⟨hs.emit, hs.inside, fun d hd => ?_, hs.calls, hs.begun⟩
    obtain rfl := Option.some.inj hd
    exact ⟨trivial, fun x hx => mem_sockWorkerCb hx⟩
  | eio o d hd e d' hstep =>
    obtain ⟨hfit, hrange⟩ := hs.eio d hd
    obtain ⟨hm, hfit'⟩ := Delivery.step_moves hfit hstep
    refine ⟨hs.emit.dispatch hrange hm, fun i hi => ?_, fun d₁ hd₁ => ?_, hs.calls, hs.begun⟩
    · rw [hm.phases]
      exact hs.inside i hi
    · obtain rfl : d' = some d₁ := hd₁
      exact ⟨hfit' d₁ rfl, fun x hx => hrange x (hm.mem_todo hx)⟩
  | submit => exact ⟨hs.emit, hs.inside, hs.eio, hs.calls, hs.begun⟩
  | writer f k hf sock f' l hstep =>
    refine ⟨hs.emit, hs.inside, hs.eio, fun d hd => ?_, hs.begun⟩
    rcases List.mem_append.1 hd with hd | hd
    · split at hd
      · obtain rfl := List.mem_singleton.1 hd
        exact ⟨trivial, fun x hx => List.mem_singleton.1 hx⟩
      · cases hd
    · exact hs.calls d hd
  | call d o hd e d' hstep =>
    obtain ⟨hfit, hzero⟩ := hs.calls d hd
    obtain ⟨hm, hfit'⟩ := Delivery.step_moves hfit hstep
    refine ⟨hs.emit.dispatch (fun x hx => ?_) hm, fun i hi => ?_, hs.eio, fun d₁ hd₁ => ?_,
      hs.begun⟩
    · rw [hzero x hx]
      decide
    · rw [hm.phases]
      exact hs.inside i hi
    · rcases Pool.mem_swap hd₁ with rfl | hd₁
      · exact ⟨hfit' d₁ rfl, fun x hx => hzero x (hm.mem_todo hx)⟩
      · exact hs.calls d₁ hd₁
  | clearRead => exact ⟨hs.emit, hs.inside, hs.eio, hs.calls, hs.begun⟩
  | work i e hwork =>
    refine ⟨hs.emit.work hwork, fun j hj => ?_, hs.eio, hs.calls, hs.begun⟩
    obtain ⟨hout, w, l, -, rfl⟩ := Emitters.work_cases hwork
    obtain ⟨ev, hev⟩ := hs.inside j hj
    refine ⟨ev, ?_⟩
    have hji : j ≠ i := by
      rintro rfl
      rw [hout] at hev
      cases hev
    exact (Function.update_of_ne hji _ _).trans hev
  | handle i ret hi e hhandle => exact hs.handle hi hhandle
  | frame i k f hf sock read f' hstep => exact hs.frame hf hstep
  | post i ev p hcls hev =>
    exact ⟨hs.emit.enqueue hcls (fun h => absurd h hev) i, hs.inside, hs.eio, hs.calls, hs.begun⟩
  | wake i => exact ⟨hs.emit.signal i, hs.inside, hs.eio, hs.calls, hs.begun⟩
  | touch em e hem =>
    obtain ⟨hcls, hcar, hent, e', he', hh⟩ := hs.emit
    refine ⟨⟨hcls, hcar, hent, e', ?_, hh⟩, hs.inside, hs.eio, hs.calls, hs.begun⟩
    exact (BlockHeap.get?_alloc_of_ne _ _ (Ne.symm hem)).trans he'

/-- **Every `EPOLLIN` event finds `CONNECT` set while the events are well placed.**  For
any number of workers and every interleaving of their steps with the deliveries of masks,
with writes and with the events of other parties, where the first mask has `EPOLLOUT` and
`EPOLLHUP` comes only in the last: if each `EPOLLIN` event is queued with `CONNECT` set or
on a worker with an `EPOLLOUT` event that has still to set it, and the `EPOLLHUP` event on
the only worker that has `EPOLLIN` events, the assertion holds whenever the `EPOLLIN`
handler is before it, and that handler is never called before the first call of the
`EPOLLOUT` handler nor after that of the `EPOLLHUP` handler. -/
theorem connect_asserted {a em : ℕ} {acts : List (Act n)}
    (ha : StepSystem.Meets step (fun s a => s.Epoll a ∧ s.Placed a) (init a em) acts)
    (hrun : StepSystem.run step (init a em) acts = some s) : s.Asserted := by
  have hs : s.Posted ∧ s.lanes.Safe :=
    StepSystem.run_invariant (I := fun s => s.Posted ∧ s.lanes.Safe)
      (fun _ _ _ hs ha h => ⟨hs.1.step h, hs.2.step (lanes_step hs.1 ha.1 ha.2 h)⟩)
      ⟨posted_init a em, Lanes.safe_start⟩ ha hrun
  obtain ⟨hp, hsafe⟩ := hs
  refine ⟨fun i hi => ?_, hsafe.between⟩
  refine hsafe.connected (i := i) (l := (s.emit.workers i).types s.em) ?_
  show coreLane _ _ _ (s.frames i) = _
  rw [hp.lane_of_frame hi, hi]
  rfl

/-- The steps of the thread of `eio` that dispatch one event to worker `w`. -/
def dispatchSteps (addr : ℕ) (w : Fin n) : List (Act n) :=
  .eio ⟨true, some addr, none⟩ :: List.replicate 4 (.eio ⟨true, none, some w⟩)

/-- The steps of worker `i` in `emit_event_handler`, with a handler of the sock that takes
`k` steps. -/
def handleSteps (i : Fin n) (k : ℕ) : List (Act n) :=
  .handle i 0 :: (List.replicate k (.frame i ⟨0, 0⟩) ++ List.replicate 3 (.handle i 0))

/-- A mask with `EPOLLOUT` and `EPOLLIN` whose events both come on worker 1 of two, and one
with `EPOLLHUP` there: a run that meets the hypotheses of `connect_asserted`. -/
theorem connect_asserted_together :
    ∃ acts s, StepSystem.run step (init 1 2 : SockWorkers 2) acts = some s ∧
      s.hist = [3, 1, 0] ∧ s.Asserted := by
  let acts : List (Act 2) :=
    .mask 5 :: [dispatchSteps 1 1, dispatchSteps 2 1, [.eio ⟨true, none, none⟩, .mask 16],
      dispatchSteps 3 1, List.replicate 10 (.work 1), handleSteps 1 4, List.replicate 5 (.work 1),
      handleSteps 1 4, List.replicate 5 (.work 1), [.handle 1 0]].flatten
  have hhist : (StepSystem.run step (init 1 2) acts).map (·.hist) = some [3, 1, 0] := by
    decide +kernel
  obtain ⟨s, hrun, hs⟩ := Option.map_eq_some_iff.1 hhist
  exact ⟨acts, s, hrun, hs, connect_asserted (by decide +kernel) hrun⟩

/-- **`EPOLLIN` is handled before `EPOLLOUT`.**  The first mask has both, and the two events
come on the two workers in turn; the second worker is the first to run. -/
theorem in_before_out :
    ¬ ∀ acts s, StepSystem.Meets step Epoll (init 1 2 : SockWorkers 2) acts →
      StepSystem.run step (init 1 2) acts = some s → s.Asserted := by
  let acts : List (Act 2) :=
    .mask 5 :: (dispatchSteps 1 0 ++ dispatchSteps 2 1 ++ List.replicate 10 (Act.work 1) ++
      [Act.handle 1 0])
  have hfail : (StepSystem.run step (init 1 2) acts).map (fun s => decide s.Asserted) =
      some false := by
    decide +kernel
  obtain ⟨s, hrun, hs⟩ := Option.map_eq_some_iff.1 hfail
  exact fun h => of_decide_eq_false hs (h acts s (by decide +kernel) hrun)

end SockWorkers
end EdpIo
