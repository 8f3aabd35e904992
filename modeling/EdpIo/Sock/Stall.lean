/-
# Whether a write can stall

After the first write of a sock its `WRITE` bit stays set: only `sock_write_next`
could clear it, and the handler calls that with `drain` set.  Every later
`edpnet_sock_write` therefore only appends to the pending list, and when no event
is in flight and the kernel owes no edge nobody will come for it (`stalled`).  The
other way into that state is the handler that takes an io from `es_write` and stops,
with other ios pending.

`no_stall` holds of every run on one worker in which each step that could leave ios
behind finds somebody to go on with them: an event in flight, an edge owed, or an
enclosing call (`Rearmed`).
-/

import EdpIo.Sock.System

namespace EdpIo

/-- The call goes on with the pending ios or dispatches an event for them. -/
def WriteFrame.drives : WriteFrame → Bool
  | .enter _ => false
  | .writing _ | .wrote _ _ | .calling _ _ | .inCb | .dispatching => true

/-- The run goes on with the pending ios, unless it finds an io in `es_write`. -/
def HandlerFrame.drives : HandlerFrame → Bool
  | .enter | .asking | .locking | .next _ | .writing _ _ | .wrote _ _ _ | .calling _ _ _
  | .inNext _ => true
  | .connecting | .connected | .taken _ | .clearing | .draining | .inCb => false

/-- What the state of a connected sock is where a run of the handler is. -/
def HandlerFrame.Fits (s : SockIo) : HandlerFrame → Prop
  | .locking => s.write = true
  | .next drain | .calling drain _ _ | .inNext drain =>
    drain = true ∧ s.write = true ∧ s.esWrite = none
  | .writing drain _ | .wrote drain _ _ => drain = true ∧ s.write = true
  | .connecting | .connected | .clearing => False
  | .enter | .asking | .taken _ | .draining | .inCb => True

namespace SockIo

/-- An io is pending or current. -/
def Waiting (s : SockIo) : Prop := s.esIowrites ≠ [] ∨ s.esWrite ≠ none

instance (s : SockIo) : Decidable s.Waiting := inferInstanceAs (Decidable (_ ∨ _))

end SockIo

namespace SockSys

/-- An event is in flight or the kernel owes an edge. -/
def Armed (s : SockSys) : Prop := s.inflight ≠ 0 ∨ s.owed = true

/-- Some call in progress goes on with the pending ios. -/
def Driven (s : SockSys) : Prop :=
  (∃ f ∈ s.writers, f.drives = true) ∨ ∃ f ∈ s.handlers, f.drives = true

instance (s : SockSys) : Decidable s.Armed := inferInstanceAs (Decidable (_ ∨ _))

instance (s : SockSys) : Decidable s.Driven := inferInstanceAs (Decidable (_ ∨ _))

/-- Between operations, ios that wait are waited for. -/
def NoStall (s : SockSys) : Prop := s.Quiet → s.sock.Waiting → s.Armed

/-- The step leaves nobody waiting alone: a write appends its io, a handler takes
one from `es_write` with others pending, a kernel write returns `0` without `EAGAIN`
and an event is lost for want of memory only when something else will go on. -/
def Rearmed (s : SockSys) : Act → Prop
  | .writer (.enter _) _ _ =>
    (s.sock.write = false ∧ s.sock.esWrite = none) ∨ s.Armed ∨ s.Driven
  | .writer (.writing _) k _ | .handler (.writing _ _) k =>
    sockWrite k ≠ 0 ∨ k.again = true ∨ s.inflight ≠ 0
  | .writer .dispatching _ alloc => alloc = true ∨ ¬ s.sock.Waiting ∨ s.Armed
  | .handler .locking _ => s.sock.esWrite = none ∨ s.sock.esIowrites = [] ∨ s.Armed
  | .edge alloc => alloc = true ∨ ¬ s.sock.Waiting ∨ s.inflight ≠ 0 ∨ s.Driven
  | _ => True

instance (s : SockSys) (a : Act) : Decidable (s.Rearmed a) := by
  unfold Rearmed
  split <;> infer_instance

/-- The invariant of the runs on one worker of a connected sock. -/
structure Flowing (s : SockSys) : Prop where
  single : s.handlers.length ≤ 1
  connected : s.sock.connect = true
  counted : s.sock.esPendios = s.sock.esIowrites.length
  /-- With `WRITE` clear no io waits. -/
  idle : s.sock.write = false → ¬ s.sock.Waiting
  fits : ∀ f ∈ s.handlers, f.Fits s.sock
  flows : s.sock.Waiting → s.Armed ∨ s.Driven

theorem flowing_init : Flowing (init true) where
  single := Nat.zero_le _
  connected := rfl
  counted := rfl
  idle := fun _ => by decide
  fits := fun _ h => absurd h List.not_mem_nil
  flows := fun h => absurd h (by decide)

/-- A call that does not go on leaves the others that do. -/
theorem driven_of_erase {s : SockSys} {f : WriteFrame} (hf : f.drives = false)
    {ws : List WriteFrame}
    (hd : s.Driven) :
    (∃ g ∈ ws ++ s.writers.erase f, g.drives = true) ∨ ∃ g ∈ s.handlers, g.drives = true := by
  refine hd.imp_left fun ⟨g, hg, hgd⟩ => ⟨g, List.mem_append_right _ ?_, hgd⟩
  refine (List.mem_erase_of_ne ?_).2 hg
  rintro rfl
  rw [hf] at hgd
  cases hgd

/-- **A step of a write** keeps the flow: it sets `es_write` only with `WRITE` clear,
when no run of the handler is in its loop. -/
theorem Flowing.writer {s : SockSys} (hs : s.Flowing) {f : WriteFrame} {k : KernelWrite}
    {alloc : Bool} (hr : s.Rearmed (.writer f k alloc)) {sock : SockIo}
    {f' : Option WriteFrame} {l : SockLabel} (h : WriteFrame.Step s.sock k f sock f' l) :
    Flowing
      (record { s with sock := sock, writers := f'.toList ++ s.writers.erase f } alloc l) := by
  obtain ⟨hone, hc, hlen, hidle, hfits, hflow⟩ := hs
  have hgo : ∀ {p q : Prop} {g : WriteFrame} {ws : List WriteFrame}, g.drives = true →
      p ∨ (∃ e ∈ g :: ws, e.drives = true) ∨ q := fun h => .inr (.inl ⟨_, List.mem_cons_self, h⟩)
  cases h with
  | publish j hw hn =>
    refine ⟨hone, hc, hlen, nofun, fun g hg => ?_, fun _ => hgo rfl⟩
    have hg := hfits g hg
    cases g <;> simp_all [HandlerFrame.Fits]
  | append j hor =>
    have hwrite : s.sock.write = true := by
      refine hor.elim id fun hn => ?_
      by_contra hw
      exact hidle (by simpa using hw) (.inr hn)
    refine ⟨hone, hc, by simp [record, hlen], fun hw => ?_, fun g hg => ?_, fun _ => ?_⟩
    · exact absurd hwrite (by simpa [record] using hw)
    · have hg := hfits g hg
      cases g <;> exact hg
    · rcases hr with ⟨hw, -⟩ | ha | hd
      · rw [hwrite] at hw
        cases hw
      · exact .inl ha
      · exact .inr (driven_of_erase rfl hd)
  | done j hk =>
    exact ⟨hone, hc, hlen, hidle, hfits, fun _ => hgo rfl⟩
  | block j hk =>
    refine ⟨hone, hc, hlen, hidle, hfits, fun _ => .inl ?_⟩
    rcases hr with h | h | h
    · exact absurd hk h
    · exact .inr h
    · exact .inl h
  | clear j ret =>
    refine ⟨hone, hc, hlen, fun hw => ?_, fun g hg => ?_, fun _ => hgo rfl⟩
    · have hn := hidle hw
      simp_all [SockIo.Waiting, record]
    · have hg := hfits g hg
      cases g <;> simp_all [HandlerFrame.Fits, record]
  | call j ret => exact ⟨hone, hc, hlen, hidle, hfits, fun _ => hgo rfl⟩
  | back => exact ⟨hone, hc, hlen, hidle, hfits, fun _ => hgo rfl⟩
  | dispatch =>
    refine ⟨hone, hc, hlen, hidle, hfits, fun hw => .inl ?_⟩
    rcases hr with rfl | hn | hi | ho
    · exact .inl (Nat.succ_ne_zero _)
    · exact absurd hw hn
    · refine .inl ?_
      show s.inflight + alloc.toNat ≠ 0
      omega
    · exact .inr ho

/-- **A step of the handler**, which is alone, keeps the flow. -/
theorem Flowing.handler {s : SockSys} (hs : s.Flowing) {f : HandlerFrame} {k : KernelWrite}
    (hr : s.Rearmed (.handler f k)) (hw : s.writers = []) (hh : s.handlers = [f]) {sock : SockIo}
    {f' : Option HandlerFrame} {l : SockLabel} (h : HandlerFrame.Step s.sock k f sock f' l) :
    Flowing
      (record { s with sock := sock, handlers := f'.toList ++ s.handlers.erase f } true l) := by
  obtain ⟨hone, hc, hlen, hidle, hfits, hflow⟩ := hs
  have hfit : f.Fits s.sock := hfits f (by simp [hh])
  rw [hh, List.erase_cons_head, List.append_nil]
  -- a run that does not go on leaves what waits to the events
  have harmed : f.drives = false → s.sock.Waiting → s.Armed := fun hf hwait =>
    (hflow hwait).resolve_right (by simp [Driven, hw, hh, hf])
  have hset : ∀ {g : HandlerFrame} {s' : SockIo}, g.Fits s' → ∀ e ∈ [g], e.Fits s' :=
    fun h => List.forall_mem_singleton.2 h
  have hnone : ∀ {s' : SockIo}, ∀ e ∈ ([] : List HandlerFrame), e.Fits s' := fun _ he => nomatch he
  have hgo : ∀ {p q : Prop} {g : HandlerFrame}, g.drives = true →
      p ∨ q ∨ ∃ e ∈ [g], e.drives = true := fun h => .inr (.inr ⟨_, List.mem_singleton.2 rfl, h⟩)
  cases h with
  | unconnected hn =>
    rw [hc] at hn
    cases hn
  | ask _ => exact ⟨Nat.le_refl _, hc, hlen, hidle, hset trivial, fun _ => hgo rfl⟩
  | written hwrite =>
    exact ⟨Nat.le_refl _, hc, hlen, hidle, hset hwrite, fun _ => hgo rfl⟩
  | unwritten hwrite =>
    exact ⟨Nat.le_refl _, hc, hlen, hidle, hset trivial, fun hwait => absurd hwait (hidle hwrite)⟩
  | connect | connected | unwrite => exact hfit.elim
  | take j hj =>
    have hwrite : s.sock.write = true := hfit
    refine ⟨Nat.le_refl _, hc, hlen, fun hn => ?_, hset trivial, fun hwait => .inl ?_⟩
    · exact absurd hwrite (by simpa [record] using hn)
    · have hios : s.sock.esIowrites ≠ [] := hwait.resolve_right (by simp [record])
      rcases hr with h | h | h
      · rw [hj] at h
        cases h
      · exact absurd h hios
      · exact h
  | free hn =>
    exact ⟨Nat.le_refl _, hc, hlen, hidle, hset ⟨rfl, hfit, hn⟩,
      fun _ => hgo rfl⟩
  | callTaken j | drain =>
    exact ⟨Nat.le_refl _, hc, hlen, hidle, hset trivial, fun hwait => .inl (harmed rfl hwait)⟩
  | drained h0 =>
    -- the pending list is empty, and nothing is current in the loop
    obtain ⟨-, -, hn⟩ := hfit
    have hios : s.sock.esIowrites = [] := List.length_eq_zero_iff.1 (hlen ▸ h0)
    exact ⟨Nat.zero_le _, hc, hlen, hidle, hnone,
      fun hwait => absurd hwait (by simp [SockIo.Waiting, record, hn, hios])⟩
  | nowrite h0 => exact Bool.noConfusion hfit.1
  | pop drain j ios h0 hios =>
    obtain ⟨hd, hwrite, -⟩ := hfit
    refine ⟨Nat.le_refl _, hc, ?_, fun hn => ?_, hset ⟨hd, hwrite⟩,
      fun _ => hgo rfl⟩
    · rw [hios] at hlen
      show s.sock.esPendios - 1 = ios.length
      rw [hlen, List.length_cons, Nat.add_sub_cancel]
    · exact absurd hwrite (by simpa [record] using hn)
  | done drain j hk =>
    exact ⟨Nat.le_refl _, hc, hlen, hidle, hset hfit, fun _ => hgo rfl⟩
  | block drain j hk =>
    refine ⟨Nat.zero_le _, hc, hlen, hidle, hnone, fun _ => .inl ?_⟩
    rcases hr with h | h | h
    · exact absurd hk h
    · exact .inr h
    · exact .inl h
  | clear drain j ret =>
    obtain ⟨hd, hwrite⟩ := hfit
    refine ⟨Nat.le_refl _, hc, hlen, fun hn => ?_, hset ⟨hd, hwrite, rfl⟩,
      fun _ => hgo rfl⟩
    exact absurd hwrite (by simpa [record] using hn)
  | call drain j ret =>
    exact ⟨Nat.le_refl _, hc, hlen, hidle, hset hfit, fun _ => hgo rfl⟩
  | back drain =>
    exact ⟨Nat.le_refl _, hc, hlen, hidle, hset hfit, fun _ => hgo rfl⟩
  | return_ =>
    exact ⟨Nat.zero_le _, hc, hlen, hidle, hnone, fun hwait => .inl (harmed rfl hwait)⟩

theorem Flowing.step {s t : SockSys} {a : Act} (hs : s.Flowing)
    (ha : s.OneAtATime a ∧ s.Rearmed a) (h : SockSys.step s a = some t) : t.Flowing := by
  obtain ⟨hone, hr⟩ := ha
  cases step_cases h with
  | submit =>
    refine ⟨hs.single, hs.connected, hs.counted, hs.idle, hs.fits, fun hw => ?_⟩
    refine (hs.flows hw).imp id fun hd => hd.imp_left ?_
    rintro ⟨f, hf, hfd⟩
    exact ⟨f, List.mem_cons_of_mem _ hf, hfd⟩
  | edge alloc =>
    refine ⟨hs.single, hs.connected, hs.counted, hs.idle, hs.fits, fun hw => ?_⟩
    rcases hr with rfl | hn | hi | hd
    · exact .inl (.inl (Nat.succ_ne_zero _))
    · exact absurd hw hn
    · refine .inl (.inl ?_)
      show s.inflight + alloc.toNat ≠ 0
      omega
    · exact .inr hd
  | handle h0 =>
    refine ⟨by simp [hone.2], hs.connected, hs.counted, hs.idle, fun f hf => ?_, fun _ =>
      .inr (.inr ⟨.enter, List.mem_cons_self, rfl⟩)⟩
    rcases List.mem_cons.1 hf with rfl | hf
    · trivial
    · exact hs.fits f hf
  | writer f k alloc hf sock f' l hstep => exact hs.writer hr hstep
  | handler f k hf sock f' l hstep =>
    obtain ⟨hw, hhead⟩ := hone
    exact hs.handler hr hw (Pool.eq_singleton_of_mem hs.single hf) hstep

/-- **No write stalls while every step leaves somebody to go on.**  For every run on
one worker of a connected sock, and any results of the kernel, in which each step that
could leave ios behind finds an event in flight, an edge owed or an enclosing call that
goes on: between operations, if an io is pending or current, an event is in flight or
the kernel owes an edge. -/
theorem no_stall {acts : List Act} {s : SockSys}
    (ha : StepSystem.Meets step (fun s a => s.OneAtATime a ∧ s.Rearmed a) (init true) acts)
    (hrun : StepSystem.run step (init true) acts = some s) : s.NoStall := by
  have hs : s.Flowing :=
    StepSystem.run_invariant (fun _ _ _ hs ha h => hs.step ha h) flowing_init ha hrun
  rintro ⟨hw, hh⟩ hwait
  exact (hs.flows hwait).resolve_right (by simp [Driven, hw, hh])

/-- A blocked write, another that is appended behind it, and the event that the kernel owes: a
run that meets the hypotheses of `no_stall`. -/
theorem no_stall_blocked :
    ∃ acts s, StepSystem.run step (init true) acts = some s ∧ s.Quiet ∧
      s.sock.esWrite = some 0 ∧ s.sock.esIowrites = [1] ∧ s.Armed :=
  have hrun := Eq.refl (StepSystem.run step (init true)
    [.submit, .writer (.enter 0) ⟨0, 0⟩ true, .writer (.writing 0) ⟨-1, 11⟩ true, .submit,
      .writer (.enter 1) ⟨0, 0⟩ true, .edge true])
  ⟨_, _, hrun, by decide, rfl, rfl, no_stall (by decide) hrun (by decide) (by decide)⟩

/-- **The second write stalls.**  The kernel takes the first write at once, its event
is handled and finds nothing to do; the second write is then appended to the pending
list with no event in flight and no edge owed. -/
theorem stalled :
    ¬ ∀ acts s, StepSystem.Meets step OneAtATime (init true) acts →
      StepSystem.run step (init true) acts = some s → s.NoStall := by
  intro h
  have hrun := Eq.refl (StepSystem.run step (init true)
    [.submit, .writer (.enter 0) ⟨0, 0⟩ true, .writer (.writing 0) ⟨5, 0⟩ true,
      .writer (.wrote 0 5) ⟨0, 0⟩ true, .writer (.calling 0 5) ⟨0, 0⟩ true,
      .writer .inCb ⟨0, 0⟩ true, .writer .dispatching ⟨0, 0⟩ true, .handle,
      .handler .enter ⟨0, 0⟩, .handler .asking ⟨0, 0⟩, .handler .locking ⟨0, 0⟩,
      .handler (.next true) ⟨0, 0⟩, .submit, .writer (.enter 1) ⟨0, 0⟩ true])
  have hns := h _ _ (by decide) hrun (by decide) (by decide)
  exact absurd hns (by decide)

end SockSys
end EdpIo
