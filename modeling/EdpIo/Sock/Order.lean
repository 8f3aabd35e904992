/-
# Writes go out in the order of their calls

On one worker no io overtakes another.  An io can be written to the kernel on two
ways: `edpnet_sock_write` writes it at once when it finds the `WRITE` bit clear and
`es_write` empty, and else appends it to `es_iowrites`, from where the handler takes the
first.  The bit is never cleared on one worker, because the handler calls
`sock_write_next` with `drain` set, so the direct way is open only while nothing has been
appended (`Ordered.idle`).

`Ordered.line` is the invariant: the ios attempted, the one that a call is about to
write, those in the list and the one that a call is about to enter are the ios of all
calls in their order.  Only the innermost call is outside a callback
(`Ordered.writers`), so there is at most one of each.  `attempts_in_order` follows.
-/

import EdpIo.Lib.Fifo
import EdpIo.Sock.System
import Mathlib.Data.List.Dedup
import Mathlib.Data.List.Range

namespace EdpIo

/-- The io of a kernel write. -/
def IoObs.attempted : IoObs → Option Io
  | .attempt io _ => some io
  | .called _ _ => none

/-- The ios in the order of their first kernel write; `dedup` keeps the last of equal
elements. -/
def firstAttempts (hist : List IoObs) : List Io :=
  (Fifo.items IoObs.attempted hist).reverse.dedup.reverse

/-- The io that the call is about to write. -/
def WriteFrame.sends : WriteFrame → List Io
  | .writing io => [io]
  | _ => []

/-- The io that the call has still to publish or append. -/
def WriteFrame.enters : WriteFrame → List Io
  | .enter io => [io]
  | _ => []

/-- The io that the run is about to write. -/
def HandlerFrame.sends : HandlerFrame → List Io
  | .writing _ io => [io]
  | _ => []

/-- The run is not in a `sock_write_next` without `drain`, nor about to clear `WRITE`. -/
def HandlerFrame.drains : HandlerFrame → Bool
  | .next drain | .writing drain _ | .wrote drain _ _ | .calling drain _ _ | .inNext drain => drain
  | .clearing => false
  | .enter | .asking | .connecting | .connected | .locking | .taken _ | .draining | .inCb => true

/-- The io that the step writes. -/
def SockLabel.attempted : SockLabel → List Io
  | .attempt io _ => [io]
  | _ => []

/-- What a step records. -/
def SockLabel.obs : SockLabel → List IoObs
  | .attempt io k => [.attempt io k]
  | .call io errcode => [.called io errcode]
  | .tau | .dispatch => []

theorem SockLabel.items_attempted (l : SockLabel) :
    Fifo.items IoObs.attempted l.obs = l.attempted := by
  cases l <;> rfl

theorem WriteFrame.sends_of_inCallback {f : WriteFrame} (h : f.inCallback = true) :
    f.sends = [] ∧ f.enters = [] := by
  cases f <;> first | exact ⟨rfl, rfl⟩ | cases h

theorem HandlerFrame.sends_of_inCallback {f : HandlerFrame} (h : f.inCallback = true) :
    f.sends = [] := by
  cases f <;> first | rfl | cases h

/-- With `WRITE` clear no io waits. -/
def SockIo.Idle (s : SockIo) : Prop := s.write = false → s.esWrite = none ∧ s.esIowrites = []

/-- A step of a write moves its io to the next place: it is written at once only when
nothing waits, and else appended behind the others. -/
theorem WriteFrame.Step.line {s s' : SockIo} {k : KernelWrite} {f : WriteFrame}
    {f' : Option WriteFrame} {l : SockLabel} (h : WriteFrame.Step s k f s' f' l) (hs : s.Idle) :
    l.attempted ++ (f'.toList.flatMap WriteFrame.sends ++
        (s'.esIowrites ++ f'.toList.flatMap WriteFrame.enters)) =
      f.sends ++ (s.esIowrites ++ f.enters) := by
  cases h with
  | publish io hw hn =>
    rw [(hs hw).2]
    rfl
  | append io hor => simp [SockLabel.attempted, WriteFrame.sends, WriteFrame.enters]
  | done io hk => rfl
  | block io hk => rfl
  | clear io ret => rfl
  | call io ret => rfl
  | back => rfl
  | dispatch => rfl

theorem WriteFrame.Step.idle {s s' : SockIo} {k : KernelWrite} {f : WriteFrame}
    {f' : Option WriteFrame} {l : SockLabel} (h : WriteFrame.Step s k f s' f' l) (hs : s.Idle) :
    s'.Idle := by
  cases h with
  | publish io hw hn => nofun
  | append io hor =>
    intro hw
    obtain ⟨hn, -⟩ := hs hw
    rcases hor with ht | hne
    · exact absurd (ht.symm.trans hw) (by decide)
    · exact absurd hn hne
  | clear io ret => exact fun hw => ⟨rfl, (hs hw).2⟩
  | done | block | call | back | dispatch => exact hs

/-- A step of the handler takes an io from the head of the list. -/
theorem HandlerFrame.Step.line {s s' : SockIo} {k : KernelWrite} {f : HandlerFrame}
    {f' : Option HandlerFrame} {l : SockLabel} (h : HandlerFrame.Step s k f s' f' l) :
    l.attempted ++ (f'.toList.flatMap HandlerFrame.sends ++ s'.esIowrites) =
      f.sends ++ s.esIowrites := by
  cases h with
  | pop drain io ios h0 hios =>
    rw [hios]
    rfl
  | ask | written | unwritten | unconnected | connect | connected | take | free | callTaken
  | drained | nowrite | done | block | clear | call | back | unwrite | drain | return_ => rfl

/-- With `drain` set a run never clears `WRITE`. -/
theorem HandlerFrame.Step.drains {s s' : SockIo} {k : KernelWrite} {f : HandlerFrame}
    {f' : Option HandlerFrame} {l : SockLabel} (h : HandlerFrame.Step s k f s' f' l)
    (hd : f.drains = true) (hs : s.Idle) : (∀ g ∈ f', g.drains = true) ∧ s'.Idle := by
  cases h with
  | pop drain io ios h0 hios =>
    refine ⟨fun g hg => ?_, fun hw => ?_⟩
    · obtain rfl := Option.some.inj hg
      exact hd
    · -- an io waits, so `WRITE` is set
      rw [(hs hw).2] at hios
      cases hios
  | take io hio => exact ⟨by simp [HandlerFrame.drains], fun hw => ⟨rfl, (hs hw).2⟩⟩
  | clear drain io ret =>
    exact ⟨by simpa [HandlerFrame.drains] using hd, fun hw => ⟨rfl, (hs hw).2⟩⟩
  | nowrite | unwrite => cases hd
  | done | call | back => exact ⟨by simpa [HandlerFrame.drains] using hd, hs⟩
  | ask | written | unwritten | unconnected | connect | connected | free | callTaken | drained
  | block | drain | return_ => exact ⟨by simp [HandlerFrame.drains], hs⟩

namespace SockSys

/-- The ios that calls are about to write. -/
def toSend (s : SockSys) : List Io :=
  s.writers.flatMap WriteFrame.sends ++ s.handlers.flatMap HandlerFrame.sends

/-- The ios that calls have still to publish or append. -/
def toEnter (s : SockSys) : List Io := s.writers.flatMap WriteFrame.enters

/-- The runs on one worker, with every io in its place. -/
structure Ordered (s : SockSys) : Prop where
  /-- At most one run of the handler is in progress. -/
  single : s.handlers.length ≤ 1
  drains : ∀ h ∈ s.handlers, h.drains = true
  /-- Only the innermost call of `edpnet_sock_write` is outside a callback. -/
  writers : ∀ f ∈ s.writers.tail, f.inCallback = true
  /-- Inside the handler such a call is made from a callback. -/
  handlers : s.writers ≠ [] → ∀ h ∈ s.handlers, h.inCallback = true
  idle : s.sock.Idle
  line : Fifo.items IoObs.attempted s.hist ++ s.toSend ++ s.sock.esIowrites ++ s.toEnter =
    List.range s.calls

theorem ordered_init (b : Bool) : Ordered (init b) where
  single := Nat.zero_le _
  drains _ h := absurd h List.not_mem_nil
  writers _ h := absurd h List.not_mem_nil
  handlers h := absurd rfl h
  idle _ := ⟨rfl, rfl⟩
  line := rfl

variable {s t : SockSys}

theorem record_obs (s : SockSys) (alloc : Bool) (l : SockLabel) :
    (s.record alloc l).hist = l.obs ++ s.hist := by
  cases l <;> rfl

theorem attempted_record (s : SockSys) (alloc : Bool) (l : SockLabel) :
    Fifo.items IoObs.attempted (s.record alloc l).hist =
      Fifo.items IoObs.attempted s.hist ++ l.attempted := by
  rw [record_obs, Fifo.items_append, l.items_attempted]

/-- What the calls inside a callback have to send and to enter. -/
theorem nothing_of_inCallback {ws : List WriteFrame} {hs : List HandlerFrame}
    (hw : ∀ f ∈ ws, f.inCallback = true) (hh : ∀ h ∈ hs, h.inCallback = true) :
    ws.flatMap WriteFrame.sends = [] ∧ ws.flatMap WriteFrame.enters = [] ∧
      hs.flatMap HandlerFrame.sends = [] := by
  refine ⟨?_, ?_, ?_⟩
  · exact List.flatMap_eq_nil_iff.2 fun f hf => (WriteFrame.sends_of_inCallback (hw f hf)).1
  · exact List.flatMap_eq_nil_iff.2 fun f hf => (WriteFrame.sends_of_inCallback (hw f hf)).2
  · exact List.flatMap_eq_nil_iff.2 fun h hh' => HandlerFrame.sends_of_inCallback (hh h hh')

/-- **A new call** is made from a callback or when no call is in progress. -/
theorem Ordered.submit (hs : s.Ordered) (hm : s.mayEnter = true) :
    Ordered { s with writers := .enter s.calls :: s.writers, calls := s.calls + 1 } := by
  obtain ⟨hone, hd, hw, hh, hidle, hline⟩ := hs
  have hwall : ∀ f ∈ s.writers, f.inCallback = true := by
    cases hws : s.writers with
    | nil => exact fun _ h => absurd h List.not_mem_nil
    | cons f ws =>
      rw [hws] at hw
      intro g hg
      rcases List.mem_cons.1 hg with rfl | hg
      · simpa [mayEnter, hws] using hm
      · exact hw g hg
  have hhall : ∀ h ∈ s.handlers, h.inCallback = true := by
    cases hws : s.writers with
    | cons f ws => exact hh (by simp [hws])
    | nil =>
      intro h hmem
      have heq := Pool.eq_singleton_of_mem hone hmem
      simpa [mayEnter, hws, heq] using hm
  obtain ⟨h₁, h₂, h₃⟩ := nothing_of_inCallback hwall hhall
  refine ⟨hone, hd, hwall, fun _ => hhall, hidle, ?_⟩
  simp only [toSend, toEnter, List.flatMap_cons, h₁, h₂, h₃] at hline ⊢
  simp only [WriteFrame.sends, WriteFrame.enters, List.append_nil] at hline ⊢
  rw [hline, List.range_succ]

/-- **A step of the innermost write** keeps every io in its place. -/
theorem Ordered.writer (hs : s.Ordered) {f : WriteFrame} {k : KernelWrite} {alloc : Bool}
    (hf : s.writers.head? = some f) {sock : SockIo} {f' : Option WriteFrame} {l : SockLabel}
    (h : WriteFrame.Step s.sock k f sock f' l) :
    Ordered
      (record { s with sock := sock, writers := f'.toList ++ s.writers.erase f } alloc l) := by
  obtain ⟨hone, hd, hw, hh, hidle, hline⟩ := hs
  obtain ⟨ws, hws⟩ := List.head?_eq_some_iff.1 hf
  have hhall : ∀ h ∈ s.handlers, h.inCallback = true := hh (by simp [hws])
  have hwtail : ∀ g ∈ ws, g.inCallback = true := by simpa [hws] using hw
  have herase : s.writers.erase f = ws := by rw [hws, List.erase_cons_head]
  obtain ⟨h₁, h₂, h₃⟩ := nothing_of_inCallback hwtail hhall
  refine ⟨by simpa using hone, by simpa using hd, ?_, fun _ => by simpa using hhall, ?_, ?_⟩
  · rw [record_writers, herase]
    cases f' with
    | none => exact fun g hg => hwtail g (List.mem_of_mem_tail hg)
    | some f' => exact hwtail
  · simpa using h.idle hidle
  · have hframe := h.line hidle
    rw [record_calls, attempted_record, ← hline]
    simp only [toSend, toEnter, record_writers, record_handlers, record_sock, hws,
      List.erase_cons_head, List.flatMap_append, List.flatMap_cons, h₁, h₂, h₃, List.append_nil]
    simpa only [List.append_assoc] using congrArg _ hframe

/-- **A step of the handler**, which is the innermost call, keeps every io in its place. -/
theorem Ordered.handler (hs : s.Ordered) {f : HandlerFrame} {k : KernelWrite}
    (hnil : s.writers = []) (hf : f ∈ s.handlers) {sock : SockIo} {f' : Option HandlerFrame}
    {l : SockLabel} (h : HandlerFrame.Step s.sock k f sock f' l) :
    Ordered
      (record { s with sock := sock, handlers := f'.toList ++ s.handlers.erase f } true l) := by
  obtain ⟨hone, hd, hw, hh, hidle, hline⟩ := hs
  obtain hsingle : s.handlers = [f] := Pool.eq_singleton_of_mem hone hf
  have herase : s.handlers.erase f = [] := by rw [hsingle, List.erase_cons_head]
  obtain ⟨hdrains, hidle'⟩ := h.drains (hd f hf) hidle
  refine ⟨?_, ?_, by simp [hnil], fun hne => ?_, by simpa using hidle', ?_⟩
  · rw [record_handlers, herase]
    cases f' <;> simp
  · rw [record_handlers, herase, List.append_nil]
    exact fun g hg => hdrains g (by simpa using hg)
  · rw [record_writers] at hne
    exact absurd hnil hne
  · have hframe := h.line
    rw [record_calls, attempted_record, ← hline]
    simp only [toSend, toEnter, record_writers, record_handlers, record_sock, hnil, hsingle,
      List.erase_cons_head, List.flatMap_nil, List.flatMap_cons, List.append_nil, List.nil_append]
    simpa only [List.append_assoc] using congrArg _ hframe

theorem Ordered.step (hs : s.Ordered) {a : Act} (ha : s.OneAtATime a)
    (h : SockSys.step s a = some t) : t.Ordered := by
  cases step_cases h with
  | submit => exact hs.submit ha
  | edge alloc => exact ⟨hs.single, hs.drains, hs.writers, hs.handlers, hs.idle, hs.line⟩
  | handle h0 =>
    obtain ⟨hw, hh⟩ := ha
    refine ⟨by simp [hh], by simp [hh, HandlerFrame.drains], hs.writers, fun hne => ?_, hs.idle, ?_⟩
    · exact absurd hw hne
    · simpa [toSend, toEnter, hh, HandlerFrame.sends] using hs.line
  | writer f k alloc hf sock f' l hstep => exact hs.writer ha hstep
  | handler f k hf sock f' l hstep => exact hs.handler ha.1 hf hstep

/-- **No io overtakes another.**  In every run on one worker the ios in the order of their
first kernel write are the first of the ios in the order of their `edpnet_sock_write`
calls. -/
theorem attempts_in_order {b : Bool} {acts : List Act}
    (hone : StepSystem.Meets step OneAtATime (init b) acts)
    (hrun : StepSystem.run step (init b) acts = some s) :
    firstAttempts s.hist <+: List.range s.calls := by
  have hs : s.Ordered :=
    StepSystem.run_invariant (fun _ _ _ hs ha h => hs.step ha h) (ordered_init b) hone hrun
  have hprefix : Fifo.items IoObs.attempted s.hist <+: List.range s.calls := by
    refine ⟨s.toSend ++ s.sock.esIowrites ++ s.toEnter, ?_⟩
    rw [← hs.line]
    simp only [List.append_assoc]
  have hnodup : (Fifo.items IoObs.attempted s.hist).Nodup :=
    hprefix.sublist.nodup List.nodup_range
  rwa [firstAttempts, (List.nodup_reverse.2 hnodup).dedup, List.reverse_reverse]

/-- The callback of io `0` submits io `1`, which the handler then writes. -/
theorem attempts_in_order_nested :
    ∃ s, StepSystem.run step (init true)
        [.submit, .writer (.enter 0) ⟨5, 0⟩ true, .writer (.writing 0) ⟨5, 0⟩ true,
          .writer (.wrote 0 5) ⟨5, 0⟩ true, .writer (.calling 0 5) ⟨5, 0⟩ true, .submit,
          .writer (.enter 1) ⟨5, 0⟩ true, .writer .inCb ⟨5, 0⟩ true,
          .writer .dispatching ⟨5, 0⟩ true, .handle, .handler .enter ⟨5, 0⟩,
          .handler .asking ⟨5, 0⟩, .handler .locking ⟨5, 0⟩, .handler (.next true) ⟨5, 0⟩,
          .handler (.writing true 1) ⟨5, 0⟩] = some s ∧
      firstAttempts s.hist = [0, 1] ∧ firstAttempts s.hist <+: List.range s.calls := by
  have hrun := Eq.refl (StepSystem.run step (init true)
    [.submit, .writer (.enter 0) ⟨5, 0⟩ true, .writer (.writing 0) ⟨5, 0⟩ true,
      .writer (.wrote 0 5) ⟨5, 0⟩ true, .writer (.calling 0 5) ⟨5, 0⟩ true, .submit,
      .writer (.enter 1) ⟨5, 0⟩ true, .writer .inCb ⟨5, 0⟩ true,
      .writer .dispatching ⟨5, 0⟩ true, .handle, .handler .enter ⟨5, 0⟩, .handler .asking ⟨5, 0⟩,
      .handler .locking ⟨5, 0⟩, .handler (.next true) ⟨5, 0⟩,
      .handler (.writing true 1) ⟨5, 0⟩])
  exact ⟨_, rfl, by decide, attempts_in_order (by decide) hrun⟩

end SockSys

end EdpIo
