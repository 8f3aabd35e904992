/-
# What `sock_write_next` does

One call of `sock_write_next(s, 1)`, made with `es_write` empty and the `WRITE` bit set
and no other thread on the sock, up to its return.  Its callbacks may call
`edpnet_sock_write` again; such a call finds the bit set and appends its io to the list,
so the loop goes on with it.

`Draining` is the invariant of the loop: the ios attempted, the one about to be written
and the list are the list at the start and then the ios of the calls since, in their order
(`Draining.line`), and the callbacks made, with the one about to be made, are those of the
attempts that did not return `0`, in their order and with their results
(`Draining.called`).  `sock_write_next_spec` reads off what holds at the return.
-/

import EdpIo.Sock.Order

namespace EdpIo

/-- A kernel write and its answer. -/
def IoObs.attempt? : IoObs → Option (Io × KernelWrite)
  | .attempt io k => some (io, k)
  | .called _ _ => none

/-- A call of an io's callback and its error code. -/
def IoObs.called? : IoObs → Option (Io × ℤ)
  | .attempt _ _ => none
  | .called io errcode => some (io, errcode)

/-- The callback that an attempt calls for: one with its result, unless that is `0`. -/
def outcome (a : Io × KernelWrite) : Option (Io × ℤ) :=
  if sockWrite a.2 = 0 then none else some (a.1, sockWrite a.2)

/-- The kernel writes of a step. -/
def SockLabel.attempts : SockLabel → List (Io × KernelWrite)
  | .attempt io k => [(io, k)]
  | _ => []

/-- The callbacks of a step. -/
def SockLabel.calls : SockLabel → List (Io × ℤ)
  | .call io errcode => [(io, errcode)]
  | _ => []

/-- The callback that the run is about to call. -/
def HandlerFrame.calls : HandlerFrame → List (Io × ℤ)
  | .wrote _ io ret | .calling _ io ret => [(io, ret)]
  | _ => []

/-- The run is in a `sock_write_next` with `drain` set, and `es_write` holds the io that it
is at. -/
def HandlerFrame.During (s : SockIo) : HandlerFrame → Prop
  | .next true | .calling true _ _ | .inNext true => s.esWrite = none
  | .writing true io | .wrote true io _ => s.esWrite = some io
  | _ => False

/-- Why the loop ended: the list was empty, or the last write returned `0`. -/
def Stopped (s : SockIo) (hist : List IoObs) : Prop :=
  (s.esIowrites = [] ∧ s.esWrite = none) ∨
    ∃ io k, (Fifo.items IoObs.attempt? hist).getLast? = some (io, k) ∧ sockWrite k = 0 ∧
      s.esWrite = some io

/-- What a step of the loop does to the callbacks that are due. -/
theorem HandlerFrame.Step.callbacks {s s' : SockIo} {k : KernelWrite} {f : HandlerFrame}
    {f' : Option HandlerFrame} {l : SockLabel} (h : HandlerFrame.Step s k f s' f' l)
    (hd : f.During s) :
    l.calls ++ f'.toList.flatMap HandlerFrame.calls = f.calls ++ l.attempts.filterMap outcome := by
  cases h with
  | pop | clear | call | back | drained => rfl
  | done drain io hk => simp [SockLabel.calls, SockLabel.attempts, HandlerFrame.calls, outcome, hk]
  | block drain io hk =>
    simp [SockLabel.calls, SockLabel.attempts, HandlerFrame.calls, outcome, hk]
  | unconnected | ask | written | unwritten | connect | connected | take | free | callTaken
  | nowrite | unwrite | drain | return_ => exact hd.elim

theorem SockLabel.items_attempts (l : SockLabel) :
    Fifo.items IoObs.attempt? l.obs = l.attempts := by
  cases l <;> rfl

theorem SockLabel.items_calls (l : SockLabel) : Fifo.items IoObs.called? l.obs = l.calls := by
  cases l <;> rfl

/-- A step of the loop leaves the run where `es_write` is as it should be, or ends the loop. -/
theorem HandlerFrame.Step.during {s s' : SockIo} {k : KernelWrite} {f : HandlerFrame}
    {f' : Option HandlerFrame} {l : SockLabel} (h : HandlerFrame.Step s k f s' f' l)
    (hd : f.During s) (hw : s.write = true) (hc : s.esPendios = s.esIowrites.length) :
    s'.write = true ∧ s'.esPendios = s'.esIowrites.length ∧
      ((∃ g, f' = some g ∧ g.During s') ∨ f' = none ∧ ∀ hist, Stopped s' (l.obs ++ hist)) := by
  cases h with
  | drained h0 =>
    have hnil : s.esIowrites = [] := List.length_eq_zero_iff.1 (by omega)
    exact ⟨hw, hc, Or.inr ⟨rfl, fun _ => Or.inl ⟨hnil, hd⟩⟩⟩
  | pop drain io ios h0 hios =>
    have hlen : s.esPendios = ios.length + 1 := by simpa [hios] using hc
    cases drain with
    | false => exact hd.elim
    | true => exact ⟨hw, by simp [hlen], Or.inl ⟨_, rfl, rfl⟩⟩
  | done drain io hk =>
    cases drain with
    | false => exact hd.elim
    | true => exact ⟨hw, hc, Or.inl ⟨_, rfl, hd⟩⟩
  | block drain io hk =>
    cases drain with
    | false => exact hd.elim
    | true =>
      refine ⟨hw, hc, Or.inr ⟨rfl, fun hist => Or.inr ⟨io, k, ?_, hk, hd⟩⟩⟩
      rw [Fifo.items_append, SockLabel.items_attempts]
      simp [SockLabel.attempts]
  | clear drain io ret =>
    cases drain with
    | false => exact hd.elim
    | true => exact ⟨hw, hc, Or.inl ⟨_, rfl, rfl⟩⟩
  | call drain io ret =>
    cases drain with
    | false => exact hd.elim
    | true => exact ⟨hw, hc, Or.inl ⟨_, rfl, hd⟩⟩
  | back drain =>
    cases drain with
    | false => exact hd.elim
    | true => exact ⟨hw, hc, Or.inl ⟨_, rfl, hd⟩⟩
  | unconnected | ask | written | unwritten | connect | connected | take | free | callTaken
  | nowrite | unwrite | drain | return_ => exact hd.elim

/-- The ios of the kernel writes. -/
theorem items_attempted_eq_map (new : List IoObs) :
    Fifo.items IoObs.attempted new = (Fifo.items IoObs.attempt? new).map Prod.fst := by
  rw [Fifo.items, Fifo.items, List.map_reverse, List.map_filterMap]
  congr 2
  funext o
  cases o <;> rfl

namespace SockSys

/-- A call of `sock_write_next(s, 1)` begins: nobody else is on the sock. -/
structure Entered (s : SockSys) : Prop where
  handlers : s.handlers = [.next true]
  writers : s.writers = []
  write : s.sock.write = true
  esWrite : s.sock.esWrite = none
  counted : s.sock.esPendios = s.sock.esIowrites.length
  /-- The list holds ios that have been submitted, each once. -/
  nodup : s.sock.esIowrites.Nodup
  submitted : ∀ io ∈ s.sock.esIowrites, io < s.calls

/-- In a run on one worker the list does hold ios that have been submitted, each once. -/
theorem Ordered.entered {s : SockSys} (hs : s.Ordered) (hh : s.handlers = [.next true])
    (hwr : s.writers = []) (hw : s.sock.write = true) (hn : s.sock.esWrite = none)
    (hc : s.sock.esPendios = s.sock.esIowrites.length) : s.Entered := by
  have hline : Fifo.items IoObs.attempted s.hist ++ s.sock.esIowrites = List.range s.calls := by
    simpa [toSend, toEnter, hh, hwr, HandlerFrame.sends] using hs.line
  have hsub : s.sock.esIowrites.Sublist (List.range s.calls) :=
    hline ▸ List.sublist_append_right _ _
  exact ⟨hh, hwr, hw, hn, hc, hsub.nodup List.nodup_range, fun io hio =>
    List.mem_range.1 (hsub.subset hio)⟩

/-- The call that began in `s` has come to `u`, and has recorded `new`. -/
structure Draining (s u : SockSys) (new : List IoObs) : Prop where
  hist : u.hist = new ++ s.hist
  write : u.sock.write = true
  counted : u.sock.esPendios = u.sock.esIowrites.length
  calls : s.calls ≤ u.calls
  place :
    (∃ h, u.handlers = [h] ∧ h.During u.sock ∧
      (u.writers = [] ∨ h.inCallback = true ∧ ∃ io, u.writers = [.enter io])) ∨
    (u.handlers = [] ∧ u.writers = [] ∧ Stopped u.sock new)
  line : Fifo.items IoObs.attempted new ++ u.toSend ++ u.sock.esIowrites ++ u.toEnter =
    s.sock.esIowrites ++ List.range' s.calls (u.calls - s.calls)
  called : Fifo.items IoObs.called? new ++ u.handlers.flatMap HandlerFrame.calls =
    (Fifo.items IoObs.attempt? new).filterMap outcome

variable {s t u : SockSys} {new : List IoObs}

theorem Entered.draining (hs : s.Entered) : Draining s s [] where
  hist := rfl
  write := hs.write
  counted := hs.counted
  calls := le_rfl
  place := Or.inl ⟨.next true, hs.handlers, hs.esWrite, Or.inl hs.writers⟩
  line := by simp [toSend, toEnter, hs.handlers, hs.writers, HandlerFrame.sends]
  called := by simp [hs.handlers, HandlerFrame.calls]

/-- A new call is made from one of the callbacks of the loop. -/
theorem Draining.submit (hd : Draining s u new) (hm : u.mayEnter = true) (hne : u.handlers ≠ []) :
    Draining s { u with writers := .enter u.calls :: u.writers, calls := u.calls + 1 } new := by
  obtain ⟨hhist, hw, hc, hcalls, hplace, hline, hcalled⟩ := hd
  rcases hplace with ⟨h, hh, hdur, hwr⟩ | ⟨hh, -⟩
  · have hnil : u.writers = [] := by
      refine hwr.resolve_right ?_
      rintro ⟨-, io, hio⟩
      simp [mayEnter, hio, WriteFrame.inCallback] at hm
    have hcb : h.inCallback = true := by simpa [mayEnter, hnil, hh] using hm
    refine ⟨hhist, hw, hc, Nat.le_succ_of_le hcalls, Or.inl ⟨h, hh, hdur, Or.inr ⟨hcb, ?_⟩⟩, ?_,
      hcalled⟩
    · exact ⟨u.calls, by rw [hnil]⟩
    · have hnext : u.calls + 1 - s.calls = u.calls - s.calls + 1 := by omega
      have hlast : s.calls + 1 * (u.calls - s.calls) = u.calls := by omega
      rw [hnext, List.range'_concat, hlast, ← List.append_assoc, ← hline]
      simp [toSend, toEnter, hnil, WriteFrame.sends, WriteFrame.enters]
  · exact absurd hh hne

/-- The call appends its io, because the `WRITE` bit is set. -/
theorem Draining.append (hd : Draining s u new) {f : WriteFrame} {k : KernelWrite} {alloc : Bool}
    (hf : u.writers.head? = some f) {sock : SockIo} {f' : Option WriteFrame} {l : SockLabel}
    (h : WriteFrame.Step u.sock k f sock f' l) :
    Draining s (record { u with sock := sock, writers := f'.toList ++ u.writers.erase f } alloc l)
      new := by
  obtain ⟨hhist, hw, hc, hcalls, hplace, hline, hcalled⟩ := hd
  obtain ⟨ws, hws⟩ := List.head?_eq_some_iff.1 hf
  rcases hplace with ⟨g, hg, hdur, hnil | ⟨hcb, io, hio⟩⟩ | ⟨-, hnil, -⟩
  · simp [hnil] at hws
  · obtain ⟨rfl, rfl⟩ : WriteFrame.enter io = f ∧ [] = ws := by simpa [hio] using hws
    cases h with
    | publish io hw' hn => simp [hw] at hw'
    | append io hor =>
      have hdur' : g.During { u.sock with
          esIowrites := u.sock.esIowrites ++ [io], esPendios := u.sock.esPendios + 1 } := by
        cases g with
        | inNext drain => exact hdur
        | inCb => exact hdur.elim
        | enter | asking | connecting | connected | locking | taken _ | next _ | writing _ _
        | wrote _ _ _ | calling _ _ _ | clearing | draining => cases hcb
      refine ⟨hhist, hw, ?_, hcalls, Or.inl ⟨g, hg, hdur', Or.inl ?_⟩, ?_, hcalled⟩
      · simp [record, hc]
      · simp [record, hws]
      · simpa [record, toSend, toEnter, hws, WriteFrame.sends, WriteFrame.enters] using hline
  · simp [hnil] at hws

/-- **A turn of the loop.** -/
theorem Draining.loop (hd : Draining s u new) {f : HandlerFrame} {k : KernelWrite}
    (hnil : u.writers = []) (hf : u.handlers.head? = some f) {sock : SockIo}
    {f' : Option HandlerFrame} {l : SockLabel} (h : HandlerFrame.Step u.sock k f sock f' l) :
    Draining s
      (record { u with sock := sock, handlers := f'.toList ++ u.handlers.erase f } true l)
      (l.obs ++ new) := by
  obtain ⟨hhist, hw, hc, hcalls, hplace, hline, hcalled⟩ := hd
  obtain ⟨hs, hhs⟩ := List.head?_eq_some_iff.1 hf
  rcases hplace with ⟨g, hg, hdur, -⟩ | ⟨hh, -⟩
  · obtain ⟨rfl, rfl⟩ : g = f ∧ [] = hs := by simpa [hg] using hhs
    have herase : u.handlers.erase g = [] := by rw [hg, List.erase_cons_head]
    obtain ⟨hw', hc', hplace'⟩ := h.during hdur hw hc
    have hatt := Fifo.items_append (f := IoObs.attempted) l.obs new
    have hatts := Fifo.items_append (f := IoObs.attempt?) l.obs new
    have hcalls' := Fifo.items_append (f := IoObs.called?) l.obs new
    rw [l.items_attempted] at hatt
    rw [l.items_attempts] at hatts
    rw [l.items_calls] at hcalls'
    refine ⟨?_, ?_, ?_, ?_, ?_, ?_, ?_⟩
    · rw [record_obs, hhist, List.append_assoc]
    · rw [record_sock]
      exact hw'
    · rw [record_sock]
      exact hc'
    · rw [record_calls]
      exact hcalls
    · rw [record_handlers, record_writers, record_sock, herase, List.append_nil]
      rcases hplace' with ⟨g', rfl, hg'⟩ | ⟨rfl, hstop⟩
      · exact Or.inl ⟨g', rfl, hg', Or.inl hnil⟩
      · exact Or.inr ⟨rfl, hnil, hstop new⟩
    · have hframe := h.line
      rw [record_calls, hatt, ← hline]
      simp only [toSend, toEnter, record_writers, record_handlers, record_sock, hnil, hg,
        List.erase_cons_head, List.flatMap_nil, List.flatMap_cons, List.append_nil,
        List.nil_append]
      simpa only [List.append_assoc] using congrArg _ hframe
    · have hframe := h.callbacks hdur
      rw [hatts, hcalls', List.filterMap_append, ← hcalled]
      simp only [record_handlers, hg, List.erase_cons_head, List.flatMap_cons, List.flatMap_nil,
        List.append_nil]
      simpa only [List.append_assoc] using congrArg _ hframe
  · simp [hh] at hhs

/-- Every step of the call keeps the invariant. -/
theorem Draining.step (hd : Draining s u new) {a : Act}
    (ha : u.OneAtATime a ∧ u.handlers ≠ []) (h : SockSys.step u a = some t) :
    ∃ new, Draining s t new := by
  obtain ⟨ha, hne⟩ := ha
  cases step_cases h with
  | submit => exact ⟨new, hd.submit ha hne⟩
  | edge alloc =>
    exact ⟨new, hd.hist, hd.write, hd.counted, hd.calls, hd.place, hd.line, hd.called⟩
  | handle h0 => exact absurd ha.2 hne
  | writer f k alloc hf sock f' l hstep => exact ⟨new, hd.append ha hstep⟩
  | handler f k hf sock f' l hstep => exact ⟨_, hd.loop ha.1 ha.2 hstep⟩

/-- What the call that began in `s` and returned in `t` has done, by its record `new`. -/
structure Served (s t : SockSys) (new : List IoObs) : Prop where
  hist : t.hist = new ++ s.hist
  /-- The ios attempted, then those left in the list, are the list at the start and then the
  ios submitted since, in their order. -/
  order : Fifo.items IoObs.attempted new ++ t.sock.esIowrites =
    s.sock.esIowrites ++ List.range' s.calls (t.calls - s.calls)
  /-- Each was attempted once or is in the list once. -/
  once : (Fifo.items IoObs.attempted new ++ t.sock.esIowrites).Nodup
  /-- The callbacks are those of the attempts that did not return `0`, with their results. -/
  called : Fifo.items IoObs.called? new = (Fifo.items IoObs.attempt? new).filterMap outcome
  /-- The list is empty, or the last attempt returned `0` and its io is in `es_write`, without a
  callback. -/
  stop : (t.sock.esIowrites = [] ∧ t.sock.esPendios = 0 ∧ t.sock.esWrite = none) ∨
    ∃ io k, (Fifo.items IoObs.attempt? new).getLast? = some (io, k) ∧ sockWrite k = 0 ∧
      t.sock.esWrite = some io ∧ (∀ ret, (io, ret) ∉ Fifo.items IoObs.called? new) ∧
      t.sock.esPendios = t.sock.esIowrites.length

/-- What is left at the return. -/
theorem Draining.served (hd : Draining s t new) (hs : s.Entered) (hend : t.handlers = []) :
    Served s t new := by
  obtain ⟨hhist, hw, hc, hcalls, hplace, hline, hcalled⟩ := hd
  obtain ⟨hwr, hstop⟩ : t.writers = [] ∧ Stopped t.sock new := by
    rcases hplace with ⟨g, hg, -⟩ | ⟨-, hwr, hstop⟩
    · simp [hend] at hg
    · exact ⟨hwr, hstop⟩
  have horder : Fifo.items IoObs.attempted new ++ t.sock.esIowrites =
      s.sock.esIowrites ++ List.range' s.calls (t.calls - s.calls) := by
    simpa [toSend, toEnter, hwr, hend] using hline
  have honce : (Fifo.items IoObs.attempted new ++ t.sock.esIowrites).Nodup := by
    rw [horder]
    refine List.Nodup.append hs.nodup List.nodup_range' fun io hio hnew => ?_
    have hlt := hs.submitted io hio
    exact absurd hlt (Nat.not_lt.2 (List.mem_range'_1.1 hnew).1)
  have hcb : Fifo.items IoObs.called? new = (Fifo.items IoObs.attempt? new).filterMap outcome := by
    simpa [hend] using hcalled
  refine ⟨hhist, horder, honce, hcb, ?_⟩
  rcases hstop with ⟨hnil, hnone⟩ | ⟨io, k, hlast, hk, hio⟩
  · exact Or.inl ⟨hnil, by rw [hc, hnil]; rfl, hnone⟩
  · refine Or.inr ⟨io, k, hlast, hk, hio, fun ret hret => ?_, hc⟩
    -- a callback of the io would be that of another attempt of it
    rw [hcb] at hret
    obtain ⟨⟨io', k'⟩, hmem, hout⟩ := List.mem_filterMap.1 hret
    have hnodup : ((Fifo.items IoObs.attempt? new).map Prod.fst).Nodup := by
      rw [← items_attempted_eq_map]
      exact honce.of_append_left
    unfold outcome at hout
    split at hout
    · cases hout
    · rename_i hk'
      obtain ⟨rfl, -⟩ := Prod.mk.inj (Option.some.inj hout)
      have heq := List.inj_on_of_nodup_map hnodup hmem (List.mem_of_getLast? hlast) rfl
      exact hk' ((Prod.mk.inj heq).2 ▸ hk)

/-- **What `sock_write_next` does.**  However often its callbacks call `edpnet_sock_write`
again and whatever the kernel answers, when `sock_write_next(s, 1)` returns it has attempted
the pending ios in their order, those appended meanwhile included, each once; it has called
back exactly those whose attempt did not return `0`, once each and with that result; and the
list is empty, or the last io attempted is in `es_write` and the rest of the list is as it
was. -/
theorem sock_write_next_spec {acts : List Act} (hs : s.Entered)
    (hm : StepSystem.Meets step (fun u a => u.OneAtATime a ∧ u.handlers ≠ []) s acts)
    (hrun : StepSystem.run step s acts = some t) (hend : t.handlers = []) :
    ∃ new, Served s t new := by
  obtain ⟨new, hd⟩ : ∃ new, Draining s t new :=
    StepSystem.run_invariant (I := fun u => ∃ new, Draining s u new)
      (fun u a v hd ha h => hd.elim fun _ hd => hd.step ha h) ⟨[], hs.draining⟩ hm hrun
  exact ⟨new, hd.served hs hend⟩

/-- The ios `0` and `1` are pending; the callback of `0` submits io `2`, and the write of `1`
would block. -/
theorem sock_write_next_spec_blocked :
    ∃ t new, Served ⟨⟨true, true, none, 2, [0, 1]⟩, [], [.next true], 0, false, 2, []⟩ t new ∧
      t.sock = ⟨true, true, some 1, 1, [2]⟩ := by
  have hs : Entered ⟨⟨true, true, none, 2, [0, 1]⟩, [], [.next true], 0, false, 2, []⟩ :=
    ⟨rfl, rfl, rfl, rfl, rfl, by decide, by decide⟩
  have hrun := Eq.refl (StepSystem.run step
    ⟨⟨true, true, none, 2, [0, 1]⟩, [], [.next true], 0, false, 2, []⟩
    [.handler (.next true) ⟨5, 0⟩, .handler (.writing true 0) ⟨5, 0⟩,
      .handler (.wrote true 0 5) ⟨5, 0⟩, .handler (.calling true 0 5) ⟨5, 0⟩, .submit,
      .writer (.enter 2) ⟨5, 0⟩ true, .handler (.inNext true) ⟨5, 0⟩,
      .handler (.next true) ⟨5, 0⟩, .handler (.writing true 1) ⟨-1, 11⟩])
  obtain ⟨new, hnew⟩ := sock_write_next_spec hs (by decide) hrun rfl
  exact ⟨_, new, hnew, rfl⟩

end SockSys

end EdpIo
