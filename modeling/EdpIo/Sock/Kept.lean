/-
# When no io is lost

The accounts of `Account` bound the places of an io and the calls of its callback from
above.  Here is when they are exact (`Whole`): an io that has been submitted waits to be
published, or a call is between publishing and ending it, or it is left in `es_write`, or
its callback has been called once; or else an `EPOLLOUT` handler has taken it from
`es_write` before the kernel write of the call that published it, which then must not take
data.

`Careful` is the condition on the steps: a handler takes no io that the kernel has
answered for, a kernel write answers as the io's place allows, and `es_write` is not
overwritten while it holds an io that the kernel has blocked.
-/

import EdpIo.Sock.Account

namespace EdpIo

/-- The call has still to put the io into `es_write` or the pending list. -/
@[simp] def WriteFrame.entering (io : Io) : WriteFrame → Bool
  | .enter j => j = io
  | _ => false

/-- The call has its kernel write of the io still to come. -/
@[simp] def WriteFrame.sending (io : Io) : WriteFrame → Bool
  | .writing j => j = io
  | _ => false

/-- The run has its kernel write of the io still to come. -/
@[simp] def HandlerFrame.sending (io : Io) : HandlerFrame → Bool
  | .writing _ j => j = io
  | _ => false

/-- The calls of the io's callback. -/
def SockLabel.called (io : Io) : SockLabel → ℕ
  | .call j _ => if j = io then 1 else 0
  | _ => 0

namespace SockSys

/-- The places of the io before it is published. -/
def waiting (s : SockSys) (io : Io) : ℕ :=
  s.sock.esIowrites.count io + s.writers.countP (WriteFrame.entering io)

/-- Calls in progress that have still to write the io. -/
def sending (s : SockSys) (io : Io) : ℕ :=
  s.writers.countP (WriteFrame.sending io) + s.handlers.countP (HandlerFrame.sending io)

/-- Whether `es_write` holds the io. -/
def current (s : SockSys) (io : Io) : ℕ := s.sock.esWrite.toList.count io

/-- A call that has still to write an io publishes it, and one that publishes it has still to
write it or is ending it. -/
theorem sending_le (s : SockSys) (io : Io) :
    s.sending io ≤ s.published io ∧
      s.published io + cbCount io s.hist ≤ s.sending io + s.ending io := by
  have hw : ∀ l : List WriteFrame, l.countP (WriteFrame.sending io) ≤
      l.countP (WriteFrame.publishes io) ∧ l.countP (WriteFrame.publishes io) ≤
        l.countP (WriteFrame.sending io) + l.countP (WriteFrame.ending io) := by
    intro l
    induction l with
    | nil => exact ⟨Nat.le_refl 0, Nat.le_refl 0⟩
    | cons f l ih => cases f <;> simp only [List.countP_cons] <;> simp <;> omega
  have hh : ∀ l : List HandlerFrame, l.countP (HandlerFrame.sending io) ≤
      l.countP (HandlerFrame.publishes io) ∧ l.countP (HandlerFrame.publishes io) ≤
        l.countP (HandlerFrame.sending io) + l.countP (HandlerFrame.ending io) := by
    intro l
    induction l with
    | nil => exact ⟨Nat.le_refl 0, Nat.le_refl 0⟩
    | cons f l ih => cases f <;> simp only [List.countP_cons] <;> simp <;> omega
  obtain ⟨hw₁, hw₂⟩ := hw s.writers
  obtain ⟨hh₁, hh₂⟩ := hh s.handlers
  simp only [sending, published, ending]
  omega

/-- The kernel's answer to the write of an io: data is taken, or the write fails, only if no
handler has taken the io; it blocks only with the io still in `es_write`, or taken. -/
def Answered (s : SockSys) (io : Io) (k : KernelWrite) : Prop :=
  (sockWrite k ≠ 0 → s.ending io = 0) ∧
    (sockWrite k = 0 → s.sock.esWrite = some io ∨ s.ending io ≠ 0)

/-- What `es_write` holds, a call publishes. -/
def Overwritable (s : SockSys) : Prop := ∀ io ∈ s.sock.esWrite, s.published io ≠ 0

/-- The step loses no io and ends none twice. -/
def Careful (s : SockSys) : Act → Prop
  | .handler .locking _ => ∀ io ∈ s.sock.esWrite, s.ending io = 0
  | .writer (.writing io) k _ | .handler (.writing _ io) k => s.Answered io k
  | .writer (.wrote _ _) _ _ | .handler (.wrote _ _ _) _ => s.Overwritable
  | .handler (.next _) _ => s.sock.esPendios ≠ 0 → s.Overwritable
  | _ => True

instance (s : SockSys) (io : Io) (k : KernelWrite) : Decidable (s.Answered io k) :=
  inferInstanceAs (Decidable (_ ∧ _))

instance (s : SockSys) : Decidable s.Overwritable :=
  inferInstanceAs (Decidable (∀ io ∈ s.sock.esWrite, _))

instance (s : SockSys) : (a : Act) → Decidable (s.Careful a)
  | .handler .locking _ => inferInstanceAs (Decidable (∀ io ∈ s.sock.esWrite, _))
  | .writer (.writing io) k _ | .handler (.writing _ io) k =>
    inferInstanceAs (Decidable (s.Answered io k))
  | .writer (.wrote _ _) _ _ | .handler (.wrote _ _ _) _ =>
    inferInstanceAs (Decidable s.Overwritable)
  | .handler (.next _) _ => inferInstanceAs (Decidable (_ → s.Overwritable))
  | .submit | .edge _ | .handle | .writer (.enter _) _ _ | .writer (.calling _ _) _ _
  | .writer .inCb _ _ | .writer .dispatching _ _ | .handler .enter _ | .handler .asking _
  | .handler .connecting _ | .handler .connected _ | .handler (.taken _) _
  | .handler (.calling _ _ _) _ | .handler (.inNext _) _ | .handler .clearing _
  | .handler .draining _ | .handler .inCb _ =>
    inferInstanceAs (Decidable True)

/-- The io has been submitted and is in one place or its callback has been called, with
`es_write` holding it only for a call that publishes it; or `es_write` alone holds it; or it
has been taken before its write. -/
def Whole (io : ℕ) (s : SockSys) : Prop :=
  (s.waiting io + s.sending io + s.ending io = s.share io ∧ s.current io ≤ s.published io) ∨
    (s.waiting io + s.sending io + s.ending io = 0 ∧ s.current io = 1 ∧ s.share io = 1) ∨
    (s.waiting io = 0 ∧ s.sending io = 1 ∧ s.ending io = 1 ∧ s.published io = 1 ∧
      s.current io = 0 ∧ s.share io = 1)

theorem whole_init (b : Bool) (io : ℕ) : Whole io (init b) := .inl ⟨rfl, Nat.le_refl 0⟩

theorem cbCount_record (s : SockSys) (alloc : Bool) (l : SockLabel) (io : Io) :
    cbCount io (s.record alloc l).hist = cbCount io s.hist + l.called io := by
  cases l <;> simp [record, SockLabel.called]

/-- How the places of an io change in a step of a write. -/
theorem writer_counts {s t : SockSys} {f : WriteFrame} {f' : Option WriteFrame} {sock : SockIo}
    {alloc : Bool} {l : SockLabel} (hf : f ∈ s.writers)
    (ht : t = record { s with sock := sock, writers := f'.toList ++ s.writers.erase f } alloc l)
    (io : Io) :
    t.sending io + (if f.sending io then 1 else 0) =
        s.sending io + (if f'.any (WriteFrame.sending io) then 1 else 0) ∧
      t.published io + (if f.publishes io then 1 else 0) =
        s.published io + (if f'.any (WriteFrame.publishes io) then 1 else 0) ∧
      t.ending io + (if f.ending io then 1 else 0) =
        s.ending io + (if f'.any (WriteFrame.ending io) then 1 else 0) + l.called io ∧
      t.waiting io + (if f.entering io then 1 else 0) + s.sock.esIowrites.count io =
        s.waiting io + (if f'.any (WriteFrame.entering io) then 1 else 0) +
          sock.esIowrites.count io ∧
      t.current io = sock.esWrite.toList.count io ∧ t.share io = s.share io := by
  have hp := Pool.countP_swap hf f' (WriteFrame.publishes io)
  have hw := Pool.countP_swap hf f' (WriteFrame.entering io)
  have he := Pool.countP_swap hf f' (WriteFrame.ending io)
  have hn := Pool.countP_swap hf f' (WriteFrame.sending io)
  have hcb := cbCount_record { s with sock := sock, writers := f'.toList ++ s.writers.erase f }
    alloc l io
  subst ht
  simp only [sending, published, ending, waiting, current, share, record_writers, record_handlers,
    record_sock, record_calls, hcb]
  exact ⟨by omega, by omega, by omega, by omega, trivial, trivial⟩

/-- A step that leaves the io as it is, but for an `es_write` that a call still publishes. -/
theorem Whole.of_eq {s t : SockSys} {io : ℕ} (hs : Whole io s)
    (hw : t.waiting io = s.waiting io) (hn : t.sending io = s.sending io)
    (he : t.ending io = s.ending io) (hp : t.published io = s.published io)
    (hc : t.current io = s.current io ∨
      t.current io = 0 ∧ (s.current io ≠ 0 → s.published io ≠ 0))
    (hsh : t.share io = s.share io) : Whole io t := by
  have hle := s.sending_le io
  rw [Whole, hw, hn, he, hp, hsh]
  exact hs.imp (fun h => by omega) (Or.imp (fun h => by omega) fun h => by omega)

/-- The io is published. -/
theorem Whole.publish {s t : SockSys} {io : ℕ} (hs : Whole io s)
    (hw : t.waiting io + 1 = s.waiting io) (hn : t.sending io = s.sending io + 1)
    (he : t.ending io = s.ending io) (hp : t.published io = s.published io + 1)
    (hc : t.current io = 1) (hsh : t.share io = s.share io) : Whole io t := by
  rw [Whole, hn, he, hp, hsh, hc]
  exact hs.imp (fun h => by omega) (Or.imp (fun h => by omega) fun h => by omega)

/-- The kernel answers, and nobody has taken the io. -/
theorem Whole.done {s t : SockSys} {io : ℕ} (hs : Whole io s) (h₀ : s.ending io = 0)
    (hw : t.waiting io = s.waiting io) (hn : t.sending io + 1 = s.sending io)
    (he : t.ending io = 1) (hp : t.published io = s.published io)
    (hc : t.current io = s.current io) (hsh : t.share io = s.share io) : Whole io t := by
  rw [Whole, hw, he, hp, hsh, hc]
  exact hs.imp (fun h => by omega) (Or.imp (fun h => by omega) fun h => by omega)

/-- The kernel write would have blocked: the io is left in `es_write`, or it has been taken. -/
theorem Whole.block {s t : SockSys} {io : ℕ} (hs : Whole io s)
    (h₀ : s.current io = 1 ∨ s.ending io ≠ 0)
    (hw : t.waiting io = s.waiting io) (hn : t.sending io + 1 = s.sending io)
    (he : t.ending io = s.ending io) (hp : t.published io + 1 = s.published io)
    (hc : t.current io = s.current io) (hsh : t.share io = s.share io) : Whole io t := by
  have hle := s.sending_le io
  have hshare := s.share_le_one io
  rw [Whole, hw, he, hsh, hc]
  rcases hs with hs | hs | hs
  · exact .inr (.inl (by omega))
  · omega
  · exact .inl (by omega)

/-- The call that published the io clears `es_write`. -/
theorem Whole.clear {s t : SockSys} {io : ℕ} (hs : Whole io s)
    (hw : t.waiting io = s.waiting io) (hn : t.sending io = s.sending io)
    (he : t.ending io = s.ending io) (hp : t.published io + 1 = s.published io)
    (hc : t.current io = 0) (hsh : t.share io = s.share io) : Whole io t := by
  have hle := s.sending_le io
  have hle' := t.sending_le io
  rw [Whole, hw, hn, he, hsh, hc]
  exact hs.imp (fun h => by omega) (Or.imp (fun h => by omega) fun h => by omega)

/-- A handler takes the io, which the kernel has not answered for, from `es_write`. -/
theorem Whole.take {s t : SockSys} {io : ℕ} (hs : Whole io s) (h₀ : s.ending io = 0)
    (hc₀ : s.current io = 1) (hw : t.waiting io = s.waiting io) (hn : t.sending io = s.sending io)
    (he : t.ending io = 1) (hp : t.published io = s.published io)
    (hc : t.current io = 0) (hsh : t.share io = s.share io) : Whole io t := by
  have hle := s.sending_le io
  have hshare := s.share_le_one io
  rw [Whole, hw, hn, he, hp, hsh, hc]
  rcases hs with hs | hs | hs
  · exact .inr (.inr (by omega))
  · exact .inl (by omega)
  · omega

/-- What `Overwritable` says of one io. -/
theorem Overwritable.current {s : SockSys} (h : s.Overwritable) {io : Io}
    (hc : s.current io ≠ 0) : s.published io ≠ 0 :=
  h io (Option.mem_toList.1 (List.count_pos_iff.1 (Nat.pos_of_ne_zero hc)))

theorem current_of_eq {s : SockSys} {io : Io} (h : s.sock.esWrite = some io) :
    s.current io = 1 := by
  simp [current, h]

theorem Whole.writer {s t : SockSys} {io : ℕ} {f : WriteFrame} (hs : Whole io s)
    (hf : f ∈ s.writers) {k : KernelWrite} {sock : SockIo} {f' : Option WriteFrame}
    {l : SockLabel} {alloc : Bool} (ha : s.Careful (.writer f k alloc))
    (h : WriteFrame.Step s.sock k f sock f' l)
    (ht : t = record { s with sock := sock, writers := f'.toList ++ s.writers.erase f } alloc l) :
    Whole io t := by
  obtain ⟨hn, hp, he, hw, hc, hsh⟩ := writer_counts hf ht io
  cases h with
  | publish j hfree hnone =>
    have hc₀ : s.current io = 0 := by simp [current, hnone]
    by_cases hj : j = io <;> simp [hj, SockLabel.called] at hn hp he hw hc
    · exact hs.publish (by omega) hn he hp hc hsh
    · exact hs.of_eq (by omega) hn he hp (.inl (by omega)) hsh
  | append j hor =>
    by_cases hj : j = io <;> simp [hj, SockLabel.called] at hn hp he hw hc <;>
      exact hs.of_eq (by omega) hn he hp (.inl hc) hsh
  | done j hk =>
    by_cases hj : j = io <;> simp [hj, SockLabel.called] at hn hp he hw hc
    · have h₀ := hj ▸ ha.1 hk
      exact hs.done h₀ (by omega) (by omega) (by omega) (by omega) hc hsh
    · exact hs.of_eq (by omega) hn he hp (.inl hc) hsh
  | block j hk =>
    by_cases hj : j = io <;> simp [hj, SockLabel.called] at hn hp he hw hc
    · have h₀ := (hj ▸ ha.2 hk).imp_left current_of_eq
      exact hs.block h₀ (by omega) (by omega) (by omega) (by omega) hc hsh
    · exact hs.of_eq (by omega) hn he hp (.inl hc) hsh
  | clear j ret =>
    by_cases hj : j = io <;> simp [hj, SockLabel.called] at hn hp he hw hc
    · exact hs.clear (by omega) hn (by omega) (by omega) hc hsh
    · -- `es_write` held nothing, or an io that another call publishes
      exact hs.of_eq (by omega) hn he hp (.inr ⟨hc, ha.current⟩) hsh
  | call j ret =>
    by_cases hj : j = io <;> simp [hj, SockLabel.called] at hn hp he hw hc <;>
      exact hs.of_eq (by omega) hn (by omega) hp (.inl hc) hsh
  | back | dispatch =>
    simp [SockLabel.called] at hn hp he hw hc
    exact hs.of_eq (by omega) hn he hp (.inl hc) hsh

/-- How the places of an io change in a step of a run of the handler. -/
theorem handler_counts {s t : SockSys} {f : HandlerFrame} {f' : Option HandlerFrame}
    {sock : SockIo} {l : SockLabel} (hf : f ∈ s.handlers)
    (ht : t = record { s with sock := sock, handlers := f'.toList ++ s.handlers.erase f } true l)
    (io : Io) :
    t.sending io + (if f.sending io then 1 else 0) =
        s.sending io + (if f'.any (HandlerFrame.sending io) then 1 else 0) ∧
      t.published io + (if f.publishes io then 1 else 0) =
        s.published io + (if f'.any (HandlerFrame.publishes io) then 1 else 0) ∧
      t.ending io + (if f.ending io then 1 else 0) =
        s.ending io + (if f'.any (HandlerFrame.ending io) then 1 else 0) + l.called io ∧
      t.waiting io + s.sock.esIowrites.count io = s.waiting io + sock.esIowrites.count io ∧
      t.current io = sock.esWrite.toList.count io ∧ t.share io = s.share io := by
  have hp := Pool.countP_swap hf f' (HandlerFrame.publishes io)
  have he := Pool.countP_swap hf f' (HandlerFrame.ending io)
  have hn := Pool.countP_swap hf f' (HandlerFrame.sending io)
  have hcb := cbCount_record { s with sock := sock, handlers := f'.toList ++ s.handlers.erase f }
    true l io
  subst ht
  simp only [sending, published, ending, waiting, current, share, record_writers, record_handlers,
    record_sock, record_calls, hcb]
  exact ⟨by omega, by omega, by omega, by omega, trivial, trivial⟩

theorem Whole.handler {s t : SockSys} {io : ℕ} {f : HandlerFrame} (hs : Whole io s)
    (hf : f ∈ s.handlers) {k : KernelWrite} {sock : SockIo} {f' : Option HandlerFrame}
    {l : SockLabel} (ha : s.Careful (.handler f k)) (h : HandlerFrame.Step s.sock k f sock f' l)
    (ht : t = record { s with sock := sock, handlers := f'.toList ++ s.handlers.erase f } true l) :
    Whole io t := by
  obtain ⟨hn, hp, he, hw, hc, hsh⟩ := handler_counts hf ht io
  cases h with
  | take j hj' =>
    have hc₀ : s.current io = if j = io then 1 else 0 := by
      simp [current, hj', List.count_singleton]
    by_cases hj : j = io <;> simp [hj, SockLabel.called] at hn hp he hw hc hc₀
    · have h₀ := ha io (hj ▸ hj')
      exact hs.take h₀ hc₀ hw hn (by omega) hp hc hsh
    · exact hs.of_eq hw hn he hp (.inl (by omega)) hsh
  | pop drain j ios hpend hios =>
    by_cases hj : j = io <;> simp [hj, hios, SockLabel.called] at hn hp he hw hc
    · exact hs.publish (by omega) hn he hp hc hsh
    · exact hs.of_eq hw hn he hp (.inr ⟨hc, (ha hpend).current⟩) hsh
  | done drain j hk =>
    by_cases hj : j = io <;> simp [hj, SockLabel.called] at hn hp he hw hc
    · have h₀ := hj ▸ ha.1 hk
      exact hs.done h₀ hw (by omega) (by omega) (by omega) hc hsh
    · exact hs.of_eq hw hn he hp (.inl hc) hsh
  | block drain j hk =>
    by_cases hj : j = io <;> simp [hj, SockLabel.called] at hn hp he hw hc
    · have h₀ := (hj ▸ ha.2 hk).imp_left current_of_eq
      exact hs.block h₀ hw (by omega) (by omega) (by omega) hc hsh
    · exact hs.of_eq hw hn he hp (.inl hc) hsh
  | clear drain j ret =>
    by_cases hj : j = io <;> simp [hj, SockLabel.called] at hn hp he hw hc
    · exact hs.clear hw hn (by omega) (by omega) hc hsh
    · exact hs.of_eq hw hn he hp (.inr ⟨hc, ha.current⟩) hsh
  | callTaken j | call drain j ret =>
    by_cases hj : j = io <;> simp [hj, SockLabel.called] at hn hp he hw hc <;>
      exact hs.of_eq hw hn (by omega) hp (.inl hc) hsh
  | _ =>
    simp [SockLabel.called] at hn hp he hw hc
    exact hs.of_eq hw hn he hp (.inl hc) hsh

/-- How the places of an io change when one is submitted. -/
theorem submit_counts (s : SockSys) (io : ℕ) {t : SockSys}
    (ht : t = { s with writers := .enter s.calls :: s.writers, calls := s.calls + 1 }) :
    t.waiting io = s.waiting io + (if s.calls = io then 1 else 0) ∧
      t.sending io = s.sending io ∧ t.ending io = s.ending io ∧
      t.published io = s.published io ∧ t.current io = s.current io ∧
      t.share io = s.share io + if s.calls = io then 1 else 0 := by
  subst ht
  refine ⟨?_, by simp [sending], by simp [ending], by simp [published], rfl, ?_⟩
  · simp only [waiting, List.countP_cons, WriteFrame.entering, decide_eq_true_eq]
    omega
  · simp only [share]
    split <;> split <;> split <;> omega

/-- **A careful step keeps an io whole**: what has been submitted is in one place, or its
callback has been called once. -/
theorem Whole.step {s t : SockSys} {io : ℕ} {a : Act} (hs : Whole io s) (ha : s.Careful a)
    (h : SockSys.step s a = some t) : Whole io t := by
  cases step_cases h with
  | submit =>
    obtain ⟨hw, hn, he, hp, hc, hsh⟩ := submit_counts s io rfl
    by_cases hj : s.calls = io
    · -- the io submitted is in no place before
      have h₀ : s.share io = 0 := if_neg (by omega)
      rw [if_pos hj] at hw hsh
      rw [Whole, h₀] at hs
      rw [Whole, hw, hn, he, hp, hc, hsh, h₀]
      exact .inl (by omega)
    · rw [if_neg hj] at hw hsh
      exact hs.of_eq hw hn he hp (.inl hc) hsh
  | edge alloc => exact hs
  | handle h0 => simpa [Whole, waiting, sending, ending, published, current, share] using hs
  | writer f k alloc hf sock f' l hw => exact hs.writer hf ha hw rfl
  | handler f k hf sock f' l hw => exact hs.handler hf ha hw rfl

end SockSys
end EdpIo
