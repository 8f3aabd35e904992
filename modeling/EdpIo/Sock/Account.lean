/-
# Where an io is

An io whose callback is still to come is in one of these places: the pending list,
`es_write`, or the hands of a call in progress.  A call that has set `es_write` and
not finished its kernel write holds the io there too, so `es_write` counts as a
place of its own only when no call is publishing (`loose`).  The places where the
kernel has not yet answered for the io are counted by `unsent`, the later ones and
the calls of its callback by `ending`, and the kernel writes that took its data by
`accepted`.

`step_account` says what one step does to these numbers, in any interleaving:
`unsent + accepted` never grows but by the submission, and `unsent + ending` grows
beside it only when a handler takes an io out of `es_write` that a call is still
publishing.
-/

import EdpIo.Sock.System

namespace EdpIo

namespace WriteFrame

/-- The call holds the io and the kernel has not answered for it. -/
@[simp] def unsent (io : Io) : WriteFrame → Bool
  | .enter j | .writing j => j = io
  | _ => false

/-- The call holds the io and the kernel has answered. -/
@[simp] def ending (io : Io) : WriteFrame → Bool
  | .wrote j _ | .calling j _ => j = io
  | _ => false

/-- The call has set `es_write` to the io and has not cleared it. -/
@[simp] def publishes (io : Io) : WriteFrame → Bool
  | .writing j | .wrote j _ => j = io
  | _ => false

end WriteFrame

namespace HandlerFrame

/-- The run holds the io and the kernel has not answered for it. -/
@[simp] def unsent (io : Io) : HandlerFrame → Bool
  | .writing _ j => j = io
  | _ => false

/-- The run holds the io for the last time. -/
@[simp] def ending (io : Io) : HandlerFrame → Bool
  | .taken j | .wrote _ j _ | .calling _ j _ => j = io
  | _ => false

/-- The run has set `es_write` to the io and has not cleared it. -/
@[simp] def publishes (io : Io) : HandlerFrame → Bool
  | .writing _ j | .wrote _ j _ => j = io
  | _ => false

end HandlerFrame

/-- Calls of the io's callback. -/
def cbCount (io : Io) (hist : List IoObs) : ℕ :=
  hist.countP fun o => match o with | .called j _ => j = io | _ => false

/-- Kernel writes that accepted data of the io. -/
def acceptedCount (io : Io) (hist : List IoObs) : ℕ :=
  hist.countP fun o => match o with | .attempt j k => j = io && k.accepted | _ => false

section Counts

variable (io j : Io) (k : KernelWrite) (errcode : ℤ) (hist : List IoObs)

@[simp] theorem cbCount_attempt :
    cbCount io (.attempt j k :: hist) = cbCount io hist := by
  simp [cbCount]

@[simp] theorem cbCount_called :
    cbCount io (.called j errcode :: hist) = cbCount io hist + if j = io then 1 else 0 := by
  simp [cbCount, List.countP_cons]

@[simp] theorem acceptedCount_attempt :
    acceptedCount io (.attempt j k :: hist) =
      acceptedCount io hist + if j = io ∧ k.accepted = true then 1 else 0 := by
  simp [acceptedCount, List.countP_cons]

@[simp] theorem acceptedCount_called :
    acceptedCount io (.called j errcode :: hist) = acceptedCount io hist := by
  simp [acceptedCount]

end Counts

namespace SockSys

/-- Calls in progress that publish the io. -/
def published (s : SockSys) (io : Io) : ℕ :=
  s.writers.countP (WriteFrame.publishes io) + s.handlers.countP (HandlerFrame.publishes io)

/-- What the current write `e` counts for as a place of the io, with `n` calls that
publish it. -/
def looseIn (e : Option Io) (n : ℕ) (io : Io) : ℕ :=
  if e = some io then if n = 0 then 1 else 0 else 0

/-- Whether `es_write` holds the io for no call in progress. -/
def loose (s : SockSys) (io : Io) : ℕ := looseIn s.sock.esWrite (s.published io) io

/-- The places of the io before the kernel has answered for it. -/
def unsent (s : SockSys) (io : Io) : ℕ :=
  s.sock.esIowrites.count io + s.loose io + s.writers.countP (WriteFrame.unsent io) +
    s.handlers.countP (HandlerFrame.unsent io)

/-- The later places of the io and the calls of its callback. -/
def ending (s : SockSys) (io : Io) : ℕ :=
  s.writers.countP (WriteFrame.ending io) + s.handlers.countP (HandlerFrame.ending io) +
    cbCount io s.hist

theorem looseIn_none (n : ℕ) (io : Io) : looseIn none n io = 0 := rfl

theorem looseIn_le (e : Option Io) (n : ℕ) (io : Io) : looseIn e n io ≤ 1 := by
  unfold looseIn
  split_ifs <;> omega

theorem looseIn_some (j : Io) {n : ℕ} {io : Io} (h : j = io → n ≠ 0) :
    looseIn (some j) n io = 0 := by
  unfold looseIn
  split_ifs with hj hn
  · exact absurd hn (h (Option.some.inj hj))
  · rfl
  · rfl

/-- **One step of a write**, in any state of the others: the places of an io and the
calls of its callback grow by none, nor do its places before the kernel's answer and
the writes that took its data. -/
theorem writer_account {s : SockSys} {f : WriteFrame} (hf : f ∈ s.writers) {k : KernelWrite}
    {sock : SockIo} {f' : Option WriteFrame} {l : SockLabel} (alloc : Bool)
    (h : WriteFrame.Step s.sock k f sock f' l) (io : Io) {t : SockSys}
    (ht : t = record { s with sock := sock, writers := f'.toList ++ s.writers.erase f } alloc l) :
    t.unsent io + t.ending io ≤ s.unsent io + s.ending io ∧
      t.unsent io + acceptedCount io t.hist ≤ s.unsent io + acceptedCount io s.hist := by
  have hp := Pool.countP_swap hf f' (WriteFrame.publishes io)
  have hu := Pool.countP_swap hf f' (WriteFrame.unsent io)
  have he := Pool.countP_swap hf f' (WriteFrame.ending io)
  subst ht
  simp only [unsent, ending, loose, published]
  cases h with
  | publish j hw hn =>
    simp only [record, hn, looseIn_none]
    by_cases hj : j = io <;> simp [hj] at hp hu he ⊢
    · rw [looseIn_some io fun _ => by omega]
      omega
    · rw [looseIn_some j fun h => absurd h hj]
      omega
  | append j hor =>
    by_cases hj : j = io <;> simp [record, hj] at hp hu he ⊢ <;> simp only [hp] <;> omega
  | done j hk =>
    by_cases hj : j = io <;> simp [record, hj] at hp hu he ⊢ <;> simp only [hp]
    · split <;> omega
    · omega
  | block j hk =>
    have ha : k.accepted = false := accepted_of_sockWrite hk
    by_cases hj : j = io <;> simp [record, hj, ha] at hp hu he ⊢
    · -- the io is loose now, if it is still the current write
      have := looseIn_le s.sock.esWrite
        ((s.writers.erase (.writing io)).countP (WriteFrame.publishes io) +
          s.handlers.countP (HandlerFrame.publishes io)) io
      omega
    · simp only [hp]
      omega
  | clear j ret =>
    by_cases hj : j = io <;> simp [record, hj, looseIn_none] at hp hu he ⊢ <;> omega
  | call j ret =>
    by_cases hj : j = io <;> simp [record, hj] at hp hu he ⊢ <;> simp only [hp] <;> omega
  | back =>
    simp [record] at hp hu he ⊢
    simp only [hp]
    omega
  | dispatch =>
    simp [record] at hp hu he ⊢
    simp only [hp]
    omega

/-- **One step of a run of the handler**, in any state of the others.  The places of
the io and the calls of its callback grow by none, unless the run takes the io from
`es_write` while a call publishes it; its places before the kernel's answer and the
writes that took its data never do. -/
theorem handler_account {s : SockSys} {f : HandlerFrame} (hf : f ∈ s.handlers) {k : KernelWrite}
    {sock : SockIo} {f' : Option HandlerFrame} {l : SockLabel}
    (h : HandlerFrame.Step s.sock k f sock f' l) (io : Io) {t : SockSys}
    (ht : t = record { s with sock := sock, handlers := f'.toList ++ s.handlers.erase f } true l) :
    ((f = .locking → s.sock.esWrite = some io → s.published io = 0) →
      t.unsent io + t.ending io ≤ s.unsent io + s.ending io) ∧
      t.unsent io + acceptedCount io t.hist ≤ s.unsent io + acceptedCount io s.hist := by
  have hp := Pool.countP_swap hf f' (HandlerFrame.publishes io)
  have hu := Pool.countP_swap hf f' (HandlerFrame.unsent io)
  have he := Pool.countP_swap hf f' (HandlerFrame.ending io)
  subst ht
  simp only [unsent, ending, loose, published]
  cases h with
  | take j hj' =>
    have hl : s.sock.esWrite = some io → s.published io = 0 → s.loose io = 1 := fun h h0 => by
      simp only [loose, looseIn, h, h0, if_true]
    simp only [loose, published] at hl
    refine ⟨fun h0 => ?_, ?_⟩
    · -- a loose io, so its place moves to the run
      have hl : j = io → _ := fun h => hl (h ▸ hj') (h0 rfl (h ▸ hj'))
      by_cases hj : j = io <;> simp [record, hj', hj, looseIn_none] at hp hu he hl ⊢ <;> omega
    · by_cases hj : j = io <;> simp [record, hj', hj, looseIn_none] at hp hu he ⊢ <;> omega
  | pop drain j ios h0 hios =>
    by_cases hj : j = io <;> simp [record, hios, hj] at hp hu he ⊢
    · rw [looseIn_some io fun _ => by omega]
      exact ⟨by omega, by omega⟩
    · rw [looseIn_some j fun h => absurd h hj]
      exact ⟨by omega, by omega⟩
  | done drain j hk =>
    by_cases hj : j = io <;> simp [record, hj] at hp hu he ⊢ <;> simp only [hp]
    · split <;> omega
    · omega
  | block drain j hk =>
    have ha : k.accepted = false := accepted_of_sockWrite hk
    by_cases hj : j = io <;> simp [record, hj, ha] at hp hu he ⊢
    · have := looseIn_le s.sock.esWrite
        (s.writers.countP (WriteFrame.publishes io) +
          (s.handlers.erase (.writing drain io)).countP (HandlerFrame.publishes io)) io
      omega
    · simp only [hp]
      omega
  | clear drain j ret =>
    by_cases hj : j = io <;> simp [record, hj, looseIn_none] at hp hu he ⊢ <;> omega
  | callTaken j | call drain j ret =>
    by_cases hj : j = io <;> simp [record, hj] at hp hu he ⊢ <;> simp only [hp] <;> omega
  | _ =>
    simp [record] at hp hu he ⊢
    simp only [hp]
    omega

/-- The submission of an io gives it one place. -/
theorem submit_account (s : SockSys) (io : ℕ) {t : SockSys}
    (ht : t = { s with writers := .enter s.calls :: s.writers, calls := s.calls + 1 }) :
    t.unsent io = s.unsent io + (if s.calls = io then 1 else 0) ∧ t.ending io = s.ending io := by
  subst ht
  by_cases hj : s.calls = io <;> simp [unsent, ending, loose, published, hj]
  omega

/-- The most that an io may count for: one once it has been submitted. -/
def share (s : SockSys) (io : ℕ) : ℕ := if io < s.calls then 1 else 0

theorem share_submit {s : SockSys} {io n : ℕ} (h : n ≤ s.share io) {t : SockSys}
    (ht : t.calls = s.calls + 1) : n + (if s.calls = io then 1 else 0) ≤ t.share io := by
  unfold share at h ⊢
  rw [ht]
  by_cases hc : s.calls = io
  · rw [if_neg (show ¬ io < s.calls by omega)] at h
    rw [if_pos hc, if_pos (show io < s.calls + 1 by omega)]
    omega
  · rw [if_neg hc]
    by_cases hlt : io < s.calls
    · rw [if_pos hlt] at h
      rw [if_pos (show io < s.calls + 1 by omega)]
      omega
    · rw [if_neg hlt] at h
      omega

theorem share_le_one (s : SockSys) (io : ℕ) : s.share io ≤ 1 := by
  unfold share
  split <;> omega

/-- The kernel takes the data of each io at most once, and only of those it has not
answered for before. -/
def Tally (io : ℕ) (s : SockSys) : Prop := s.unsent io + acceptedCount io s.hist ≤ s.share io

theorem tally_init (b : Bool) (io : ℕ) : Tally io (init b) := Nat.le_refl 0

theorem Tally.step {io : ℕ} {s t : SockSys} {a : Act} (hs : Tally io s)
    (h : SockSys.step s a = some t) : Tally io t := by
  unfold Tally at hs ⊢
  cases step_cases h with
  | submit =>
    rw [(submit_account s io rfl).1, Nat.add_right_comm]
    exact share_submit hs rfl
  | edge alloc => exact hs
  | handle h0 => simpa [unsent, loose, published, share] using hs
  | writer f k alloc hf sock f' l hw =>
    rw [share, record_calls]
    exact Nat.le_trans (writer_account hf alloc hw io rfl).2 hs
  | handler f k hf sock f' l hw =>
    rw [share, record_calls]
    exact Nat.le_trans (handler_account hf hw io rfl).2 hs

end SockSys
end EdpIo
