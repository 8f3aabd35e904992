/-
# How often a callback is called

`edpnet_sock_write` and `sock_write_next` put the io into `es_write`, release
`es_lock` and write, and only then clear `es_write` and call the callback.  A
handler run whose section falls in between finds the io in `es_write`, takes it for
written and calls its callback as well (`called_twice`).

That is the only way: in every interleaving in which no handler takes an io from
`es_write` while a call is still between publishing and clearing it, each callback
is called at most once (`called_once`), since the places of an io and the calls of
its callback are then at most one together (`Held`).
-/

import EdpIo.Sock.Account

namespace EdpIo
namespace SockSys

/-- A handler takes an io from `es_write` only when no call publishes it. -/
def Settled (s : SockSys) : Act → Prop
  | .handler .locking _ => s.sock.esWrite.all fun io => s.published io = 0
  | _ => True

instance (s : SockSys) (a : Act) : Decidable (s.Settled a) :=
  match a with
  | .handler .locking _ => inferInstanceAs (Decidable (_ = true))
  | .submit | .edge _ | .handle | .writer _ _ _ => inferInstanceAs (Decidable True)
  | .handler .enter _ | .handler .asking _ | .handler .connecting _ | .handler .connected _
  | .handler (.taken _) _ | .handler (.next _) _ | .handler (.writing _ _) _
  | .handler (.wrote _ _ _) _ | .handler (.calling _ _ _) _ | .handler (.inNext _) _
  | .handler .clearing _ | .handler .draining _ | .handler .inCb _ =>
    inferInstanceAs (Decidable True)

/-- An io is in one place or its callback has been called once, if it has been
submitted. -/
def Held (io : ℕ) (s : SockSys) : Prop :=
  s.unsent io + s.ending io ≤ s.share io

theorem held_init (b : Bool) (io : ℕ) : Held io (init b) := Nat.le_refl 0

theorem Held.step {io : ℕ} {s t : SockSys} {a : Act} (hs : Held io s) (ha : s.Settled a)
    (h : SockSys.step s a = some t) : Held io t := by
  unfold Held at hs ⊢
  cases step_cases h with
  | submit =>
    obtain ⟨hu, he⟩ := submit_account s io rfl
    rw [hu, he, Nat.add_right_comm]
    exact share_submit hs rfl
  | edge alloc => exact hs
  | handle h0 => simpa [unsent, ending, loose, published, share] using hs
  | writer f k alloc hf sock f' l hw =>
    obtain ⟨hle, -⟩ := writer_account hf alloc hw io rfl
    rw [share, record_calls]
    exact Nat.le_trans hle hs
  | handler f k hf sock f' l hw =>
    obtain ⟨hle, -⟩ := handler_account hf hw io rfl
    rw [share, record_calls]
    refine Nat.le_trans (hle ?_) hs
    rintro rfl hio
    simpa [Settled, hio] using ha

/-- **Once, when the writes are settled.**  In every state of every interleaving of any
number of writes and handlers in which no handler takes an io that a call is still
publishing, and for any results of the kernel, the callback of an io has been called
at most once if the io has been submitted, and not at all otherwise. -/
theorem called_once {b : Bool} {acts : List Act} {s : SockSys}
    (ha : StepSystem.Meets step Settled (init b) acts)
    (hrun : StepSystem.run step (init b) acts = some s) (io : ℕ) :
    cbCount io s.hist ≤ if io < s.calls then 1 else 0 := by
  have hs : Held io s :=
    StepSystem.run_invariant (fun _ _ _ hs ha h => hs.step ha h) (held_init b io) ha hrun
  unfold Held ending at hs
  exact Nat.le_trans (by omega) hs

/-- A write that the kernel blocks, and the handler that takes its io: a run that
meets the hypotheses of `called_once`. -/
theorem called_once_blocked :
    ∃ acts s, StepSystem.run step (init true) acts = some s ∧ cbCount 0 s.hist = 1 ∧
      cbCount 0 s.hist ≤ if 0 < s.calls then 1 else 0 :=
  have hrun := Eq.refl (StepSystem.run step (init true)
    [.submit, .writer (.enter 0) ⟨0, 0⟩ true, .writer (.writing 0) ⟨-1, 11⟩ true, .edge true,
      .handle, .handler .enter ⟨0, 0⟩, .handler .asking ⟨0, 0⟩, .handler .locking ⟨0, 0⟩,
      .handler (.taken 0) ⟨0, 0⟩])
  ⟨_, _, hrun, rfl, called_once (by decide) hrun 0⟩

/-- **Called twice.**  A writer publishes its io; before its kernel write a handler
takes the io and calls its callback with `0`; the kernel takes 5 bytes and the writer
calls the callback with `5`. -/
theorem called_twice :
    ¬ ∀ b acts s, StepSystem.run step (init b) acts = some s →
      ∀ io, cbCount io s.hist ≤ if io < s.calls then 1 else 0 := by
  intro h
  have hrun := Eq.refl (StepSystem.run step (init true)
    [.submit, .writer (.enter 0) ⟨0, 0⟩ true, .edge true, .handle, .handler .enter ⟨0, 0⟩,
      .handler .asking ⟨0, 0⟩, .handler .locking ⟨0, 0⟩, .handler (.taken 0) ⟨0, 0⟩,
      .writer (.writing 0) ⟨5, 0⟩ true,
      .writer (.wrote 0 5) ⟨0, 0⟩ true, .writer (.calling 0 5) ⟨0, 0⟩ true])
  exact absurd (h _ _ _ hrun 0) (by decide)

end SockSys
end EdpIo
