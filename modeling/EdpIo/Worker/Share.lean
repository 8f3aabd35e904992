/-
# The share of the NORM events

A `high` section that takes `k` events leaves the `norm` loop after it a share of
`k / HIGH_NORM_RATIO` handlers that may go before `HIGH` events that have come since:
`ratio` is set to `k`, divided, and counted down.  `HighPass` counts the handlers of
the `norm` loop that end with `wk_high_pending` not zero and after which the loop goes
on to another, since the last `high` section.

The loop compares `ratio` with zero only when a `HIGH` event is pending, but counts it
down at the end of every turn, so a turn that ends with the share used up and nothing
pending takes it below zero, where the comparison never succeeds again
(`share_exceeded`).  The bound holds of the runs in which every such turn finds a
`HIGH` event pending (`within_share`); the share is then never negative
(`HighPass.Fair`).
-/

import EdpIo.Lib.Watch
import EdpIo.Worker.System

namespace EdpIo

/-- The worker is in the loop of `p`, its section behind it. -/
def Pc.inLoop (p : Priority) : Pc → Bool
  | .loop q | .running q _ | .check q _ => p = q
  | _ => false

/-- What is noted of a `high` section and the turns of the `norm` loop since. -/
structure HighPass where
  /-- The value that `atomic_reset(&wk_high_pending)` returned. -/
  reset : ℕ
  /-- The last handler of the `norm` loop ended with `wk_high_pending` not zero, and the
  loop has not been left since. -/
  late : Bool
  /-- How often the `norm` loop started another handler after such an end. -/
  passed : ℕ
deriving DecidableEq, Repr

namespace HighPass

/-- Before any `high` section. -/
def none : HighPass := ⟨0, false, 0⟩

/-- What is noted of a worker's own step, by the place it is taken from. -/
def note (w w' : Worker) (m : HighPass) : HighPass :=
  match w.pc with
  | .sect .high => ⟨w.pending .high, false, 0⟩
  | .running .norm _ => { m with late := w.pending .high ≠ 0 }
  | .loop .norm =>
    ⟨m.reset, false, if w'.pc.inLoop .norm then m.passed + m.late.toNat else m.passed⟩
  | .check .norm _ => { m with late := m.late && w'.pc.inLoop .norm }
  | _ => m

/-- The share that is left where the worker is: before the `norm` section it is still
to be divided, and above `high` there is none until the next `high` section. -/
def left (ratio : ℤ) : Pc → Option ℤ
  | .sect .crit | .sect .emrg | .sect .high => .none
  | .loop p | .running p _ | .check p _ =>
    match p with
    | .crit | .emrg => .none
    | .high => some (ratio / 5)
    | .norm | .idle => some ratio
  | .sect .norm => some (ratio / 5)
  | .sect .idle | .head | .wait | .blocked | .exit _ | .finished => some ratio

/-- What was passed and what is left of the share are within what the section allows. -/
structure Fair (w : Worker) (m : HighPass) : Prop where
  bound : m.passed ≤ m.reset / 5
  share : w.high = true → ∀ r, left w.ratio w.pc = some r →
    0 ≤ w.ratio ∧ (m.passed : ℤ) + r ≤ m.reset / 5
  late : m.late = true →
    (w.pc = .loop .norm ∧ w.high = true ∧ (m.passed : ℤ) + 1 + w.ratio ≤ m.reset / 5) ∨
      ∃ q, w.pc = .check .norm q ∧ w.pending .high ≠ 0

theorem fair_start : Fair .start none :=
  ⟨Nat.le_refl _, (fun h => by cases h), fun h => by cases h⟩

/-- A flag that is set says where the worker is. -/
theorem Fair.late_eq_false {w : Worker} {m : HighPass} (hf : Fair w m) (hl : w.pc ≠ .loop .norm)
    (hc : ∀ q, w.pc ≠ .check .norm q) : m.late = false := by
  rw [← Bool.not_eq_true]
  intro h
  rcases hf.late h with ⟨hpc, -⟩ | ⟨q, hpc, -⟩
  · exact hl hpc
  · exact hc q hpc

/-- The place that a worker goes to leaves no more of its share than where it was. -/
def NoMore (w w' : Worker) : Prop :=
  w'.high = w.high ∧ w'.ratio = w.ratio ∧ ∀ r, left w.ratio w'.pc = some r →
    ∃ r₀, left w.ratio w.pc = some r₀ ∧ (0 ≤ w.ratio → r ≤ r₀)

theorem noMore_of_eq {w w' : Worker} (hh : w'.high = w.high) (hr : w'.ratio = w.ratio)
    (h : left w.ratio w'.pc = left w.ratio w.pc) : NoMore w w' :=
  ⟨hh, hr, fun r hleft => ⟨r, h ▸ hleft, fun _ => le_refl r⟩⟩

/-- A step out of the `norm` loop to a place with no more share than before. -/
theorem Fair.move {w w' : Worker} {m : HighPass} (hf : Fair w m) (h : NoMore w w') :
    Fair w' { m with late := false } := by
  obtain ⟨hh, hr, hs⟩ := h
  refine ⟨hf.bound, fun h r hleft => ?_, fun h => by cases h⟩
  rw [hr] at hleft ⊢
  rw [hh] at h
  obtain ⟨r₀, hr₀, hle⟩ := hs r hleft
  obtain ⟨hnn, hb⟩ := hf.share h r₀ hr₀
  exact ⟨hnn, le_trans (Int.add_le_add_left (hle hnn) _) hb⟩

/-- Such a step from a place where nothing is noted. -/
theorem Fair.stay {w w' : Worker} {m : HighPass} (hf : Fair w m) (hm : note w w' m = m)
    (hl : w.pc ≠ .loop .norm) (hc : ∀ q, w.pc ≠ .check .norm q) (h : NoMore w w') :
    Fair w' (note w w' m) := by
  have hlate := hf.late_eq_false hl hc
  have heq : { m with late := false } = m := by rw [← hlate]
  rw [hm, ← heq]
  exact hf.move h

end HighPass

namespace Worker

/-- The next step is no section of `high` that takes `2 ^ 31` events or more, and no end
of a turn of the `norm` loop with the share used up and no `HIGH` event pending. -/
def Shares (w : Worker) : Prop :=
  match w.pc with
  | .sect .high => w.pending .high < 2147483648
  | .check .norm .high => w.high = true → w.pending .high = 0 → w.ratio ≠ 0
  | _ => True

instance (w : Worker) : Decidable w.Shares := by
  unfold Shares
  split <;> infer_instance

/-- Reading a counter without a `goto` counts the share down at the end of a turn. -/
theorem ratio_of_next {w w' : Worker} {l : Label} {p q : Priority} (hpc : w.pc = .check p q)
    (hn : w.next = some (w', l)) (h : w.pending q = 0 ∨ w.yields p q = false) :
    w'.ratio = if checkFrom p q.below = .loop .norm then w.ratio - 1 else w.ratio := by
  have hif : ¬ (w.pending q ≠ 0 ∧ w.yields p q = true) := by
    rintro ⟨hp, hy⟩
    rcases h with h | h
    · exact hp h
    · rw [hy] at h
      cases h
  simp only [next, hpc, if_neg hif] at hn
  obtain ⟨rfl, -⟩ := Prod.mk.inj (Option.some.inj hn)
  rfl

theorem toInt32_of_lt {k : ℕ} (h : k < 2147483648) : toInt32 k = k := by
  unfold toInt32
  rw [Int.bmod_def]
  split <;> omega

end Worker

namespace HighPass

/-- In the loops of the other classes nothing is noted. -/
theorem note_running {w : Worker} {p : Priority} {ev : EdpEvent} (hpc : w.pc = .running p ev)
    (hp : p ≠ .norm) (w' : Worker) (m : HighPass) : note w w' m = m := by
  cases p <;> first | exact absurd rfl hp | simp [note, hpc]

theorem note_check {w : Worker} {p q : Priority} (hpc : w.pc = .check p q) (hp : p ≠ .norm)
    (w' : Worker) (m : HighPass) : note w w' m = m := by
  cases p <;> first | exact absurd rfl hp | simp [note, hpc]

theorem left_checkFrom (ratio : ℤ) (p : Priority) (q : Option Priority) :
    left ratio (Worker.checkFrom p q) = left ratio (.loop p) := by
  unfold Worker.checkFrom
  split
  · split <;> rfl
  · rfl

/-- The section of `high` sets the share anew. -/
theorem fair_splice_high {w : Worker} (hk : w.pending .high < 2147483648) :
    Fair (w.splice .high) ⟨w.pending .high, false, 0⟩ := by
  have hsplice : (w.splice .high).ratio = Worker.toInt32 (w.pending .high) := by
    rw [Worker.splice]
  have hratio := hsplice.trans (Worker.toInt32_of_lt hk)
  refine ⟨Nat.zero_le _, fun _ r hr => ?_, fun h => absurd h Bool.false_ne_true⟩
  have hr : (w.splice .high).ratio / 5 = r := Option.some.inj hr
  rw [hratio] at hr ⊢
  show 0 ≤ (w.pending .high : ℤ) ∧ ((0 : ℕ) : ℤ) + r ≤ (w.pending .high : ℤ) / 5
  omega

/-- The section of `norm` divides what the section of `high` has left. -/
theorem Fair.splice_norm {w : Worker} {m : HighPass} (hf : Fair w m) (hpc : w.pc = .sect .norm) :
    Fair (w.splice .norm) m := by
  have hlate := hf.late_eq_false (by simp [hpc]) (by simp [hpc])
  refine ⟨hf.bound, fun h r hr => ?_, fun h => ?_⟩
  · obtain ⟨hnn, hb⟩ := hf.share h (w.ratio / 5) (by rw [hpc]; rfl)
    have hratio : (w.splice .norm).ratio = w.ratio / 5 := Int.tdiv_eq_ediv_of_nonneg hnn
    have hr : (w.splice .norm).ratio = r := Option.some.inj hr
    rw [← hr, hratio]
    exact ⟨by omega, hb⟩
  · rw [hlate] at h
    cases h

/-- The start of another handler in the `norm` loop: what it passes was within the
share. -/
theorem Fair.start_norm {w : Worker} {m : HighPass} (hf : Fair w m) (hpc : w.pc = .loop .norm)
    (ev : EdpEvent) (rest : List EdpEvent) :
    Fair { w with events := rest, pc := .running .norm ev }
      ⟨m.reset, false, m.passed + m.late.toNat⟩ := by
  -- after a late end the share has been counted down already
  have hlate : m.late = true →
      w.high = true ∧ (m.passed : ℤ) + 1 + w.ratio ≤ m.reset / 5 := by
    intro h
    rcases hf.late h with ⟨-, hs⟩ | ⟨q, hq, -⟩
    · exact hs
    · rw [hpc] at hq
      cases hq
  have hshare : w.high = true → 0 ≤ w.ratio ∧ (m.passed : ℤ) + w.ratio ≤ m.reset / 5 :=
    fun h => hf.share h w.ratio (by rw [hpc]; rfl)
  refine ⟨?_, fun h r hr => ?_, fun h => by cases h⟩
  · show m.passed + m.late.toNat ≤ m.reset / 5
    cases hm : m.late with
    | false => exact hf.bound
    | true =>
      obtain ⟨hh, hle⟩ := hlate hm
      have hnn := (hshare hh).1
      rw [Bool.toNat_true]
      omega
  · have hr : w.ratio = r := Option.some.inj hr
    obtain ⟨hnn, hle⟩ := hshare h
    refine ⟨hnn, ?_⟩
    show ((m.passed + m.late.toNat : ℕ) : ℤ) + r ≤ m.reset / 5
    cases hm : m.late with
    | false => rw [Bool.toNat_false]; omega
    | true =>
      have hle := (hlate hm).2
      rw [Bool.toNat_true]
      omega

/-- Within a turn of the `norm` loop the next counter is read. -/
theorem Fair.check_on {w w' : Worker} {m : HighPass} {q q' : Priority} (hf : Fair w m)
    (hpc : w.pc = .check .norm q) (hpc' : w'.pc = .check .norm q') (hh : w'.high = w.high)
    (hr : w'.ratio = w.ratio) (hpend : w'.pending = w.pending) :
    Fair w' { m with late := m.late && w'.pc.inLoop .norm } := by
  refine ⟨hf.bound, fun hhigh r hleft => ?_, fun hl => .inr ⟨q', hpc', ?_⟩⟩
  · rw [hr]
    rw [hpc', hr] at hleft
    rw [hh] at hhigh
    exact hf.share hhigh r (by rw [hpc]; exact hleft)
  · obtain ⟨hm, -⟩ := (Bool.and_eq_true ..).mp hl
    rcases hf.late hm with ⟨hq, -⟩ | ⟨q, -, hq⟩
    · rw [hpc] at hq
      cases hq
    · rw [hpend]
      exact hq

/-- The end of a turn of the `norm` loop counts the share down. -/
theorem Fair.resume_norm {w w' : Worker} {m : HighPass} (hf : Fair w m)
    (hpc : w.pc = .check .norm .high) (hs : w.Shares) (hpc' : w'.pc = .loop .norm)
    (hh : w'.high = w.high) (hr : w'.ratio = w.ratio - 1)
    (h : w.pending .high = 0 ∨ w.yields .norm .high = false) :
    Fair w' { m with late := m.late && w'.pc.inLoop .norm } := by
  rw [Worker.Shares, hpc] at hs
  have hne : w.high = true → w.ratio ≠ 0 := by
    intro hhigh
    rcases h with h | h
    · exact hs hhigh h
    · simpa [Worker.yields, hhigh] using h
  have hshare : w.high = true → 0 ≤ w.ratio ∧ (m.passed : ℤ) + w.ratio ≤ m.reset / 5 :=
    fun hhigh => hf.share hhigh w.ratio (by rw [hpc]; rfl)
  refine ⟨hf.bound, fun hhigh r hleft => ?_, fun hl => .inl ?_⟩
  · rw [hh] at hhigh
    have hne := hne hhigh
    obtain ⟨hnn, hle⟩ := hshare hhigh
    have hleft : w'.ratio = r := by
      rw [hpc'] at hleft
      exact Option.some.inj hleft
    show 0 ≤ w'.ratio ∧ (m.passed : ℤ) + r ≤ m.reset / 5
    omega
  · obtain ⟨hm, -⟩ := (Bool.and_eq_true ..).mp hl
    have hpend : w.pending .high ≠ 0 := by
      rcases hf.late hm with ⟨hq, -⟩ | ⟨q, -, hq⟩
      · rw [hpc] at hq
        cases hq
      · exact hq
    have hhigh : w.high = true := by
      have hy := h.resolve_left hpend
      simp only [Worker.yields, Bool.or_eq_false_iff, Bool.not_eq_false'] at hy
      exact hy.1
    obtain ⟨-, hle⟩ := hshare hhigh
    refine ⟨hpc', hh.trans hhigh, ?_⟩
    show (m.passed : ℤ) + 1 + w'.ratio ≤ m.reset / 5
    omega

theorem checkFrom_ne_loop {p r : Priority} (h : p ≠ r) (q : Option Priority) :
    Worker.checkFrom p q ≠ .loop r := by
  unfold Worker.checkFrom
  split
  · split
    · exact fun heq => by cases heq
    · exact fun heq => h (Pc.loop.inj heq)
  · exact fun heq => h (Pc.loop.inj heq)

/-- The end of a handler of the `norm` loop. -/
theorem Fair.finish_norm {w : Worker} {m : HighPass} {ev : EdpEvent} (hf : Fair w m)
    (hpc : w.pc = .running .norm ev) :
    Fair { w with pc := Worker.checkFrom .norm (some .crit) }
      (note w { w with pc := Worker.checkFrom .norm (some .crit) } m) := by
  have hm : ∀ w', note w w' m = { m with late := w.pending .high ≠ 0 } := by
    intro w'
    simp [note, hpc]
  rw [hm]
  refine ⟨hf.bound, fun h r hr => hf.share h r (by rw [hpc]; exact hr), fun h => .inr ?_⟩
  exact ⟨.crit, rfl, by simpa using h⟩

/-- A jump up from a loop leaves no more of the share. -/
theorem left_sect_of_lt {w : Worker} {p q : Priority} (hpc : w.pc = .check p q) (h : p < q) :
    ∀ r, left w.ratio (.sect q) = some r →
      ∃ r₀, left w.ratio w.pc = some r₀ ∧ (0 ≤ w.ratio → r ≤ r₀) := by
  intro r hr
  cases q with
  | crit | emrg | high => cases hr
  | norm =>
    obtain rfl : p = .idle := by cases p <;> first | rfl | exact absurd h (by decide)
    have hr : w.ratio / 5 = r := Option.some.inj hr
    exact ⟨w.ratio, by rw [hpc]; rfl, by omega⟩
  | idle => exact absurd h (not_lt_of_ge (Priority.idle_le p))

/-- **One step.**  The worker's own steps keep the account of the share. -/
theorem Fair.step {w w' : Worker} {l : Worker.Label} {m : HighPass} (hf : Fair w m)
    (hp : w.Placed) (hs : w.Shares) (hn : w.next = some (w', l)) : Fair w' (note w w' m) := by
  cases Worker.next_step hn with
  | splice p hpc =>
    cases p with
    | crit | emrg | idle =>
      exact hf.stay (by simp [note, hpc]) (by simp [hpc]) (by simp [hpc])
        ⟨rfl, rfl, by simp [Worker.splice, left, hpc]⟩
    | high =>
      have hm : note w (w.splice .high) m = ⟨w.pending .high, false, 0⟩ := by simp [note, hpc]
      rw [Worker.Shares, hpc] at hs
      rw [hm]
      exact fair_splice_high hs
    | norm =>
      have hm : note w (w.splice .norm) m = m := by simp [note, hpc]
      rw [hm]
      exact hf.splice_norm hpc
  | leave p hpc hev =>
    cases p with
    | norm =>
      have hm : note w { w with pc := Worker.afterLoop .norm } m = { m with late := false } := by
        simp [note, hpc, Worker.afterLoop, Priority.below, Pc.inLoop]
      rw [hm]
      exact hf.move ⟨rfl, rfl, by simp [Worker.afterLoop, Priority.below, left, hpc]⟩
    | crit | emrg | high | idle =>
      exact hf.stay (by simp [note, hpc]) (by simp [hpc]) (by simp [hpc])
        ⟨rfl, rfl, by simp [Worker.afterLoop, Priority.below, left, hpc]⟩
  | start p ev rest hpc hev hb hh =>
    cases p with
    | norm =>
      have hm : note w { w with events := rest, pc := .running .norm ev } m =
          ⟨m.reset, false, m.passed + m.late.toNat⟩ := by
        simp [note, hpc, Pc.inLoop]
      rw [hm]
      exact hf.start_norm hpc ev rest
    | crit | emrg | high | idle =>
      exact hf.stay (by simp [note, hpc]) (by simp [hpc]) (by simp [hpc])
        ⟨rfl, rfl, by simp [left, hpc]⟩
  | finish p ev hpc =>
    rcases eq_or_ne p .norm with rfl | hne
    · exact hf.finish_norm hpc
    · refine hf.stay (note_running hpc hne _ m) (by simp [hpc]) (by simp [hpc])
        (noMore_of_eq rfl rfl ?_)
      rw [hpc]
      exact left_checkFrom w.ratio p (some .crit)
  | yield p q hpc h hy =>
    have hup := hp.checksUp
    rw [hpc] at hup
    rcases eq_or_ne p .norm with rfl | hne
    · have hm : note w { w with pc := .sect q } m = { m with late := false } := by
        simp [note, hpc, Pc.inLoop]
      rw [hm]
      exact hf.move ⟨rfl, rfl, left_sect_of_lt hpc hup⟩
    · exact hf.stay (note_check hpc hne _ m) (by simp [hpc]) (by simp [hpc, hne])
        ⟨rfl, rfl, left_sect_of_lt hpc hup⟩
  | resume p q hpc h ratio =>
    have hr := Worker.ratio_of_next hpc hn h
    have hup := hp.checksUp
    rw [hpc] at hup
    rcases eq_or_ne p .norm with rfl | hne
    · have hm : ∀ w', note w w' m = { m with late := m.late && w'.pc.inLoop .norm } := by
        intro w'
        simp [note, hpc]
      rw [hm]
      cases q with
      | crit | emrg =>
        obtain rfl : ratio = w.ratio := hr
        exact hf.check_on hpc rfl rfl rfl rfl
      | high => exact hf.resume_norm hpc hs rfl rfl hr h
      | norm | idle => exact absurd (show _ < _ from hup) (by decide)
    · have hr : ratio = w.ratio := hr.trans (if_neg (checkFrom_ne_loop hne _))
      refine hf.stay (note_check hpc hne _ m) (by simp [hpc]) (by simp [hpc, hne])
        (noMore_of_eq rfl hr ?_)
      rw [hpc]
      exact left_checkFrom w.ratio p q.below
  | back q hpc h =>
    refine hf.stay (by simp [note, hpc]) (by simp [hpc]) (by simp [hpc]) ⟨rfl, rfl, ?_⟩
    intro r hr
    refine ⟨w.ratio, by rw [hpc]; rfl, fun hnn => ?_⟩
    cases q with
    | crit | emrg | high => cases hr
    | norm =>
      have hr : w.ratio / 5 = r := Option.some.inj hr
      omega
    | idle => exact (Option.some.inj hr).ge
  | stopped hpc _ | enter hpc _ | sleep hpc _ | pass hpc _ | wake hpc | down q q' hpc _ _
  | finished hpc _ =>
    exact hf.stay (by simp [note, hpc]) (by simp [hpc]) (by simp [hpc])
      ⟨rfl, rfl, by simp [left, hpc]⟩

/-- What others do around the worker at most adds to its counters. -/
theorem Fair.of_eq {w w' : Worker} {m : HighPass} (hf : Fair w m) (hpc : w'.pc = w.pc)
    (hh : w'.high = w.high) (hr : w'.ratio = w.ratio)
    (hp : w.pending .high ≠ 0 → w'.pending .high ≠ 0) : Fair w' m := by
  refine ⟨hf.bound, fun hhigh => ?_, fun hl => ?_⟩
  · rw [hpc, hr]
    exact hf.share (hh ▸ hhigh)
  · rw [hpc, hh, hr]
    exact (hf.late hl).imp_right fun ⟨q, hq, hne⟩ => ⟨q, hq, hp hne⟩

end HighPass

namespace WorkerSys

/-- What is noted of a step of the system. -/
def noteHigh (s : WorkerSys) (a : Act) (t : WorkerSys) (m : HighPass) : HighPass :=
  match a with
  | .work => HighPass.note s.worker t.worker m
  | _ => m

/-- The condition on the worker's own steps. -/
def Shares (s : WorkerSys) : Act → Prop
  | .work => s.worker.Shares
  | _ => True

instance (s : WorkerSys) : (a : Act) → Decidable (s.Shares a)
  | .work => inferInstanceAs (Decidable s.worker.Shares)
  | .dispatch _ | .signal _ | .stop => inferInstanceAs (Decidable True)

/-- The invariant of the runs in which the share is used up only by `HIGH` events. -/
structure Sharing (s : WorkerSys) (m : HighPass) : Prop where
  placed : s.worker.Placed
  fair : HighPass.Fair s.worker m

theorem Sharing.step {s t : WorkerSys} {a : Act} {m : HighPass} (hs : s.Sharing m)
    (ha : s.Shares a) (h : WorkerSys.step s a = some t) : t.Sharing (noteHigh s a t m) := by
  refine ⟨placed_step hs.placed h, ?_⟩
  cases a with
  | work =>
    obtain ⟨⟨w, l⟩, hn, rfl⟩ := Option.map_eq_some_iff.1 h
    exact hs.fair.step hs.placed ha hn
  | dispatch ev =>
    cases step_cases h with
    | refused _ _ => exact hs.fair
    | dispatch _ p _ =>
      refine hs.fair.of_eq rfl rfl rfl fun hne => ?_
      by_cases hp : Priority.high = p
      · subst hp
        simp [Worker.enqueue]
      · simpa [Worker.enqueue, hp] using hne
  | signal ev =>
    cases step_cases h with
    | signal _ _ =>
      have hsig : s.worker.signal.high = s.worker.high ∧ s.worker.signal.ratio = s.worker.ratio ∧
          s.worker.signal.pending = s.worker.pending := by
        unfold Worker.signal
        split <;> exact ⟨rfl, rfl, rfl⟩
      exact hs.fair.of_eq (Worker.signal_pc s.worker) hsig.1 hsig.2.1 fun hne => hsig.2.2 ▸ hne
  | stop =>
    cases step_cases h with
    | stop => exact hs.fair.of_eq rfl rfl rfl id

/-- **The share of the NORM events bounds what goes before HIGH events.**  In every state
of every run in which the share is never used up by a turn that finds no `HIGH` event
pending, the handlers of the `norm` loop that ended with `wk_high_pending` not zero and
were followed by another of the same loop, since the last `high` section, are at most
the `HIGH_NORM_RATIO`-th part of what that section took. -/
theorem within_share {acts : List Act} {s : WorkerSys} {m : HighPass}
    (hc : StepSystem.Meets step Shares init acts)
    (hrun : StepSystem.run (StepSystem.watch step noteHigh) (init, .none) acts = some (s, m)) :
    (m.passed : ℤ) ≤ m.reset / highNormRatio := by
  have hs : s.Sharing m :=
    StepSystem.watch_invariant (fun _ _ _ _ hs ha h => hs.step ha h)
      ⟨Worker.placed_start, HighPass.fair_start⟩ hc hrun
  have hle := hs.fair.bound
  rw [highNormRatio]
  omega

/-- Five `HIGH` events leave a share of one: a sixth, queued while the handler of the
first `NORM` event runs, is passed by the second.  A run that meets the hypotheses of
`within_share`. -/
theorem within_share_five :
    ∃ acts s m, StepSystem.run (StepSystem.watch step noteHigh) (init, .none) acts = some (s, m) ∧
      m.passed = 1 ∧ (m.passed : ℤ) ≤ m.reset / highNormRatio := by
  let hi : ℕ → EdpEvent := fun a => ⟨a, 2, 2, -1, 0, 0, 0, 1⟩
  let no : ℕ → EdpEvent := fun a => ⟨a, 1, 1, -1, 0, 0, 0, 1⟩
  let acts : List Act := [Act.dispatch (hi 1), .dispatch (hi 2), .dispatch (hi 3), .dispatch (hi 4),
    .dispatch (hi 5), .dispatch (no 6), .dispatch (no 7), .signal (hi 1)] ++
    List.replicate 30 Act.work ++ [Act.dispatch (hi 8)] ++ List.replicate 5 Act.work
  have hrun : (StepSystem.run (StepSystem.watch step noteHigh) (init, .none) acts).map Prod.snd =
      some ⟨5, false, 1⟩ := by decide
  obtain ⟨⟨s, m⟩, hs, hm⟩ := Option.map_eq_some_iff.1 hrun
  obtain rfl : m = ⟨5, false, 1⟩ := hm
  exact ⟨acts, s, _, hs, rfl, within_share (by decide) hs⟩

/-- **Once the share is below zero it never ends.**  One `HIGH` event leaves a share of
`0`, and the first turn of the `norm` loop, with nothing pending, counts it down to
`-1`; a `HIGH` event queued during the second handler is not found to end the loop. -/
theorem share_exceeded :
    ¬ ∀ acts s m, StepSystem.Meets step OwnType init acts →
      StepSystem.run (StepSystem.watch step noteHigh) (init, .none) acts = some (s, m) →
      (m.passed : ℤ) ≤ m.reset / highNormRatio := by
  intro h
  let hi : ℕ → EdpEvent := fun a => ⟨a, 2, 2, -1, 0, 0, 0, 1⟩
  let no : ℕ → EdpEvent := fun a => ⟨a, 1, 1, -1, 0, 0, 0, 1⟩
  let acts : List Act := [Act.dispatch (hi 1), .dispatch (no 2), .dispatch (no 3),
    .dispatch (no 4), .signal (hi 1)] ++ List.replicate 19 Act.work ++ [Act.dispatch (hi 5)] ++
    List.replicate 5 Act.work
  have hrun : (StepSystem.run (StepSystem.watch step noteHigh) (init, .none) acts).map Prod.snd =
      some ⟨1, false, 1⟩ := by decide
  obtain ⟨⟨s, m⟩, hs, hm⟩ := Option.map_eq_some_iff.1 hrun
  obtain rfl : m = ⟨1, false, 1⟩ := hm
  exact absurd (h acts s _ (by decide) hs) (by decide)

end WorkerSys
end EdpIo
