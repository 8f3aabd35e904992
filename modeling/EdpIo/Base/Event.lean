/-
# Events and priorities

`edp_event_t` and `enum edp_event_priority` of `include/edp.h`.  An event object
is its address `addr`; its list node `ev_node` is not a field, since the lists of
the scheduler hold the events themselves.  `ev_type` and `ev_priority` are two
independent numbers: the first picks a handler of the emitter, the second a
queue of the worker.  Handlers, callbacks and emitters are addresses, `0` the
null pointer.
-/

import Mathlib.Order.Lattice
import Mathlib.Order.Nat

namespace EdpIo

/-- `enum edp_event_priority`, which is also the five queues of a worker. -/
inductive Priority
  | idle
  | norm
  | high
  | emrg
  | crit
deriving DecidableEq, Repr

namespace Priority

/-- The enumerator's value, `kEDP_EVENT_PRIORITY_IDLE = 0` and so on. -/
def toNat : Priority → ℕ
  | idle => 0
  | norm => 1
  | high => 2
  | emrg => 3
  | crit => 4

theorem toNat_injective : Function.Injective toNat := by
  intro p q h
  cases p <;> cases q <;> first | rfl | exact absurd h (by decide)

instance : LinearOrder Priority := LinearOrder.lift' toNat toNat_injective

theorem le_crit (p : Priority) : p ≤ crit := by cases p <;> decide

theorem idle_le (p : Priority) : idle ≤ p := by cases p <;> decide

/-- The next lower priority. -/
def below : Priority → Option Priority
  | crit => some emrg
  | emrg => some high
  | high => some norm
  | norm => some idle
  | idle => none

theorem lt_iff_le_of_below {p q r : Priority} (h : p.below = some q) : r < p ↔ r ≤ q := by
  cases p <;> cases h <;> cases r <;> decide

theorem below_lt_iff_le {p q r : Priority} (h : p.below = some q) : q < r ↔ p ≤ r :=
  not_le.symm.trans ((not_congr (lt_iff_le_of_below h)).symm.trans not_lt)

theorem toNat_le (p : Priority) : p.toNat ≤ 4 := by cases p <;> decide

theorem toNat_of_below {p q : Priority} (h : p.below = some q) : p.toNat = q.toNat + 1 := by
  cases p <;> cases h <;> rfl

theorem not_lt_of_below {p r : Priority} (h : p.below = none) : ¬ r < p := by
  cases p <;> cases h
  cases r <;> decide

/-- The `switch` of `__edp_dispatch` on `ev_priority`. -/
def ofInt? : ℤ → Option Priority
  | 4 => some crit
  | 3 => some emrg
  | 2 => some high
  | 1 => some norm
  | 0 => some idle
  | _ => none

theorem ofInt?_eq_some {n : ℤ} {p : Priority} : ofInt? n = some p ↔ n = p.toNat := by
  constructor
  · intro h
    unfold ofInt? at h
    split at h <;> first | (obtain rfl := Option.some.inj h; rfl) | cases h
  · rintro rfl
    cases p <;> rfl

end Priority

/-- `edp_event_t`. -/
structure EdpEvent where
  addr : ℕ
  evType : ℤ
  evPriority : ℤ
  evCpuid : ℤ
  evCb : ℕ
  evData : ℕ
  evEmit : ℕ
  evHandler : ℕ
deriving DecidableEq, Repr

/-- `edp_event_init(ev, type, priority)`. -/
def edpEventInit (ev : EdpEvent) (type priority : ℤ) : EdpEvent :=
  { ev with evType := type, evPriority := priority, evCpuid := -1 }

/-- The queue an event belongs to, if its priority is in range. -/
def EdpEvent.class? (ev : EdpEvent) : Option Priority := Priority.ofInt? ev.evPriority

theorem EdpEvent.class?_eq_some {ev : EdpEvent} {p : Priority} :
    ev.class? = some p ↔ ev.evPriority = p.toNat := Priority.ofInt?_eq_some

end EdpIo
