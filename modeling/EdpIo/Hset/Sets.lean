/-
# The registry of hash sets

`__hset_data` of `src/hset.c` with its ring `hsd_sets`, and `hset_init`,
`hset_create`, `hset_destroy` and `hset_fini` on the links themselves.  A set is
named by the block `mheap_alloc` gave it; the address of its `hs_node` is `.node h`.

The registry should hold the live sets (`Registers`).  `hset_create` calls
`list_add` with its arguments swapped, so that the ring becomes one of the new set
alone, whatever it held (`swapped_isRing`), and `hset_destroy` of any live set empties
it.  `registry_iff` is the exact condition: the registry is
right all along a run if and only if no set is created while another is alive.
-/

import EdpIo.Hset.Model
import EdpIo.Lib.Run

namespace EdpIo

/-- The addresses of list heads: `&hsd->hsd_sets`, `&h->hs_node` and the two poison
values. -/
inductive SetAddr
  | sets
  | node (h : ℕ)
  | poison1
  | poison2
deriving DecidableEq

instance : ListPoison SetAddr := ⟨.poison1, .poison2⟩

/-- `struct hset_data`, with the links of `hsd_sets` and of every `hs_node`, and the
contents of the live sets. -/
structure HsetData where
  hsdInit : Bool
  links : Links SetAddr
  sets : ℕ → Option Hset

namespace HsetData

/-- `hset_init`, at the start of the program: there are no sets. -/
def hsetInit (l : Links SetAddr) : HsetData where
  hsdInit := true
  links := initListHead l .sets
  sets := fun _ => none

/-- `hset_create` when `mheap_alloc` returns the block `h`, which is no live one;
`size` `0` fails its assertion.  The source passes the head as the new entry and the
new entry as the head: `list_add(&hsd->hsd_sets, &h->hs_node)`. -/
def hsetCreate (d : HsetData) (h : ℕ) (size : UInt32) : Option HsetData :=
  if size = 0 then none
  else
    match d.sets h with
    | some _ => none
    | none =>
      some { d with
        links := listAdd (initListHead d.links (.node h)) .sets (.node h)
        sets := Function.update d.sets h (some (EdpIo.hsetCreate size ⟨id, id⟩ fun _ => 0)) }

/-- `hset_destroy`, and what it returns; a block that is no live set fails its
assertion. -/
def hsetDestroy (d : HsetData) (hs : ℕ) : Option (ℤ × HsetData) :=
  match d.sets hs with
  | none => none
  | some h =>
    if h.hsItems ≠ 0 then some (-22, d)
    else
      some (0, { d with
        links := listDel d.links (.node hs)
        sets := Function.update d.sets hs none })

/-- `hset_fini`, and what it returns. -/
def hsetFini (d : HsetData) : ℤ × HsetData :=
  if d.hsdInit = false then (0, d)
  else if listEmpty d.links .sets = false then (-1, d)
  else (0, { d with hsdInit := false })

end HsetData

/-- A call on the registry: `hset_create` with the block it gets, or `hset_destroy`. -/
inductive SetCall
  | create (h : ℕ) (size : UInt32)
  | destroy (h : ℕ)
deriving DecidableEq

namespace HsetData

/-- The registry after a call. -/
def step (d : HsetData) : SetCall → Option HsetData
  | .create h size => d.hsetCreate h size
  | .destroy h => (d.hsetDestroy h).map (·.2)

/-- **What the registry is for.**  The ring from `hsd_sets` holds exactly the live
sets, each once, and `hset_fini` returns `0` if and only if there are none. -/
def Registers (d : HsetData) : Prop :=
  (∃ hs : List ℕ, d.links.IsRing .sets (hs.map .node) ∧ ∀ h, h ∈ hs ↔ d.sets h ≠ none) ∧
    (d.hsetFini.1 = 0 ↔ ∀ h, d.sets h = none)

/-- The call is no `hset_create`, or it is one that finds no set alive. -/
def NoneAlive (d : HsetData) : SetCall → Prop
  | .create _ _ => ∀ h, d.sets h = none
  | .destroy _ => True

variable {d t : HsetData}

/-- What a call can do. -/
inductive Step (d : HsetData) : SetCall → HsetData → Prop
  | create (h : ℕ) (size : UInt32) (hfree : d.sets h = none) : Step d (.create h size) { d with
      links := listAdd (initListHead d.links (.node h)) .sets (.node h)
      sets := Function.update d.sets h (some (EdpIo.hsetCreate size ⟨id, id⟩ fun _ => 0)) }
  | refused (h : ℕ) (s : Hset) (hs : d.sets h = some s) (hi : s.hsItems ≠ 0) :
      Step d (.destroy h) d
  | destroy (h : ℕ) (s : Hset) (hs : d.sets h = some s) (hi : s.hsItems = 0) :
      Step d (.destroy h) { d with
        links := listDel d.links (.node h)
        sets := Function.update d.sets h none }

/-- **The inversion lemma of the registry.** -/
theorem step_cases {a : SetCall} (hst : d.step a = some t) : Step d a t := by
  cases a with
  | create h size =>
    by_cases hz : size = 0
    · simp [step, hsetCreate, hz] at hst
    · cases hf : d.sets h with
      | some s => simp [step, hsetCreate, hz, hf] at hst
      | none =>
        simp only [step, hsetCreate, if_neg hz, hf, Option.some.injEq] at hst
        exact hst ▸ .create h size hf
  | destroy h =>
    cases hs : d.sets h with
    | none => simp [step, hsetDestroy, hs] at hst
    | some s =>
      by_cases hi : s.hsItems = 0
      · simp only [step, hsetDestroy, hs, hi, ne_eq, not_true_eq_false, if_false,
          Option.map_some, Option.some.injEq] at hst
        exact hst ▸ .destroy h s hs hi
      · simp only [step, hsetDestroy, hs, ne_eq, hi, not_false_eq_true, if_true,
          Option.map_some, Option.some.injEq] at hst
        exact hst ▸ .refused h s hs hi

/-- The registry while at most one set is alive: its ring holds that set. -/
structure Single (d : HsetData) (top : Option ℕ) : Prop where
  init : d.hsdInit = true
  ring : d.links.IsRing .sets (top.toList.map .node)
  live : ∀ h, top = some h ↔ d.sets h ≠ none
  items : ∀ h s, d.sets h = some s → s.hsItems = 0

theorem hsetInit_single (l : Links SetAddr) : (hsetInit l).Single none :=
  ⟨rfl, initListHead_isRing l .sets, fun h => by simp [hsetInit], fun h s hs => by cases hs⟩

/-- `hset_fini` returns `0` exactly when the ring is empty. -/
theorem hsetFini_zero_iff {xs : List SetAddr} (hi : d.hsdInit = true)
    (hr : d.links.IsRing .sets xs) : d.hsetFini.1 = 0 ↔ xs = [] := by
  rw [← listEmpty_iff hr]
  cases he : listEmpty d.links .sets <;> simp [hsetFini, hi, he]

/-- With at most one set alive the registry is right. -/
theorem Single.registers {top : Option ℕ} (hd : d.Single top) : d.Registers := by
  refine ⟨⟨top.toList, hd.ring, fun h => ?_⟩, ?_⟩
  · rw [Option.mem_toList]
    exact hd.live h
  · rw [hsetFini_zero_iff hd.init hd.ring]
    cases top with
    | none =>
      refine ⟨fun _ h => Classical.not_not.1 fun hh => ?_, fun _ => rfl⟩
      exact Option.some_ne_none h ((hd.live h).2 hh).symm
    | some h =>
      refine ⟨fun ht => ?_, fun hno => absurd (hno h) ((hd.live h).1 rfl)⟩
      exact absurd ht (List.cons_ne_nil _ _)

/-- **The arguments swapped.**  After `hset_create` the ring holds the new set alone,
whatever it held before. -/
theorem swapped_isRing (l : Links SetAddr) (h : ℕ) :
    (listAdd (initListHead l (.node h)) .sets (.node h)).IsRing .sets [.node h] := by
  have hn : (initListHead l (.node h)).IsRing (SetAddr.node h) [] := initListHead_isRing l _
  rw [listAdd_eq_listAddTail hn]
  exact listAddTail_swapped_isRing hn (by simp)

/-- A call that meets the condition leaves at most one set alive, and it in the ring. -/
theorem Single.step {top : Option ℕ} (hd : d.Single top) {a : SetCall} (ha : d.NoneAlive a)
    (hst : d.step a = some t) : ∃ top, t.Single top := by
  obtain ⟨hi, hr, hl, he⟩ := hd
  cases step_cases hst with
  | create h size hfree =>
    refine ⟨some h, hi, swapped_isRing d.links h, fun h' => ?_, fun h' s hs => ?_⟩
    · by_cases hh : h' = h
      · simp [hh]
      · simpa [hh, ha h'] using Ne.symm hh
    · by_cases hh : h' = h
      · obtain rfl : EdpIo.hsetCreate size ⟨id, id⟩ (fun _ => 0) = s := by simpa [hh] using hs
        rfl
      · exact he h' s (by simpa [hh] using hs)
  | refused h s hs hz => exact absurd (he h s hs) hz
  | destroy h s hs hz =>
    obtain rfl : top = some h := (hl h).2 (by simp [hs])
    have hdel : (listDel d.links (.node h)).IsRing SetAddr.sets ([] ++ []) := listDel_isRing hr
    refine ⟨none, hi, hdel, fun h' => ?_, fun h' s hs => ?_⟩
    · by_cases hh : h' = h
      · simp [hh]
      · have hno : d.sets h' = none := by
          refine Classical.not_not.1 fun hh' => hh ?_
          exact (Option.some.inj ((hl h').2 hh')).symm
        simp [hh, hno]
    · by_cases hh : h' = h
      · simp [hh] at hs
      · exact he h' s (by simpa [hh] using hs)

/-- After a `hset_create` beside a live set the registry is wrong: the older set is
not in the ring. -/
theorem not_registers {a : SetCall} (ha : ¬ d.NoneAlive a) (hst : d.step a = some t) :
    ¬ t.Registers := by
  cases step_cases hst with
  | refused => exact absurd trivial ha
  | destroy => exact absurd trivial ha
  | create h size hfree =>
    rintro ⟨⟨hs, hring, hlive⟩, _⟩
    refine ha fun h' => Classical.not_not.1 fun hh' => ?_
    have hne : h' ≠ h := fun e => hh' (e ▸ hfree)
    have hm : h' ∈ hs := (hlive h').2 (by simpa [hne] using hh')
    have hone : hs.map SetAddr.node = [.node h] := hring.unique (swapped_isRing d.links h)
    have hmem : SetAddr.node h' ∈ [SetAddr.node h] := hone ▸ List.mem_map_of_mem hm
    exact hne (by simpa using hmem)

/-- **When the registry is right.**  For every sequence of `hset_create` and
`hset_destroy` calls after `hset_init`, the ring from `hsd_sets` holds exactly the live
sets and `hset_fini` returns `0` exactly when there are none, at the start and after
each call, if and only if no `hset_create` finds a set alive. -/
theorem registry_iff {l : Links SetAddr} {calls : List SetCall} {d : HsetData}
    (hrun : StepSystem.run step (hsetInit l) calls = some d) :
    StepSystem.Always step Registers (hsetInit l) calls ↔
      StepSystem.Meets step NoneAlive (hsetInit l) calls := by
  refine StepSystem.always_iff_meets (I := fun d => ∃ top, d.Single top) ?_ ?_ ?_
    ⟨none, hsetInit_single l⟩ hrun
  · rintro d ⟨top, hd⟩
    exact hd.registers
  · rintro d a t ⟨top, hd⟩ ha hst
    exact hd.step ha hst
  · rintro d a t ⟨top, hd⟩ ha hst
    exact not_registers ha hst

/-- One set after the other. -/
theorem registry_iff_one :
    StepSystem.Always step Registers (hsetInit ⟨id, id⟩)
        [.create 0 256, .destroy 0, .create 1 16] ↔
      StepSystem.Meets step NoneAlive (hsetInit ⟨id, id⟩)
        [.create 0 256, .destroy 0, .create 1 16] := by
  have hrun := Eq.refl (StepSystem.run step (hsetInit ⟨id, id⟩)
    [.create 0 256, .destroy 0, .create 1 16])
  exact registry_iff hrun

/-- **Two sets at once.**  Sets `0` and `1` are created and set `0` is destroyed: the ring
is empty and `hset_fini` returns `0` while set `1` is alive. -/
theorem registry_forgets :
    ¬ ∀ (l : Links SetAddr) (calls : List SetCall) (d : HsetData),
      StepSystem.run step (hsetInit l) calls = some d → d.Registers := by
  intro hall
  obtain ⟨_, hfini⟩ := hall ⟨id, id⟩ [.create 0 16, .create 1 16, .destroy 0] _ rfl
  have hnone := (hfini.1 (by decide)) 1
  simp at hnone

end HsetData

end EdpIo
