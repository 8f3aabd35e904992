/-
# The emitters' master list

`__emit_data` of `src/emitter.c`: `emit_init` and `emit_fini`, and `emit_create`, `emit_destroy`,
`emit_set` and `emit_get` of any number of threads, with the ring `ed_emits` as links in memory.
A call is taken apart where another thread can come between: the sections under `ed_lock` and
`ee_lock` are one step each, and so are the statements of `emit_init` and `emit_fini` outside of
them.  The events of an emitter, modelled in `EdpIo.Emitter.Model`, come in as changes of
`ee_pendings`.

An emitter is used from `emit_create` on until `emit_destroy` frees it, destroyed once, and linked
while `ed_init` is set (`Proper`).  `emit_init` takes no lock: one that is between its statements
makes the list anew whatever has been linked meanwhile.  Where `emit_create` and `emit_fini` do
not come between them, and no `emit_init` finds `ed_init` clear while another call is past its
test (`Alone`), the ring is at every time what the sections have made of it, the newest emitter
first, `ed_lock` is taken only while it is initialised, and each `emit_fini` has returned `0`
exactly if there was no emitter left (`emits_listed`).

Of the data pointers that are handed in by `emit_create` and `emit_set` none is lost and none
comes back twice: `emit_set` returns each when the next one is handed in, and `emit_get` the
newest (`data_exchanged`).
-/

import EdpIo.Base.ListCalls
import EdpIo.Emitter.Model
import EdpIo.Lib.Pool
import EdpIo.Lib.Run

namespace EdpIo

/-- The addresses of list heads: `&ed->ed_emits`, `&ee->ee_node` and the two poison values. -/
inductive EmitAddr
  | emits
  | node (em : ℕ)
  | poison1
  | poison2
deriving DecidableEq, Repr

instance : ListPoison EmitAddr := ⟨.poison1, .poison2⟩

/-- A call of `emit_create` or `emit_destroy` in progress. -/
inductive MasterCall
  /-- `emit_create`, before its locked section. -/
  | linking (em : ℕ)
  /-- `emit_destroy`, before `ee_init = 0`. -/
  | uniniting (em : ℕ)
  /-- Before its locked section. -/
  | unlinking (em : ℕ)
  /-- Before `mheap_free`. -/
  | freeing (em : ℕ)
deriving DecidableEq, Repr

/-- The emitter that the call is about. -/
def MasterCall.em : MasterCall → ℕ
  | .linking em | .uniniting em | .unlinking em | .freeing em => em

/-- Where a call of `emit_init` is. -/
inductive EmitInitPc
  /-- Before the test of `ed_init`. -/
  | testing
  /-- Before `ed_init = 1`. -/
  | marking
  /-- Before `spi_spin_init`. -/
  | locking
  /-- Before `INIT_LIST_HEAD`. -/
  | listing
deriving DecidableEq, Repr

/-- Where a call of `emit_fini` is. -/
inductive EmitFiniPc
  /-- Before the test of `ed_init`. -/
  | testing
  /-- Before its locked section. -/
  | emptying
  /-- Before `spi_spin_fini`. -/
  | unlocking
deriving DecidableEq, Repr

/-- A call of `emit_init` or `emit_fini` in progress. -/
inductive SetupCall
  | init (pc : EmitInitPc)
  | fini (pc : EmitFiniPc)
deriving DecidableEq, Repr

namespace SetupCall

/-- `emit_init` has found `ed_init` clear, or `emit_fini` has cleared it. -/
def past : SetupCall → Bool
  | .init .testing | .fini .testing | .fini .emptying => false
  | .init .marking | .init .locking | .init .listing | .fini .unlocking => true

/-- What `ed_init` is, and whether `ed_lock` is initialised, while these calls are past. -/
def Fits (edInit edLock : Bool) : List SetupCall → Prop
  | [] => edLock = edInit
  | [.init .marking] => edInit = false ∧ edLock = false
  | [.init .locking] => edInit = true ∧ edLock = false
  | [.init .listing] => edInit = true ∧ edLock = true
  | [.fini .unlocking] => edInit = false ∧ edLock = true
  | _ => False

/-- There is one at most. -/
theorem Fits.eq_singleton {i l : Bool} {cs : List SetupCall} (h : Fits i l cs) {c : SetupCall}
    (hc : c ∈ cs) : cs = [c] := by
  refine Pool.eq_singleton_of_mem ?_ hc
  unfold Fits at h
  split at h <;> first | exact h.elim | simp

end SetupCall

/-- What is recorded. -/
inductive MasterObs
  /-- `emit_create` has stored `data`. -/
  | create (em data : ℕ)
  /-- `list_add`. -/
  | link (em : ℕ)
  /-- `list_del`. -/
  | unlink (em : ℕ)
  /-- `emit_set(em, data)` has returned `old`. -/
  | set (em data old : ℕ)
  /-- `emit_get(em)` has returned `data`. -/
  | get (em data : ℕ)
  /-- `emit_fini` has returned `ret`. -/
  | fini (ret : ℤ)
deriving DecidableEq, Repr

namespace MasterObs

/-- What the sections make of the list, the newest emitter first. -/
def listed : List MasterObs → List ℕ
  | [] => []
  | .link em :: h => em :: listed h
  | .unlink em :: h => (listed h).erase em
  | .create _ _ :: h | .set _ _ _ :: h | .get _ _ :: h | .fini _ :: h => listed h

/-- The data handed in for `em` since its creation, newest first. -/
def given (em : ℕ) : List MasterObs → List ℕ
  | [] => []
  | .create a data :: h => if a = em then [data] else given em h
  | .set a data _ :: h => if a = em then data :: given em h else given em h
  | .link _ :: h | .unlink _ :: h | .get _ _ :: h | .fini _ :: h => given em h

/-- The data handed back by `emit_set` since the creation of `em`, newest first. -/
def taken (em : ℕ) : List MasterObs → List ℕ
  | [] => []
  | .create a _ :: h => if a = em then [] else taken em h
  | .set a _ old :: h => if a = em then old :: taken em h else taken em h
  | .link _ :: h | .unlink _ :: h | .get _ _ :: h | .fini _ :: h => taken em h

/-- Each `emit_get` has returned what was handed in last before it. -/
def GetsNewest : List MasterObs → Prop
  | [] => True
  | .get em data :: h => (given em h).head? = some data ∧ GetsNewest h
  | .create _ _ :: h | .link _ :: h | .unlink _ :: h | .set _ _ _ :: h | .fini _ :: h =>
    GetsNewest h

/-- Each `emit_fini` has returned `0` if the list was empty, and an error if not. -/
def FinisEmpty : List MasterObs → Prop
  | [] => True
  | .fini ret :: h => (ret = 0 ↔ listed h = []) ∧ FinisEmpty h
  | .create _ _ :: h | .link _ :: h | .unlink _ :: h | .set _ _ _ :: h | .get _ _ :: h =>
    FinisEmpty h

end MasterObs

/-- `emit_data_t` with the links of `ed_emits` and of every `ee_node`, the emitters, the calls in
progress, and the history, newest first. -/
structure EmitData where
  edInit : Bool
  /-- `ed_lock` is initialised. -/
  edLock : Bool
  links : Links EmitAddr
  emits : BlockHeap Emit
  setups : List SetupCall
  calls : List MasterCall
  hist : List MasterObs

namespace EmitData

/-- At the start of the program. -/
def start (l : Links EmitAddr) : EmitData := ⟨false, false, l, .empty, [], [], []⟩

/-- A step of `emit_init`, and where the call is after it. -/
def emitInit (s : EmitData) : EmitInitPc → EmitData × Option EmitInitPc
  | .testing => (s, if s.edInit then none else some .marking)
  | .marking => ({ s with edInit := true }, some .locking)
  | .locking => ({ s with edLock := true }, some .listing)
  | .listing => ({ s with links := initListHead s.links .emits }, none)

/-- A step of `emit_fini`. -/
def emitFini (s : EmitData) : EmitFiniPc → EmitData × Option EmitFiniPc
  | .testing =>
    if s.edInit then (s, some .emptying) else ({ s with hist := .fini 0 :: s.hist }, none)
  | .emptying =>
    if listEmpty s.links .emits then ({ s with edInit := false }, some .unlocking)
    else ({ s with hist := .fini (-22) :: s.hist }, none)
  | .unlocking => ({ s with edLock := false, hist := .fini 0 :: s.hist }, none)

/-- The next step of one of the two. -/
def setup (s : EmitData) (c : SetupCall) : EmitData :=
  match c with
  | .init pc =>
    let (t, pc') := s.emitInit pc
    { t with setups := (pc'.map .init).toList ++ s.setups.erase c }
  | .fini pc =>
    let (t, pc') := s.emitFini pc
    { t with setups := (pc'.map .fini).toList ++ s.setups.erase c }

/-- The next step of a call. -/
def next (s : EmitData) (c : MasterCall) : EmitData :=
  match c with
  | .linking em =>
    { s with
      links := listAdd s.links (.node em) .emits
      calls := s.calls.erase c
      hist := .link em :: s.hist }
  | .uniniting em =>
    { s with emits := s.emits.modify em Emit.uninit, calls := .unlinking em :: s.calls.erase c }
  | .unlinking em =>
    { s with
      links := listDel s.links (.node em)
      calls := .freeing em :: s.calls.erase c
      hist := .unlink em :: s.hist }
  | .freeing em => { s with emits := s.emits.free em, calls := s.calls.erase c }

/-- `emit_set(em, data)`. -/
def emitSet (s : EmitData) (em data : ℕ) : Option EmitData :=
  (s.emits.get? em).map fun e =>
    { s with
      emits := s.emits.modify em fun e => { e with eeData := data }
      hist := .set em data e.eeData :: s.hist }

/-- `emit_get(em)`. -/
def emitGet (s : EmitData) (em : ℕ) : Option EmitData :=
  (s.emits.get? em).map fun e => { s with hist := .get em e.eeData :: s.hist }

/-- The steps. -/
inductive Act
  /-- The calls of `emit_init` and `emit_fini`. -/
  | init
  | fini
  /-- The next step of one in progress. -/
  | setup (c : SetupCall)
  /-- `emit_create(data, ..)` until its locked section, where `mheap_alloc` gives it `em`. -/
  | create (em data : ℕ)
  /-- The call of `emit_destroy(em)`, with its test of `ee_pendings`. -/
  | destroy (em : ℕ)
  /-- The next step of a call in progress. -/
  | call (c : MasterCall)
  | set (em data : ℕ)
  | get (em : ℕ)
  /-- `emit_dispatch` counts an event, or `emit_event_handler` discounts it. -/
  | pend (em : ℕ) (up : Bool)
deriving DecidableEq, Repr

/-- One step. -/
def step (s : EmitData) : Act → Option EmitData
  | .init => some { s with setups := .init .testing :: s.setups }
  | .fini => some { s with setups := .fini .testing :: s.setups }
  | .setup c => if c ∈ s.setups then some (s.setup c) else none
  | .create em data =>
    if s.emits.isLive em then none
    else
      some { s with
        links := initListHead s.links (.node em)
        emits := s.emits.alloc em (emitCreate data)
        calls := .linking em :: s.calls
        hist := .create em data :: s.hist }
  | .destroy em =>
    (s.emits.get? em).map fun e =>
      if e.eePendings ≠ 0 then s else { s with calls := .uniniting em :: s.calls }
  | .call c => if c ∈ s.calls then some (s.next c) else none
  | .set em data => s.emitSet em data
  | .get em => s.emitGet em
  | .pend em up =>
    some { s with emits := s.emits.modify em (if up then Emit.incPendings else Emit.decPendings) }

/-- `emit_create` has returned the emitter and `emit_destroy` has not been called. -/
def Owned (s : EmitData) (em : ℕ) : Prop :=
  s.emits.isLive em = true ∧ em ∉ s.calls.map MasterCall.em

/-- Emitters are used while they live and destroyed once, and `emit_create` takes `ed_lock` while
`ed_init` is set. -/
def Proper (s : EmitData) : Act → Prop
  | .destroy em => s.Owned em
  | .set em _ | .get em | .pend em _ => s.emits.isLive em = true
  | .call (.linking _) => s.edInit = true
  | .init | .fini | .setup _ | .create _ _ | .call _ => True

/-- `ed_init` is set, and no `emit_init` is between setting it and its end. -/
def Ready (s : EmitData) : Prop :=
  s.edInit = true ∧ .init .locking ∉ s.setups ∧ .init .listing ∉ s.setups

/-- `emit_init` finds `ed_init` clear only while no other call is past its test, and `emit_create`
and `emit_fini` take `ed_lock` only while the list is ready. -/
def Alone (s : EmitData) : Act → Prop
  | .setup (.init .testing) => s.edInit = true ∨ ∀ c ∈ s.setups, c.past = false
  | .setup (.fini .emptying) | .call (.linking _) => s.Ready
  | .init | .fini | .setup _ | .create _ _ | .destroy _ | .call _ | .set _ _ | .get _
  | .pend _ _ => True

instance (s : EmitData) (em : ℕ) : Decidable (s.Owned em) := inferInstanceAs (Decidable (_ ∧ _))

instance (s : EmitData) : Decidable s.Ready := inferInstanceAs (Decidable (_ ∧ _))

instance (s : EmitData) : (a : Act) → Decidable (s.Proper a)
  | .destroy em => inferInstanceAs (Decidable (s.Owned em))
  | .set _ _ | .get _ | .pend _ _ | .call (.linking _) => inferInstanceAs (Decidable (_ = _))
  | .init | .fini | .setup _ | .create _ _ | .call (.uniniting _) | .call (.unlinking _)
  | .call (.freeing _) => inferInstanceAs (Decidable True)

instance (s : EmitData) : (a : Act) → Decidable (s.Alone a)
  | .setup (.init .testing) => inferInstanceAs (Decidable (_ ∨ _))
  | .setup (.fini .emptying) | .call (.linking _) => inferInstanceAs (Decidable s.Ready)
  | .init | .fini | .setup (.init .marking) | .setup (.init .locking) | .setup (.init .listing)
  | .setup (.fini .testing) | .setup (.fini .unlocking) | .create _ _ | .destroy _
  | .call (.uniniting _) | .call (.unlinking _) | .call (.freeing _) | .set _ _ | .get _
  | .pend _ _ => inferInstanceAs (Decidable True)

/-- The emitter is past the section of `emit_create` and before that of `emit_destroy`. -/
def Linked (s : EmitData) (em : ℕ) : Prop :=
  s.emits.isLive em = true ∧ .linking em ∉ s.calls ∧ .freeing em ∉ s.calls

/-- The list is what its history says. -/
structure Listed (s : EmitData) : Prop where
  fits : SetupCall.Fits s.edInit s.edLock (s.setups.filter SetupCall.past)
  ring : s.Ready → s.links.IsRing .emits ((MasterObs.listed s.hist).map .node)
  down : ¬ s.Ready → MasterObs.listed s.hist = []
  finis : MasterObs.FinisEmpty s.hist
  nodup : (MasterObs.listed s.hist).Nodup
  linked : ∀ em, em ∈ MasterObs.listed s.hist ↔ s.Linked em
  /-- An emitter has one call at a time, and lives as long. -/
  single : (s.calls.map MasterCall.em).Nodup
  live : ∀ c ∈ s.calls, s.emits.isLive c.em = true

variable {s t : EmitData} {em : ℕ}

/-- What a call can do, one constructor for each way. -/
inductive Step (s : EmitData) : Act → EmitData → Prop
  | init : Step s .init { s with setups := .init .testing :: s.setups }
  | fini : Step s .fini { s with setups := .fini .testing :: s.setups }
  | setup (c : SetupCall) (hc : c ∈ s.setups) : Step s (.setup c) (s.setup c)
  | create (em data : ℕ) (hfree : s.emits.isLive em = false) :
      Step s (.create em data) { s with
        links := initListHead s.links (.node em)
        emits := s.emits.alloc em (emitCreate data)
        calls := .linking em :: s.calls
        hist := .create em data :: s.hist }
  | busy (em : ℕ) : Step s (.destroy em) s
  | destroy (em : ℕ) : Step s (.destroy em) { s with calls := .uniniting em :: s.calls }
  | call (c : MasterCall) (hc : c ∈ s.calls) : Step s (.call c) (s.next c)
  | set (em data : ℕ) (e : Emit) (he : s.emits.get? em = some e) :
      Step s (.set em data) { s with
        emits := s.emits.modify em fun e => { e with eeData := data }
        hist := .set em data e.eeData :: s.hist }
  | get (em : ℕ) (e : Emit) (he : s.emits.get? em = some e) :
      Step s (.get em) { s with hist := .get em e.eeData :: s.hist }
  | pend (em : ℕ) (up : Bool) :
      Step s (.pend em up)
        { s with emits := s.emits.modify em (if up then Emit.incPendings else Emit.decPendings) }

theorem step_cases {a : Act} (h : s.step a = some t) : Step s a t := by
  rcases a with _ | _ | c | ⟨em, data⟩ | em | c | ⟨em, data⟩ | em | ⟨em, up⟩
  · obtain rfl := Option.some.inj h
    exact .init
  · obtain rfl := Option.some.inj h
    exact .fini
  · rw [step] at h
    split_ifs at h with hc
    obtain rfl := Option.some.inj h
    exact .setup c hc
  · rw [step] at h
    split_ifs at h with hlive
    obtain rfl := Option.some.inj h
    exact .create em data (Bool.eq_false_iff.2 hlive)
  · obtain ⟨e, he, rfl⟩ := Option.map_eq_some_iff.1 h
    split_ifs
    · exact .busy em
    · exact .destroy em
  · rw [step] at h
    split_ifs at h with hc
    obtain rfl := Option.some.inj h
    exact .call c hc
  · obtain ⟨e, he, rfl⟩ := Option.map_eq_some_iff.1 h
    exact .set em data e he
  · obtain ⟨e, he, rfl⟩ := Option.map_eq_some_iff.1 h
    exact .get em e he
  · obtain rfl := Option.some.inj h
    exact .pend em up

/-- Emitters of which neither the life nor the calls change stay linked. -/
theorem linked_congr (hlive : t.emits.isLive em = s.emits.isLive em)
    (hcalls : ∀ c : MasterCall, c.em = em → (c ∈ t.calls ↔ c ∈ s.calls)) :
    t.Linked em ↔ s.Linked em := by
  unfold Linked
  rw [hlive, hcalls _ rfl, hcalls _ rfl]

/-- Taking out the one call about an emitter. -/
theorem single_erase {calls : List MasterCall} (hs : (calls.map MasterCall.em).Nodup)
    {c : MasterCall} (hc : c ∈ calls) :
    c.em ∉ (calls.erase c).map MasterCall.em ∧ ((calls.erase c).map MasterCall.em).Nodup ∧
      ∀ b, b.em ≠ c.em → (b ∈ calls.erase c ↔ b ∈ calls) := by
  have hperm := (List.perm_cons_erase hc).map MasterCall.em
  obtain ⟨hnot, hnodup⟩ := List.nodup_cons.1 (hperm.nodup_iff.1 hs)
  refine ⟨hnot, hnodup, fun b hb => List.mem_erase_of_ne ?_⟩
  rintro rfl
  exact hb rfl

/-- The call about an emitter is the one. -/
theorem single_eq {calls : List MasterCall} (hs : (calls.map MasterCall.em).Nodup)
    {b c : MasterCall} (hb : b ∈ calls) (hc : c ∈ calls) (h : b.em = c.em) : b = c :=
  List.inj_on_of_nodup_map hs hb hc h

/-- The call that takes its place is about the same emitter. -/
theorem mem_advance {calls : List MasterCall} (hs : (calls.map MasterCall.em).Nodup)
    {c d : MasterCall} (hc : c ∈ calls) (hd : d.em = c.em) (b : MasterCall) (hb : b.em ≠ c.em) :
    b ∈ d :: calls.erase c ↔ b ∈ calls := by
  rw [← (single_erase hs hc).2.2 b hb]
  refine List.mem_cons.trans (or_iff_right ?_)
  rintro rfl
  exact hb hd

theorem start_listed (l : Links EmitAddr) : (start l).Listed where
  fits := rfl
  ring h := by cases h.1
  down _ := rfl
  finis := trivial
  nodup := List.nodup_nil
  linked em := by simp [start, MasterObs.listed, Linked]
  single := List.nodup_nil
  live c hc := by cases hc

/-- A step that changes neither the list nor the calls. -/
theorem Listed.quiet (hs : s.Listed)
    (hfits : SetupCall.Fits t.edInit t.edLock (t.setups.filter SetupCall.past))
    (hring : t.Ready → t.links.IsRing .emits ((MasterObs.listed s.hist).map .node))
    (hdown : ¬ t.Ready → MasterObs.listed s.hist = [])
    (hlive : ∀ em, t.emits.isLive em = s.emits.isLive em) (hcalls : t.calls = s.calls)
    (hhist : MasterObs.listed t.hist = MasterObs.listed s.hist)
    (hfinis : MasterObs.FinisEmpty t.hist) : t.Listed := by
  refine ⟨hfits, ?_, ?_, hfinis, ?_, fun em => ?_, ?_, fun c hc => ?_⟩
  · rw [hhist]
    exact hring
  · rw [hhist]
    exact hdown
  · rw [hhist]
    exact hs.nodup
  · rw [hhist, hs.linked em]
    exact (linked_congr (hlive em) fun c _ => by rw [hcalls]).symm
  · rw [hcalls]
    exact hs.single
  · rw [hcalls] at hc
    rw [hlive]
    exact hs.live c hc

/-- Of the calls that are past, with the list ready there is none. -/
theorem Listed.past_nil (hs : s.Listed) (hr : s.Ready) : s.setups.filter SetupCall.past = [] := by
  obtain ⟨hi, hlocking, hlisting⟩ := hr
  have hfits := hs.fits
  refine List.eq_nil_iff_forall_not_mem.2 fun c hc => ?_
  rw [hfits.eq_singleton hc] at hfits
  obtain ⟨hmem, hpast⟩ := List.mem_filter.1 hc
  rcases c with (_ | _ | _ | _) | (_ | _ | _)
  · cases hpast
  · exact absurd (hi.symm.trans hfits.1) (by decide)
  · exact hlocking hmem
  · exact hlisting hmem
  · cases hpast
  · cases hpast
  · exact absurd (hi.symm.trans hfits.1) (by decide)

/-- With the list ready the lock is initialised. -/
theorem Listed.lock (hs : s.Listed) (hr : s.Ready) : s.edLock = true := by
  have hfits := hs.fits
  rw [hs.past_nil hr] at hfits
  exact hfits.trans hr.1

/-- The call that is past, and the rest of those in progress. -/
theorem Listed.past_erase (hs : s.Listed) {c : SetupCall} (hc : c ∈ s.setups)
    (hpast : c.past = true) :
    SetupCall.Fits s.edInit s.edLock [c] ∧ (s.setups.erase c).filter SetupCall.past = [] := by
  have hone := hs.fits.eq_singleton (List.mem_filter.2 ⟨hc, hpast⟩)
  refine ⟨hone ▸ hs.fits, ?_⟩
  rw [← List.erase_filter, hone, List.erase_cons_head]

/-- The others stay past when one goes that is not. -/
theorem filter_erase {c : SetupCall} (hpast : c.past = false) (l : List SetupCall) :
    (l.erase c).filter SetupCall.past = l.filter SetupCall.past := by
  rw [← List.erase_filter]
  exact List.erase_of_not_mem fun h => absurd (hpast.symm.trans (List.mem_filter.1 h).2) (by decide)

/-- A step that only puts calls `l` that are not past in the place of one that is not leaves the
list as ready as it was. -/
theorem ready_iff {c : SetupCall} (hc : c.past = false) {l : List SetupCall}
    (hl : ∀ d ∈ l, d.past = false) (hinit : t.edInit = s.edInit)
    (hsetups : t.setups = l ++ s.setups.erase c) : t.Ready ↔ s.Ready := by
  have hmem : ∀ d : SetupCall, d.past = true → (d ∈ t.setups ↔ d ∈ s.setups) := by
    intro d hd
    have hdl : d ∉ l := fun h => absurd ((hl d h).symm.trans hd) (by decide)
    have hne : d ≠ c := by
      rintro rfl
      exact absurd (hc.symm.trans hd) (by decide)
    rw [hsetups, List.mem_append, or_iff_right hdl, List.mem_erase_of_ne hne]
  unfold Ready
  rw [hinit, hmem _ rfl, hmem _ rfl]

/-- Such a step of `emit_init` or `emit_fini`. -/
theorem Listed.setup_quiet (hs : s.Listed) {c : SetupCall} (hc : c.past = false)
    {l : List SetupCall} (hl : ∀ d ∈ l, d.past = false) {h : List MasterObs}
    (hhist : MasterObs.listed h = MasterObs.listed s.hist) (hfinis : MasterObs.FinisEmpty h) :
    Listed { s with setups := l ++ s.setups.erase c, hist := h } := by
  have hr := ready_iff (s := s) (t := { s with setups := l ++ s.setups.erase c, hist := h }) hc hl
    rfl rfl
  refine hs.quiet ?_ (fun h => hs.ring (hr.1 h)) (fun h => hs.down (mt hr.2 h)) (fun _ => rfl) rfl
    hhist hfinis
  have hnil : l.filter SetupCall.past = [] :=
    List.filter_eq_nil_iff.2 fun d hd => by simp [hl d hd]
  show SetupCall.Fits s.edInit s.edLock ((l ++ s.setups.erase c).filter SetupCall.past)
  rw [List.filter_append, hnil, List.nil_append, filter_erase hc]
  exact hs.fits

/-- **A call of `emit_init` or `emit_fini` taken one step further.** -/
theorem Listed.setup (hs : s.Listed) {c : SetupCall} (hc : c ∈ s.setups)
    (hA : s.Alone (.setup c)) : (s.setup c).Listed := by
  have hsame : ∀ em, s.emits.isLive em = s.emits.isLive em := fun _ => rfl
  rcases c with (_ | _ | _ | _) | (_ | _ | _)
  · -- the test of `emit_init`
    cases hi : s.edInit with
    | true =>
      have ht : s.setup (.init .testing) =
          { s with setups := [] ++ s.setups.erase (.init .testing) } := by
        simp [EmitData.setup, emitInit, hi]
      rw [ht]
      exact hs.setup_quiet rfl (by simp) rfl hs.finis
    | false =>
      have hnone := hA.resolve_left (by simp [hi])
      have hnil : s.setups.filter SetupCall.past = [] :=
        List.filter_eq_nil_iff.2 fun d hd => by simp [hnone d hd]
      have hlock : s.edLock = s.edInit := by simpa [hnil, SetupCall.Fits] using hs.fits
      have ht : s.setup (.init .testing) =
          { s with setups := .init .marking :: s.setups.erase (.init .testing) } := by
        simp [EmitData.setup, emitInit, hi]
      rw [ht]
      refine hs.quiet ?_ (fun hr => absurd (hi.symm.trans hr.1) (by decide))
        (fun _ => hs.down fun hr => absurd (hi.symm.trans hr.1) (by decide)) hsame rfl rfl hs.finis
      show SetupCall.Fits s.edInit s.edLock (.init .marking :: (s.setups.erase _).filter _)
      rw [filter_erase rfl, hnil]
      exact ⟨hi, hlock.trans hi⟩
  · -- `ed_init = 1`
    obtain ⟨⟨hi, hl⟩, hnil⟩ := hs.past_erase hc rfl
    refine hs.quiet ?_ (fun hr => absurd List.mem_cons_self hr.2.1)
      (fun _ => hs.down fun hr => absurd (hi.symm.trans hr.1) (by decide)) hsame rfl rfl hs.finis
    show SetupCall.Fits true s.edLock (.init .locking :: (s.setups.erase _).filter _)
    rw [hnil]
    exact ⟨rfl, hl⟩
  · -- `spi_spin_init`
    obtain ⟨⟨hi, hl⟩, hnil⟩ := hs.past_erase hc rfl
    refine hs.quiet ?_ (fun hr => absurd List.mem_cons_self hr.2.2)
      (fun _ => hs.down fun hr => hr.2.1 hc) hsame rfl rfl hs.finis
    show SetupCall.Fits s.edInit true (.init .listing :: (s.setups.erase _).filter _)
    rw [hnil]
    exact ⟨hi, rfl⟩
  · -- `INIT_LIST_HEAD`
    obtain ⟨⟨hi, hl⟩, hnil⟩ := hs.past_erase hc rfl
    have hempty := hs.down fun hr => hr.2.2 hc
    refine hs.quiet ?_ (fun _ => ?_) (fun _ => hempty) hsame rfl rfl hs.finis
    · show SetupCall.Fits s.edInit s.edLock ((s.setups.erase _).filter _)
      rw [hnil]
      exact hl.trans hi.symm
    · rw [hempty]
      exact initListHead_isRing ..
  · -- the test of `emit_fini`
    cases hi : s.edInit with
    | true =>
      have ht : s.setup (.fini .testing) =
          { s with setups := [.fini .emptying] ++ s.setups.erase (.fini .testing) } := by
        simp [EmitData.setup, emitFini, hi]
      rw [ht]
      exact hs.setup_quiet rfl (by simp [SetupCall.past]) rfl hs.finis
    | false =>
      have hempty := hs.down fun hr => absurd (hi.symm.trans hr.1) (by decide)
      have ht : s.setup (.fini .testing) = { s with
          setups := [] ++ s.setups.erase (.fini .testing), hist := .fini 0 :: s.hist } := by
        simp [EmitData.setup, emitFini, hi]
      rw [ht]
      exact hs.setup_quiet rfl (by simp) rfl ⟨iff_of_true rfl hempty, hs.finis⟩
  · -- its locked section
    have hiff := listEmpty_iff (hs.ring hA)
    rw [List.map_eq_nil_iff] at hiff
    cases he : listEmpty s.links .emits with
    | false =>
      have hne : MasterObs.listed s.hist ≠ [] := fun h =>
        absurd (he.symm.trans (hiff.2 h)) (by decide)
      have ht : s.setup (.fini .emptying) = { s with
          setups := [] ++ s.setups.erase (.fini .emptying), hist := .fini (-22) :: s.hist } := by
        simp [EmitData.setup, emitFini, he]
      rw [ht]
      exact hs.setup_quiet rfl (by simp) rfl ⟨iff_of_false (by decide) hne, hs.finis⟩
    | true =>
      have hlock := hs.lock hA
      have hnil := hs.past_nil hA
      have ht : s.setup (.fini .emptying) = { s with
          edInit := false, setups := .fini .unlocking :: s.setups.erase (.fini .emptying) } := by
        simp [EmitData.setup, emitFini, he]
      rw [ht]
      refine hs.quiet ?_ (fun hr => Bool.noConfusion hr.1) (fun _ => hiff.1 he) hsame rfl rfl
        hs.finis
      show SetupCall.Fits false s.edLock (.fini .unlocking :: (s.setups.erase _).filter _)
      rw [filter_erase rfl, hnil]
      exact ⟨rfl, hlock⟩
  · -- `spi_spin_fini`
    obtain ⟨⟨hi, hl⟩, hnil⟩ := hs.past_erase hc rfl
    have hempty := hs.down fun hr => absurd (hi.symm.trans hr.1) (by decide)
    refine hs.quiet ?_ (fun hr => absurd (hi.symm.trans hr.1) (by decide)) (fun _ => hempty) hsame
      rfl rfl ⟨iff_of_true rfl hempty, hs.finis⟩
    show SetupCall.Fits s.edInit false ((s.setups.erase _).filter _)
    rw [hnil]
    exact hi.symm

/-- A call taken one step further. -/
theorem Listed.call (hs : s.Listed) {c : MasterCall} (hc : c ∈ s.calls)
    (hA : s.Alone (.call c)) : (s.next c).Listed := by
  obtain ⟨hnot, hnodup, hothers⟩ := single_erase hs.single hc
  have hlive := hs.live c hc
  have hmem : ∀ b : MasterCall, b.em = c.em → b ∉ s.calls.erase c := fun b hb h =>
    hnot (hb ▸ List.mem_map_of_mem h)
  have hold : ∀ b ∈ s.calls.erase c, s.emits.isLive b.em = true := fun b hb =>
    hs.live b (List.mem_of_mem_erase hb)
  -- the emitters that the call is not about
  have hrest : ∀ em', em' ≠ c.em → (∀ b, b.em ≠ c.em → (b ∈ (s.next c).calls ↔ b ∈ s.calls)) →
      (s.next c).emits.isLive em' = s.emits.isLive em' → ((s.next c).Linked em' ↔ s.Linked em') :=
    fun em' hne hcalls hl => linked_congr hl fun b hb => hcalls b (hb ▸ hne)
  rcases c with em | em | em | em
  · have hout : em ∉ MasterObs.listed s.hist := fun h => ((hs.linked em).1 h).2.1 hc
    refine ⟨hs.fits, fun hi => ?_, fun hi => absurd hA hi, hs.finis,
      List.nodup_cons.2 ⟨hout, hs.nodup⟩, fun em' => ?_, hnodup, hold⟩
    · exact ListCall.listAdd_isRing (hs.ring hi) (by simpa using hout)
    · show em' ∈ em :: MasterObs.listed s.hist ↔ _
      rw [List.mem_cons]
      by_cases h : em' = em
      · subst h
        exact iff_of_true (.inl rfl) ⟨hlive, hmem _ rfl, hmem _ rfl⟩
      · rw [or_iff_right h, hs.linked em']
        exact (hrest em' h hothers rfl).symm
  · have hl : ∀ em', (s.next (.uniniting em)).emits.isLive em' = s.emits.isLive em' :=
      fun em' => BlockHeap.isLive_modify ..
    have hcalls := mem_advance hs.single hc (d := .unlinking em) rfl
    refine ⟨hs.fits, hs.ring, hs.down, hs.finis, hs.nodup, fun em' => (hs.linked em').trans ?_,
      List.nodup_cons.2 ⟨hnot, hnodup⟩,
      List.forall_mem_cons.2 ⟨(hl em).trans hlive, fun b hb => ?_⟩⟩
    · by_cases h : em' = em
      · subst h
        refine iff_of_true ⟨hlive, fun h => ?_, fun h => ?_⟩ ⟨(hl _).trans hlive, ?_, ?_⟩
        · cases single_eq hs.single h hc rfl
        · cases single_eq hs.single h hc rfl
        · simpa [next] using hmem (.linking em') rfl
        · simpa [next] using hmem (.freeing em') rfl
      · exact (hrest em' h hcalls (hl em')).symm
    · exact (hl _).trans (hold b hb)
  · have hin : em ∈ MasterObs.listed s.hist := by
      refine (hs.linked em).2 ⟨hlive, fun h => ?_, fun h => ?_⟩
      · cases single_eq hs.single h hc rfl
      · cases single_eq hs.single h hc rfl
    have hcalls := mem_advance hs.single hc (d := .freeing em) rfl
    refine ⟨hs.fits, fun hi => ?_, fun hi => ?_, hs.finis, hs.nodup.erase em, fun em' => ?_,
      List.nodup_cons.2 ⟨hnot, hnodup⟩, List.forall_mem_cons.2 ⟨hlive, hold⟩⟩
    · have hring := hs.ring hi
      obtain ⟨as, bs, hlisted, herase⟩ : ∃ as bs, MasterObs.listed s.hist = as ++ em :: bs ∧
          (MasterObs.listed s.hist).erase em = as ++ bs := by
        obtain ⟨as, bs, -, h, h'⟩ := List.exists_erase_eq hin
        exact ⟨as, bs, h, h'⟩
      rw [hlisted, List.map_append, List.map_cons] at hring
      show (listDel s.links (.node em)).IsRing .emits
        (((MasterObs.listed s.hist).erase em).map .node)
      rw [herase, List.map_append]
      exact listDel_isRing hring
    · rw [hs.down hi] at hin
      cases hin
    · show em' ∈ (MasterObs.listed s.hist).erase em ↔ _
      by_cases h : em' = em
      · subst h
        refine iff_of_false (hs.nodup.not_mem_erase) fun hlinked => hlinked.2.2 ?_
        exact List.mem_cons_self
      · rw [List.mem_erase_of_ne h, hs.linked em']
        exact (hrest em' h hcalls rfl).symm
  · refine ⟨hs.fits, hs.ring, hs.down, hs.finis, hs.nodup, fun em' => (hs.linked em').trans ?_,
      hnodup, fun b hb => ?_⟩
    · by_cases h : em' = em
      · subst h
        refine iff_of_false (fun h => h.2.2 hc) fun h => ?_
        exact absurd ((BlockHeap.isLive_free_self ..).symm.trans h.1) (by decide)
      · exact (hrest em' h hothers (BlockHeap.isLive_free_of_ne _ h)).symm
    · have hne : b.em ≠ em := fun h => hmem b h hb
      exact (BlockHeap.isLive_free_of_ne _ hne).trans (hold b hb)

/-- **Every step keeps the list.** -/
theorem Listed.step (hs : s.Listed) {a : Act} (hC : s.Proper a) (hA : s.Alone a)
    (h : s.step a = some t) : t.Listed := by
  cases step_cases h with
  | busy => exact hs
  | init | fini =>
    refine hs.quiet hs.fits (fun hr => hs.ring ?_) (fun hr => hs.down fun h => hr ?_)
      (fun _ => rfl) rfl rfl hs.finis
    · simpa [Ready] using hr
    · simpa [Ready] using h
  | setup c hc => exact hs.setup hc hA
  | create em data hfree =>
    have hout : em ∉ MasterObs.listed s.hist := fun hin =>
      absurd (hfree.symm.trans ((hs.linked em).1 hin).1) (by decide)
    have hnew : em ∉ s.calls.map MasterCall.em := by
      rintro hin
      obtain ⟨c, hc, rfl⟩ := List.mem_map.1 hin
      exact absurd (hfree.symm.trans (hs.live c hc)) (by decide)
    refine ⟨hs.fits, fun hi => ?_, hs.down, hs.finis, hs.nodup, fun em' => (hs.linked em').trans ?_,
      List.nodup_cons.2 ⟨hnew, hs.single⟩, List.forall_mem_cons.2 ⟨?_, fun c hc => ?_⟩⟩
    · -- the node is in no ring yet
      refine (Links.agreeOff_link (s := [.node em]) (by simp) (by simp)).isRing (hs.ring hi) ?_
      have hne : ∀ em' ∈ MasterObs.listed s.hist, ¬ em' = em := fun _ h e => hout (e ▸ h)
      simpa [MasterObs.listed] using hne
    · by_cases hem : em' = em
      · subst hem
        refine iff_of_false (fun h => ?_) fun h => h.2.1 List.mem_cons_self
        exact absurd (hfree.symm.trans h.1) (by decide)
      · refine (linked_congr (BlockHeap.isLive_alloc_of_ne _ _ hem) fun c hc => ?_).symm
        refine List.mem_cons.trans (or_iff_right ?_)
        rintro rfl
        exact hem hc.symm
    · exact BlockHeap.isLive_alloc_self ..
    · have hne : c.em ≠ em := fun h => hnew (h ▸ List.mem_map_of_mem hc)
      exact (BlockHeap.isLive_alloc_of_ne _ _ hne).trans (hs.live c hc)
  | destroy em =>
    obtain ⟨hlive, hnot⟩ := hC
    refine ⟨hs.fits, hs.ring, hs.down, hs.finis, hs.nodup, fun em' => (hs.linked em').trans ?_,
      List.nodup_cons.2 ⟨hnot, hs.single⟩, List.forall_mem_cons.2 ⟨hlive, hs.live⟩⟩
    simp [Linked]
  | call c hc => exact hs.call hc hA
  | set em data e he =>
    exact hs.quiet hs.fits hs.ring hs.down (fun _ => by simp) rfl rfl hs.finis
  | get em e he => exact hs.quiet hs.fits hs.ring hs.down (fun _ => rfl) rfl rfl hs.finis
  | pend em up =>
    exact hs.quiet hs.fits hs.ring hs.down (fun _ => BlockHeap.isLive_modify ..) rfl rfl hs.finis

/-- **The master list is right at every time.**  In every state reached it holds the emitters
that are linked, each once and the newest first, in memory as in the history; the lock is
initialised while the list is ready, and with it for every emitter that is still to be unlinked;
and each `emit_fini` has returned `0` exactly if the list was empty. -/
theorem emits_listed {l : Links EmitAddr} {as : List Act}
    (hC : StepSystem.Meets EmitData.step Proper (start l) as)
    (hA : StepSystem.Meets EmitData.step Alone (start l) as)
    (hrun : StepSystem.run EmitData.step (start l) as = some s) :
    (MasterObs.listed s.hist).Nodup ∧ (∀ em, em ∈ MasterObs.listed s.hist ↔ s.Linked em) ∧
      (s.Ready → s.edLock = true ∧ ∀ n, (MasterObs.listed s.hist).length < n →
        listForEach s.links .emits n = (MasterObs.listed s.hist).map .node) ∧
      (∀ em, s.Linked em → s.Ready) ∧ MasterObs.FinisEmpty s.hist := by
  have hboth := hC.and hA
  have hs := StepSystem.run_invariant (I := Listed)
    (fun _ _ _ hs hC h => Listed.step hs hC.1 hC.2 h) (start_listed l) hboth hrun
  refine ⟨hs.nodup, hs.linked, fun hr => ⟨hs.lock hr, fun n hn => ?_⟩, fun em hem => ?_, hs.finis⟩
  · exact (hs.ring hr).walk (by simpa using hn)
  · by_contra hr
    have hin := (hs.linked em).2 hem
    rw [hs.down hr] at hin
    cases hin

/-- What has been handed in for a live emitter is what it stores and what has been handed back. -/
structure Exchanged (s : EmitData) : Prop where
  stored : ∀ em e, s.emits.isLive em = true → s.emits.get? em = some e →
    MasterObs.given em s.hist = e.eeData :: MasterObs.taken em s.hist
  gets : MasterObs.GetsNewest s.hist

/-- A step that leaves the data of every emitter. -/
theorem Exchanged.quiet (hs : s.Exchanged) (hhist : t.hist = s.hist)
    (hget : ∀ em e, t.emits.isLive em = true → t.emits.get? em = some e →
      s.emits.isLive em = true ∧ ∃ e', s.emits.get? em = some e' ∧ e'.eeData = e.eeData) :
    t.Exchanged := by
  refine ⟨fun em e hlive he => ?_, hhist ▸ hs.gets⟩
  obtain ⟨hlive', e', he', hdata⟩ := hget em e hlive he
  rw [hhist, ← hdata]
  exact hs.stored em e' hlive' he'

/-- A write that leaves the data. -/
theorem Exchanged.modify (hs : s.Exchanged) {b : ℕ} {f : Emit → Emit}
    (hf : ∀ e, (f e).eeData = e.eeData) (hhist : t.hist = s.hist)
    (hemits : t.emits = s.emits.modify b f) : t.Exchanged := by
  refine hs.quiet hhist fun em e hlive he => ?_
  rw [hemits] at hlive he
  obtain ⟨e', he', ⟨-, rfl⟩ | ⟨-, rfl⟩⟩ := BlockHeap.get?_modify_eq_some he
  · exact ⟨(BlockHeap.isLive_modify ..).symm.trans hlive, e', he', (hf e').symm⟩
  · exact ⟨(BlockHeap.isLive_modify ..).symm.trans hlive, e, he', rfl⟩

/-- `emit_init` and `emit_fini` touch no emitter. -/
theorem setup_emits (s : EmitData) (c : SetupCall) :
    (s.setup c).emits = s.emits ∧
      ((s.setup c).hist = s.hist ∨ ∃ ret, (s.setup c).hist = .fini ret :: s.hist) := by
  rcases c with (_ | _ | _ | _) | (_ | _ | _)
  · exact ⟨rfl, .inl rfl⟩
  · exact ⟨rfl, .inl rfl⟩
  · exact ⟨rfl, .inl rfl⟩
  · exact ⟨rfl, .inl rfl⟩
  · simp only [EmitData.setup, emitFini]
    split
    · exact ⟨rfl, .inl rfl⟩
    · exact ⟨rfl, .inr ⟨0, rfl⟩⟩
  · simp only [EmitData.setup, emitFini]
    split
    · exact ⟨rfl, .inl rfl⟩
    · exact ⟨rfl, .inr ⟨-22, rfl⟩⟩
  · exact ⟨rfl, .inr ⟨0, rfl⟩⟩

theorem Exchanged.setup (hs : s.Exchanged) (c : SetupCall) : (s.setup c).Exchanged := by
  obtain ⟨hemits, hhist | ⟨ret, hhist⟩⟩ := setup_emits s c
  · exact ⟨by rw [hemits, hhist]; exact hs.stored, by rw [hhist]; exact hs.gets⟩
  · exact ⟨by rw [hemits, hhist]; exact hs.stored, by rw [hhist]; exact hs.gets⟩

theorem Exchanged.step (hs : s.Exchanged) {a : Act} (hC : s.Proper a) (h : s.step a = some t) :
    t.Exchanged := by
  cases step_cases h with
  | init | fini | busy | destroy => exact ⟨hs.stored, hs.gets⟩
  | setup c hc => exact hs.setup c
  | create em data hfree =>
    refine ⟨fun em' e hlive he => ?_, hs.gets⟩
    by_cases hem : em = em'
    · subst hem
      obtain rfl : emitCreate data = e := by simpa using he
      simp [MasterObs.given, MasterObs.taken, emitCreate]
    · have hne : em' ≠ em := Ne.symm hem
      simp only [MasterObs.given, MasterObs.taken, if_neg hem]
      refine hs.stored em' e ?_ ?_
      · exact (BlockHeap.isLive_alloc_of_ne _ _ hne).symm.trans hlive
      · exact (BlockHeap.get?_alloc_of_ne _ _ hne).symm.trans he
  | call c hc =>
    rcases c with em | em | em | em
    · exact ⟨hs.stored, hs.gets⟩
    · exact hs.modify (f := Emit.uninit) (fun _ => rfl) rfl rfl
    · exact ⟨hs.stored, hs.gets⟩
    · refine hs.quiet rfl fun em' e hlive he => ?_
      have hne : em' ≠ em := by
        rintro rfl
        exact absurd ((BlockHeap.isLive_free_self ..).symm.trans hlive) (by decide)
      exact ⟨(BlockHeap.isLive_free_of_ne _ hne).symm.trans hlive, e,
        (BlockHeap.get?_free ..).symm.trans he, rfl⟩
  | set em data e he =>
    refine ⟨fun em' e' hlive he' => ?_, hs.gets⟩
    have hlive' : s.emits.isLive em' = true := by simpa using hlive
    have he' : (s.emits.modify em fun e => { e with eeData := data }).get? em' = some e' := he'
    obtain ⟨e₀, he₀, ⟨rfl, rfl⟩ | ⟨hne, rfl⟩⟩ := BlockHeap.get?_modify_eq_some he'
    · -- what was stored is handed back
      obtain rfl := Option.some.inj (he.symm.trans he₀)
      simp [MasterObs.given, MasterObs.taken, hs.stored em' e hlive' he]
    · simp only [MasterObs.given, MasterObs.taken, if_neg (Ne.symm hne)]
      exact hs.stored em' e' hlive' he₀
  | get em e he =>
    refine ⟨hs.stored, ?_, hs.gets⟩
    rw [hs.stored em e hC he]
    rfl
  | pend em up => exact hs.modify (fun e => by cases up <;> rfl) rfl rfl

/-- **No data is lost.**  In every state reached the pointers handed in for an emitter since its
creation are the one it stores and, in the same order, those that `emit_set` has returned; and
every `emit_get` has returned the one handed in last. -/
theorem data_exchanged {l : Links EmitAddr} {as : List Act}
    (hC : StepSystem.Meets EmitData.step Proper (start l) as)
    (hrun : StepSystem.run EmitData.step (start l) as = some s) :
    (∀ em e, s.emits.isLive em = true → s.emits.get? em = some e →
      MasterObs.given em s.hist = e.eeData :: MasterObs.taken em s.hist) ∧
      MasterObs.GetsNewest s.hist := by
  have hstart : (start l).Exchanged := ⟨fun _ _ => nofun, trivial⟩
  obtain ⟨hstored, hgets⟩ := StepSystem.run_invariant
    (fun _ _ _ hs hC h => Exchanged.step hs hC h) hstart hC hrun
  exact ⟨hstored, hgets⟩

/-- Two emitters, data exchanged, one destroyed while the other is being created, and an
`emit_fini` that is refused. -/
theorem emits_listed_two :
    ∃ s : EmitData, MasterObs.listed s.hist = [2] ∧ s.hist.head? = some (.fini (-22)) ∧
      s.Ready ∧ (∀ em, em ∈ MasterObs.listed s.hist ↔ s.Linked em) ∧
      MasterObs.FinisEmpty s.hist := by
  have hrun := Eq.refl (StepSystem.run EmitData.step (start ⟨id, id⟩)
    [.init, .setup (.init .testing), .setup (.init .marking), .setup (.init .locking),
      .setup (.init .listing), .create 1 10, .call (.linking 1), .create 2 20, .set 1 11, .get 1,
      .destroy 1, .call (.uniniting 1), .fini, .setup (.fini .testing), .call (.linking 2),
      .call (.unlinking 1), .call (.freeing 1), .setup (.fini .emptying)])
  have h := emits_listed (by decide) (by decide) hrun
  exact ⟨_, rfl, rfl, by decide, h.2.1, h.2.2.2.2⟩

/-- An `emit_init` that is held after its test empties the list under an emitter, and `emit_fini`
returns `0`. -/
example : (StepSystem.run EmitData.step (start ⟨id, id⟩)
    [.init, .setup (.init .testing), .init, .setup (.init .testing), .setup (.init .marking),
      .setup (.init .locking), .setup (.init .listing), .create 1 10, .call (.linking 1),
      .setup (.init .marking), .setup (.init .locking), .setup (.init .listing), .fini,
      .setup (.fini .testing), .setup (.fini .emptying), .setup (.fini .unlocking)]).any
    (fun s => s.emits.isLive 1 && s.hist.head? == some (.fini 0)) = true := by
  decide

/-- The data of an emitter changed twice and asked for in between. -/
theorem data_exchanged_two :
    ∃ s : EmitData, MasterObs.given 1 s.hist = [12, 11, 10] ∧ MasterObs.GetsNewest s.hist := by
  have hrun := Eq.refl (StepSystem.run EmitData.step (start ⟨id, id⟩)
    [.init, .setup (.init .testing), .setup (.init .marking), .setup (.init .locking),
      .setup (.init .listing), .create 1 10, .call (.linking 1), .set 1 11, .get 1, .set 1 12])
  exact ⟨_, rfl, (data_exchanged (by decide) hrun).2⟩

end EmitData
end EdpIo
