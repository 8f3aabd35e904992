/-
# The count of entries that no operation keeps

`hset_destroy` refuses a set whose `hs_items` is not `0`, so that a set is freed only
when it holds nothing.  Beside the set, `heldStep` keeps the list of the entries that
were added successfully and not yet deleted successfully; `CountsItems` says that
`hs_items` is its length and that `hset_destroy` follows it.

Neither `hset_add` nor `hset_del` writes `hs_items` (`Held.step`).  `hset_items_iff`:
after a sequence of calls the count is right if and only if every entry added has been
deleted again.  A set of any size answers every call, because a bucket never holds more
than one entry that can be reached (`Held`).
-/

import EdpIo.Hset.Map
import EdpIo.Hset.Sets

namespace EdpIo

namespace Hset

/-- The entries that a caller has in the set after a call, newest first: `hset_add`
that returns `0` adds its entry, `hset_del` that returns `0` takes out the entry it
found. -/
def heldAfter (fuel : ℕ) (h : Hset) (held : List ℕ) : HsetOp → List ℕ
  | .add e _ => e :: held
  | .del k =>
    match h.search fuel k with
    | some (some e) => held.erase e
    | _ => held
  | .get _ => held

/-- A call on the set, with the list of entries beside it. -/
def heldStep (fuel : ℕ) (s : Hset × List ℕ) (op : HsetOp) : Option (Hset × List ℕ) :=
  (op.exec fuel s.1).map fun r => (r.2, if r.1.1 = 0 then heldAfter fuel s.1 s.2 op else s.2)

/-- The caller adds an entry object only while it is not in the set. -/
def AddsNew (s : Hset × List ℕ) : HsetOp → Prop
  | .add e _ => e ∉ s.2
  | _ => True

end Hset

/-- `hs_items` of the set `hs` is the number of entries `held`; `hset_destroy` refuses
it and changes nothing exactly when there are any, and frees it when there are none. -/
def HsetData.CountsItems (d : HsetData) (hs : ℕ) (held : List ℕ) : Prop :=
  (∃ h, d.sets hs = some h ∧ h.hsItems = held.length) ∧
    (d.hsetDestroy hs = some (-22, d) ↔ held ≠ []) ∧
    (held = [] → ∃ d', d.hsetDestroy hs = some (0, d') ∧ d'.sets hs = none)

namespace Hset

variable {fuel : ℕ} {h : Hset} {held : List ℕ} {n k : UInt32} {e : ℕ}

/-- The set while its caller has the entries `held` in it: every bucket is a ring of at
most one entry, which is one of them. -/
structure Held (n : UInt32) (h : Hset) (held : List ℕ) : Prop where
  size : h.hsSize = n
  items : h.hsItems = 0
  nodup : held.Nodup
  bucket : ∀ i < n, h.links.IsRing (.ent i) [] ∨
    ∃ e ∈ held, h.links.IsRing (.ent i) [.node e] ∧ h.hseHash e % n = i

theorem hsetCreate_held (n : UInt32) (l : Links HsetAddr) (hash : ℕ → UInt32) :
    (hsetCreate n l hash).Held n [] :=
  ⟨rfl, rfl, List.nodup_nil, fun _ hi =>
    Or.inl (initBuckets_isRing l (UInt32.lt_iff_toNat_lt.1 hi))⟩

/-- What the search of a bucket finds is an entry that is held, alone in its ring. -/
theorem Held.search (hf : 2 ≤ fuel) (hn : n ≠ 0) (hh : h.Held n held) (k : UInt32) :
    h.search fuel k = some none ∨
      ∃ e ∈ held, h.search fuel k = some (some e) ∧ h.hseHash e = k ∧
        h.links.IsRing (.ent (k % n)) [.node e] := by
  obtain ⟨rfl, _, _, hb⟩ := hh
  have hlt : k % h.hsSize < h.hsSize := UInt32.mod_lt _ (UInt32.pos_iff_ne_zero.2 hn)
  rcases hb _ hlt with hr | ⟨e, he, hr, hi⟩
  · have hrep : BucketRep h (fun _ => none) (k % h.hsSize) := Or.inl ⟨hr, fun _ _ => rfl⟩
    exact Or.inl (hrep.search hf)
  · have hrep : BucketRep h (fun k => if k = h.hseHash e then some e else none)
        (k % h.hsSize) := by
      refine Or.inr ⟨e, hr, hi, if_pos rfl, fun k _ hk => if_neg hk⟩
    have hs := hrep.search hf
    by_cases hk : k = h.hseHash e
    · rw [if_pos hk] at hs
      exact Or.inr ⟨e, he, hs, hk.symm, hr⟩
    · rw [if_neg hk] at hs
      exact Or.inl hs

/-- Setting the hash of an entry that is not held changes no bucket. -/
theorem Held.setHash (hh : h.Held n held) (he : e ∉ held) (k : UInt32) :
    (h.setHash e k).Held n held := by
  obtain ⟨hs, hi, hnd, hb⟩ := hh
  refine ⟨hs, hi, hnd, fun i hlt => ?_⟩
  rcases hb i hlt with hr | ⟨e', he', hr, hk⟩
  · exact Or.inl hr
  · have hne : e' ≠ e := fun h => he (h ▸ he')
    have hsame : (h.setHash e k).hseHash e' = h.hseHash e' := Function.update_of_ne hne _ _
    exact Or.inr ⟨e', he', hr, hsame ▸ hk⟩

/-- A successful `hset_add`. -/
theorem Held.add (hh : h.Held n held) (he : e ∉ held) :
    ({ h with links := h.addLinks (h.hseHash e % n) e } : Hset).Held n (e :: held) := by
  obtain ⟨hs, hi, hnd, hb⟩ := hh
  refine ⟨hs, hi, List.nodup_cons.2 ⟨he, hnd⟩, fun i hlt => ?_⟩
  by_cases hie : i = h.hseHash e % n
  · exact Or.inr ⟨e, List.mem_cons_self, hie ▸ h.addLinks_isRing _ e, hie.symm⟩
  · rcases hb i hlt with hr | ⟨e', he', hr, hk⟩
    · exact Or.inl (h.addLinks_frame hr (Ne.symm hie) (by simp) (by simp))
    · have hne : e ≠ e' := fun h => he (h ▸ he')
      refine Or.inr ⟨e', List.mem_cons_of_mem _ he', ?_, hk⟩
      exact h.addLinks_frame hr (Ne.symm hie) (by simp) (by simpa using hne)

/-- A successful `hset_del`. -/
theorem Held.del (hh : h.Held n held) (hk : h.hseHash e = k)
    (hr : h.links.IsRing (.ent (k % n)) [.node e]) :
    ({ h with links := listDel h.links (.node e) } : Hset).Held n (held.erase e) := by
  obtain ⟨hs, hi, hnd, hb⟩ := hh
  obtain ⟨_, ⟨_, hp⟩, hnx, _⟩ := Links.isRing_singleton.1 hr
  refine ⟨hs, hi, hnd.erase e, fun i hlt => ?_⟩
  by_cases hik : i = k % n
  · have hdel : (listDel h.links (.node e)).IsRing (.ent (k % n)) ([] ++ []) := listDel_isRing hr
    exact Or.inl (hik ▸ hdel)
  · rcases hb i hlt with hr' | ⟨e', he', hr', hk'⟩
    · refine Or.inl (listDel_frame hr' (by simp) ?_ ?_)
      · simpa [hp] using Ne.symm hik
      · simpa [hnx] using Ne.symm hik
    · have hne : e ≠ e' := by
        rintro rfl
        exact hik (hk'.symm.trans (by rw [hk]))
      refine Or.inr ⟨e', (List.mem_erase_of_ne hne.symm).2 he', ?_, hk'⟩
      refine listDel_frame hr' (by simpa using hne) ?_ ?_
      · simpa [hp] using Ne.symm hik
      · simpa [hnx] using Ne.symm hik

/-- Every call on a set comes back and keeps what is known of it, `hs_items` with it. -/
theorem Held.step (hf : 2 ≤ fuel) (hn : n ≠ 0) {s : Hset × List ℕ} (hh : s.1.Held n s.2)
    {op : HsetOp} (hop : AddsNew s op) :
    ∃ t, heldStep fuel s op = some t ∧ t.1.Held n t.2 := by
  obtain ⟨h, held⟩ := s
  cases op with
  | add e k =>
    have hh' : (h.setHash e k).Held n held := hh.setHash hop k
    have hke : (h.setHash e k).hseHash e = k := by simp [Hset.setHash]
    rcases hh'.search hf hn k with hno | ⟨e', _, hsome, _⟩
    · refine ⟨({ h.setHash e k with links := (h.setHash e k).addLinks (k % n) e }, e :: held),
        ?_, ?_⟩
      · simp [heldStep, HsetOp.exec, Hset.hsetAdd, hke, hno, heldAfter, Hset.addLinks, Hset.bucket,
          hh'.size]
      · have hadd := hh'.add hop
        rwa [hke] at hadd
    · refine ⟨(h.setHash e k, held), ?_, hh'⟩
      simp [heldStep, HsetOp.exec, Hset.hsetAdd, hke, hsome]
  | del k =>
    rcases hh.search hf hn k with hno | ⟨e, _, hsome, hk, hr⟩
    · exact ⟨(h, held), by simp [heldStep, HsetOp.exec, Hset.hsetDel, hno], hh⟩
    · refine ⟨({ h with links := listDel h.links (.node e) }, held.erase e), ?_, hh.del hk hr⟩
      simp [heldStep, HsetOp.exec, Hset.hsetDel, hsome, heldAfter]
  | get k =>
    rcases hh.search hf hn k with hno | ⟨e, _, hsome, _⟩
    · exact ⟨(h, held), by simp [heldStep, HsetOp.exec, Hset.hsetGet, hno], hh⟩
    · refine ⟨(h, held), ?_, hh⟩
      simp [heldStep, HsetOp.exec, Hset.hsetGet, hsome, heldAfter]

/-- **Every sequence of calls comes back.** -/
theorem Held.run (hf : 2 ≤ fuel) (hn : n ≠ 0) {s : Hset × List ℕ} (hh : s.1.Held n s.2)
    {ops : List HsetOp} (hops : StepSystem.Meets (heldStep fuel) AddsNew s ops) :
    ∃ t, StepSystem.run (heldStep fuel) s ops = some t ∧ t.1.Held n t.2 := by
  induction ops generalizing s with
  | nil => exact ⟨s, rfl, hh⟩
  | cons op ops ih =>
    obtain ⟨hop, hops⟩ := hops
    obtain ⟨t, ht, hht⟩ := hh.step hf hn hop
    rw [ht] at hops
    obtain ⟨u, hu, hhu⟩ := ih hht hops
    exact ⟨u, StepSystem.run_cons.2 ⟨t, ht, hu⟩, hhu⟩

/-- With `hs_items` at `0` the count is right exactly of a set without entries. -/
theorem countsItems_iff {d : HsetData} {hs : ℕ} (hd : d.sets hs = some h) (hi : h.hsItems = 0) :
    d.CountsItems hs held ↔ held = [] := by
  have hdes : d.hsetDestroy hs = some (0, { d with
      links := listDel d.links (.node hs), sets := Function.update d.sets hs none }) := by
    simp [HsetData.hsetDestroy, hd, hi]
  constructor
  · rintro ⟨⟨h', hd', hlen⟩, _, _⟩
    obtain rfl : h = h' := Option.some.inj (hd.symm.trans hd')
    exact List.length_eq_zero_iff.1 (by omega)
  · rintro rfl
    refine ⟨⟨h, hd, hi⟩, ?_, fun _ => ⟨_, hdes, by simp⟩⟩
    rw [hdes]
    simp

end Hset

/-- **When `hs_items` counts the entries.**  For every set size and every sequence of
calls that adds entry objects only while they are not in the set, all calls return,
and afterwards `hs_items` is the number of entries added and not deleted, and
`hset_destroy` follows it, if and only if there is no such entry. -/
theorem hset_items_iff {n : UInt32} (hn : n ≠ 0) (l : Links HsetAddr) (hash : ℕ → UInt32)
    {fuel : ℕ} (hf : 2 ≤ fuel) {ops : List HsetOp}
    (hops : StepSystem.Meets (Hset.heldStep fuel) Hset.AddsNew (hsetCreate n l hash, []) ops) :
    ∃ h held, StepSystem.run (Hset.heldStep fuel) (hsetCreate n l hash, []) ops =
        some (h, held) ∧
      ∀ (d : HsetData) (hs : ℕ), d.sets hs = some h → (d.CountsItems hs held ↔ held = []) := by
  obtain ⟨⟨h, held⟩, hrun, hh⟩ := (Hset.hsetCreate_held n l hash).run hf hn hops
  exact ⟨h, held, hrun, fun d hs hd => Hset.countsItems_iff hd hh.items⟩

/-- Entry `0` added and deleted again. -/
theorem hset_items_iff_deleted :
    ∃ h held, StepSystem.run (Hset.heldStep 2) (hsetCreate 1 ⟨id, id⟩ fun _ => 0, [])
        [.add 0 5, .del 5] = some (h, held) ∧
      ∀ (d : HsetData) (hs : ℕ), d.sets hs = some h → (d.CountsItems hs held ↔ held = []) :=
  hset_items_iff (by decide) _ _ le_rfl ⟨by simp [Hset.AddsNew], trivial, trivial⟩

/-- **The count stays at `0`.**  Once entry `0` is added, `hset_destroy` of the set frees
it. -/
theorem hset_items_uncounted :
    ¬ ∀ (n : UInt32) (fuel : ℕ) (ops : List HsetOp) (h : Hset) (held : List ℕ) (d : HsetData)
      (hs : ℕ), n ≠ 0 → 2 ≤ fuel →
        StepSystem.Meets (Hset.heldStep fuel) Hset.AddsNew
          (hsetCreate n ⟨id, id⟩ fun _ => 0, []) ops →
        StepSystem.run (Hset.heldStep fuel) (hsetCreate n ⟨id, id⟩ fun _ => 0, []) ops =
          some (h, held) →
        d.sets hs = some h → d.CountsItems hs held := by
  intro hall
  have hone := hall 1 2 [.add 0 5] _ [0] ⟨true, ⟨id, id⟩, fun _ => some _⟩ 0 (by decide) le_rfl
    ⟨by simp [Hset.AddsNew], trivial⟩ rfl rfl
  have hres := congrArg (Option.map Prod.fst) (hone.2.1.2 (by decide))
  exact absurd hres (by decide)

end EdpIo
