/-
# When the hash set is a finite map

A set of hashes is meant to be a finite map from hashes to entries
(`HsetMap`): `hset_add` inserts an entry unless its hash is taken, `hset_del`
removes it, `hset_get` finds it.  `BehavesAsMap` says that a sequence of calls on
the code's links returns what the map returns, and that before, between and
after the calls every hash is found exactly as the map has it.

The code is that map only as long as no bucket ever holds two entries.
`hset_add` calls `list_add_tail` with its arguments swapped, so the bucket becomes
a ring of the new entry alone (`listAddTail_swapped_isRing`) and the entry that
was there is lost.  `hset_behaves_iff` is the exact condition: the calls behave
as the map if and only if, in the map, no two present hashes ever share a bucket
(`BucketsApart`).
-/

import EdpIo.Hset.Model
import Mathlib.Tactic.Push

namespace EdpIo

/-- The finite map that a set stands for: the entry under each hash. -/
abbrev HsetMap := UInt32 → Option ℕ

namespace HsetMap

/-- The map without entries. -/
def empty : HsetMap := fun _ => none

/-- What looking up a hash returns and stores. -/
def lookup (m : HsetMap) (hash : UInt32) : ℤ × Option ℕ :=
  match m hash with
  | some e => (0, some e)
  | none => (-1, none)

/-- What a call returns on the map, and the map after it. -/
def apply (m : HsetMap) : HsetOp → (ℤ × Option ℕ) × HsetMap
  | .add e k =>
    match m k with
    | some _ => ((-1, none), m)
    | none => ((0, none), Function.update m k (some e))
  | .del k =>
    match m k with
    | some _ => ((0, none), Function.update m k none)
    | none => ((-1, none), m)
  | .get k => (m.lookup k, m)

/-- The caller adds an entry object only while it is not in the set. -/
def Legal (m : HsetMap) : HsetOp → Prop
  | .add e _ => ∀ k, m k ≠ some e
  | _ => True

/-- `Legal` for every call of a sequence, at the map it is made on. -/
def LegalSeq : HsetMap → List HsetOp → Prop
  | _, [] => True
  | m, op :: ops => m.Legal op ∧ LegalSeq (m.apply op).2 ops

/-- No two present hashes share one of `n` buckets. -/
def Apart (n : UInt32) (m : HsetMap) : Prop :=
  ∀ k k', m k ≠ none → m k' ≠ none → k % n = k' % n → k = k'

end HsetMap

/-- Before, between and after the calls no two present hashes share a bucket. -/
def BucketsApart (n : UInt32) : HsetMap → List HsetOp → Prop
  | m, [] => m.Apart n
  | m, op :: ops => m.Apart n ∧ BucketsApart n (m.apply op).2 ops

/-- `hset_get` finds every hash as the map has it. -/
def Represents (fuel : ℕ) (h : Hset) (m : HsetMap) : Prop :=
  ∀ k, h.hsetGet fuel k = some (m.lookup k)

/-- The calls return what the map returns, and the set represents the map
before, between and after them. -/
def BehavesAsMap (fuel : ℕ) : Hset → HsetMap → List HsetOp → Prop
  | h, m, [] => Represents fuel h m
  | h, m, op :: ops =>
    Represents fuel h m ∧
      ∃ h', op.exec fuel h = some ((m.apply op).1, h') ∧ BehavesAsMap fuel h' (m.apply op).2 ops

/-- The bucket `i` of `h` is a ring of the entries the map has for it, of which
there is at most one. -/
def BucketRep (h : Hset) (m : HsetMap) (i : UInt32) : Prop :=
  (h.links.IsRing (.ent i) [] ∧ ∀ k, k % h.hsSize = i → m k = none) ∨
    ∃ e, h.links.IsRing (.ent i) [.node e] ∧ h.hseHash e % h.hsSize = i ∧
      m (h.hseHash e) = some e ∧ ∀ k, k % h.hsSize = i → k ≠ h.hseHash e → m k = none

/-- The representation invariant. -/
structure Hset.Rep (n : UInt32) (h : Hset) (m : HsetMap) : Prop where
  size : h.hsSize = n
  bucket : ∀ i < n, BucketRep h m i

section Search

variable {fuel : ℕ} {h : Hset} {m : HsetMap} {n k : UInt32}

/-- A bucket of at most one entry is searched in two turns of the loop. -/
theorem BucketRep.search (hf : 2 ≤ fuel) (hb : BucketRep h m (k % h.hsSize)) :
    h.search fuel k = some (m k) := by
  obtain ⟨f, rfl⟩ : ∃ f, fuel = f + 2 := ⟨fuel - 2, by omega⟩
  unfold Hset.search Hset.bucket
  rcases hb with ⟨hr, hm⟩ | ⟨e, hr, hi, he, hm⟩
  · simp [Hset.find, (Links.isRing_nil.1 hr).1, hm k rfl]
  · obtain ⟨hne, ⟨h₁, _⟩, h₂, _⟩ := Links.isRing_singleton.1 hr
    by_cases hk : h.hseHash e = k
    · simp [Hset.find, h₁, hk ▸ he, hk]
    · simp [Hset.find, h₁, h₂, hk, hm k rfl (Ne.symm hk)]

theorem Hset.Rep.search (hf : 2 ≤ fuel) (hn : n ≠ 0) (hr : h.Rep n m) (k : UInt32) :
    h.search fuel k = some (m k) := by
  have hlt : k % h.hsSize < n := hr.size ▸ UInt32.mod_lt _ (UInt32.pos_iff_ne_zero.2 (hr.size ▸ hn))
  exact (hr.bucket _ hlt).search hf

/-- The invariant is the representation as the caller sees it. -/
theorem Hset.Rep.represents (hf : 2 ≤ fuel) (hn : n ≠ 0) (hr : h.Rep n m) :
    Represents fuel h m := by
  intro k
  rw [Hset.hsetGet, hr.search hf hn, HsetMap.lookup]
  cases m k <;> rfl

/-- Under the invariant no bucket holds two present hashes. -/
theorem Hset.Rep.apart (hn : n ≠ 0) (hr : h.Rep n m) : m.Apart n := by
  intro k k' hk hk' hkk
  have hs := hr.size
  have hlt : k % n < n := UInt32.mod_lt _ (UInt32.pos_iff_ne_zero.2 hn)
  rcases hr.bucket _ hlt with ⟨_, hm⟩ | ⟨e, _, _, _, hm⟩
  · exact absurd (hm k (by rw [hs])) hk
  · have h₁ : k = h.hseHash e := by
      by_contra hne
      exact hk (hm k (by rw [hs]) hne)
    have h₂ : k' = h.hseHash e := by
      by_contra hne
      exact hk' (hm k' (by rw [hs, hkk]) hne)
    rw [h₁, h₂]

end Search

/-- `hset_create` gives the empty map. -/
theorem hsetCreate_rep (n : UInt32) (l : Links HsetAddr) (hash : ℕ → UInt32) :
    (hsetCreate n l hash).Rep n .empty := by
  refine ⟨rfl, fun i hi => Or.inl ⟨initBuckets_isRing l ?_, fun _ _ => rfl⟩⟩
  exact UInt32.lt_iff_toNat_lt.1 hi

section Step

variable {fuel : ℕ} {h : Hset} {m : HsetMap} {n k : UInt32} {e : ℕ}

/-- Setting the hash of an entry that is not in the map changes no bucket. -/
theorem Hset.Rep.setHash (hr : h.Rep n m) (he : ∀ k, m k ≠ some e) :
    (h.setHash e k).Rep n m := by
  refine ⟨hr.size, fun i hi => ?_⟩
  rcases hr.bucket i hi with hb | ⟨e', hl, hi', hm, hu⟩
  · exact Or.inl hb
  · have hne : e' ≠ e := fun h => he _ (h ▸ hm)
    have hh : (h.setHash e k).hseHash e' = h.hseHash e' := Function.update_of_ne hne _ _
    exact Or.inr ⟨e', hl, hh ▸ hi', hh ▸ hm, hh ▸ hu⟩

/-- The links after `hset_add` of a fresh entry `e` to bucket `i`. -/
def Hset.addLinks (h : Hset) (i : UInt32) (e : ℕ) : Links HsetAddr :=
  listAddTail (initListHead h.links (.node e)) (.ent i) (.node e)

/-- After `hset_add` the bucket holds the new entry alone, whatever it held. -/
theorem Hset.addLinks_isRing (h : Hset) (i : UInt32) (e : ℕ) :
    (h.addLinks i e).IsRing (.ent i) [.node e] :=
  listAddTail_swapped_isRing (initListHead_isRing _ _) (by simp)

/-- The other buckets keep their entries. -/
theorem Hset.addLinks_frame {h : Hset} {i j : UInt32} {xs : List HsetAddr}
    (hl : h.links.IsRing (.ent j) xs) (hij : i ≠ j) (hi : .ent i ∉ xs) (he : .node e ∉ xs) :
    (h.addLinks i e).IsRing (.ent j) xs := by
  have he' : HsetAddr.node e ∉ HsetAddr.ent j :: xs := by simpa using he
  refine listAddTail_swapped_frame ?_ (initListHead_isRing _ _) (by simp [hij, hi]) he'
  exact (hl.setNext he').setPrev he'

/-- Adding to a bucket the map has nothing in keeps the invariant. -/
theorem Hset.Rep.add (hr : h.Rep n m) (he : ∀ k, m k ≠ some e)
    (hfree : ∀ k, k % n = h.hseHash e % n → m k = none) :
    ({ h with links := h.addLinks (h.hseHash e % n) e } : Hset).Rep n
      (Function.update m (h.hseHash e) (some e)) := by
  obtain ⟨hs, hb⟩ := hr
  refine ⟨hs, fun i hi => ?_⟩
  by_cases hie : i = h.hseHash e % n
  · subst hie
    refine Or.inr ⟨e, h.addLinks_isRing _ e, by rw [hs], by simp, fun k hk hne => ?_⟩
    rw [Function.update_of_ne hne]
    exact hfree k (hs ▸ hk)
  · have hother : ∀ k, k % n = i → Function.update m (h.hseHash e) (some e) k = m k := by
      intro k hk
      exact Function.update_of_ne (fun e' => hie (by rw [← hk, e'])) _ _
    rcases hb i hi with ⟨hl, hm⟩ | ⟨e', hl, hi', hm, hu⟩
    · refine Or.inl ⟨h.addLinks_frame hl (Ne.symm hie) (by simp) (by simp), fun k hk => ?_⟩
      rw [hother k (hs ▸ hk)]
      exact hm k hk
    · have hne : e ≠ e' := fun h => he _ (h ▸ hm)
      refine Or.inr ⟨e', h.addLinks_frame hl (Ne.symm hie) (by simp) (by simpa using hne), hi', ?_,
        fun k hk hk' => ?_⟩
      · rw [hother _ (hs ▸ hi')]
        exact hm
      · rw [hother k (hs ▸ hk)]
        exact hu k hk hk'

/-- The bucket of a present hash is a ring of its entry alone. -/
theorem BucketRep.of_mem (hb : BucketRep h m (k % h.hsSize)) (he : m k = some e) :
    h.hseHash e = k ∧ h.links.IsRing (.ent (k % h.hsSize)) [.node e] ∧
      ∀ k', k' % h.hsSize = k % h.hsSize → k' ≠ k → m k' = none := by
  rcases hb with ⟨_, hm⟩ | ⟨e', hl, _, hm, hu⟩
  · rw [hm k rfl] at he
    cases he
  · have hke : k = h.hseHash e' := by
      by_contra hne
      rw [hu k rfl hne] at he
      cases he
    rw [hke, hm] at he
    obtain rfl := Option.some.inj he
    exact ⟨hke.symm, hl, hke ▸ hu⟩

/-- Deleting a present entry keeps the invariant. -/
theorem Hset.Rep.del (hr : h.Rep n m) (hn : n ≠ 0) (he : m k = some e) :
    ({ h with links := listDel h.links (.node e) } : Hset).Rep n (Function.update m k none) := by
  obtain ⟨hs, hb⟩ := hr
  have hlt : k % h.hsSize < n := hs ▸ UInt32.mod_lt _ (UInt32.pos_iff_ne_zero.2 (hs ▸ hn))
  obtain ⟨hk, hring, hone⟩ := (hb _ hlt).of_mem he
  obtain ⟨_, ⟨_, hp⟩, hnx, _⟩ := Links.isRing_singleton.1 hring
  refine ⟨hs, fun i hi => ?_⟩
  by_cases hik : i = k % h.hsSize
  · subst hik
    have hdel : (listDel h.links (.node e)).IsRing (.ent (k % h.hsSize)) ([] ++ []) :=
      listDel_isRing hring
    refine Or.inl ⟨hdel, fun k' hk' => ?_⟩
    by_cases hkk : k' = k
    · simp [hkk]
    · rw [Function.update_of_ne hkk]
      exact hone k' hk' hkk
  · have hother : ∀ k', k' % h.hsSize = i → Function.update m k none k' = m k' := by
      intro k' hk'
      exact Function.update_of_ne (fun h => hik (by rw [← hk', h])) _ _
    rcases hb i hi with ⟨hl, hm⟩ | ⟨e', hl, hi', hm, hu⟩
    · refine Or.inl ⟨listDel_frame hl (by simp) ?_ ?_,
        fun k' hk' => (hother k' hk').trans (hm k' hk')⟩
      · simpa [hp] using Ne.symm hik
      · simpa [hnx] using Ne.symm hik
    · have hne : e ≠ e' := by
        rintro rfl
        exact hik (hi'.symm.trans (by rw [hk]))
      refine Or.inr ⟨e', listDel_frame hl (by simpa using hne) ?_ ?_, hi', (hother _ hi').trans hm,
        fun k' hk' hne' => (hother k' hk').trans (hu k' hk' hne')⟩
      · simpa [hp] using Ne.symm hik
      · simpa [hnx] using Ne.symm hik

end Step

section Refinement

variable {fuel : ℕ} {h : Hset} {m : HsetMap} {n : UInt32}

/-- After an add, any other hash of the bucket is not found. -/
theorem Hset.search_addLinks (hf : 2 ≤ fuel) {e : ℕ} {k k' : UInt32} (hs : h.hsSize = n)
    (hke : h.hseHash e = k) (hkk : k' % n = k % n) (hne : k' ≠ k) :
    ({ h with links := h.addLinks (k % n) e } : Hset).search fuel k' = some none := by
  obtain ⟨f, rfl⟩ : ∃ f, fuel = f + 2 := ⟨fuel - 2, by omega⟩
  obtain ⟨_, ⟨h₁, _⟩, h₂, _⟩ := Links.isRing_singleton.1 (h.addLinks_isRing (k % n) e)
  have hke' : h.hseHash e ≠ k' := hke ▸ hne.symm
  simp [Hset.search, Hset.bucket, Hset.find, hs, hkk, h₁, h₂, hke']

/-- Two present hashes share a bucket after an insertion only if the new one
shares it with an older one. -/
theorem HsetMap.Apart.update_iff {e : ℕ} {k : UInt32} (hap : m.Apart n) (hk : m k = none) :
    HsetMap.Apart n (Function.update m k (some e)) ↔ ∀ k', k' % n = k % n → m k' = none := by
  constructor
  · intro hap' k' hkk
    by_contra hk'
    have hne : k' ≠ k := fun h => hk' (h ▸ hk)
    exact hne (hap' k' k (by rwa [Function.update_of_ne hne]) (by simp) hkk)
  · intro hfree k₁ k₂ h₁ h₂ hkk
    by_cases e₁ : k₁ = k
    · by_contra hne
      have e₂ : k₂ ≠ k := fun h => hne (e₁.trans h.symm)
      rw [Function.update_of_ne e₂] at h₂
      exact h₂ (hfree k₂ (hkk.symm.trans (by rw [e₁])))
    · rw [Function.update_of_ne e₁] at h₁
      by_cases e₂ : k₂ = k
      · exact absurd (hfree k₁ (hkk.trans (by rw [e₂]))) h₁
      · rw [Function.update_of_ne e₂] at h₂
        exact hap k₁ k₂ h₁ h₂ hkk

/-- The entry of a present hash is lost to an add of another hash to its bucket. -/
theorem Hset.Rep.not_represents_add (hf : 2 ≤ fuel) (hr : h.Rep n m) {e : ℕ} {k k' : UInt32}
    (he : h.hseHash e = k) (hkk : k' % n = k % n) (hne : k' ≠ k) (hk' : m k' ≠ none) :
    ¬ Represents fuel { h with links := h.addLinks (k % n) e } (Function.update m k (some e)) := by
  intro hrep
  have hlost := Hset.search_addLinks hf hr.size he hkk hne
  have hget := hrep k'
  obtain ⟨e', he'⟩ := Option.ne_none_iff_exists'.1 hk'
  rw [Hset.hsetGet, hlost] at hget
  simp [HsetMap.lookup, Function.update_of_ne hne, he'] at hget

/-- A call the map permits returns what the map returns, and keeps the
invariant unless it puts a second present hash into a bucket; then the older
entry is not found any more. -/
theorem Hset.Rep.exec (hf : 2 ≤ fuel) (hn : n ≠ 0) (hr : h.Rep n m) {op : HsetOp}
    (hop : m.Legal op) :
    ∃ h', op.exec fuel h = some ((m.apply op).1, h') ∧
      ((m.apply op).2.Apart n → h'.Rep n (m.apply op).2) ∧
      (¬ (m.apply op).2.Apart n → ¬ Represents fuel h' (m.apply op).2) := by
  have hap := hr.apart hn
  cases op with
  | get k =>
    refine ⟨h, ?_, fun _ => hr, fun hna => absurd hap hna⟩
    rw [HsetOp.exec, hr.represents hf hn k]
    rfl
  | del k =>
    cases hk : m k with
    | none =>
      have ha : m.apply (.del k) = ((-1, none), m) := by simp [HsetMap.apply, hk]
      rw [ha]
      refine ⟨h, ?_, fun _ => hr, fun hna => absurd hap hna⟩
      simp [HsetOp.exec, Hset.hsetDel, hr.search hf hn, hk]
    | some e =>
      have ha : m.apply (.del k) = ((0, none), Function.update m k none) := by
        simp [HsetMap.apply, hk]
      rw [ha]
      have hdel := hr.del hn hk
      refine ⟨_, ?_, fun _ => hdel, fun hna => absurd (hdel.apart hn) hna⟩
      simp [HsetOp.exec, Hset.hsetDel, hr.search hf hn, hk]
  | add e k =>
    have hr' : (h.setHash e k).Rep n m := hr.setHash hop
    have hke : (h.setHash e k).hseHash e = k := by simp [Hset.setHash]
    cases hk : m k with
    | some e' =>
      have ha : m.apply (.add e k) = ((-1, none), m) := by simp [HsetMap.apply, hk]
      rw [ha]
      refine ⟨_, ?_, fun _ => hr', fun hna => absurd hap hna⟩
      simp [HsetOp.exec, Hset.hsetAdd, hr'.search hf hn, hke, hk]
    | none =>
      have ha : m.apply (.add e k) = ((0, none), Function.update m k (some e)) := by
        simp [HsetMap.apply, hk]
      rw [ha]
      refine ⟨{ h.setHash e k with links := (h.setHash e k).addLinks (k % n) e }, ?_, ?_, ?_⟩
      · simp [HsetOp.exec, Hset.hsetAdd, hr'.search hf hn, hke, hk, Hset.addLinks, Hset.bucket,
          hr'.size]
      · intro hap'
        have hfree := (hap.update_iff hk).1 hap'
        have hadd := hr'.add hop (by rwa [hke])
        rwa [hke] at hadd
      · intro hna
        rw [hap.update_iff hk] at hna
        push Not at hna
        obtain ⟨k', hkk, hk'⟩ := hna
        exact hr'.not_represents_add hf hke hkk (fun h => hk' (h ▸ hk)) hk'

/-- A call that puts no second present hash into a bucket does what it does on the map. -/
theorem Hset.Rep.exec_apart (hf : 2 ≤ fuel) (hn : n ≠ 0) (hr : h.Rep n m) (op : HsetOp)
    (hop : m.Legal op) (hap : (m.apply op).2.Apart n) :
    ∃ h', op.exec fuel h = some ((m.apply op).1, h') ∧ h'.Rep n (m.apply op).2 := by
  obtain ⟨h', hexec, hkeep, -⟩ := hr.exec hf hn hop
  exact ⟨h', hexec, hkeep hap⟩

/-- A removal is one. -/
theorem HsetMap.Apart.del (hap : m.Apart n) (k : UInt32) : (m.apply (.del k)).2.Apart n := by
  rw [HsetMap.apply]
  cases m k with
  | none => exact hap
  | some e =>
    have hold : ∀ {k'}, Function.update m k none k' ≠ none → m k' ≠ none := by
      intro k' h
      by_cases hk : k' = k
      · exact absurd (hk ▸ Function.update_self ..) h
      · rwa [Function.update_of_ne hk] at h
    exact fun k₁ k₂ h₁ h₂ => hap k₁ k₂ (hold h₁) (hold h₂)

/-- **From any represented map.**  The calls behave as the map if and only if no
two present hashes ever share a bucket. -/
theorem Hset.Rep.behaves_iff (hf : 2 ≤ fuel) (hn : n ≠ 0) (hr : h.Rep n m) {ops : List HsetOp}
    (hl : m.LegalSeq ops) : BehavesAsMap fuel h m ops ↔ BucketsApart n m ops := by
  induction ops generalizing h m with
  | nil => exact ⟨fun _ => hr.apart hn, fun _ => hr.represents hf hn⟩
  | cons op ops ih =>
    obtain ⟨hop, hl⟩ := hl
    obtain ⟨h', hexec, hkeep, hlose⟩ := hr.exec hf hn hop
    have hnext : BehavesAsMap fuel h' (m.apply op).2 ops ↔ BucketsApart n (m.apply op).2 ops := by
      by_cases hap : (m.apply op).2.Apart n
      · exact ih (hkeep hap) hl
      · constructor
        · intro hb
          have hrep : Represents fuel h' (m.apply op).2 := by
            cases ops with
            | nil => exact hb
            | cons _ _ => exact hb.1
          exact absurd hrep (hlose hap)
        · intro hb
          have : (m.apply op).2.Apart n := by
            cases ops with
            | nil => exact hb
            | cons _ _ => exact hb.1
          exact absurd this hap
    constructor
    · rintro ⟨_, h'', hexec', hb⟩
      rw [hexec] at hexec'
      obtain rfl : h' = h'' := by simpa using hexec'
      exact ⟨hr.apart hn, hnext.1 hb⟩
    · rintro ⟨_, hb⟩
      exact ⟨hr.represents hf hn, h', hexec, hnext.2 hb⟩

end Refinement

/-- **When `hset` is a finite map.**  For every set size and every sequence of
calls that adds entry objects only while they are not in the set, the code
behaves as the finite map if and only if, in the map, no two present hashes ever
share one of the `n` buckets. -/
theorem hset_behaves_iff {n : UInt32} (hn : n ≠ 0) (l : Links HsetAddr) (hash : ℕ → UInt32)
    {fuel : ℕ} (hf : 2 ≤ fuel) {ops : List HsetOp} (hl : HsetMap.empty.LegalSeq ops) :
    BehavesAsMap fuel (hsetCreate n l hash) .empty ops ↔ BucketsApart n .empty ops :=
  (hsetCreate_rep n l hash).behaves_iff hf hn hl

/-- Two entries in the two buckets of a set of size `2`: the hypotheses of
`hset_behaves_iff` hold. -/
theorem hset_behaves_iff_two :
    BehavesAsMap 2 (hsetCreate 2 ⟨id, id⟩ fun _ => 0) .empty [.add 0 0, .add 1 1] ↔
      BucketsApart 2 .empty [.add 0 0, .add 1 1] :=
  hset_behaves_iff (by decide) _ _ le_rfl ⟨fun k => by simp [HsetMap.empty], fun k => by
    by_cases h : k = 0 <;> simp [HsetMap.apply, HsetMap.empty, h], trivial⟩

/-- **Two entries in one bucket.**  In a set of size `1`, once entry `0` is added
under hash `0` and entry `1` under hash `1`, hash `0` is not found any more,
whatever the fuel. -/
theorem hset_loses_entry :
    ¬ ∀ (n : UInt32) (l : Links HsetAddr) (hash : ℕ → UInt32) (ops : List HsetOp), n ≠ 0 →
      HsetMap.empty.LegalSeq ops →
        ∃ fuel₀, ∀ fuel ≥ fuel₀, BehavesAsMap fuel (hsetCreate n l hash) .empty ops := by
  intro hall
  have hl : HsetMap.empty.LegalSeq [.add 0 0, .add 1 1] := by
    refine ⟨fun k => by simp [HsetMap.empty], fun k => ?_, trivial⟩
    by_cases h : k = 0 <;> simp [HsetMap.apply, HsetMap.empty, h]
  obtain ⟨fuel₀, hb⟩ := hall 1 ⟨id, id⟩ (fun _ => 0) _ (by decide) hl
  have hap := ((hsetCreate_rep 1 ⟨id, id⟩ fun _ => 0).behaves_iff (le_max_right fuel₀ 2)
    (by decide) hl).1 (hb _ (le_max_left _ _))
  obtain ⟨_, _, hap⟩ := hap
  have h01 : (0 : UInt32) = 1 := hap 0 1 (by decide) (by decide) (by decide)
  exact absurd h01 (by decide)

end EdpIo
