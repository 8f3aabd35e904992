/-
# The registry over the hash set in memory

`EdpIo.Eio.Model` has a finite map where `eio_data_t` has the hash set `iod_fds`.  Here the set
is that of `src/hset.c` with the links of its `EPOLL_MAX_EVENTS` buckets, and `eio_addfd` and
`eio_delfd` call `hset_add`, `hset_del` and `hset_get` on it.

`hset_add` drops whatever its bucket held (`EdpIo.Hset.Map`), so the two are the same only as long
as no fd is added to a bucket that holds another (`Clear`).  Then the set stands for the map of
what `hset_get` finds (`Sound`), every call returns, and it does and returns what the call on the
map does (`Sound.exec_abs`): what is proved over the map holds of the links.
-/

import EdpIo.Eio.Registry

namespace EdpIo

/-- `EPOLL_MAX_EVENTS` as the size of `iod_fds`. -/
def iodFdsSize : UInt32 := .ofNat epollMaxEvents

/-- `eio_data_t` with the hash set in memory, its entries named by the events they are part of;
the map of `eio` is not used. -/
structure LinkedEio where
  eio : Eio
  iodFds : Hset

namespace LinkedEio

/-- `eio_init(thread_num)`, whose `hset_create` gets the links `l` and the hashes `hash`. -/
def init (threadNum : Int32) (l : Links HsetAddr) (hash : ℕ → UInt32) : LinkedEio :=
  ⟨Eio.init threadNum, hsetCreate iodFdsSize l hash⟩

/-- `eio_addfd(fd, cb, data)` with what it returns; `fuel` bounds the searches in the set. -/
def eioAddfd (fuel : ℕ) (s : LinkedEio) (fd : Int32) (cb data : ℕ) (ptr : Option ℕ) (ctl : ℤ) :
    Option (LinkedEio × ℤ) :=
  let (iwk, e) := s.eio.workerLightload
  match ptr with
  | none => some (⟨e, s.iodFds⟩, -12)
  | some ioe =>
    let ev : IoEvent := ⟨fd.toUInt32, fd, iwk, cb, data⟩
    let e := { e with iodEvcache := e.iodEvcache.mcacheAlloc ioe ev }
    (HsetOp.exec fuel s.iodFds (.add ioe ev.hseHash)).bind fun ((ret, _), fds) =>
      if ret ≠ 0 then some (⟨e.freeIoe ioe, fds⟩, -17)
      else
        let e := e.epollAdd iwk fd ioe ctl
        if ctl ≠ 0 then
          (HsetOp.exec fuel fds (.del fd.toUInt32)).map fun (_, fds) => (⟨e.freeIoe ioe, fds⟩, ctl)
        else some (⟨e.incFds iwk, fds⟩, 0)

/-- `eio_delfd(fd)` with what it returns. -/
def eioDelfd (fuel : ℕ) (s : LinkedEio) (fd : Int32) (ctl : ℤ) : Option (LinkedEio × ℤ) :=
  (s.iodFds.hsetGet fuel fd.toUInt32).bind fun (_, hen) =>
    match hen with
    | none => some (s, -2)
    | some ioe =>
      (HsetOp.exec fuel s.iodFds (.del fd.toUInt32)).bind fun (_, fds) =>
        (s.eio.iodEvcache.mem.get? ioe).map fun ev =>
          let e := s.eio.epollDel ev.ioeWorker fd ctl
          if ctl ≠ 0 then (⟨e, fds⟩, -2)
          else (⟨(e.decFds ev.ioeWorker).freeIoe ioe, fds⟩, 0)

/-- One call with what it returns; the heap gives no block that is in use. -/
def exec (fuel : ℕ) (s : LinkedEio) : Eio.Op → Option (LinkedEio × ℤ)
  | .addfd fd cb data ptr ctl =>
    if ptr.any s.eio.iodEvcache.isLive then none else s.eioAddfd fuel fd cb data ptr ctl
  | .delfd fd ctl => s.eioDelfd fuel fd ctl

/-- One call. -/
def step (fuel : ℕ) (s : LinkedEio) (op : Eio.Op) : Option LinkedEio :=
  (s.exec fuel op).map Prod.fst

/-- The event under each hash, as `hset_get` finds it. -/
def fds (s : LinkedEio) : HsetMap := fun k => (s.iodFds.search 2 k).join

/-- The data with that map. -/
def abs (s : LinkedEio) : Eio := { s.eio with iodFds := s.fds }

/-- The set is that map, in memory. -/
def Sound (s : LinkedEio) : Prop := s.iodFds.Rep iodFdsSize s.fds

/-- The first entry of the bucket of `fd`, if there is one, is that of `fd` itself. -/
def Clear (s : LinkedEio) (fd : Int32) : Prop :=
  match s.iodFds.links.next (s.iodFds.bucket fd.toUInt32) with
  | .node e => s.iodFds.hseHash e = fd.toUInt32
  | .ent _ | .poison1 | .poison2 => True

instance (s : LinkedEio) (fd : Int32) : Decidable (s.Clear fd) :=
  match h : s.iodFds.links.next (s.iodFds.bucket fd.toUInt32) with
  | .node e => decidable_of_iff (s.iodFds.hseHash e = fd.toUInt32) (by rw [Clear, h])
  | .ent _ | .poison1 | .poison2 => .isTrue (by rw [Clear, h]; trivial)

variable {fuel : ℕ} {s : LinkedEio} {fd : Int32}

/-- What a set in memory stands for is what its searches find. -/
theorem fds_eq {m : HsetMap} (h : s.iodFds.Rep iodFdsSize m) : s.fds = m := by
  funext k
  rw [fds, h.search (Nat.le_refl 2) (by decide)]
  rfl

/-- Data `e` beside a set that stands for `m`. -/
theorem mk_of_rep (e : Eio) {h : Hset} {m : HsetMap} (hr : h.Rep iodFdsSize m) :
    Sound ⟨e, h⟩ ∧ abs ⟨e, h⟩ = { e with iodFds := m } := by
  have hm : fds ⟨e, h⟩ = m := fds_eq hr
  refine ⟨?_, by rw [abs, hm]⟩
  rw [Sound, hm]
  exact hr

theorem sound_init (threadNum : Int32) (l : Links HsetAddr) (hash : ℕ → UInt32) :
    (init threadNum l hash).Sound ∧ (init threadNum l hash).abs = Eio.init threadNum :=
  mk_of_rep _ (hsetCreate_rep iodFdsSize l hash)

/-- `hset_get` finds what the map has. -/
theorem Sound.hsetGet (hs : s.Sound) (hf : 2 ≤ fuel) (k : UInt32) :
    s.iodFds.hsetGet fuel k = some (s.fds.lookup k) :=
  Hset.Rep.represents hf (by decide) hs k

theorem Sound.apart (hs : s.Sound) : s.fds.Apart iodFdsSize := Hset.Rep.apart (by decide) hs

/-- Adding an fd to a bucket without others puts no second hash into it. -/
theorem Sound.apart_add (hs : s.Sound) (hc : s.Clear fd) (ioe : ℕ) :
    (s.fds.apply (.add ioe fd.toUInt32)).2.Apart iodFdsSize := by
  rw [HsetMap.apply]
  cases hk : s.fds fd.toUInt32 with
  | some e => exact hs.apart
  | none =>
    refine (hs.apart.update_iff hk).2 fun k' hkk => ?_
    have hlt : fd.toUInt32 % iodFdsSize < iodFdsSize := UInt32.mod_lt _ (by decide)
    rcases hs.bucket _ hlt with ⟨-, hm⟩ | ⟨e, hring, -, he, -⟩
    · exact hm k' (hs.size ▸ hkk)
    · -- the bucket has an entry, which is that of `fd`, and that is not there
      have hfirst : s.iodFds.links.next (s.iodFds.bucket fd.toUInt32) = .node e := by
        rw [Hset.bucket, hs.size]
        exact (Links.isRing_singleton.1 hring).2.1.1
      rw [Clear, hfirst] at hc
      rw [hc, hk] at he
      cases he

/-! ### The calls over any map -/

section Map

variable (e : Eio) (m : HsetMap) (fd : Int32) (cb data ioe : ℕ) (ctl : ℤ)

/-- In `eio_addfd`, before `hset_add`. -/
def allocated : Eio :=
  { e.workerLightload.2 with
    iodEvcache := e.iodEvcache.mcacheAlloc ioe (e.newEvent fd cb data) }

/-- What `eio_addfd` does beside the map. -/
theorem eioAddfd_map {ret : ℤ} {x : Option ℕ} {m' : HsetMap}
    (hm : m.apply (.add ioe fd.toUInt32) = ((ret, x), m')) :
    Eio.eioAddfd { e with iodFds := m } fd cb data (some ioe) ctl =
      let a := allocated e fd cb data ioe
      let p := a.epollAdd e.workerLightload.1 fd ioe ctl
      if ret ≠ 0 then ({ a.freeIoe ioe with iodFds := m' }, -17)
      else if ctl ≠ 0 then
        ({ p.freeIoe ioe with iodFds := (m'.apply (.del fd.toUInt32)).2 }, ctl)
      else ({ p.incFds e.workerLightload.1 with iodFds := m' }, 0) := by
  simp only [Eio.eioAddfd, Eio.workerLightload, hm, Eio.epollAdd]
  split
  · rfl
  · by_cases hctl : ctl = 0
    · simp only [hctl, ne_eq, not_true_eq_false, if_false]
      rfl
    · simp only [hctl, ne_eq, not_false_eq_true, if_true]
      rfl

theorem epollDel_map (iwk : ℤ) :
    Eio.epollDel { e with iodFds := m } iwk fd ctl =
      { e.epollDel iwk fd ctl with iodFds := m } := by
  rw [Eio.epollDel, Eio.epollDel]
  split <;> rfl

/-- And `eio_delfd`. -/
theorem eioDelfd_map :
    Eio.eioDelfd { e with iodFds := m } fd ctl =
      match (m.lookup fd.toUInt32).2 with
      | none => some ({ e with iodFds := m }, -2)
      | some ioe =>
        (e.iodEvcache.mem.get? ioe).map fun ev =>
          let p := e.epollDel ev.ioeWorker fd ctl
          let m' := (m.apply (.del fd.toUInt32)).2
          if ctl ≠ 0 then ({ p with iodFds := m' }, -2)
          else ({ (p.decFds ev.ioeWorker).freeIoe ioe with iodFds := m' }, 0) := by
  cases hk : m fd.toUInt32 with
  | none => simp only [Eio.eioDelfd, HsetMap.lookup, hk]
  | some ioe =>
    rw [Eio.eioDelfd_present { e with iodFds := m } fd ctl hk]
    simp only [HsetMap.lookup, HsetMap.apply, hk]
    refine congrArg (Option.map · _) (funext fun ev => ?_)
    by_cases hctl : ctl = 0
    · rw [if_neg (not_not_intro hctl), if_neg (not_not_intro hctl), epollDel_map]
      rfl
    · rw [if_pos hctl, if_pos hctl, epollDel_map]

end Map

/-- **`eio_addfd` does what it does over the map.** -/
theorem Sound.eioAddfd (hs : s.Sound) (hf : 2 ≤ fuel) (cb data : ℕ) {ptr : Option ℕ} (ctl : ℤ)
    (hnew : ∀ ioe ∈ ptr, ∀ k, s.fds k ≠ some ioe) (hc : s.Clear fd) :
    ∃ t ret, s.eioAddfd fuel fd cb data ptr ctl = some (t, ret) ∧ t.Sound ∧
      s.abs.eioAddfd fd cb data ptr ctl = (t.abs, ret) := by
  cases ptr with
  | none => exact ⟨_, _, rfl, hs, rfl⟩
  | some ioe =>
    obtain ⟨h, hexec, hrep⟩ := Hset.Rep.exec_apart hf (by decide) hs
      (.add ioe fd.toUInt32) (hnew ioe rfl) (hs.apart_add hc ioe)
    obtain ⟨ret, x, m, hm⟩ : ∃ ret x m, s.fds.apply (.add ioe fd.toUInt32) = ((ret, x), m) :=
      ⟨_, _, _, rfl⟩
    rw [hm] at hexec hrep
    have hadd : s.eioAddfd fuel fd cb data (some ioe) ctl =
        (HsetOp.exec fuel s.iodFds (.add ioe fd.toUInt32)).bind fun ((ret, _), fds) =>
          let a := allocated s.eio fd cb data ioe
          let p := a.epollAdd s.eio.workerLightload.1 fd ioe ctl
          if ret ≠ 0 then some (⟨a.freeIoe ioe, fds⟩, -17)
          else if ctl ≠ 0 then
            (HsetOp.exec fuel fds (.del fd.toUInt32)).map fun (_, fds) =>
              (⟨p.freeIoe ioe, fds⟩, ctl)
          else some (⟨p.incFds s.eio.workerLightload.1, fds⟩, 0) := rfl
    have habs := eioAddfd_map s.eio s.fds fd cb data ioe ctl hm
    rw [hadd, hexec, abs, habs]
    dsimp only [Option.bind_some]
    by_cases hret : ret = 0
    · rw [if_neg (not_not_intro hret), if_neg (not_not_intro hret)]
      by_cases hctl : ctl = 0
      · rw [if_neg (not_not_intro hctl), if_neg (not_not_intro hctl)]
        obtain ⟨hsound, habs⟩ := mk_of_rep
          ((allocated s.eio fd cb data ioe).epollAdd s.eio.workerLightload.1 fd ioe ctl
            |>.incFds s.eio.workerLightload.1) hrep
        exact ⟨_, _, rfl, hsound, by rw [habs]⟩
      · rw [if_pos hctl, if_pos hctl]
        obtain ⟨h', hexec', hrep'⟩ := Hset.Rep.exec_apart hf (by decide) hrep
          (.del fd.toUInt32) trivial ((Hset.Rep.apart (by decide) hrep).del _)
        rw [hexec', Option.map_some]
        obtain ⟨hsound, habs⟩ := mk_of_rep _ hrep'
        exact ⟨_, _, rfl, hsound, by rw [habs]⟩
    · rw [if_pos hret, if_pos hret]
      obtain ⟨hsound, habs⟩ := mk_of_rep _ hrep
      exact ⟨_, _, rfl, hsound, by rw [habs]⟩

/-- **And so does `eio_delfd`**, if what it finds is an event. -/
theorem Sound.eioDelfd (hs : s.Sound) (hf : 2 ≤ fuel) (ctl : ℤ)
    (hev : ∀ ioe, s.fds fd.toUInt32 = some ioe → s.eio.iodEvcache.mem.get? ioe ≠ none) :
    ∃ t ret, s.eioDelfd fuel fd ctl = some (t, ret) ∧ t.Sound ∧
      s.abs.eioDelfd fd ctl = some (t.abs, ret) := by
  obtain ⟨h, hexec, hrep⟩ := Hset.Rep.exec_apart hf (by decide) hs
    (.del fd.toUInt32) trivial (hs.apart.del _)
  rw [LinkedEio.eioDelfd, hs.hsetGet hf, abs, eioDelfd_map, hexec]
  cases hk : s.fds fd.toUInt32 with
  | none =>
    rw [HsetMap.lookup, hk]
    exact ⟨_, _, rfl, hs, rfl⟩
  | some ioe =>
    obtain ⟨ev, hget⟩ := Option.ne_none_iff_exists'.1 (hev ioe hk)
    rw [HsetMap.lookup, hk]
    dsimp only [Option.bind_some]
    rw [hget, Option.map_some, Option.map_some]
    by_cases hctl : ctl = 0
    · rw [if_neg (not_not_intro hctl), if_neg (not_not_intro hctl)]
      obtain ⟨hsound, habs⟩ := mk_of_rep
        ((s.eio.epollDel ev.ioeWorker fd ctl).decFds ev.ioeWorker |>.freeIoe ioe) hrep
      exact ⟨_, _, rfl, hsound, by rw [habs]⟩
    · rw [if_pos hctl, if_pos hctl]
      obtain ⟨hsound, habs⟩ := mk_of_rep (s.eio.epollDel ev.ioeWorker fd ctl) hrep
      exact ⟨_, _, rfl, hsound, by rw [habs]⟩

/-- A call adds an fd only to a bucket without others. -/
def Clears (s : LinkedEio) : Eio.Op → Prop
  | .addfd fd _ _ _ _ => s.Clear fd
  | .delfd _ _ => True

/-- **Over the links a call is what it is over the map**, once the registry is whole. -/
theorem Sound.exec_abs (hs : s.Sound) (hf : 2 ≤ fuel) {F : Finset Int32}
    (hr : s.abs.Registry F) (op : Eio.Op) (hc : s.Clears op) :
    s.abs.exec op = (s.exec fuel op).map (fun r => (r.1.abs, r.2)) ∧
      ∀ t ret, s.exec fuel op = some (t, ret) → t.Sound := by
  -- what the set has are events that are live
  have hentry (k : UInt32) (ioe : ℕ) (h : s.fds k = some ioe) :
      s.eio.iodEvcache.isLive ioe = true ∧ s.eio.iodEvcache.mem.get? ioe ≠ none := by
    have hk : k = (Int32.ofUInt32 k).toUInt32 := rfl
    obtain ⟨⟨hlive, ev, hev, -⟩, -⟩ := hr.entry (Int32.ofUInt32 k) ioe (hk ▸ h)
    exact ⟨hlive, fun h => absurd (hev.symm.trans h) (by simp)⟩
  rcases op with ⟨fd, cb, data, ptr, ctl⟩ | ⟨fd, ctl⟩
  · rw [Eio.exec, LinkedEio.exec]
    by_cases hlive : ptr.any s.eio.iodEvcache.isLive = true
    · rw [if_pos hlive]
      refine ⟨if_pos hlive, fun t ret h => ?_⟩
      cases h
    · have hnew : ∀ ioe ∈ ptr, ∀ k, s.fds k ≠ some ioe := by
        rintro ioe rfl k h
        exact hlive (hentry k ioe h).1
      obtain ⟨u, ret, hadd, hsound, habs⟩ := hs.eioAddfd hf cb data ctl hnew hc
      rw [if_neg hlive, hadd]
      refine ⟨(if_neg hlive).trans (congrArg some habs), fun t r h => ?_⟩
      obtain ⟨rfl, -⟩ := Prod.mk.inj (Option.some.inj h)
      exact hsound
  · obtain ⟨u, ret, hdel, hsound, habs⟩ := hs.eioDelfd hf ctl fun ioe h =>
      (hentry fd.toUInt32 ioe h).2
    rw [Eio.exec, LinkedEio.exec, hdel]
    refine ⟨habs, fun t r h => ?_⟩
    obtain ⟨rfl, -⟩ := Prod.mk.inj (Option.some.inj h)
    exact hsound

end LinkedEio
end EdpIo
