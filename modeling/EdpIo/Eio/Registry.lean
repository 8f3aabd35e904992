/-
# Whether the four records of a watched fd agree

`Agree` says that the fds in `iod_fds`, the live event objects, the fds the kernel
watches and the counters `iwk_fds` are records of one finite set of fds, and `Atomic`
that a call that returns an error leaves the first, the second and the last as they were.

`eio_addfd` takes the fd out of `iod_fds` again when `epoll_ctl` fails; `eio_delfd` has
taken it out by then and does not put it back.  `registry_agrees_iff` is the exact
condition for the four to agree and the calls to be atomic (`Completes`): `epoll_ctl`
succeeds for each fd that is removed, and the worker of each fd that is added is one of
`iod_workers`, which `iod_round` decides.
-/

import EdpIo.Eio.Model
import Mathlib.Algebra.BigOperators.Ring.Finset
import Mathlib.Data.Int.ConditionallyCompleteOrder
import Mathlib.Order.ConditionallyCompleteLattice.Finset

namespace EdpIo.Eio

/-- The event object at `a` is live, and for `fd`. -/
def IsEventOf (s : Eio) (a : ℕ) (fd : Int32) : Prop :=
  s.iodEvcache.isLive a = true ∧ ∃ ev, s.iodEvcache.mem.get? a = some ev ∧ ev.ioeFd = fd

/-- `epoll_ctl` has added `fd` for a worker and not removed it. -/
def Watched (s : Eio) (fd : Int32) : Prop := ∃ i, s.epoll i fd ≠ none

/-- The four records of the set `F` of fds. -/
structure AgreeOn (s : Eio) (F : Finset Int32) : Prop where
  fds : ∀ fd, s.iodFds fd.toUInt32 ≠ none ↔ fd ∈ F
  event : ∀ a, s.iodEvcache.isLive a = true → ∃ fd ∈ F, s.IsEventOf a fd
  unique : ∀ fd ∈ F, ∃! a, s.IsEventOf a fd
  objects : s.iodEvcache.mcAllocs - s.iodEvcache.mcFrees = F.card
  watched : ∀ fd, s.Watched fd ↔ fd ∈ F
  count : ∑ i ∈ Finset.Ico 0 s.iodNum.toInt, s.iwkFds i = F.card

/-- The four records agree. -/
def Agree (s : Eio) : Prop := ∃ F, s.AgreeOn F

/-- The fds, the live events and the counters are those of `s`. -/
def SameRecords (s t : Eio) : Prop :=
  t.iodFds = s.iodFds ∧
    (∀ a, t.iodEvcache.isLive a = s.iodEvcache.isLive a ∧
      (s.iodEvcache.isLive a = true → t.iodEvcache.mem.get? a = s.iodEvcache.mem.get? a)) ∧
    t.iwkFds = s.iwkFds

/-- If the call returns an error, the records are as before it. -/
def Atomic (s : Eio) (op : Op) : Prop :=
  ∀ t ret, s.exec op = some (t, ret) → ret ≠ 0 → s.SameRecords t

/-- The records agree before, between and after the calls, and each call is atomic. -/
def KeepsAgreeing : Eio → List Op → Prop
  | s, [] => s.Agree
  | s, op :: ops =>
    s.Agree ∧ s.Atomic op ∧
      match s.step op with
      | none => True
      | some t => KeepsAgreeing t ops

/-- A worker that is added to is one of `iod_workers`, and what is removed `epoll_ctl`
removes. -/
def Completes (s : Eio) : Op → Prop
  | .addfd fd _ _ ptr ctl =>
    (∃ ioe, ptr = some ioe ∧ s.iodEvcache.isLive ioe = false) → s.iodFds fd.toUInt32 = none →
      ctl = 0 → s.workerLightload.1 ∈ Finset.Ico 0 s.iodNum.toInt
  | .delfd fd ctl => s.iodFds fd.toUInt32 ≠ none → ctl = 0

/-- What the calls keep: who has which fd. -/
structure Registry (s : Eio) (F : Finset Int32) : Prop where
  fds : ∀ fd, s.iodFds fd.toUInt32 ≠ none ↔ fd ∈ F
  entry : ∀ fd a, s.iodFds fd.toUInt32 = some a → s.IsEventOf a fd ∧ s.Watched fd
  live : ∀ a, s.iodEvcache.isLive a = true → ∃ fd : Int32, s.iodFds fd.toUInt32 = some a
  /-- The kernel has the pointer, for the event's own worker. -/
  epoll : ∀ i fd a, s.epoll i fd = some a → s.iodFds fd.toUInt32 = some a ∧
    ∀ ev, s.iodEvcache.mem.get? a = some ev → ev.ioeWorker = i
  worker : ∀ a ev, s.iodEvcache.isLive a = true → s.iodEvcache.mem.get? a = some ev →
    ev.ioeWorker ∈ Finset.Ico 0 s.iodNum.toInt
  objects : s.iodEvcache.mcAllocs - s.iodEvcache.mcFrees = F.card
  count : ∑ i ∈ Finset.Ico 0 s.iodNum.toInt, s.iwkFds i = F.card

theorem toUInt32_inj {fd fd' : Int32} (h : fd.toUInt32 = fd'.toUInt32) : fd = fd' :=
  congrArg UInt32.toInt32 h

theorem registry_init (num : Int32) : Registry (init num) ∅ where
  fds fd := by simp [init, HsetMap.empty]
  entry fd a h := by cases h
  live a h := by cases h
  epoll i fd a h := by cases h
  worker a ev h := by cases h
  objects := rfl
  count := Finset.sum_const_zero

section

variable {s t : Eio} {F : Finset Int32}

/-- A sum in which one term has changed. -/
theorem sum_update_add {I : Finset ℤ} {w : ℤ} (hw : w ∈ I) (f : ℤ → ℤ) (d : ℤ) :
    ∑ i ∈ I, Function.update f w (f w + d) i = ∑ i ∈ I, f i + d := by
  rw [Finset.sum_update_of_mem hw, Finset.sum_eq_add_sum_sdiff_singleton_of_mem hw f]
  omega

/-- One event object is for one fd. -/
theorem IsEventOf.unique {a : ℕ} {fd fd' : Int32} (h : s.IsEventOf a fd)
    (h' : s.IsEventOf a fd') : fd = fd' := by
  obtain ⟨-, ev, hev, rfl⟩ := h
  obtain ⟨-, ev', hev', rfl⟩ := h'
  rw [Option.some.inj (hev.symm.trans hev')]

/-- Who has which fd says that the records agree. -/
theorem Registry.agreeOn (h : s.Registry F) : s.AgreeOn F where
  fds := h.fds
  event a ha := by
    obtain ⟨fd, hfd⟩ := h.live a ha
    exact ⟨fd, (h.fds fd).1 (by simp [hfd]), (h.entry fd a hfd).1⟩
  unique fd hfd := by
    obtain ⟨a, ha⟩ := Option.ne_none_iff_exists'.1 ((h.fds fd).2 hfd)
    refine ⟨a, (h.entry fd a ha).1, fun b hb => ?_⟩
    obtain ⟨fd', hb'⟩ := h.live b hb.1
    obtain rfl : fd' = fd := (h.entry fd' b hb').1.unique hb
    exact Option.some.inj (hb'.symm.trans ha)
  objects := h.objects
  watched fd := by
    constructor
    · rintro ⟨i, hi⟩
      obtain ⟨a, ha⟩ := Option.ne_none_iff_exists'.1 hi
      exact (h.fds fd).1 (by simp [(h.epoll i fd a ha).1])
    · intro hfd
      obtain ⟨a, ha⟩ := Option.ne_none_iff_exists'.1 ((h.fds fd).2 hfd)
      exact (h.entry fd a ha).2
  count := h.count

/-- `iod_round` is not among the records. -/
theorem Registry.lightload (h : s.Registry F) : s.workerLightload.2.Registry F :=
  ⟨h.fds, h.entry, h.live, h.epoll, h.worker, h.objects, h.count⟩

/-- An event object that is allocated and freed at once leaves the records as they were. -/
theorem sameRecords_undo {ioe : ℕ} (hfree : s.iodEvcache.isLive ioe = false) (ev : IoEvent) :
    s.SameRecords { s with iodEvcache := (s.iodEvcache.mcacheAlloc ioe ev).mcacheFree ioe } := by
  refine ⟨rfl, fun a => ⟨s.iodEvcache.isLive_free_alloc hfree a, fun ha => ?_⟩, rfl⟩
  have hne : a ≠ ioe := fun e => by rw [e, hfree] at ha; cases ha
  dsimp only
  rw [MemCache.get?_mcacheFree, MemCache.get?_mcacheAlloc_of_ne _ hne]

theorem Registry.undo {ioe : ℕ} (h : s.Registry F) (hfree : s.iodEvcache.isLive ioe = false)
    (ev : IoEvent) :
    Registry { s with iodEvcache := (s.iodEvcache.mcacheAlloc ioe ev).mcacheFree ioe } F := by
  obtain ⟨-, hsame, -⟩ := sameRecords_undo hfree ev
  refine ⟨h.fds, fun fd a ha => ?_, fun a ha => h.live a ((hsame a).1 ▸ ha), fun i fd a ha => ?_,
    fun a ev' ha hev => ?_, ?_, h.count⟩
  · obtain ⟨⟨hl, ev', hev', hfd⟩, hw⟩ := h.entry fd a ha
    exact ⟨⟨(hsame a).1.trans hl, ev', ((hsame a).2 hl).trans hev', hfd⟩, hw⟩
  · obtain ⟨hin, hev⟩ := h.epoll i fd a ha
    exact ⟨hin, fun ev' hev' => hev ev' ((hsame a).2 (h.entry fd a hin).1.1 ▸ hev')⟩
  · have ha : s.iodEvcache.isLive a = true := (hsame a).1 ▸ ha
    exact h.worker a ev' ha ((hsame a).2 ha ▸ hev)
  · have hobj := h.objects
    simp only [MemCache.mcacheAlloc, MemCache.mcacheFree]
    omega

/-- A new fd, with its event object, its registration and its count. -/
theorem Registry.insert {ioe : ℕ} {fd : Int32} {ev : IoEvent} {epoll : ℤ → Int32 → Option ℕ}
    (h : s.Registry F) (hfree : s.iodEvcache.isLive ioe = false)
    (hin : s.iodFds fd.toUInt32 = none) (hfd : ev.ioeFd = fd)
    (hw : ev.ioeWorker ∈ Finset.Ico 0 s.iodNum.toInt)
    (hpoll : ∀ i fd', epoll i fd' =
      if i = ev.ioeWorker ∧ fd' = fd then some ioe else s.epoll i fd') :
    Registry { s with
      iodEvcache := s.iodEvcache.mcacheAlloc ioe ev
      iodFds := Function.update s.iodFds fd.toUInt32 (some ioe)
      iwkFds := Function.update s.iwkFds ev.ioeWorker (s.iwkFds ev.ioeWorker + 1)
      epoll := epoll } (insert fd F) := by
  have hne : ∀ {fd'}, fd' ≠ fd → fd'.toUInt32 ≠ fd.toUInt32 := fun hne e => hne (toUInt32_inj e)
  have hold : ∀ {fd' a}, s.iodFds fd'.toUInt32 = some a → fd' ≠ fd ∧ a ≠ ioe := by
    refine fun {fd' a} ha => ⟨?_, ?_⟩ <;> rintro rfl
    · simp [hin] at ha
    · simp [(h.entry _ _ ha).1.1] at hfree
  have hfdF : fd ∉ F := fun hF => (h.fds fd).2 hF hin
  have hself : (s.iodEvcache.mcacheAlloc ioe ev).mem.get? ioe = some ev :=
    MemCache.get?_mcacheAlloc_self _ _
  have hget : ∀ {a}, a ≠ ioe → (s.iodEvcache.mcacheAlloc ioe ev).mem.get? a =
      s.iodEvcache.mem.get? a := MemCache.get?_mcacheAlloc_of_ne _
  have hlive : ∀ {a}, a ≠ ioe → (s.iodEvcache.mcacheAlloc ioe ev).isLive a =
      s.iodEvcache.isLive a := MemCache.isLive_mcacheAlloc_of_ne _
  refine ⟨fun fd' => ?_, fun fd' a ha => ?_, fun a ha => ?_, fun i fd' a ha => ?_,
    fun a ev' ha hev => ?_, ?_, ?_⟩
  · rw [Finset.mem_insert]
    by_cases hfd' : fd' = fd
    · simp [hfd']
    · dsimp only
      rw [Function.update_of_ne (hne hfd'), h.fds]
      simp [hfd']
  · by_cases hfd' : fd' = fd
    · subst hfd'
      obtain rfl : ioe = a := by simpa using ha
      exact ⟨⟨MemCache.isLive_mcacheAlloc_self _ _, ev, hself, hfd⟩, ev.ioeWorker, by simp [hpoll]⟩
    · dsimp only at ha
      rw [Function.update_of_ne (hne hfd')] at ha
      obtain ⟨⟨hl, ev', hev', hfd''⟩, i, hi⟩ := h.entry fd' a ha
      have hane := (hold ha).2
      exact ⟨⟨(hlive hane).trans hl, ev', (hget hane).trans hev', hfd''⟩, i, by
        simpa [hpoll, hfd'] using hi⟩
  · by_cases hane : a = ioe
    · subst hane
      exact ⟨fd, Function.update_self ..⟩
    · obtain ⟨fd', hfd'⟩ := h.live a ((hlive hane).symm.trans ha)
      exact ⟨fd', (Function.update_of_ne (hne (hold hfd').1) ..).trans hfd'⟩
  · dsimp only at ha
    rw [hpoll] at ha
    split at ha
    · rename_i hi
      obtain ⟨rfl, rfl⟩ := hi
      obtain rfl := Option.some.inj ha
      refine ⟨Function.update_self .., fun ev' hev' => ?_⟩
      rw [Option.some.inj (hself.symm.trans hev')]
    · obtain ⟨hin', hev'⟩ := h.epoll i fd' a ha
      obtain ⟨hfd', hane⟩ := hold hin'
      exact ⟨(Function.update_of_ne (hne hfd') ..).trans hin',
        fun ev' hev => hev' ev' ((hget hane).symm.trans hev)⟩
  · by_cases hane : a = ioe
    · subst hane
      rw [← Option.some.inj (hself.symm.trans hev)]
      exact hw
    · exact h.worker a ev' ((hlive hane).symm.trans ha) ((hget hane).symm.trans hev)
  · have hobj := h.objects
    rw [Finset.card_insert_of_notMem hfdF]
    simp only [MemCache.mcacheAlloc]
    omega
  · rw [Finset.card_insert_of_notMem hfdF, Nat.cast_add, Nat.cast_one, ← h.count]
    exact sum_update_add hw _ 1

/-- An fd removed, with its event object, its registration and its count. -/
theorem Registry.erase {ioe : ℕ} {fd : Int32} {ev : IoEvent} {epoll : ℤ → Int32 → Option ℕ}
    (h : s.Registry F) (hin : s.iodFds fd.toUInt32 = some ioe)
    (hev : s.iodEvcache.mem.get? ioe = some ev)
    (hpoll : ∀ i fd', epoll i fd' = if i = ev.ioeWorker ∧ fd' = fd then none else s.epoll i fd') :
    Registry { s with
      iodEvcache := s.iodEvcache.mcacheFree ioe
      iodFds := Function.update s.iodFds fd.toUInt32 none
      iwkFds := Function.update s.iwkFds ev.ioeWorker (s.iwkFds ev.ioeWorker - 1)
      epoll := epoll } (F.erase fd) := by
  have hne : ∀ {fd'}, fd' ≠ fd → fd'.toUInt32 ≠ fd.toUInt32 := fun hne e => hne (toUInt32_inj e)
  have hlive : ∀ {a}, a ≠ ioe → (s.iodEvcache.mcacheFree ioe).isLive a = s.iodEvcache.isLive a :=
    MemCache.isLive_mcacheFree_of_ne _
  have hget : ∀ {a}, (s.iodEvcache.mcacheFree ioe).mem.get? a = s.iodEvcache.mem.get? a :=
    MemCache.get?_mcacheFree _
  have hfdF : fd ∈ F := (h.fds fd).1 (by simp [hin])
  -- the entries of other fds have other event objects
  have hother : ∀ {fd' a}, fd' ≠ fd → s.iodFds fd'.toUInt32 = some a → a ≠ ioe := by
    rintro fd' a hfd' ha rfl
    exact hfd' ((h.entry _ _ ha).1.unique (h.entry _ _ hin).1)
  refine ⟨fun fd' => ?_, fun fd' a ha => ?_, fun a ha => ?_, fun i fd' a ha => ?_,
    fun a ev' ha hev' => ?_, ?_, ?_⟩
  · rw [Finset.mem_erase]
    by_cases hfd' : fd' = fd
    · simp [hfd']
    · dsimp only
      rw [Function.update_of_ne (hne hfd'), h.fds]
      simp [hfd']
  · by_cases hfd' : fd' = fd
    · simp [hfd'] at ha
    · dsimp only at ha
      rw [Function.update_of_ne (hne hfd')] at ha
      obtain ⟨⟨hl, ev', hev', hfd''⟩, i, hi⟩ := h.entry fd' a ha
      exact ⟨⟨(hlive (hother hfd' ha)).trans hl, ev', hget.trans hev', hfd''⟩, i, by
        simpa [hpoll, hfd'] using hi⟩
  · have hane : a ≠ ioe := by
      rintro rfl
      simp at ha
    obtain ⟨fd', hfd'⟩ := h.live a ((hlive hane).symm.trans ha)
    refine ⟨fd', (Function.update_of_ne (hne ?_) ..).trans hfd'⟩
    rintro rfl
    exact hane (Option.some.inj (hfd'.symm.trans hin))
  · dsimp only at ha
    rw [hpoll] at ha
    split at ha
    · cases ha
    · rename_i hi
      obtain ⟨hin', hev'⟩ := h.epoll i fd' a ha
      have hfd' : fd' ≠ fd := by
        rintro rfl
        obtain rfl := Option.some.inj (hin'.symm.trans hin)
        exact hi ⟨(hev' ev hev).symm, rfl⟩
      exact ⟨(Function.update_of_ne (hne hfd') ..).trans hin',
        fun ev' h => hev' ev' (hget.symm.trans h)⟩
  · have hane : a ≠ ioe := by
      rintro rfl
      simp at ha
    exact h.worker a ev' ((hlive hane).symm.trans ha) (hget.symm.trans hev')
  · have hobj := h.objects
    have hcard := Finset.card_erase_add_one hfdF
    simp only [MemCache.mcacheFree]
    omega
  · have hcard := Finset.card_erase_add_one hfdF
    have hsum := sum_update_add (h.worker ioe ev (h.entry fd ioe hin).1.1 hev) s.iwkFds (-1)
    rw [h.count] at hsum
    show ∑ i ∈ Finset.Ico 0 s.iodNum.toInt, Function.update s.iwkFds ev.ioeWorker
      (s.iwkFds ev.ioeWorker + -1) i = _
    omega

/-- A call that completes keeps the records in agreement and is atomic. -/
theorem Registry.exec {op : Op} (h : s.Registry F) (hop : s.Completes op) {ret : ℤ}
    (hs : s.Exec op t ret) : (∃ F', t.Registry F') ∧ (ret ≠ 0 → s.SameRecords t) := by
  have hsame : s.SameRecords s := ⟨rfl, fun a => ⟨rfl, fun _ => rfl⟩, rfl⟩
  cases hs with
  | noMem fd cb data ctl => exact ⟨⟨F, h.lightload⟩, fun _ => hsame⟩
  | «exists» fd cb data ioe ctl hfree a hin =>
    exact ⟨⟨F, h.lightload.undo hfree _⟩, fun _ => sameRecords_undo hfree _⟩
  | addFailed fd cb data ioe ctl hfree hin hctl =>
    exact ⟨⟨F, h.lightload.undo hfree _⟩, fun _ => sameRecords_undo hfree _⟩
  | added fd cb data ioe hfree hin =>
    have hw := hop ⟨ioe, rfl, hfree⟩ hin rfl
    exact ⟨⟨_, h.lightload.insert hfree hin rfl hw fun _ _ => epollAdd_epoll ..⟩,
      fun h => absurd rfl h⟩
  | absent fd ctl hout => exact ⟨⟨F, h⟩, fun _ => hsame⟩
  | delFailed fd ctl ioe hin hctl => exact absurd (hop (by simp [hin])) hctl
  | deleted fd ioe hin ev hev =>
    exact ⟨⟨_, h.erase hin hev fun _ _ => epollDel_epoll ..⟩, fun h => absurd rfl h⟩

/-- A call that does not complete is not atomic, or the records disagree after it. -/
theorem Registry.completes {op : Op} (h : s.Registry F) (hat : s.Atomic op)
    (hag : ∀ t, s.step op = some t → t.Agree) : s.Completes op := by
  cases op with
  | addfd fd cb data ptr ctl =>
    rintro ⟨ioe, rfl, hfree⟩ hin rfl
    by_contra hw
    have hex := eioAddfd_added s fd cb data ioe hin
    obtain ⟨F', hag⟩ := hag _ (by rw [Eio.step, Eio.exec, hex, if_neg (by simp [hfree])]; rfl)
    -- the set has grown and the counters of the workers have not
    have hF : F' = Insert.insert fd F := by
      ext fd'
      rw [← hag.fds, Finset.mem_insert]
      show Function.update s.iodFds fd.toUInt32 (some ioe) fd'.toUInt32 ≠ none ↔ _
      by_cases hfd' : fd' = fd
      · simp [hfd']
      · rw [Function.update_of_ne fun e => hfd' (toUInt32_inj e), h.fds]
        simp [hfd']
    have hcount : ∑ i ∈ Finset.Ico 0 s.iodNum.toInt, Function.update s.iwkFds
        s.workerLightload.1 (s.iwkFds s.workerLightload.1 + 1) i = F'.card := hag.count
    rw [Finset.sum_update_of_notMem hw, h.count, hF,
      Finset.card_insert_of_notMem fun hfd => (h.fds fd).2 hfd hin] at hcount
    omega
  | delfd fd ctl =>
    intro hin
    obtain ⟨ioe, hin⟩ := Option.ne_none_iff_exists'.1 hin
    obtain ⟨⟨-, ev, hev, -⟩, -⟩ := h.entry fd ioe hin
    by_contra hctl
    have hex : s.exec (.delfd fd ctl) =
        some ({ s with iodFds := Function.update s.iodFds fd.toUInt32 none }, -2) := by
      rw [Eio.exec, eioDelfd_present s fd ctl hin, hev]
      simp [epollDel, hctl]
    obtain ⟨hfds, -⟩ := hat _ _ hex (show (-2 : ℤ) ≠ 0 by decide)
    have hnone := congrFun hfds fd.toUInt32
    dsimp only at hnone
    rw [Function.update_self, hin] at hnone
    cases hnone

theorem KeepsAgreeing.agree {ops : List Op} (h : s.KeepsAgreeing ops) : s.Agree := by
  cases ops with
  | nil => exact h
  | cons op ops => exact h.1

/-- From any state whose records agree. -/
theorem Registry.keepsAgreeing_iff (h : s.Registry F) (ops : List Op) :
    s.KeepsAgreeing ops ↔ StepSystem.Meets step Completes s ops := by
  induction ops generalizing s F with
  | nil => exact iff_of_true ⟨F, h.agreeOn⟩ trivial
  | cons op ops ih =>
    rw [KeepsAgreeing, StepSystem.Meets]
    constructor
    · rintro ⟨-, hat, hrest⟩
      have hop : s.Completes op := h.completes hat fun t ht => by
        rw [ht] at hrest
        exact hrest.agree
      refine ⟨hop, ?_⟩
      cases ht : s.step op with
      | none => trivial
      | some t =>
        rw [ht] at hrest
        obtain ⟨⟨_, ret⟩, hex, rfl⟩ := Option.map_eq_some_iff.1 ht
        obtain ⟨F', hF'⟩ := (h.exec hop (exec_cases hex)).1
        exact (ih hF').1 hrest
    · rintro ⟨hop, hrest⟩
      refine ⟨⟨F, h.agreeOn⟩, fun t ret hex => (h.exec hop (exec_cases hex)).2, ?_⟩
      cases ht : s.step op with
      | none => trivial
      | some t =>
        rw [ht] at hrest
        obtain ⟨⟨_, ret⟩, hex, rfl⟩ := Option.map_eq_some_iff.1 ht
        obtain ⟨F', hF'⟩ := (h.exec hop (exec_cases hex)).1
        exact (ih hF').2 hrest

end

/-- **The four records agree, and the calls are atomic, exactly if the calls complete**: for
every number of workers and every sequence of `eio_addfd` and `eio_delfd`, whatever memory
and `epoll_ctl` do. -/
theorem registry_agrees_iff (num : Int32) (ops : List Op) :
    (init num).KeepsAgreeing ops ↔ StepSystem.Meets step Completes (init num) ops :=
  (registry_init num).keepsAgreeing_iff ops

/-- **An fd half removed.**  `epoll_ctl` fails for the one fd there is: `eio_delfd` returns
an error, and the fd is not in `iod_fds` any more. -/
theorem delfd_not_atomic :
    ¬ ∀ num ops, 0 < num → (init num).KeepsAgreeing ops := by
  intro h
  obtain ⟨-, -, -, hat, -⟩ := h 1 [.addfd 3 0 0 (some 0) 0, .delfd 3 (-1)] (by decide)
  obtain ⟨hfds, -⟩ := hat _ (-2) rfl (by decide)
  cases congrFun hfds 3

end EdpIo.Eio
