import MagnumDB.Proof.PoolRefinement

/-!
# The free list of the file

The pager by itself, without the pool over it. The pages that were freed form a
stack: the list starts in page 0 and goes through the first bytes of the freed
pages. A run records beside the pager which pages are allocated, and which were
freed and not handed out again.

As for the pool, the pages have to stay countable: the file may not grow to `2 ^ 32`
pages.
-/

namespace MagnumDB

/-- A pager, the pages that are allocated, and those that were freed since. -/
structure PagerState where
  pager : Pager
  live : List PageId
  freed : List PageId

namespace PagerState

def allocated (s : PagerState) : PagerState :=
  ⟨s.pager.allocatePage.2, s.pager.allocatePage.1 :: s.live, s.freed.erase s.pager.allocatePage.1⟩

def released (s : PagerState) (p : PageId) : PagerState :=
  ⟨s.pager.freePage p, s.live.filter (· ≠ p), p :: s.freed⟩

/-- There is a page to hand out: a freed one, or a number for a new one. -/
def Room (s : PagerState) : Prop := s.freed ≠ [] ∨ s.pager.numPages < u32Max

end PagerState

/-- What can happen to a new file: pages are allocated where `C` allows it, allocated pages are
freed and written, and the file is opened again. -/
inductive PagerRun (C : PagerState → Prop) : PagerState → Prop
  | start {pg : Pager} : Pager.open DataFile.empty = .ok pg → PagerRun C ⟨pg, [], []⟩
  | allocate {s : PagerState} : PagerRun C s → C s → PagerRun C s.allocated
  | free {s : PagerState} {p : PageId} : PagerRun C s → p ∈ s.live → p ≠ 0 →
      PagerRun C (s.released p)
  | write {s : PagerState} {p : PageId} (page : Page) : PagerRun C s → p ∈ s.live → p ≠ 0 →
      PagerRun C { s with pager := s.pager.writePage p page }
  | reopen {s : PagerState} {pg : Pager} : PagerRun C s → Pager.open s.pager.file = .ok pg →
      PagerRun C { s with pager := pg }

/-- The file is in order, and its free list is the freed pages, the last one first. -/
structure PagerState.Ordered (s : PagerState) : Prop where
  pos : 0 < s.pager.numPages
  len : s.pager.file.len = s.pager.numPages.toNat
  magic : (s.pager.file.page 0).hasMagic = true
  used : ∀ p ∈ s.live, p ≠ 0 ∧ p < s.pager.numPages
  free : FreeOk false s.pager {p | p ∈ s.live} s.freed

namespace PagerState.Ordered

variable {s : PagerState}

theorem start : Ordered ⟨Pager.fresh, [], []⟩ := by
  refine ⟨by decide, rfl, Page.initialMeta_magic, fun p hp => absurd hp List.not_mem_nil, ?_⟩
  have hset : {p : PageId | p ∈ ([] : List PageId)} = ∅ := by simp
  rw [hset]
  exact Pager.fresh_freeOk false

/-- A page is handed out: the one that was freed last, or a new one if there is none. -/
theorem allocate (h : s.Ordered) (hroom : s.Room) :
    s.allocated.Ordered ∧ s.pager.allocatePage.1 ≠ 0 ∧ s.pager.allocatePage.1 ∉ s.live ∧
      (s.freed ≠ [] → s.allocated.pager.numPages = s.pager.numPages) := by
  obtain ⟨pg, live, freed⟩ := s
  have hset : ∀ id : PageId, {p : PageId | p ∈ live} ∪ {id} = {p | p ∈ id :: live} := by
    intro id
    ext q
    simp
  have h0 : (0 : PageId) ≠ pg.numPages := fun he => UInt32.lt_irrefl _ (he ▸ h.pos)
  rcases freed with _ | ⟨p, F⟩
  · -- nothing is free: the file grows by a page
    have hmax : pg.numPages < u32Max := hroom.resolve_left fun hne => hne rfl
    obtain ⟨pg', heq, hnum, hlen, hother, hfree⟩ :=
      Pager.allocatePage_grow h.pos h.len h.free hmax
    have hlt : pg.numPages.toNat < pg'.numPages.toNat := by
      have hmax' := UInt32.lt_iff_toNat_lt.mp hmax
      have hval : u32Max.toNat = 4294967295 := rfl
      have hone : (1 : UInt32).toNat = 1 := rfl
      rw [show pg'.numPages = pg.numPages + 1 from hnum, UInt32.toNat_add]
      omega
    have hnew : pg.numPages ∉ live := fun hm => UInt32.lt_irrefl _ (h.used _ hm).2
    unfold PagerState.allocated
    rw [heq]
    refine ⟨⟨?_, hlen, ?_, fun q hq => ?_, ?_⟩, h0.symm, hnew, fun hne => absurd rfl hne⟩
    · exact UInt32.lt_iff_toNat_lt.mpr (Nat.lt_of_le_of_lt (Nat.zero_le _) hlt)
    · rw [hother 0 h0]
      exact h.magic
    · rcases List.mem_cons.mp hq with rfl | hq
      · exact ⟨h0.symm, UInt32.lt_iff_toNat_lt.mpr hlt⟩
      · obtain ⟨hq0, hqn⟩ := h.used q hq
        exact ⟨hq0, UInt32.lt_iff_toNat_lt.mpr
          (Nat.lt_trans (UInt32.lt_iff_toNat_lt.mp hqn) hlt)⟩
    · rw [← hset]
      exact hfree
  · obtain ⟨pg', heq, hnum, hlen, hmeta, hother, hfree⟩ := Pager.allocatePage_pop h.pos h.len h.free
    obtain ⟨hp0, hpn⟩ := h.free.inside p List.mem_cons_self
    unfold PagerState.allocated
    rw [heq, List.erase_cons_head]
    refine ⟨⟨?_, ?_, ?_, fun q hq => ?_, ?_⟩, hp0, h.free.unused p List.mem_cons_self,
      fun _ => hnum⟩
    · rw [hnum]
      exact h.pos
    · rw [hlen, hnum]
      exact h.len
    · rw [hmeta, Page.hasMagic_setFree]
      exact h.magic
    · rw [hnum]
      rcases List.mem_cons.mp hq with rfl | hq
      · exact ⟨hp0, hpn⟩
      · exact h.used q hq
    · rw [← hset]
      exact hfree

theorem release {p : PageId} (h : s.Ordered) (hp : p ∈ s.live) :
    (s.released p).Ordered ∧ (s.released p).pager.numPages = s.pager.numPages := by
  obtain ⟨hp0, hpn⟩ := h.used p hp
  obtain ⟨hnum, hlen, hmeta, -, -⟩ := Pager.freePage_pages h.pos h.len hp0 hpn
  have hset : {q : PageId | q ∈ s.live} \ {p} = {q | q ∈ s.live.filter (· ≠ p)} := by
    ext q
    simp
  refine ⟨⟨?_, ?_, ?_, fun q hq => ?_, ?_⟩, hnum⟩
  · exact hnum.symm ▸ h.pos
  · exact hlen.trans (h.len.trans (congrArg _ hnum.symm))
  · exact (congrArg Page.hasMagic hmeta).trans ((Page.hasMagic_setFree _ _).trans h.magic)
  · exact hnum.symm ▸ h.used q (List.mem_filter.mp hq).1
  · have hfree := Pager.freePage_push h.pos h.len h.free hp hp0 hpn
    rw [hset] at hfree
    exact hfree

/-- An allocated page is written: it is not on the free list, and it is not page 0. -/
theorem write {p : PageId} (h : s.Ordered) (hp : p ∈ s.live) (page : Page) :
    Ordered { s with pager := s.pager.writePage p page } ∧
      (s.pager.writePage p page).numPages = s.pager.numPages := by
  obtain ⟨hp0, hpn⟩ := h.used p hp
  obtain ⟨hnum, hlen⟩ := BufferPool.writePage_size page hpn h.len
  have hother : ∀ q, q ≠ p → (s.pager.writePage p page).file.page q = s.pager.file.page q :=
    fun q hq => if_neg hq
  have hmeta := hother 0 hp0.symm
  refine ⟨⟨hnum.symm ▸ h.pos, ?_, ?_, fun q hq => hnum.symm ▸ h.used q hq, ?_, h.free.nodup,
    fun q hq => hnum.symm ▸ h.free.inside q hq, h.free.unused, fun hs => by cases hs⟩, hnum⟩
  · exact hlen.trans (h.len.trans (congrArg _ hnum.symm))
  · exact (congrArg Page.hasMagic hmeta).trans h.magic
  · rw [hmeta]
    refine h.free.list.congr fun q hq => hother q fun he => ?_
    exact h.free.unused q hq (he ▸ hp)

theorem reopen (h : s.Ordered) : Pager.open s.pager.file = .ok s.pager :=
  BufferPool.open_pager h.len h.pos h.magic

end PagerState.Ordered

theorem PagerRun.ordered {s : PagerState} (h : PagerRun PagerState.Room s) : s.Ordered := by
  induction h with
  | start hopen =>
    rw [Pager.open_empty] at hopen
    cases hopen
    exact .start
  | allocate _ hroom ih => exact (ih.allocate hroom).1
  | free _ hp _ ih => exact (ih.release hp).1
  | write page _ hp _ ih => exact (ih.write hp page).1
  | reopen _ hopen ih =>
    rw [ih.reopen] at hopen
    cases hopen
    exact ih

/-- **The free list in every run.** The list from page 0 is the freed pages, without repetitions,
and ends in `u32::MAX`. A page that is handed out is not page 0, is not in use and reads as zeros;
the file grows only if no page is free. Freeing, writing and opening again leave its size. -/
theorem pager_free_list {s : PagerState} (h : PagerRun PagerState.Room s) :
    FreeList s.pager.readPage (s.pager.readPage 0).freeField s.freed ∧ s.freed.Nodup ∧
      (s.Room → s.pager.allocatePage.1 ≠ 0 ∧ s.pager.allocatePage.1 ∉ s.live ∧
        s.pager.allocatePage.2.readPage s.pager.allocatePage.1 = Page.default ∧
        (s.pager.numPages < s.pager.allocatePage.2.numPages → s.freed = [])) ∧
      (∀ p ∈ s.live, (s.pager.freePage p).numPages = s.pager.numPages ∧
        ∀ page, (s.pager.writePage p page).numPages = s.pager.numPages) ∧
      Pager.open s.pager.file = .ok s.pager := by
  have ho := h.ordered
  refine ⟨?_, ho.free.nodup, fun hroom => ?_, fun p hp => ?_, ho.reopen⟩
  · rw [BufferPool.readPage_inside ho.pos]
    exact ho.free.list.congr fun p hp => BufferPool.readPage_inside (ho.free.inside p hp).2
  · obtain ⟨ho', hid, hnew, hgrow⟩ := ho.allocate hroom
    refine ⟨hid, hnew, ?_, fun hlt => ?_⟩
    · have hin : s.pager.allocatePage.1 < s.pager.allocatePage.2.numPages :=
        (ho'.used _ List.mem_cons_self).2
      rw [BufferPool.readPage_inside hin]
      exact Pager.allocatePage_cleared s.pager
    · by_contra hne
      rw [show s.pager.allocatePage.2.numPages = s.pager.numPages from hgrow hne] at hlt
      exact UInt32.lt_irrefl _ hlt
  · exact ⟨(ho.release hp).2, fun page => (ho.write hp page).2⟩

/-- A page is allocated and freed, the file is opened again, and the page is allocated again. -/
theorem pager_free_list_recycled : ∃ s, PagerRun PagerState.Room s ∧ s.freed = [1] ∧
    s.pager.allocatePage.1 = 1 ∧ s.pager.allocatePage.2.readPage 1 = Page.default := by
  have hone : PagerRun PagerState.Room (PagerState.allocated ⟨Pager.fresh, [], []⟩) :=
    .allocate (.start Pager.open_empty) (Or.inr (by decide))
  have hfree := hone.free (p := 1) (by decide) (by decide)
  have hopen := hfree.reopen hfree.ordered.reopen
  obtain ⟨-, -, halloc, -⟩ := pager_free_list hopen
  obtain ⟨-, -, hread, -⟩ := halloc (Or.inl (List.cons_ne_nil _ _))
  have hid : ((PagerState.allocated ⟨Pager.fresh, [], []⟩).released 1).pager.allocatePage.1 = 1 := by
    decide +kernel
  refine ⟨_, hopen, by decide, hid, ?_⟩
  rw [hid] at hread
  exact hread

theorem PagerRun.grow (n : Nat) : ∀ {s : PagerState}, PagerRun (fun _ => True) s →
    0 < s.pager.numPages → s.pager.freeHead = u32Max → s.pager.numPages.toNat + n < 2 ^ 32 →
    ∃ s', PagerRun (fun _ => True) s' ∧ s'.pager.freeHead = u32Max ∧
      s'.pager.numPages.toNat = s.pager.numPages.toNat + n := by
  induction n with
  | zero => exact fun hrun _ hfree _ => ⟨_, hrun, hfree, rfl⟩
  | succ n ih =>
    intro s hrun hpos hfree hlt
    obtain ⟨hsucc, hfree'⟩ := Pager.allocatePage_end_count hpos hfree (by omega)
    obtain ⟨s', hrun', hfree'', hcount⟩ := ih (hrun.allocate trivial)
      (UInt32.lt_iff_toNat_lt.mpr (show 0 < s.pager.allocatePage.2.numPages.toNat by omega)) hfree'
      (show s.pager.allocatePage.2.numPages.toNat + n < 2 ^ 32 by omega)
    have hcount' : s'.pager.numPages.toNat = s.pager.allocatePage.2.numPages.toNat + n := hcount
    exact ⟨s', hrun', hfree'', by omega⟩

/-- **After `2 ^ 32 - 1` pages, page 0 is handed out.** Nothing is ever freed. -/
theorem page_zero_allocated :
    ∃ s, PagerRun (fun _ => True) s ∧ s.pager.allocatePage.1 = 0 := by
  obtain ⟨s, hrun, hfree, hcount⟩ := PagerRun.grow (2 ^ 32 - 2) (.start Pager.open_empty)
    (by decide) Page.initialMeta_free (by decide)
  have hnum : s.pager.numPages = u32Max := UInt32.toNat_inj.mp (hcount.trans rfl)
  have hpos : 0 < s.pager.numPages := by
    rw [hnum]
    decide
  -- page `u32::MAX` is the last one, and the count after it is 0
  refine ⟨_, hrun.allocate trivial, ?_⟩
  have hzero : s.allocated.pager.numPages = 0 := by
    unfold PagerState.allocated
    rw [Pager.allocatePage_end hpos hfree, hnum]
    exact if_pos (by rw [hnum]; exact UInt32.le_refl _)
  unfold Pager.allocatePage
  rw [hzero, if_neg fun hc => absurd hc.2.1 (UInt32.not_lt.mpr (UInt32.zero_le))]

end MagnumDB
