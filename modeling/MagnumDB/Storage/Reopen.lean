import MagnumDB.Storage.Checkpoint
import Mathlib.Order.BooleanAlgebra.Set

/-!
# What a file holds

The pool is lost in a crash, the file is not. `FileHolds` says which bindings a
file holds: those of the tree that is found when a pool is opened over it. When
nothing is dirty the file holds what the tree holds, and it goes on holding it
until one of the pages that were in use then is overwritten or freed, whatever
happens to the other pages (`FileHolds.kept`).
-/

namespace MagnumDB

open BPlus SortedAssoc Prog

/-- The file holds exactly these bindings. -/
def FileHolds (file : DataFile) (m : Bytes → Option Bytes) : Prop :=
  ∃ pager root, Pager.open file = .ok pager ∧ HoldsMap ⟨BufferPool.opened pager 1024 0, root⟩ m

/-- Nothing in the pool waits to be written. -/
def BufferPool.Clean (s : BufferPool) : Prop := ∀ q pd, s.look q = some pd → pd.2 = false

variable {m : Bytes → Option Bytes} {pager : Pager} {root : PageId} {s : BufferPool}

/-- The capacity of a pool and its sync interval do not matter for what the file holds. -/
theorem HoldsMap.opened {capacity interval : Nat}
    (h : HoldsMap ⟨BufferPool.opened pager capacity interval, root⟩ m) (capacity' interval' : Nat) :
    HoldsMap ⟨BufferPool.opened pager capacity' interval', root⟩ m := by
  obtain ⟨K, d, c, ⟨v, hat, hrep, hK⟩, hread, hm⟩ := h
  have hat' : BTree.At (BufferPool.laws false)
      ⟨BufferPool.opened pager capacity' interval', root⟩ ({p | p ∈ pagesOf c} ∪ K) v c.id :=
    ⟨hat.inv.opened capacity' interval', hat.view, hat.rootId, hat.stored⟩
  exact ⟨K, d, c, ⟨v, hat', hrep, hK⟩, hread, hm⟩

namespace BufferPool

variable {s : BufferPool} {U : Set PageId}

theorem flushAll_clean (s : BufferPool) : s.flushAll.Clean := by
  intro q pd hq
  rw [flushAll_look] at hq
  obtain ⟨pd', _, rfl⟩ := Option.map_eq_some_iff.mp hq
  rfl

/-- With nothing dirty, a flush writes nothing. -/
theorem flushAll_pager_clean (hwf : s.cache.WF) (hc : s.Clean) : s.flushAll.pager = s.pager := by
  have hnone : s.cache.entries.filter (fun e => e.2.2) = [] := by
    refine List.filter_eq_nil_iff.mpr fun e he => ?_
    rw [hc e.1 e.2 (Lru.findIn_of_mem hwf.nodup he)]
    exact Bool.false_ne_true
  unfold flushAll
  dsimp only
  rw [hnone, List.foldl_nil]

theorem flushAll_disk_clean (hwf : s.cache.WF) (hc : s.Clean) (q : PageId) :
    s.flushAll.disk q = s.disk q := by
  unfold disk
  rw [flushAll_pager_clean hwf hc]

/-- With nothing dirty, the file has what is read, and the root. -/
theorem Core.view_of_clean (h : Core s U) (hc : s.Clean) :
    (∀ q, q ≠ 0 → s.view q = s.disk q) ∧ s.root = (s.disk 0).rootField := by
  constructor
  · intro q hq0
    cases hl : s.look q with
    | none => exact view_of_none hl
    | some pd =>
      obtain ⟨page, dirty⟩ := pd
      obtain rfl : dirty = false := hc q _ hl
      rw [view_of_some hl]
      exact h.clean q page hq0 hl
  · unfold root
    cases hl : s.look 0 with
    | none => rw [view_of_none hl]
    | some pd =>
      obtain ⟨page, dirty⟩ := pd
      obtain rfl : dirty = false := hc 0 _ hl
      rw [view_of_some hl]
      exact h.cleanMeta page hl

end BufferPool

/-- With nothing dirty, the file holds what the tree holds. -/
theorem HoldsMap.file {t : BTree BufferPool} (h : HoldsMap t m) (hc : t.bufferPool.Clean) :
    FileHolds t.bufferPool.pager.file m := by
  obtain ⟨K, d, c, ⟨v, hat, hrep, hK⟩, hread, hm⟩ := h
  obtain ⟨hview, hroot⟩ := hat.inv.1.view_of_clean hc
  have hat' : BTree.At (BufferPool.laws false)
      ⟨BufferPool.opened t.bufferPool.pager 1024 0, c.id⟩ ({p | p ∈ pagesOf c} ∪ K) v c.id := by
    refine ⟨hat.inv.opened 1024 0, fun q hq => ?_, rfl, hroot.symm.trans hat.stored⟩
    exact (hview q (hat.inv.1.used q hq).1).symm.trans (hat.view q hq)
  exact ⟨_, c.id, hat.inv.1.open_file, K, d, c, ⟨v, hat', hrep, hK⟩, hread, hm⟩

/-! ## Opening the tree of a file -/

/-- The first fetch from a pool with nothing in it: the page is cached clean, and the file is
left alone. -/
theorem BufferPool.opened_fetch (pg : Pager) (capacity interval : Nat) (id : PageId) :
    ∃ s, (opened pg capacity interval).fetchPage id = (pg.readPage id, s) ∧ s.pager = pg ∧
      s.cache.WF ∧ ∀ q, s.look q = if id = q then some (pg.readPage id, false) else none := by
  have hmiss := opened_look pg capacity interval id
  have hwf : (opened pg capacity interval).cache.WF := Lru.wf_empty (Nat.le_max_right ..)
  -- an empty cache has room, so nothing is evicted
  have hroom : (opened pg capacity interval).evict id = opened pg capacity interval := by
    refine if_neg fun hfull => ?_
    have hcap : 0 = max capacity 1 := hfull.1
    omega
  obtain ⟨hpage, s₁, hset, _, _, hput⟩ := fetchPage_miss hwf hmiss
  refine ⟨((opened pg capacity interval).fetchPage id).2, Prod.ext hpage rfl, ?_, hput.wf,
    fun q => ?_⟩
  · show ((opened pg capacity interval).putAndEvict id (pg.readPage id) false).pager = pg
    unfold putAndEvict
    rw [hroom]
    rfl
  · rw [hput.look q, (hset.of_none (opened_look pg capacity interval q)).1]
    rfl

/-- `BTree::new` on a file with a root: the root is read from page 0, and that is all. -/
theorem BTree.new_opened (capacity interval : Nat) (hroot : (pager.readPage 0).rootField = root)
    (hproper : ¬ (root = 0 ∨ root = u32Max)) :
    ∃ s, (BufferPool.opened pager capacity interval).fetchPage 0 = (pager.readPage 0, s) ∧
      BTree.new BufferPool.store (BufferPool.opened pager capacity interval) = .ok ⟨s, root⟩ ∧
      s.pager = pager ∧ s.cache.WF ∧
      ∀ q, s.look q = if 0 = q then some (pager.readPage 0, false) else none := by
  obtain ⟨s, hfetch, hpager, hwf, hlook⟩ := BufferPool.opened_fetch pager capacity interval 0
  refine ⟨s, hfetch, ?_, hpager, hwf, hlook⟩
  have hstore : BufferPool.store.fetchPage 0 (BufferPool.opened pager capacity interval)
      = (.ok (pager.readPage 0), s) := by
    show (Except.ok _, _) = _
    rw [hfetch]
  have hrun : BTree.newRoot BufferPool.store (BufferPool.opened pager capacity interval)
      = (.ok root, s) := by
    unfold BTree.newRoot
    rw [bind_of_ok hstore]
    rw [hroot, if_neg hproper]
    rfl
  unfold BTree.new
  rw [hrun]

/-- What is cached as it was read is clean. -/
theorem BufferPool.Clean.of_look {page : Page}
    (h : ∀ q, s.look q = if 0 = q then some (page, false) else none) : s.Clean := by
  intro q pd hq
  rw [h q] at hq
  split at hq
  · rw [← Option.some.inj hq]
  · exact absurd hq (by simp)

/-- `BTree::new` on a file that holds a tree finds the tree, and changes nothing. -/
theorem HoldsMap.new {capacity interval : Nat}
    (h : HoldsMap ⟨BufferPool.opened pager capacity interval, root⟩ m) :
    ∃ s, BTree.new BufferPool.store (BufferPool.opened pager capacity interval) = .ok ⟨s, root⟩ ∧
      s.pager = pager ∧ s.Clean ∧ s.LsnIs (pager.file.page 0).lsnField ∧ HoldsMap ⟨s, root⟩ m := by
  obtain ⟨K, d, c, ⟨v, hat, hrep, hK⟩, hread, hm⟩ := h
  obtain rfl : root = c.id := hat.rootId
  have hcore := hat.inv.1
  obtain ⟨hpage, hframe, -, hroot'⟩ := hcore.fetch (Or.inl rfl)
  have hused := hcore.used c.id (Or.inl (BTree.id_mem_pages c))
  have hpos : 0 < pager.numPages := hcore.pos
  have hid : (pager.readPage 0).rootField = c.id := by
    rw [BufferPool.readPage_inside hpos]
    exact hat.stored
  obtain ⟨s, hfetch, hnew, hpager, _, hlook⟩ := BTree.new_opened capacity interval hid
    (not_or.mpr ⟨hused.1, ne_u32Max_of_lt hused.2⟩)
  rw [hfetch] at hpage hframe hroot'
  have hlsn := (BufferPool.LsnIs.opened pager capacity interval).fetch hcore 0
  rw [hfetch] at hlsn
  refine ⟨s, hnew, hpager, .of_look hlook, hlsn, K, d, c, ⟨v, ⟨?_, fun q hq => ?_, rfl, ?_⟩, hrep, hK⟩,
    hread, hm⟩
  · refine hat.inv.frame hframe (Or.inl rfl) (BufferPool.headOk_of_eq ?_)
    rw [hpager]
    rfl
  · have hq0 := (hcore.used q hq).1
    exact (hframe.view q hq0 hq0).trans (hat.view q hq)
  · exact hroot'.trans hat.stored

/-! ## A file that has changed -/

/-- Everything a file had in use is still there: every page that was not free, and of page 0 the
root. The free pages, and pages beyond the old end, may hold anything. -/
structure Pager.Keeps (old new : Pager) : Prop where
  root : (new.file.page 0).rootField = (old.file.page 0).rootField
  pages : ∀ p, p ≠ 0 → p < old.numPages → p ∉ old.freeList →
    p < new.numPages ∧ p ∉ new.freeList ∧ new.file.page p = old.file.page p

/-- Any pages that are not free can be counted as in use. -/
theorem FreeOk.enlarge {pg : Pager} {U : Set PageId} {F : List PageId} (h : FreeOk false pg U F) :
    FreeOk false pg {p | p ≠ 0 ∧ p < pg.numPages ∧ p ∉ F} F :=
  ⟨h.list, h.nodup, h.inside, fun _ hp hu => hu.2.2 hp, fun hs => absurd hs (by simp)⟩

/-- **The file goes on holding what it held** as long as the pages in use are kept. The state
of the pool over the new file only matters for the order of the free list. -/
theorem FileHolds.kept {U : Set PageId} (h : FileHolds pager.file m)
    (hopen : Pager.open pager.file = .ok pager) (hinv : BufferPool.Inv false s U)
    (hkeep : pager.Keeps s.pager) : FileHolds s.pager.file m := by
  obtain ⟨pager', root, hopen', K, d, c, ⟨v, hat, hrep, hK⟩, hread, hm⟩ := h
  obtain rfl : pager' = pager := Except.ok.inj (hopen'.symm.trans hopen)
  obtain ⟨hcore, F, hfree⟩ := hinv
  obtain ⟨hcore₀, F₀, hfree₀⟩ := hat.inv
  have hF₀ : pager'.freeList = F₀ := hfree₀.freeList_eq
  -- the pages of the tree were in use, so they are kept
  have hkept : ∀ p ∈ pagesOf c, p ≠ 0 ∧ p < s.pager.numPages ∧ p ∉ F ∧
      s.pager.file.page p = pager'.file.page p := by
    intro p hp
    obtain ⟨hp0, hpn⟩ := hcore₀.used p (Or.inl hp)
    obtain ⟨hlt, hnot, hpage⟩ := hkeep.pages p hp0 hpn (by
      rw [hF₀]
      exact fun hmem => hfree₀.unused p hmem (Or.inl hp))
    rw [hfree.freeList_eq] at hnot
    exact ⟨hp0, hlt, hnot, hpage⟩
  let V : Set PageId := {p | p ≠ 0 ∧ p < s.pager.numPages ∧ p ∉ F}
  have hV : {p | p ∈ pagesOf c} ∪ (V \ {p | p ∈ pagesOf c}) = V := by
    refine Set.union_sdiff_cancel fun p hp => ?_
    obtain ⟨hp0, hlt, hnot, -⟩ := hkept p hp
    exact ⟨hp0, hlt, hnot⟩
  have hinv' : BufferPool.Inv false (BufferPool.opened s.pager 1024 0) V :=
    BufferPool.opened_inv 1024 0 hcore.len hcore.pos hcore.magic
      (fun q hq => ⟨hq.1, hq.2.1⟩) hfree.enlarge
  have hrep' : Represents s.pager.file.page c := by
    refine hrep.congr fun p hp => ?_
    exact (hkept p hp).2.2.2.trans (hat.view p (Or.inl hp))
  have hroot : (s.pager.file.page 0).rootField = c.id := hkeep.root.trans hat.stored
  refine ⟨s.pager, c.id, hcore.open_file, V \ {p | p ∈ pagesOf c}, d, c,
    ⟨s.pager.file.page, ⟨?_, fun _ _ => rfl, rfl, hroot⟩, hrep', fun p hp hnot => hnot.2 hp⟩,
    hread, hm⟩
  rw [hV]
  exact hinv'

/-- From a moment at which nothing was dirty. -/
theorem HoldsMap.kept {t t' : BTree BufferPool} {m' : Bytes → Option Bytes} (h : HoldsMap t m)
    (hclean : t.bufferPool.Clean) (h' : HoldsMap t' m')
    (hkeep : t.bufferPool.pager.Keeps t'.bufferPool.pager) :
    FileHolds t'.bufferPool.pager.file m := by
  have hfile := h.file hclean
  obtain ⟨_, _, _, ⟨_, hat, _, _⟩, _, _⟩ := h
  obtain ⟨_, _, _, ⟨_, hat', _, _⟩, _, _⟩ := h'
  exact hfile.kept hat.inv.1.open_file hat'.inv hkeep

/-! ## Deciding on concrete files -/

end MagnumDB
