import MagnumDB.Storage.FreshTree

/-!
# The metadata page

Page 0 is changed in two ways. `persist_root_page_id` reads it through the pool and
writes it back to the pool; allocating, freeing and storing a checkpoint LSN change
it in the file. Here these calls are interleaved in every order, together with
fetches and writes of other pages (which can push page 0 out of the cache), flushes,
and closing and reopening the file. A call in progress holds its own copy of page 0.

The file keeps the last value of every field exactly as long as page 0 is only
written back while the copy in the pool agrees with the file on the fields it does
not own.
-/

namespace MagnumDB

open BufferPool

/-- The pool, the pages handed out, the copies of page 0 held by calls in progress, and what was
last written to each field of page 0. -/
structure MetaState where
  pool : BufferPool
  held : List PageId
  copies : List Page
  root : PageId
  free : PageId
  lsn : UInt64

/-- The calls. -/
inductive MetaOp where
  /-- The first half of `persist_root_page_id`. -/
  | persistRead
  /-- Its second half, with one of the copies that were read. -/
  | persistWrite (copy : Nat) (root : PageId)
  | allocate
  | free (p : PageId)
  | writeCheckpointLsn (lsn : UInt64)
  | flush
  /-- Another page is read or written, which can evict page 0. -/
  | fetch (p : PageId)
  | write (p : PageId) (page : Page)
  /-- `Database::close` and `Database::open`. -/
  | reopen (lsn : UInt64) (capacity interval : Nat)

/-- The head that `allocate_page` writes: it writes one only when it takes a page off the list. -/
def Pager.headWritten (pg : Pager) : Option PageId :=
  let freeHead := (pg.readPage 0).freeField
  if freeHead ≠ u32Max ∧ freeHead < pg.numPages ∧ freeHead ≠ 0 then some (pg.readPage freeHead).next
  else none

/-- A pool over the file of another, as after closing and opening it. -/
def BufferPool.reopened (s : BufferPool) (capacity interval : Nat) : BufferPool :=
  match Pager.open s.pager.file with
  | .ok pager => opened pager capacity interval
  | .error _ => s

namespace MetaOp

/-- What a call does. -/
def exec (s : MetaState) : MetaOp → MetaState
  | .persistRead =>
    let r := s.pool.fetchPage 0
    { s with pool := r.2, copies := r.1 :: s.copies }
  | .persistWrite copy root =>
    match s.copies[copy]? with
    | some page => { s with pool := s.pool.writePage 0 (page.setRoot root), root := root }
    | none => s
  | .allocate =>
    let r := s.pool.allocatePage
    { s with pool := r.2, held := r.1 :: s.held, free := s.pool.pager.headWritten.getD s.free }
  | .free p => { s with pool := s.pool.freePage p, held := s.held.filter (· ≠ p), free := p }
  | .writeCheckpointLsn lsn => { s with pool := s.pool.writeCheckpointLsn lsn, lsn := lsn }
  | .flush => { s with pool := s.pool.flushAll }
  | .fetch p => { s with pool := (s.pool.fetchPage p).2 }
  | .write p page => { s with pool := s.pool.writePage p page }
  | .reopen lsn capacity interval =>
    { s with
      pool := ((s.pool.flushAll).writeCheckpointLsn lsn).reopened capacity interval
      copies := []
      lsn := lsn }

end MetaOp

/-- The fields of page 0 that the pool does not own are as they were. -/
def sameFields (s s' : BufferPool) : Bool :=
  (s'.disk 0).freeField == (s.disk 0).freeField && (s'.disk 0).lsnField == (s.disk 0).lsnField

/-- The condition on a call: page 0 is not written back with another free-list head or LSN than
the file has, the caller only uses pages it was given, and the file does not outgrow its page
numbers. -/
def MetaOp.Ok (s : MetaState) : MetaOp → Bool
  | .persistRead => sameFields s.pool (s.pool.fetchPage 0).2
  | .persistWrite copy root =>
    match s.copies[copy]? with
    | some page => sameFields s.pool (s.pool.writePage 0 (page.setRoot root))
    | none => true
  | .allocate => s.pool.pager.freeHead != u32Max || decide (s.pool.pager.numPages < u32Max)
  | .free p => s.held.contains p
  | .writeCheckpointLsn _ => true
  | .flush => sameFields s.pool s.pool.flushAll
  | .fetch p => s.held.contains p && sameFields s.pool (s.pool.fetchPage p).2
  | .write p page => s.held.contains p && sameFields s.pool (s.pool.writePage p page)
  | .reopen _ _ _ => sameFields s.pool s.pool.flushAll

/-- The calls of a run, each in a state that meets its condition. -/
def MetaSafe : List MetaOp → MetaState → Bool
  | [], _ => true
  | op :: ops, s => op.Ok s && MetaSafe ops (op.exec s)

/-- The state of a new file. -/
def MetaState.fresh (capacity interval : Nat) : MetaState :=
  { pool := opened Pager.fresh capacity interval
    held := []
    copies := []
    root := 0
    free := u32Max
    lsn := 0 }

/-- The fields of page 0 in the file are those that were last written. -/
def MetaState.Current (s : MetaState) : Prop :=
  (s.pool.disk 0).rootField = s.root ∧ (s.pool.disk 0).freeField = s.free ∧
    (s.pool.disk 0).lsnField = s.lsn

/-! ## The invariant -/

/-- The pool is in order, its root is the one last written, and the other fields are in the file. -/
structure MetaInv (s : MetaState) : Prop where
  inv : Inv true s.pool {p | p ∈ s.held}
  root : s.pool.root = s.root
  free : (s.pool.disk 0).freeField = s.free
  lsn : (s.pool.disk 0).lsnField = s.lsn
  copies : ∀ page ∈ s.copies, page.hasMagic

theorem sameFields_iff {s s' : BufferPool} (h : sameFields s s') :
    (s'.disk 0).freeField = (s.disk 0).freeField ∧ (s'.disk 0).lsnField = (s.disk 0).lsnField := by
  unfold sameFields at h
  simpa using h

theorem sameFields_head {s s' : BufferPool} (h : sameFields s s') :
    headOk true s.pager s'.pager := headOk_of_eq (sameFields_iff h).1

theorem Pager.allocatePage_fields {pg : Pager} (hpos : 0 < pg.numPages) :
    (pg.allocatePage.2.file.page 0).freeField = pg.headWritten.getD (pg.file.page 0).freeField ∧
      (pg.allocatePage.2.file.page 0).lsnField = (pg.file.page 0).lsnField := by
  have hread : pg.readPage 0 = pg.file.page 0 := readPage_inside hpos
  have hn0 : (0 : PageId) ≠ pg.numPages := fun he =>
    absurd (he ▸ hpos : pg.numPages < pg.numPages) (UInt32.lt_irrefl _)
  unfold Pager.allocatePage Pager.headWritten
  dsimp only
  rw [hread]
  split
  · rename_i hpop
    rw [writePage_page, if_neg (Ne.symm hpop.2.2), writePage_page, if_pos rfl,
      Page.freeField_setFree, Page.lsnField_setFree]
    exact ⟨rfl, rfl⟩
  · rw [writePage_page, if_neg hn0]
    exact ⟨rfl, rfl⟩

theorem flushAll_root {s : BufferPool} {U : Set PageId} (h : Core s.flushAll U) :
    s.flushAll.root = (s.flushAll.disk 0).rootField := by
  unfold BufferPool.root
  have hlook := flushAll_look s 0
  cases hl : s.look 0 with
  | none =>
    rw [hl] at hlook
    rw [view_of_none hlook]
  | some pd =>
    rw [hl] at hlook
    rw [view_of_some hlook]
    exact h.cleanMeta _ hlook

section Steps

variable {s : MetaState} (h : MetaInv s)
include h

/-- A call through the pool that keeps the fields it does not own. -/
theorem MetaInv.pool {pool : BufferPool} {root : PageId} {copies : List Page}
    (hinv : Inv true pool {p | p ∈ s.held}) (hsame : sameFields s.pool pool)
    (hroot : pool.root = root) (hcopies : ∀ page ∈ copies, page.hasMagic) :
    MetaInv { s with pool := pool, root := root, copies := copies } := by
  obtain ⟨hfree, hlsn⟩ := sameFields_iff hsame
  exact ⟨hinv, hroot, hfree.trans h.free, hlsn.trans h.lsn, hcopies⟩

theorem MetaInv.persistRead (hok : sameFields s.pool (s.pool.fetchPage 0).2) :
    MetaInv (MetaOp.persistRead.exec s) := by
  obtain ⟨hpage, hframe, _, hroot⟩ := h.inv.1.fetch (Or.inl rfl)
  refine h.pool (h.inv.frame hframe (Or.inl rfl) (sameFields_head hok)) hok (hroot.trans h.root)
    (fun page hm => ?_)
  rcases List.mem_cons.mp hm with rfl | hm
  · rw [hpage]; exact h.inv.1.magic_view
  · exact h.copies page hm

theorem MetaInv.persistWrite {page : Page} (root : PageId) (hp : page ∈ s.copies)
    (hok : sameFields s.pool (s.pool.writePage 0 (page.setRoot root))) :
    MetaInv { s with pool := s.pool.writePage 0 (page.setRoot root), root := root } := by
  have hmagic : (page.setRoot root).hasMagic := by
    rw [Page.hasMagic_setRoot]; exact h.copies page hp
  obtain ⟨hframe, _, hroot⟩ := h.inv.1.write (Or.inl rfl) (fun _ => hmagic)
  rw [if_pos rfl, Page.rootField_setRoot] at hroot
  exact h.pool (h.inv.frame hframe (Or.inl rfl) (sameFields_head hok)) hok hroot h.copies

theorem MetaInv.allocate (hok : poolGuard true .alloc s.pool) :
    s.pool.allocatePage.1 ∉ s.held ∧ MetaInv (MetaOp.allocate.exec s) := by
  have hrun : (guardedPool true).allocatePage s.pool
      = (.ok s.pool.allocatePage.1, s.pool.allocatePage.2) := if_pos hok
  obtain ⟨hfresh, hinv, _, hroot⟩ := Prog.wp_ok h.inv.alloc hrun
  obtain ⟨hhead, hlsn⟩ := Pager.allocatePage_fields h.inv.1.pos
  have hset : {p | p ∈ s.held} ∪ {s.pool.allocatePage.1} = {p | p ∈ s.pool.allocatePage.1 :: s.held} := by
    ext p
    simp [or_comm]
  refine ⟨hfresh, hset ▸ hinv, hroot.trans h.root, ?_, hlsn.trans h.lsn, h.copies⟩
  refine hhead.trans ?_
  rw [show (s.pool.pager.file.page 0).freeField = s.free from h.free]
  rfl

theorem MetaInv.freePage {p : PageId} (hp : p ∈ s.held) : MetaInv ((MetaOp.free p).exec s) := by
  have hrun : (guardedPool true).freePage p s.pool = (.ok (), s.pool.freePage p) := rfl
  have hpU : p ∈ {q | q ∈ s.held} := hp
  obtain ⟨hinv, _, hroot⟩ := Prog.wp_ok (h.inv.free hpU) hrun
  obtain ⟨hp0, hpn⟩ := h.inv.1.used p hp
  obtain ⟨_, _, hmeta, _, _⟩ := Pager.freePage_pages h.inv.1.pos h.inv.1.len hp0 hpn
  have hset : {q | q ∈ s.held} \ {p} = {q | q ∈ s.held.filter (· ≠ p)} := by
    ext q
    simp
  refine ⟨hset ▸ hinv, hroot.trans h.root, ?_, ?_, h.copies⟩
  · show ((s.pool.pager.freePage p).file.page 0).freeField = p
    rw [hmeta, Page.freeField_setFree]
  · show ((s.pool.pager.freePage p).file.page 0).lsnField = s.lsn
    rw [hmeta, Page.lsnField_setFree]
    exact h.lsn

theorem MetaInv.checkpoint (lsn : UInt64) : MetaInv ((MetaOp.writeCheckpointLsn lsn).exec s) := by
  obtain ⟨hinv, hroot, _, hdisk⟩ := h.inv.writeCheckpointLsn lsn
  refine ⟨hinv, hroot.trans h.root, ?_, ?_, h.copies⟩
  · show ((s.pool.writeCheckpointLsn lsn).disk 0).freeField = s.free
    rw [hdisk, Page.freeField_setLsn]
    exact h.free
  · show ((s.pool.writeCheckpointLsn lsn).disk 0).lsnField = lsn
    rw [hdisk, Page.lsnField_setLsn]

/-- A flush brings the root to the file, where the other fields are already. -/
theorem MetaInv.flush (hok : sameFields s.pool s.pool.flushAll) :
    MetaInv (MetaOp.flush.exec s) ∧ (MetaOp.flush.exec s).Current := by
  have hset := flushAll_settles h.inv.1.wf
  obtain ⟨hinv, _, hroot⟩ := h.inv.settles hset (sameFields_head hok)
  have hnext : MetaInv (MetaOp.flush.exec s) :=
    h.pool hinv hok (hroot.trans h.root) h.copies
  exact ⟨hnext, (flushAll_root hinv.1).symm.trans hnext.root, hnext.free, hnext.lsn⟩

theorem MetaInv.reopen (lsn : UInt64) (capacity interval : Nat)
    (hok : sameFields s.pool s.pool.flushAll) :
    MetaInv ((MetaOp.reopen lsn capacity interval).exec s) := by
  obtain ⟨hflush, hcur⟩ := h.flush hok
  have hlsn := hflush.checkpoint lsn
  obtain ⟨_, _, _, hdisk⟩ := hflush.inv.writeCheckpointLsn lsn
  have hopen : (s.pool.flushAll.writeCheckpointLsn lsn).reopened capacity interval
      = opened (s.pool.flushAll.writeCheckpointLsn lsn).pager capacity interval := by
    unfold BufferPool.reopened
    rw [show Pager.open (s.pool.flushAll.writeCheckpointLsn lsn).pager.file
      = .ok (s.pool.flushAll.writeCheckpointLsn lsn).pager from hlsn.inv.1.open_file]
  dsimp only [MetaOp.exec]
  rw [hopen]
  refine ⟨hlsn.inv.opened capacity interval, ?_, hlsn.free, hlsn.lsn, fun page hm => ?_⟩
  · show ((s.pool.flushAll.writeCheckpointLsn lsn).disk 0).rootField = s.root
    rw [show (s.pool.flushAll.writeCheckpointLsn lsn).disk 0 = (s.pool.flushAll.disk 0).setLsn lsn
      from hdisk, Page.rootField_setLsn]
    exact hcur.1
  · exact absurd hm List.not_mem_nil

/-- **One call** that meets its condition. -/
theorem MetaInv.step {op : MetaOp} (hok : op.Ok s) : MetaInv (op.exec s) := by
  cases op with
  | persistRead => exact h.persistRead hok
  | persistWrite copy root =>
    dsimp only [MetaOp.exec, MetaOp.Ok] at hok ⊢
    cases hc : s.copies[copy]? with
    | none => exact h
    | some page =>
      rw [hc] at hok
      exact h.persistWrite root (List.mem_of_getElem? hc) hok
  | allocate => exact (h.allocate hok).2
  | free p => exact h.freePage (List.contains_iff_mem.mp hok)
  | writeCheckpointLsn lsn => exact h.checkpoint lsn
  | flush => exact (h.flush hok).1
  | fetch p =>
    obtain ⟨hp, hsame⟩ := Bool.and_eq_true_iff.mp hok
    have hpU : p = 0 ∨ p ∈ {q | q ∈ s.held} := Or.inr (List.contains_iff_mem.mp hp)
    obtain ⟨_, hframe, _, hroot⟩ := h.inv.1.fetch hpU
    exact h.pool (h.inv.frame hframe hpU (sameFields_head hsame)) hsame (hroot.trans h.root) h.copies
  | write p page =>
    obtain ⟨hp, hsame⟩ := Bool.and_eq_true_iff.mp hok
    have hm : p ∈ s.held := List.contains_iff_mem.mp hp
    have hp0 : p ≠ 0 := (h.inv.1.used p hm).1
    have hpU : p = 0 ∨ p ∈ {q | q ∈ s.held} := Or.inr hm
    obtain ⟨hframe, _, hroot⟩ := h.inv.1.write hpU (fun he => absurd he hp0)
    rw [if_neg hp0] at hroot
    exact h.pool (h.inv.frame hframe hpU (sameFields_head hsame)) hsame (hroot.trans h.root) h.copies
  | reopen lsn capacity interval => exact h.reopen lsn capacity interval hok

end Steps

/-- **A run**, by induction on its calls. -/
theorem MetaInv.run : ∀ {ops : List MetaOp} {s : MetaState}, MetaInv s → MetaSafe ops s →
    MetaInv (ops.foldl MetaOp.exec s)
  | [], _, h, _ => h
  | op :: ops, s, h, hsafe => by
    rw [MetaSafe, Bool.and_eq_true] at hsafe
    exact (h.step hsafe.1).run hsafe.2

theorem MetaInv.fresh (capacity interval : Nat) : MetaInv (MetaState.fresh capacity interval) := by
  refine ⟨?_, Page.initialMeta_root, Page.initialMeta_free, Page.initialMeta_lsn,
    fun page hm => absurd hm List.not_mem_nil⟩
  have hset : {p : PageId | p ∈ (MetaState.fresh capacity interval).held} = ∅ := by
    ext p
    simp [MetaState.fresh]
  rw [hset]
  exact opened_inv capacity interval rfl (by decide) Page.initialMeta_magic (fun q hq => hq.elim)
    (Pager.fresh_freeOk true)

/-- **No update of page 0 is lost**, in any interleaving in which page 0 is only written back
while its copy agrees with the file on the fields the pool does not own: after a flush the file
has the last value of every field, and no page that is handed out is handed out again. -/
theorem meta_run_current {capacity interval : Nat} {ops : List MetaOp}
    (hsafe : MetaSafe ops (MetaState.fresh capacity interval)) :
    let s := ops.foldl MetaOp.exec (MetaState.fresh capacity interval)
    (MetaOp.flush.Ok s → (MetaOp.flush.exec s).Current) ∧
      (MetaOp.allocate.Ok s → s.pool.allocatePage.1 ∉ s.held) := by
  have h := (MetaInv.fresh capacity interval).run hsafe
  exact ⟨fun hok => (h.flush hok).2, fun hok => (h.allocate hok).1⟩

/-- A run with a root, an allocation after a free, and a reopened file. -/
theorem meta_run_current_reopen :
    let ops : List MetaOp := [.allocate, .persistRead, .persistWrite 0 1, .flush, .allocate, .free 2,
      .reopen 7 4 0, .allocate]
    let s := ops.foldl MetaOp.exec (MetaState.fresh 4 0)
    (MetaOp.flush.exec s).Current ∧ s.pool.allocatePage.1 ∉ s.held := by
  have hsafe : MetaSafe [.allocate, .persistRead, .persistWrite 0 1, .flush, .allocate, .free 2,
      .reopen 7 4 0, .allocate] (MetaState.fresh 4 0) := by decide +kernel
  have h := meta_run_current hsafe
  exact ⟨h.1 (by decide +kernel), h.2 (by decide +kernel)⟩

/-! ## An update that is lost -/

/-- A page is freed and page 0 is read for a new root; the page is handed out again before the
root is written and everything is flushed. -/
def lostHeadRun : List MetaOp :=
  [.allocate, .free 1, .persistRead, .allocate, .persistWrite 0 1, .flush]

/-- **The free-list head is lost**: after the flush the file has the head from before the second
allocation, and the page that was handed out is handed out again. -/
theorem free_head_lost :
    let s := lostHeadRun.foldl MetaOp.exec (MetaState.fresh 4 0)
    ¬ s.Current ∧ s.pool.allocatePage.1 ∈ s.held := by
  have hfree : ((lostHeadRun.foldl MetaOp.exec (MetaState.fresh 4 0)).pool.disk 0).freeField ≠
      (lostHeadRun.foldl MetaOp.exec (MetaState.fresh 4 0)).free := by decide +kernel
  exact ⟨fun h => hfree h.2.1, by decide +kernel⟩

end MagnumDB
