import MagnumDB.Storage.Page

/-!
# The pager

`src/storage/pager.rs`: pages on disk, the free list threaded through them, and
the metadata fields of page 0. A write reaches the file at once; nothing is
buffered at this level. Input and output errors of the operating system are not
modelled, so the only failure is a file without the magic bytes.
-/

namespace MagnumDB

open ByteString

/-! ## Page 0 -/

/-- `META_MAGIC`: the bytes of "MGDB". -/
def metaMagic : Bytes := [77, 71, 68, 66]

/-- Start of `META_ROOT_PAGE_RANGE`, `4..8`. -/
def metaRootPage : Nat := 4

/-- Start of `META_FREE_LIST_RANGE`, `8..12`. -/
def metaFreeList : Nat := 8

/-- Start of `META_CHECKPOINT_LSN_RANGE`, `12..20`. -/
def metaCheckpointLsn : Nat := 12

/-- The root page id stored in a metadata page. -/
def Page.rootField (p : Page) : PageId := p.u32At metaRootPage

/-- The free-list head stored in a metadata page. -/
def Page.freeField (p : Page) : PageId := p.u32At metaFreeList

/-- The checkpoint LSN stored in a metadata page. -/
def Page.lsnField (p : Page) : UInt64 :=
  u64FromLeBytes (ByteString.slice p.data metaCheckpointLsn (metaCheckpointLsn + 8))

def Page.setRoot (p : Page) (id : PageId) : Page := p.setU32 metaRootPage (by decide) id

def Page.setFree (p : Page) (id : PageId) : Page := p.setU32 metaFreeList (by decide) id

def Page.setLsn (p : Page) (lsn : UInt64) : Page :=
  p.copied metaCheckpointLsn (u64ToLeBytes lsn) (by rw [u64ToLeBytes_length]; decide)

/-- The next pointer of a free page or of an overflow page: its first four bytes. -/
def Page.next (p : Page) : PageId := p.u32At 0

def Page.setNext (p : Page) (id : PageId) : Page := p.setU32 0 (by decide) id

/-- Whether a page starts with the magic bytes. -/
def Page.hasMagic (p : Page) : Bool := ByteString.slice p.data 0 4 == metaMagic

/-- The metadata page of a new file. -/
def Page.initialMeta : Page :=
  ((((Page.default.copied 0 metaMagic (by decide)).setRoot 0).setFree u32Max).setLsn 0)

/-! ## The data file and the pager -/

/-- The data file: the page in each slot, and how many whole pages it is long. Slots that
were skipped by a write past the end read as zeros. -/
structure DataFile where
  page : PageId → Page
  len : Nat

/-- A file that was just created. -/
def DataFile.empty : DataFile := ⟨fun _ => Page.default, 0⟩

structure Pager where
  file : DataFile
  numPages : UInt32

/-- `Pager::read_page`. -/
def Pager.readPage (pg : Pager) (pageId : PageId) : Page :=
  if pageId ≥ pg.numPages then Page.default else pg.file.page pageId

/-- `Pager::write_page`. The addition wraps at `2 ^ 32`, as in a release build. -/
def Pager.writePage (pg : Pager) (pageId : PageId) (page : Page) : Pager :=
  { file :=
      { page := fun q => if q = pageId then page else pg.file.page q
        len := max pg.file.len (pageId.toNat + 1) }
    numPages := if pageId ≥ pg.numPages then pageId + 1 else pg.numPages }

/-- `Pager::open`. -/
def Pager.open (file : DataFile) : Except Fail Pager :=
  let pager : Pager := { file, numPages := UInt32.ofNat file.len }
  if pager.numPages = 0 then .ok (pager.writePage 0 Page.initialMeta)
  else if (pager.readPage 0).hasMagic then .ok pager
  else .error (.err .badMagic)

/-- `Pager::allocate_page`: the head of the free list, or a new page at the end. -/
def Pager.allocatePage (pg : Pager) : PageId × Pager :=
  let metaPage := pg.readPage 0
  let freeHead := metaPage.freeField
  if freeHead ≠ u32Max ∧ freeHead < pg.numPages ∧ freeHead ≠ 0 then
    let nextFree := (pg.readPage freeHead).next
    let pg := pg.writePage 0 (metaPage.setFree nextFree)
    let pg := pg.writePage freeHead Page.default
    (freeHead, pg)
  else
    let pageId := pg.numPages
    (pageId, pg.writePage pageId Page.default)

/-- `Pager::free_page`. -/
def Pager.freePage (pg : Pager) (pageId : PageId) : Pager :=
  if pageId = 0 ∨ pageId ≥ pg.numPages then pg
  else
    let metaPage := pg.readPage 0
    let pg := pg.writePage pageId (Page.default.setNext metaPage.freeField)
    pg.writePage 0 (metaPage.setFree pageId)

/-- `Pager::read_checkpoint_lsn`. -/
def Pager.readCheckpointLsn (pg : Pager) : UInt64 := (pg.readPage 0).lsnField

/-- `Pager::write_checkpoint_lsn`. -/
def Pager.writeCheckpointLsn (pg : Pager) (lsn : UInt64) : Pager :=
  pg.writePage 0 ((pg.readPage 0).setLsn lsn)

/-! ## The fields of page 0 are independent -/

variable {bs : Bytes}

theorem Page.copied_slice_before (p : Page) {off i j : Nat} (h : off + bs.length ≤ pageSize)
    (hj : j ≤ off) : ByteString.slice (p.copied off bs h).data i j = ByteString.slice p.data i j :=
  slice_overwrite_before (by rw [p.size_eq]; exact h) hj

theorem Page.copied_slice_after (p : Page) {off i j : Nat} (h : off + bs.length ≤ pageSize)
    (hi : off + bs.length ≤ i) :
    ByteString.slice (p.copied off bs h).data i j = ByteString.slice p.data i j :=
  slice_overwrite_after (by rw [p.size_eq]; exact h) hi

theorem Page.copied_slice_self (p : Page) {off b : Nat} (h : off + bs.length ≤ pageSize)
    (hb : b = off + bs.length) : ByteString.slice (p.copied off bs h).data off b = bs := by
  subst hb
  exact slice_overwrite_self (by rw [p.size_eq]; exact h)

section Fields

variable (p : Page) (id : PageId) (lsn : UInt64)

@[simp] theorem Page.rootField_setRoot : (p.setRoot id).rootField = id :=
  Page.u32At_setU32_self p _ id

@[simp] theorem Page.freeField_setFree : (p.setFree id).freeField = id :=
  Page.u32At_setU32_self p _ id

@[simp] theorem Page.next_setNext : (p.setNext id).next = id :=
  Page.u32At_setU32_self p _ id

@[simp] theorem Page.rootField_setFree : (p.setFree id).rootField = p.rootField :=
  Page.u32At_setU32_other p _ id (by decide)

@[simp] theorem Page.freeField_setRoot : (p.setRoot id).freeField = p.freeField :=
  Page.u32At_setU32_other p _ id (by decide)

@[simp] theorem Page.lsnField_setLsn : (p.setLsn lsn).lsnField = lsn := by
  unfold Page.lsnField Page.setLsn
  rw [p.copied_slice_self _ (by rw [u64ToLeBytes_length]), u64FromLeBytes_toLeBytes]

@[simp] theorem Page.lsnField_setRoot : (p.setRoot id).lsnField = p.lsnField := by
  unfold Page.lsnField Page.setRoot Page.setU32
  rw [p.copied_slice_after _ (by rw [u32ToLeBytes_length]; decide)]

@[simp] theorem Page.lsnField_setFree : (p.setFree id).lsnField = p.lsnField := by
  unfold Page.lsnField Page.setFree Page.setU32
  rw [p.copied_slice_after _ (by rw [u32ToLeBytes_length]; decide)]

@[simp] theorem Page.rootField_setLsn : (p.setLsn lsn).rootField = p.rootField := by
  unfold Page.rootField Page.u32At Page.setLsn
  rw [p.copied_slice_before _ (by decide)]

@[simp] theorem Page.freeField_setLsn : (p.setLsn lsn).freeField = p.freeField := by
  unfold Page.freeField Page.u32At Page.setLsn
  rw [p.copied_slice_before _ (by decide)]

@[simp] theorem Page.hasMagic_setRoot : (p.setRoot id).hasMagic = p.hasMagic := by
  unfold Page.hasMagic Page.setRoot Page.setU32
  rw [p.copied_slice_before _ (by decide)]

@[simp] theorem Page.hasMagic_setFree : (p.setFree id).hasMagic = p.hasMagic := by
  unfold Page.hasMagic Page.setFree Page.setU32
  rw [p.copied_slice_before _ (by decide)]

@[simp] theorem Page.hasMagic_setLsn : (p.setLsn lsn).hasMagic = p.hasMagic := by
  unfold Page.hasMagic Page.setLsn
  rw [p.copied_slice_before _ (by decide)]

end Fields

@[simp] theorem Page.initialMeta_root : Page.initialMeta.rootField = 0 := by
  simp [Page.initialMeta]

@[simp] theorem Page.initialMeta_free : Page.initialMeta.freeField = u32Max := by
  simp [Page.initialMeta]

@[simp] theorem Page.initialMeta_lsn : Page.initialMeta.lsnField = 0 := by
  simp [Page.initialMeta]

@[simp] theorem Page.initialMeta_magic : Page.initialMeta.hasMagic := by
  simp only [Page.initialMeta, Page.hasMagic_setLsn, Page.hasMagic_setFree, Page.hasMagic_setRoot]
  decide +kernel

end MagnumDB
