import MagnumDB.Lib.Lru
import MagnumDB.Storage.Pager

/-!
# The buffer pool

`src/storage/buffer_pool.rs`: an LRU cache of pages in front of the pager. A
write only touches the cached copy and marks it dirty; it reaches the file when
the page is evicted, when `flush_all` runs, or when the counter of dirty writes
reaches the sync interval. Allocation and freeing go past the cache, straight to
the pager.

The locks of the source are not modelled: this is the pool as one thread sees it.
-/

namespace MagnumDB

structure BufferPool where
  pager : Pager
  /-- Caches `PageId ↦ (page, is_dirty)`. -/
  cache : Lru PageId (Page × Bool)
  /-- Counter for auto-sync after so many dirty writes. -/
  dirtyWriteCount : Nat
  /-- Sync every so many dirty writes; 0 disables it. -/
  syncInterval : Nat

namespace BufferPool

/-- `BufferPool::new`. -/
def new (pager : Pager) (capacity : Nat) : BufferPool :=
  { pager, cache := Lru.empty (max capacity 1), dirtyWriteCount := 0, syncInterval := 0 }

/-- `BufferPool::with_sync_interval`. -/
def withSyncInterval (s : BufferPool) (interval : Nat) : BufferPool :=
  { s with syncInterval := interval }

/-- The eviction step of `put_and_evict`: a full cache gives up its last entry, which is
written to the file if it is dirty. -/
def evict (s : BufferPool) (pageId : PageId) : BufferPool :=
  if s.cache.len = s.cache.cap ∧ ¬ s.cache.contains pageId then
    match s.cache.popLru with
    | (some (evictId, (evictPage, evictDirty)), cache) =>
      { s with
        cache
        pager := if evictDirty then s.pager.writePage evictId evictPage else s.pager }
    | (none, _) => s
  else s

/-- `BufferPool::put_and_evict`. -/
def putAndEvict (s : BufferPool) (pageId : PageId) (page : Page) (isDirty : Bool) : BufferPool :=
  let s := s.evict pageId
  match s.cache.get pageId with
  | (some (_, currDirty), cache) => { s with cache := cache.put pageId (page, isDirty || currDirty) }
  | (none, cache) => { s with cache := cache.put pageId (page, isDirty) }

/-- `BufferPool::flush_all`: collect the dirty pages, mark everything clean, write them out
in cache order. -/
def flushAll (s : BufferPool) : BufferPool :=
  let toFlush := s.cache.entries.filter (fun e => e.2.2)
  { s with
    cache := s.cache.map (fun e => (e.1, false))
    pager := toFlush.foldl (fun pager e => pager.writePage e.1 e.2.1) s.pager }

/-- `BufferPool::flush_and_sync`. Syncing is not observable here: a write that was issued is
in the file. -/
def flushAndSync (s : BufferPool) : BufferPool := s.flushAll

/-- Count a dirty write; on the sync interval, start over and flush. -/
def countDirtyWrite (s : BufferPool) : BufferPool :=
  if s.syncInterval > 0 then
    if s.dirtyWriteCount + 1 ≥ s.syncInterval then
      { s with dirtyWriteCount := 0 }.flushAndSync
    else { s with dirtyWriteCount := s.dirtyWriteCount + 1 }
  else s

/-- `BufferPool::fetch_page`. -/
def fetchPage (s : BufferPool) (pageId : PageId) : Page × BufferPool :=
  match s.cache.get pageId with
  | (some (page, _), cache) => (page, { s with cache })
  | (none, _) =>
    let page := s.pager.readPage pageId
    (page, s.putAndEvict pageId page false)

/-- `BufferPool::mark_dirty`. -/
def markDirty (s : BufferPool) (pageId : PageId) : BufferPool :=
  let s :=
    match s.cache.get pageId with
    | (some (page, _), cache) => { s with cache := cache.put pageId (page, true) }
    | (none, _) => s
  s.countDirtyWrite

/-- `BufferPool::write_page`. A cached page is overwritten in place and keeps its flag until
`mark_dirty` sets it. -/
def writePage (s : BufferPool) (pageId : PageId) (page : Page) : BufferPool :=
  match s.cache.get pageId with
  | (some (_, dirty), cache) =>
    { s with cache := cache.put pageId (page, dirty) }.markDirty pageId
  | (none, _) => (s.putAndEvict pageId page true).countDirtyWrite

/-- `BufferPool::allocate_page`. -/
def allocatePage (s : BufferPool) : PageId × BufferPool :=
  let r := s.pager.allocatePage
  (r.1, { s with pager := r.2 })

/-- `BufferPool::free_page`. -/
def freePage (s : BufferPool) (pageId : PageId) : BufferPool :=
  { s with cache := s.cache.pop pageId, pager := s.pager.freePage pageId }

/-- `BufferPool::get_num_pages`. -/
def getNumPages (s : BufferPool) : UInt32 := s.pager.numPages

/-- `BufferPool::write_checkpoint_lsn`. -/
def writeCheckpointLsn (s : BufferPool) (lsn : UInt64) : BufferPool :=
  { s with pager := s.pager.writeCheckpointLsn lsn }

end BufferPool

end MagnumDB
