import Mathlib.Logic.Function.Basic
import MagnumDB.Storage.BufferPool

/-!
# The buffer pool as several threads see it

The calls of `src/storage/buffer_pool.rs` are made of sections, each under a lock that is
given back before the next one: another thread may come in between. A page in the cache is a
reference that threads keep beyond the lock of the cache. Here one thread fetches a page, one
writes it and one flushes the pool, section by section, in any order; other threads use other
pages, which pushes entries out of the cache.
-/

namespace MagnumDB

/-- `PageRef`, a shared page. -/
abbrev PageRef := Nat

structure SharedPool where
  pager : Pager
  /-- Caches `PageId ↦ (reference, is_dirty)`. -/
  cache : Lru PageId (PageRef × Bool)
  /-- The page behind each reference. -/
  pages : PageRef → Page
  /-- The reference that `Arc::new` makes next. -/
  nextRef : PageRef
  dirtyWriteCount : Nat
  syncInterval : Nat

namespace SharedPool

/-! ## The sections -/

/-- `Arc::new(RwLock::new(page))`. -/
def newRef (s : SharedPool) (page : Page) : PageRef × SharedPool :=
  (s.nextRef, { s with pages := Function.update s.pages s.nextRef page, nextRef := s.nextRef + 1 })

/-- The first section of `fetch_page` and of `write_page`. -/
def lookup (s : SharedPool) (pageId : PageId) : Option PageRef × SharedPool :=
  ((s.cache.get pageId).1.map Prod.fst, { s with cache := (s.cache.get pageId).2 })

/-- The eviction step of `put_and_evict`. -/
def evict (s : SharedPool) (pageId : PageId) : SharedPool :=
  if s.cache.len = s.cache.cap ∧ ¬ s.cache.contains pageId then
    match s.cache.popLru with
    | (some (evictId, (evictRef, evictDirty)), cache) =>
      { s with
        cache
        pager := if evictDirty then s.pager.writePage evictId (s.pages evictRef) else s.pager }
    | (none, _) => s
  else s

/-- `put_and_evict`, one section. -/
def putAndEvict (s : SharedPool) (pageId : PageId) (pageRef : PageRef) (isDirty : Bool) :
    SharedPool :=
  let s := s.evict pageId
  match s.cache.get pageId with
  | (some (_, currDirty), cache) =>
    { s with cache := cache.put pageId (pageRef, isDirty || currDirty) }
  | (none, cache) => { s with cache := cache.put pageId (pageRef, isDirty) }

/-- `*guard = page.clone()`. -/
def overwrite (s : SharedPool) (pageRef : PageRef) (page : Page) : SharedPool :=
  { s with pages := Function.update s.pages pageRef page }

/-- The section of `mark_dirty`. A page that is not in the cache stays unmarked. -/
def setDirty (s : SharedPool) (pageId : PageId) : SharedPool :=
  match s.cache.get pageId with
  | (some (pageRef, _), cache) => { s with cache := cache.put pageId (pageRef, true) }
  | (none, _) => s

/-- The section that counts dirty writes, and whether it is time to flush. -/
def countDirtyWrite (s : SharedPool) : Bool × SharedPool :=
  if s.syncInterval > 0 then
    if s.dirtyWriteCount + 1 ≥ s.syncInterval then (true, { s with dirtyWriteCount := 0 })
    else (false, { s with dirtyWriteCount := s.dirtyWriteCount + 1 })
  else (false, s)

/-- The first section of `flush_all`: collect the dirty pages and mark everything clean. -/
def collect (s : SharedPool) : List (PageId × PageRef) × SharedPool :=
  ((s.cache.entries.filter fun e => e.2.2).map fun e => (e.1, e.2.1),
    { s with cache := s.cache.map fun e => (e.1, false) })

/-- The second section of `flush_all`: write out what was collected, as it is now. -/
def writeOut (s : SharedPool) (toFlush : List (PageId × PageRef)) : SharedPool :=
  { s with pager := toFlush.foldl (fun pager e => pager.writePage e.1 (s.pages e.2)) s.pager }

/-- What `fetch_page` returns to a thread that is alone. -/
def fetchPage (s : SharedPool) (pageId : PageId) : Page :=
  match s.cache.find pageId with
  | some (pageRef, _) => s.pages pageRef
  | none => s.pager.readPage pageId

end SharedPool

/-! ## The three calls -/

/-- Where a `fetch_page` is: its next section. -/
inductive Fetching where
  | lookup
  | read
  | put (page : Page)
  | returned

/-- Where a `write_page` is: its next section. -/
inductive Writing where
  | lookup
  | overwrite (pageRef : PageRef)
  | mark
  | put
  | count
  | collect
  | writeOut (toFlush : List (PageId × PageRef))
  | returned

/-- Where a `flush_all` is: its next section. -/
inductive Flushing where
  | collect
  | writeOut (toFlush : List (PageId × PageRef))
  | returned

/-- The pool, and three calls on it. -/
structure PoolRace where
  pool : SharedPool
  fetching : Fetching
  writing : Writing
  flushing : Flushing

/-- Whose section comes next. -/
inductive PoolEvent where
  | fetch
  | write
  | flush
  /-- Another thread looks a page up. -/
  | touch (pageId : PageId)
  /-- Another thread puts a page into the cache. -/
  | put (pageId : PageId) (page : Page) (isDirty : Bool)

namespace PoolRace

/-- Three calls that have not begun. -/
def begin (pool : SharedPool) : PoolRace := ⟨pool, .lookup, .lookup, .collect⟩

/-- The next section of `fetch_page(p)`. -/
def fetchStep (p : PageId) (r : PoolRace) : PoolRace :=
  match r.fetching with
  | .lookup =>
    match r.pool.lookup p with
    | (some _, pool) => { r with pool, fetching := .returned }
    | (none, pool) => { r with pool, fetching := .read }
  | .read => { r with fetching := .put (r.pool.pager.readPage p) }
  | .put page =>
    { r with
      pool := (r.pool.newRef page).2.putAndEvict p (r.pool.newRef page).1 false
      fetching := .returned }
  | .returned => r

/-- The next section of `write_page(p, x)`. -/
def writeStep (p : PageId) (x : Page) (r : PoolRace) : PoolRace :=
  match r.writing with
  | .lookup =>
    match r.pool.lookup p with
    | (some pageRef, pool) => { r with pool, writing := .overwrite pageRef }
    | (none, pool) => { r with pool, writing := .put }
  | .overwrite pageRef => { r with pool := r.pool.overwrite pageRef x, writing := .mark }
  | .mark => { r with pool := r.pool.setDirty p, writing := .count }
  | .put =>
    { r with
      pool := (r.pool.newRef x).2.putAndEvict p (r.pool.newRef x).1 true
      writing := .count }
  | .count =>
    { r with
      pool := r.pool.countDirtyWrite.2
      writing := if r.pool.countDirtyWrite.1 then .collect else .returned }
  | .collect => { r with pool := r.pool.collect.2, writing := .writeOut r.pool.collect.1 }
  | .writeOut toFlush => { r with pool := r.pool.writeOut toFlush, writing := .returned }
  | .returned => r

/-- The next section of `flush_all()`. -/
def flushStep (r : PoolRace) : PoolRace :=
  match r.flushing with
  | .collect => { r with pool := r.pool.collect.2, flushing := .writeOut r.pool.collect.1 }
  | .writeOut toFlush => { r with pool := r.pool.writeOut toFlush, flushing := .returned }
  | .returned => r

/-- One section. -/
def step (p : PageId) (x : Page) (r : PoolRace) : PoolEvent → PoolRace
  | .fetch => r.fetchStep p
  | .write => r.writeStep p x
  | .flush => r.flushStep
  | .touch q => { r with pool := (r.pool.lookup q).2 }
  | .put q page isDirty =>
    { r with pool := (r.pool.newRef page).2.putAndEvict q (r.pool.newRef page).1 isDirty }

/-- Sections in some order. -/
def run (p : PageId) (x : Page) (events : List PoolEvent) (r : PoolRace) : PoolRace :=
  events.foldl (step p x) r

/-- The three calls have returned. -/
def returned (r : PoolRace) : Bool :=
  match r.fetching, r.writing, r.flushing with
  | .returned, .returned, .returned => true
  | _, _, _ => false

end PoolRace

/-- Other threads use other pages, below the last page id there can be. -/
def PoolEvent.foreign (p : PageId) : PoolEvent → Bool
  | .touch q => q != p
  | .put q _ _ => q != p && q != u32Max
  | _ => true

end MagnumDB
