import MagnumDB.Storage.Node
import MagnumDB.Storage.BufferPool

/-!
# The B+ tree

`BTree` of `src/storage/btree.rs`, function by function. The tree is written
against an interface of page calls, `PageStore`, so that the same code can be run
on the buffer pool, on an ideal page store, and on a store with a monitor around
it.

Functions that recurse or loop along pointers read from pages take `fuel`: on a
damaged tree the source does not terminate, and `Fail.outOfFuel` is what a model
can say about that. A failed call keeps the effects it already had.
-/

namespace MagnumDB

open ByteString

/-- The page calls the tree makes. -/
structure PageStore (σ : Type) where
  fetchPage : PageId → Prog Fail σ Page
  writePage : PageId → Page → Prog Fail σ Unit
  allocatePage : Prog Fail σ PageId
  freePage : PageId → Prog Fail σ Unit

/-- The buffer pool as a page store. None of its calls fail. -/
def BufferPool.store : PageStore BufferPool where
  fetchPage id := fun s => let r := s.fetchPage id; (.ok r.1, r.2)
  writePage id page := fun s => (.ok (), s.writePage id page)
  allocatePage := fun s => let r := s.allocatePage; (.ok r.1, r.2)
  freePage id := fun s => (.ok (), s.freePage id)

/-- The B+ tree manager. -/
structure BTree (σ : Type) where
  bufferPool : σ
  rootPageId : PageId

/-- `OVERFLOW_MAGIC`: the bytes of "OVRF". -/
def overflowMagic : Bytes := [79, 86, 82, 70]

/-- Whether a stored value has the form of an overflow handle. -/
def isOverflowHandle (valBytes : Bytes) : Bool :=
  valBytes.length == 12 && slice valBytes 0 4 == overflowMagic

/-- `binary_search` on sorted keys: `.ok` the position of the key, or `.error` the position
where it would be inserted. -/
def binarySearch (keys : List Bytes) (key : Bytes) : Except Nat Nat :=
  let pos := keys.findIdx (fun k => decide (¬ k < key))
  if keys[pos]? = some key then .ok pos else .error pos

/-- `binary_search(..).unwrap_or_else(|e| e)`. -/
def searchPos (keys : List Bytes) (key : Bytes) : Nat :=
  match binarySearch keys key with
  | .ok pos => pos
  | .error pos => pos

/-- The child a key is looked up in: the first one whose separator is greater. -/
def childIndex (keys : List Bytes) (key : Bytes) : Nat := keys.findIdx (fun k => decide (key < k))

/-- The records of a leaf with `key` bound to `storedVal`, given the position `binary_search`
found: overwritten in place if the key is there, inserted otherwise. -/
def upsertAt (records : List (Bytes × Bytes)) (pos : Nat) (key storedVal : Bytes) :
    List (Bytes × Bytes) :=
  match records[pos]? with
  | some r => if r.1 = key then records.set pos (r.1, storedVal)
      else records.insertIdx pos (key, storedVal)
  | none => records.insertIdx pos (key, storedVal)

def LeafNode.setParent (l : LeafNode) (id : PageId) : LeafNode := { l with parentPageId := some id }

def InternalNode.setParent (i : InternalNode) (id : PageId) : InternalNode :=
  { i with parentPageId := some id }

def Node.setParent (n : Node) (id : PageId) : Node :=
  match n with
  | .leaf l => .leaf (l.setParent id)
  | .internal i => .internal (i.setParent id)

namespace BTree

variable {σ : Type} (S : PageStore σ)

/-- A page call made from the tree. -/
def onPool {α : Type} (x : Prog Fail σ α) : Prog Fail (BTree σ) α :=
  Prog.zoom BTree.bufferPool (fun s t => { t with bufferPool := s }) x

/-! ## Opening -/

/-- The part of `BTree::new` that finds or creates the root. -/
def newRoot : Prog Fail σ PageId := do
  let metaPage ← S.fetchPage 0
  let storedRoot := metaPage.rootField
  if storedRoot = 0 ∨ storedRoot = u32Max then
    let newPageId ← S.allocatePage
    let emptyLeaf := Node.leaf { parentPageId := none, nextLeaf := none, records := [] }
    let page ← Prog.lift emptyLeaf.toPage
    S.writePage newPageId page
    let clonedPage ← S.fetchPage 0
    S.writePage 0 (clonedPage.setRoot newPageId)
    pure newPageId
  else
    pure storedRoot

/-- `BTree::new`. -/
def new (bufferPool : σ) : Except Fail (BTree σ) :=
  match newRoot S bufferPool with
  | (.ok rootPageId, bufferPool) => .ok { bufferPool, rootPageId }
  | (.error e, _) => .error e

/-- `BTree::persist_root_page_id`. -/
def persistRootPageId (rootPageId : PageId) : Prog Fail (BTree σ) Unit := do
  let clonedPage ← onPool (S.fetchPage 0)
  onPool (S.writePage 0 (clonedPage.setRoot rootPageId))

/-! ## Nodes and overflow chains -/

/-- `BTree::read_node`. -/
def readNode (pageId : PageId) : Prog Fail (BTree σ) Node := do
  let page ← onPool (S.fetchPage pageId)
  Prog.lift (Node.fromPage page)

/-- `BTree::write_node`. -/
def writeNode (pageId : PageId) (node : Node) : Prog Fail (BTree σ) Unit := do
  let page ← Prog.lift node.toPage
  onPool (S.writePage pageId page)

/-- Payload bytes of an overflow page. -/
def chunkSize : Nat := pageSize - 4

/-- An overflow page: the next page, then a chunk of the value. -/
def overflowPage (nextId : PageId) (chunk : Bytes) : Except Fail Page :=
  (Page.default.setNext nextId).copyFromSlice 4 chunk

/-- The loop of `write_overflow_value`, which runs over the chunks from last to first. Returns
the page of the first chunk. -/
def writeChunks : List Bytes → Prog Fail (BTree σ) (Option PageId)
  | [] => pure none
  | chunk :: rest => do
    let prevPageId ← writeChunks rest
    let pageId ← onPool S.allocatePage
    let page ← Prog.lift (overflowPage (prevPageId.getD u32Max) chunk)
    onPool (S.writePage pageId page)
    pure (some pageId)

/-- The record handle of an overflow chain. The length is written as a `u32`. -/
def overflowHandle (len : Nat) (firstPageId : PageId) : Bytes :=
  overflowMagic ++ (leBytes 4 len ++ u32ToLeBytes firstPageId)

/-- `BTree::write_overflow_value`. -/
def writeOverflowValue (value : Bytes) : Prog Fail (BTree σ) Bytes := do
  let first ← writeChunks S (chunks chunkSize value)
  pure (overflowHandle value.length (first.getD 0))

/-- The loop of `read_value_resolve_overflow`. -/
def resolveChain (totalLen : Nat) : Nat → PageId → Bytes → Prog Fail (BTree σ) Bytes
  | fuel, currPageId, result => do
    if currPageId = u32Max then pure result
    else
      match fuel with
      | 0 => Prog.fail .outOfFuel
      | fuel + 1 => do
        let page ← onPool (S.fetchPage currPageId)
        let takeLen := min (totalLen - result.length) chunkSize
        let part ← Prog.lift (page.slice 4 (4 + takeLen))
        resolveChain totalLen fuel page.next (result ++ part)

/-- `BTree::read_value_resolve_overflow`. -/
def readValueResolveOverflow (fuel : Nat) (valBytes : Bytes) : Prog Fail (BTree σ) Bytes :=
  if isOverflowHandle valBytes then
    resolveChain S (leNat (slice valBytes 4 8)) fuel (u32FromLeBytes (slice valBytes 8 12)) []
  else
    pure valBytes

/-- The loop of `free_overflow_chain`. -/
def freeChain : Nat → PageId → Prog Fail (BTree σ) Unit
  | fuel, currPageId => do
    if currPageId = u32Max then pure ()
    else
      match fuel with
      | 0 => Prog.fail .outOfFuel
      | fuel + 1 => do
        let page ← onPool (S.fetchPage currPageId)
        onPool (S.freePage currPageId)
        freeChain fuel page.next

/-- `BTree::free_overflow_chain`. -/
def freeOverflowChain (fuel : Nat) (valBytes : Bytes) : Prog Fail (BTree σ) Unit :=
  if isOverflowHandle valBytes then freeChain S fuel (u32FromLeBytes (slice valBytes 8 12))
  else pure ()

/-! ## Descent -/

/-- `BTree::find_leaf_for_insert`. -/
def findLeafForInsert (key : Bytes) : Nat → PageId → Node → Prog Fail (BTree σ) (PageId × LeafNode)
  | _, currentId, .leaf l => pure (currentId, l)
  | 0, _, .internal _ => Prog.fail .outOfFuel
  | fuel + 1, _, .internal i => do
    match i.children[childIndex i.keys key]? with
    | none => Prog.fail .panic
    | some childId =>
      let childNode ← readNode S childId
      findLeafForInsert key fuel childId childNode

/-- Read the root and descend to the leaf of `key`, as every operation starts. -/
def findLeaf (fuel : Nat) (key : Bytes) : Prog Fail (BTree σ) (PageId × LeafNode) := do
  let rootId := (← Prog.get).rootPageId
  let rootNode ← readNode S rootId
  findLeafForInsert S key fuel rootId rootNode

/-- `BTree::find_leftmost_leaf`. -/
def findLeftmostLeaf : Nat → PageId → Prog Fail (BTree σ) PageId
  | 0, _ => Prog.fail .outOfFuel
  | fuel + 1, pageId => do
    match ← readNode S pageId with
    | .leaf _ => pure pageId
    | .internal i =>
      match i.children with
      | [] => pure pageId
      | child :: _ => findLeftmostLeaf fuel child

/-! ## Insertion -/

/-- The loop of `split_internal_and_insert` over the children that moved. -/
def reparent (newParentId : PageId) : List PageId → Prog Fail (BTree σ) Unit
  | [] => pure ()
  | childId :: rest => do
    let child ← readNode S childId
    writeNode S childId (child.setParent newParentId)
    reparent newParentId rest

/-- A new root over two nodes, as both split functions end when there is no parent. `left` is
the left node still in memory; the right one is read back. -/
def growRoot (splitKey : Bytes) (leftId : PageId) (left : Node) (rightId : PageId) :
    Prog Fail (BTree σ) Unit := do
  let newRootId ← onPool S.allocatePage
  writeNode S newRootId
    (.internal { parentPageId := none, keys := [splitKey], children := [leftId, rightId] })
  writeNode S leftId (left.setParent newRootId)
  let right ← readNode S rightId
  writeNode S rightId (right.setParent newRootId)
  Prog.modify (fun t => { t with rootPageId := newRootId })
  persistRootPageId S newRootId

/-- The left half of an internal split. -/
def splitLeft (node : InternalNode) : InternalNode :=
  let mid := node.keys.length / 2
  { node with keys := node.keys.take mid, children := node.children.take (mid + 1) }

/-- The right half of an internal split. -/
def splitRight (node : InternalNode) : InternalNode :=
  let mid := node.keys.length / 2
  { node with keys := node.keys.drop (mid + 1), children := node.children.drop (mid + 1) }

/-- `BTree::split_internal_and_insert`. The climb to the next level is a parameter. -/
def splitInternalAndInsert (climb : PageId → Bytes → PageId → Prog Fail (BTree σ) Unit)
    (internalId : PageId) (node : InternalNode) : Prog Fail (BTree σ) Unit := do
  let mid := node.keys.length / 2
  match node.keys[mid]? with
  | none => Prog.fail .panic
  | some pushUpKey =>
    if mid + 1 > node.children.length then Prog.fail .panic
    else
      let newInternalId ← onPool S.allocatePage
      writeNode S internalId (.internal (splitLeft node))
      writeNode S newInternalId (.internal (splitRight node))
      reparent S newInternalId (splitRight node).children
      match node.parentPageId with
      | some parentId => climb parentId pushUpKey newInternalId
      | none => growRoot S pushUpKey internalId (.internal (splitLeft node)) newInternalId

/-- An internal node with a separator and the child to its right added. -/
def addChild (node : InternalNode) (key : Bytes) (rightChildId : PageId) : InternalNode :=
  let pos := searchPos node.keys key
  { node with
    keys := node.keys.insertIdx pos key
    children := node.children.insertIdx (pos + 1) rightChildId }

/-- `BTree::insert_into_internal`. A parent pointer that names a leaf is silently ignored. -/
def insertIntoInternal : Nat → PageId → Bytes → PageId → Prog Fail (BTree σ) Unit
  | 0, _, _, _ => Prog.fail .outOfFuel
  | fuel + 1, parentId, key, rightChildId => do
    match ← readNode S parentId with
    | .leaf _ => pure ()
    | .internal i =>
      if searchPos i.keys key + 1 > i.children.length then Prog.fail .panic
      else
        let updated := addChild i key rightChildId
        if (Node.internal updated).encodedSize > pageSize then
          splitInternalAndInsert S (insertIntoInternal fuel) parentId updated
        else
          writeNode S parentId (.internal updated)

/-- `BTree::split_leaf_and_insert`. -/
def splitLeafAndInsert (fuel : Nat) (leafId : PageId) (leafNode : LeafNode) :
    Prog Fail (BTree σ) Unit := do
  let mid := leafNode.records.length / 2
  let rightRecords := leafNode.records.drop mid
  match rightRecords with
  | [] => Prog.fail .panic
  | (splitKey, _) :: _ =>
    let newLeafId ← onPool S.allocatePage
    let newLeaf : LeafNode := { leafNode with records := rightRecords }
    let left : LeafNode :=
      { leafNode with nextLeaf := some newLeafId, records := leafNode.records.take mid }
    writeNode S leafId (.leaf left)
    writeNode S newLeafId (.leaf newLeaf)
    match leafNode.parentPageId with
    | some parentId => insertIntoInternal S fuel parentId splitKey newLeafId
    | none => growRoot S splitKey leafId (.leaf left) newLeafId

/-- What `insert` puts into the record: the value, or the handle of a new overflow chain. -/
def storedForm (value : Bytes) : Prog Fail (BTree σ) Bytes :=
  if value.length > maxInlineValSize then writeOverflowValue S value else pure value

/-- What `insert` does before it overwrites a record: free the chain of the old value. -/
def freeReplaced (fuel : Nat) (records : List (Bytes × Bytes)) (pos : Nat) (key : Bytes) :
    Prog Fail (BTree σ) Unit :=
  match records[pos]? with
  | some r => if r.1 = key then freeOverflowChain S fuel r.2 else pure ()
  | none => pure ()

/-- The end of `insert`: the leaf is written back, or split if it has grown too large. -/
def writeOrSplitLeaf (fuel : Nat) (leafId : PageId) (leafNode : LeafNode) :
    Prog Fail (BTree σ) Unit :=
  if (Node.leaf leafNode).encodedSize > pageSize then splitLeafAndInsert S fuel leafId leafNode
  else writeNode S leafId (.leaf leafNode)

/-- `BTree::insert`. -/
def insert (fuel : Nat) (key value : Bytes) : Prog Fail (BTree σ) Unit :=
  if key.length > maxKeySize then Prog.fail (.err (.keyTooLarge key.length maxKeySize))
  else do
    let storedVal ← storedForm S value
    let (leafId, leafNode) ← findLeaf S fuel key
    let pos := searchPos (leafNode.records.map Prod.fst) key
    freeReplaced S fuel leafNode.records pos key
    writeOrSplitLeaf S fuel leafId
      { leafNode with records := upsertAt leafNode.records pos key storedVal }

/-! ## Reading -/

/-- `BTree::search`. -/
def search (fuel : Nat) (key : Bytes) : Prog Fail (BTree σ) (Option Bytes) := do
  let (_, leafNode) ← findLeaf S fuel key
  match binarySearch (leafNode.records.map Prod.fst) key with
  | .error _ => pure none
  | .ok pos =>
    match leafNode.records[pos]? with
    | none => Prog.fail .panic
    | some r => do
      let resolved ← readValueResolveOverflow S fuel r.2
      pure (some resolved)

/-- The loop of `scan_prefix` over the records of one leaf. The flag says whether the scan went
beyond the prefix. -/
def scanRecords (fuel : Nat) (pre : Bytes) :
    List (Bytes × Bytes) → Prog Fail (BTree σ) (List (Bytes × Bytes) × Bool)
  | [] => pure ([], false)
  | r :: rest => do
    if pre = [] ∨ pre.isPrefixOf r.1 then
      let resolved ← readValueResolveOverflow S fuel r.2
      let (found, stop) ← scanRecords fuel pre rest
      pure ((r.1, resolved) :: found, stop)
    else if pre < r.1 then pure ([], true)
    else scanRecords fuel pre rest

/-- The outer loop of `scan_prefix` along the leaf chain. -/
def scanLeaves (pre : Bytes) : Nat → LeafNode → Prog Fail (BTree σ) (List (Bytes × Bytes))
  | 0, _ => Prog.fail .outOfFuel
  | fuel + 1, current => do
    let (found, stop) ← scanRecords S (fuel + 1) pre current.records
    if stop then pure found
    else
      match current.nextLeaf with
      | none => pure found
      | some nextId =>
        match ← readNode S nextId with
        | .internal _ => pure found
        | .leaf next => do
          let rest ← scanLeaves pre fuel next
          pure (found ++ rest)

/-- `BTree::scan_prefix`. -/
def scanPrefix (fuel : Nat) (pre : Bytes) : Prog Fail (BTree σ) (List (Bytes × Bytes)) := do
  let (_, leafNode) ← findLeaf S fuel pre
  scanLeaves S pre fuel leafNode

/-- `BTree::scan`. -/
def scan (fuel : Nat) : Prog Fail (BTree σ) (List (Bytes × Bytes)) := scanPrefix S fuel []

/-! ## Deletion -/

/-- The loop of `unlink_empty_leaf` along the leaf chain. Returns whether the leaf was found
and unlinked. -/
def unlinkWalk (leafId : PageId) (leafNode : LeafNode) :
    Nat → PageId → Prog Fail (BTree σ) Bool
  | 0, _ => Prog.fail .outOfFuel
  | fuel + 1, prevId => do
    match ← readNode S prevId with
    | .internal _ => pure false
    | .leaf prevLeaf =>
      if prevLeaf.nextLeaf = some leafId then
        writeNode S prevId (.leaf { prevLeaf with nextLeaf := leafNode.nextLeaf })
        onPool (S.freePage leafId)
        pure true
      else
        match prevLeaf.nextLeaf with
        | some next => unlinkWalk leafId leafNode fuel next
        | none => pure false

/-- `BTree::unlink_empty_leaf`. -/
def unlinkEmptyLeaf (fuel : Nat) (leafId : PageId) (leafNode : LeafNode) :
    Prog Fail (BTree σ) Unit := do
  let rootId := (← Prog.get).rootPageId
  let leftmostLeafId ← findLeftmostLeaf S fuel rootId
  if leftmostLeafId = leafId then
    writeNode S leafId (.leaf leafNode)
  else
    let found ← unlinkWalk S leafId leafNode fuel leftmostLeafId
    if found then pure () else writeNode S leafId (.leaf leafNode)

/-- The end of `delete`: a leaf that became empty is unlinked unless it is the root. -/
def writeOrUnlinkLeaf (fuel : Nat) (rootId leafId : PageId) (leafNode : LeafNode) :
    Prog Fail (BTree σ) Unit :=
  if leafNode.records.isEmpty ∧ leafId ≠ rootId then unlinkEmptyLeaf S fuel leafId leafNode
  else writeNode S leafId (.leaf leafNode)

/-- `BTree::delete`. -/
def delete (fuel : Nat) (key : Bytes) : Prog Fail (BTree σ) Unit := do
  let rootId := (← Prog.get).rootPageId
  let (leafId, leafNode) ← findLeaf S fuel key
  match binarySearch (leafNode.records.map Prod.fst) key with
  | .error _ => pure ()
  | .ok pos =>
    match leafNode.records[pos]? with
    | none => Prog.fail .panic
    | some removed =>
      freeOverflowChain S fuel removed.2
      writeOrUnlinkLeaf S fuel rootId leafId
        { leafNode with records := leafNode.records.eraseIdx pos }

end BTree

end MagnumDB
