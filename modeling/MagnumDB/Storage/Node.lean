import MagnumDB.Storage.Page

/-!
# B+ tree nodes and their page format

`Node`, `Node::encoded_size`, `Node::to_page` and `Node::from_page` of
`src/storage/btree.rs`. Every read of a range of the page and every copy into it
goes through `Page.slice` and `Page.copyFromSlice`, which panic exactly when the
source's slice expressions do.
-/

namespace MagnumDB

open ByteString

/-- `NODE_TYPE_LEAF`. -/
def nodeTypeLeaf : UInt8 := 0

/-- `NODE_TYPE_INTERNAL`. -/
def nodeTypeInternal : UInt8 := 1

/-- `LEAF_HEADER_SIZE`: type, record count, parent, next leaf. -/
def leafHeaderSize : Nat := 1 + 2 + 4 + 4

/-- `INTERNAL_HEADER_SIZE`: type, key count, parent. -/
def internalHeaderSize : Nat := 1 + 2 + 4

/-- `MAX_INLINE_VAL_SIZE`: longer values go to overflow pages. -/
def maxInlineValSize : Nat := 2000

/-- `MAX_KEY_SIZE`: longer keys are rejected. -/
def maxKeySize : Nat := 1024

structure LeafNode where
  parentPageId : Option PageId
  nextLeaf : Option PageId
  records : List (Bytes × Bytes)
  deriving DecidableEq

structure InternalNode where
  parentPageId : Option PageId
  keys : List Bytes
  children : List PageId
  deriving DecidableEq

/-- In-memory representation of a B+ tree node. -/
inductive Node where
  | leaf (l : LeafNode)
  | internal (i : InternalNode)
  deriving DecidableEq

/-- Bytes one record takes in a leaf page. -/
def recordSize (r : Bytes × Bytes) : Nat := 4 + r.1.length + 4 + r.2.length

/-- Bytes one separator takes in an internal page, not counting its child pointer. -/
def keySize (k : Bytes) : Nat := 4 + k.length

/-- `Node::encoded_size`. -/
def Node.encodedSize : Node → Nat
  | .leaf l => leafHeaderSize + (l.records.map recordSize).sum
  | .internal i => internalHeaderSize + i.children.length * 4 + (i.keys.map keySize).sum

/-! ## Serialization -/

/-- A page being filled, and the offset reached. -/
abbrev Cursor := Page × Nat

/-- Copy `bs` at the offset and move past it. -/
def Cursor.put (bs : Bytes) (c : Cursor) : Except Fail Cursor := do
  let page ← c.1.copyFromSlice c.2 bs
  pure (page, c.2 + bs.length)

/-- The loop over the records of a leaf. -/
def putRecords : List (Bytes × Bytes) → Cursor → Except Fail Cursor
  | [], c => pure c
  | (key, val) :: rest, c => do
    let c ← c.put (leBytes 4 key.length)
    let c ← c.put key
    let c ← c.put (leBytes 4 val.length)
    let c ← c.put val
    putRecords rest c

/-- The loop over the children of an internal node. -/
def putChildren : List PageId → Cursor → Except Fail Cursor
  | [], c => pure c
  | child :: rest, c => do
    let c ← c.put (u32ToLeBytes child)
    putChildren rest c

/-- The loop over the keys of an internal node. -/
def putKeys : List Bytes → Cursor → Except Fail Cursor
  | [], c => pure c
  | key :: rest, c => do
    let c ← c.put (leBytes 4 key.length)
    let c ← c.put key
    putKeys rest c

/-- `Node::to_page`. Record and key counts are written as `u16`. -/
def Node.toPage (n : Node) : Except Fail Page := do
  let size := n.encodedSize
  if size > pageSize then
    throw (.err (.nodeTooLarge size pageSize))
  match n with
  | .leaf l =>
    let c : Cursor := (Page.default, 0)
    let c ← c.put [nodeTypeLeaf]
    let c ← c.put (leBytes 2 l.records.length)
    let c ← c.put (u32ToLeBytes (l.parentPageId.getD u32Max))
    let c ← c.put (u32ToLeBytes (l.nextLeaf.getD u32Max))
    let c ← putRecords l.records c
    pure c.1
  | .internal i =>
    let c : Cursor := (Page.default, 0)
    let c ← c.put [nodeTypeInternal]
    let c ← c.put (leBytes 2 i.keys.length)
    let c ← c.put (u32ToLeBytes (i.parentPageId.getD u32Max))
    let c ← putChildren i.children c
    let c ← putKeys i.keys c
    pure c.1

/-! ## Deserialization -/

/-- `u32::MAX` on disk means "none". -/
def optionOfId (n : UInt32) : Option PageId := if n = u32Max then none else some n

/-- One length-prefixed byte string at `offset`, with the bound checks of the source:
`none` is the `break` of the loop. -/
def takeBlock (page : Page) (offset : Nat) : Except Fail (Option (Bytes × Nat)) := do
  if offset + 4 > pageSize then pure none
  else
    let len := leNat (← page.slice offset (offset + 4))
    let offset := offset + 4
    if offset + len > pageSize then pure none
    else
      let bs ← page.slice offset (offset + len)
      pure (some (bs, offset + len))

/-- `for _ in 0..num_elements` over the records of a leaf page. -/
def takeRecords (page : Page) : Nat → Nat → Except Fail (List (Bytes × Bytes))
  | 0, _ => pure []
  | n + 1, offset => do
    match ← takeBlock page offset with
    | none => pure []
    | some (key, offset) =>
      match ← takeBlock page offset with
      | none => pure []
      | some (val, offset) =>
        let rest ← takeRecords page n offset
        pure ((key, val) :: rest)

/-- The loop over child pointers; also returns the offset it stopped at. -/
def takeChildren (page : Page) : Nat → Nat → Except Fail (List PageId × Nat)
  | 0, offset => pure ([], offset)
  | n + 1, offset => do
    if offset + 4 > pageSize then pure ([], offset)
    else
      let child := u32FromLeBytes (← page.slice offset (offset + 4))
      let (rest, offset) ← takeChildren page n (offset + 4)
      pure (child :: rest, offset)

/-- The loop over the keys of an internal page. -/
def takeKeys (page : Page) : Nat → Nat → Except Fail (List Bytes)
  | 0, _ => pure []
  | n + 1, offset => do
    match ← takeBlock page offset with
    | none => pure []
    | some (key, offset) =>
      let rest ← takeKeys page n offset
      pure (key :: rest)

/-- `Node::from_page`. Anything but a leaf tag is read as an internal node. -/
def Node.fromPage (page : Page) : Except Fail Node := do
  let nodeType ← page.slice 0 1
  let numElements := leNat (← page.slice 1 3)
  let parentPageId := optionOfId (u32FromLeBytes (← page.slice 3 7))
  if nodeType = [nodeTypeLeaf] then
    let nextLeaf := optionOfId (u32FromLeBytes (← page.slice 7 11))
    let records ← takeRecords page numElements 11
    pure (.leaf { parentPageId, nextLeaf, records })
  else
    let (children, offset) ← takeChildren page (numElements + 1) 7
    let keys ← takeKeys page numElements offset
    pure (.internal { parentPageId, keys, children })

end MagnumDB
