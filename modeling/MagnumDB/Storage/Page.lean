import MagnumDB.Lib.Bytes
import MagnumDB.Lib.Prog

/-!
# Pages, page identifiers and failures

The vocabulary of the storage engine (`src/storage/pager.rs`): fixed-size pages,
their 32-bit identifiers, the layout of the metadata page, and the ways a call
can end other than by returning.
-/

namespace MagnumDB

open ByteString

/-- A byte string: keys, values, file contents. -/
abbrev Bytes := List UInt8

instance instLawfulBEqBytes : LawfulBEq Bytes := inferInstance

instance instLinearOrderByte : LinearOrder UInt8 where
  le_refl := UInt8.le_refl
  le_trans _ _ _ := UInt8.le_trans
  le_antisymm _ _ := UInt8.le_antisymm
  le_total := UInt8.le_total
  lt_iff_le_not_ge a b := by
    rw [UInt8.not_le]
    exact ⟨fun h => ⟨UInt8.le_of_lt h, h⟩, fun h => h.2⟩
  toDecidableLE := inferInstance
  toDecidableEq := inferInstance
  toDecidableLT := inferInstance

/-! ## How a call can fail -/

/-- The error values the storage engine builds. -/
inductive Error where
  /-- `Node::to_page` on a node that does not fit. -/
  | nodeTooLarge (size limit : Nat)
  /-- `BTree::insert` on a key above the limit. -/
  | keyTooLarge (size limit : Nat)
  /-- `Pager::open` on a file that does not start with the magic bytes. -/
  | badMagic
  deriving DecidableEq, Repr

/-- How a call can end without returning a value. -/
inductive Fail where
  /-- It returned an `Err`. -/
  | err (e : Error)
  /-- It panicked: an index or a slice out of range. -/
  | panic
  /-- The recursion or loop is still running when the fuel is used up. -/
  | outOfFuel
  /-- A monitor around the page store stopped it. -/
  | stopped
  deriving DecidableEq, Repr

/-! ## Page identifiers and pages -/

/-- `PageId` is a `u32`. -/
abbrev PageId := UInt32

/-- `u32::MAX`, the encoding of "no page". -/
def u32Max : UInt32 := 4294967295

/-- `PAGE_SIZE`. -/
def pageSize : Nat := 4096

/-- `u32::to_le_bytes`. -/
def u32ToLeBytes (n : UInt32) : Bytes := leBytes 4 n.toNat

/-- `u32::from_le_bytes`. -/
def u32FromLeBytes (bs : Bytes) : UInt32 := UInt32.ofNat (leNat bs)

/-- `u64::to_le_bytes`. -/
def u64ToLeBytes (n : UInt64) : Bytes := leBytes 8 n.toNat

/-- `u64::from_le_bytes`. -/
def u64FromLeBytes (bs : Bytes) : UInt64 := UInt64.ofNat (leNat bs)

@[simp] theorem u32ToLeBytes_length (n : UInt32) : (u32ToLeBytes n).length = 4 :=
  leBytes_length 4 _

@[simp] theorem u64ToLeBytes_length (n : UInt64) : (u64ToLeBytes n).length = 8 :=
  leBytes_length 8 _

@[simp] theorem u32FromLeBytes_toLeBytes (n : UInt32) : u32FromLeBytes (u32ToLeBytes n) = n := by
  unfold u32FromLeBytes u32ToLeBytes
  rw [leNat_leBytes_of_lt (by exact n.toNat_lt), UInt32.ofNat_toNat]

@[simp] theorem u64FromLeBytes_toLeBytes (n : UInt64) : u64FromLeBytes (u64ToLeBytes n) = n := by
  unfold u64FromLeBytes u64ToLeBytes
  rw [leNat_leBytes_of_lt (by exact n.toNat_lt), UInt64.ofNat_toNat]

/-- A page: exactly `pageSize` bytes. -/
structure Page where
  /-- The bytes. -/
  data : Bytes
  /-- There are `pageSize` of them. -/
  size_eq : data.length = pageSize

theorem Page.ext_data {p q : Page} (h : p.data = q.data) : p = q := by
  cases p; cases q; subst h; rfl

/-- `Page::default`: all zeros. -/
def Page.default : Page := ⟨List.replicate pageSize 0, List.length_replicate ..⟩

/-- `&page.data[a..b]`, which panics when the range is not inside the page. -/
def Page.slice (p : Page) (a b : Nat) : Except Fail Bytes :=
  if a ≤ b ∧ b ≤ pageSize then .ok (ByteString.slice p.data a b) else .error .panic

/-- The page with `bs` copied over the bytes from `off` on. -/
def Page.copied (p : Page) (off : Nat) (bs : Bytes) (h : off + bs.length ≤ pageSize) : Page :=
  ⟨overwrite p.data off bs, by rw [overwrite_length (by rw [p.size_eq]; exact h), p.size_eq]⟩

/-- `page.data[off..off + bs.len()].copy_from_slice(bs)`. -/
def Page.copyFromSlice (p : Page) (off : Nat) (bs : Bytes) : Except Fail Page :=
  if h : off + bs.length ≤ pageSize then .ok (p.copied off bs h) else .error .panic

/-- The `u32` stored at a fixed offset of a page. -/
def Page.u32At (p : Page) (off : Nat) : UInt32 :=
  u32FromLeBytes (ByteString.slice p.data off (off + 4))

/-- The page with `n` stored at a fixed offset that leaves room for it. -/
def Page.setU32 (p : Page) (off : Nat) (h : off + 4 ≤ pageSize) (n : UInt32) : Page :=
  p.copied off (u32ToLeBytes n) (by rw [u32ToLeBytes_length]; exact h)

theorem Page.u32At_setU32_self (p : Page) {off : Nat} (h : off + 4 ≤ pageSize) (n : UInt32) :
    (p.setU32 off h n).u32At off = n := by
  have hb : off + (u32ToLeBytes n).length ≤ p.data.length := by
    rw [p.size_eq, u32ToLeBytes_length]; exact h
  have hs := slice_overwrite_self hb
  rw [u32ToLeBytes_length] at hs
  show u32FromLeBytes (ByteString.slice (overwrite p.data off (u32ToLeBytes n)) off (off + 4)) = n
  rw [hs, u32FromLeBytes_toLeBytes]

/-- A field that does not overlap the written one keeps its value. -/
theorem Page.u32At_setU32_other (p : Page) {off off' : Nat} (h : off + 4 ≤ pageSize) (n : UInt32)
    (hd : off' + 4 ≤ off ∨ off + 4 ≤ off') : (p.setU32 off h n).u32At off' = p.u32At off' := by
  have hb : off + (u32ToLeBytes n).length ≤ p.data.length := by
    rw [p.size_eq, u32ToLeBytes_length]; exact h
  unfold Page.u32At Page.setU32 Page.copied
  rcases hd with hd | hd
  · rw [slice_overwrite_before hb hd]
  · rw [slice_overwrite_after hb (by rw [u32ToLeBytes_length]; exact hd)]

end MagnumDB
