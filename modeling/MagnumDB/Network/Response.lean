import Mathlib.Algebra.Order.Group.Nat
import Mathlib.Algebra.Order.BigOperators.Group.List
import MagnumDB.Sql.Row

/-!
# Responses

`send_query_response` of `src/network/pgwire.rs`: the messages in which the result of a
query is sent. The rows are read back from the text that the executor made of them.
-/

namespace MagnumDB

open Text ByteString
open List hiding splitOn

/-- `to_be_bytes`, of a number that was cast to the width. -/
def beBytes (w n : Nat) : Bytes := (leBytes w n).reverse

def beNat (bs : Bytes) : Nat := leNat bs.reverse

/-- A message: its type, the length of the rest, and a body. -/
def message (kind : UInt8) (body : Bytes) : Bytes := kind :: (beBytes 4 (body.length + 4) ++ body)

/-- RowDescription: every column is a text. -/
def rowDescription (colNames : List Bytes) : Bytes :=
  message 84 (beBytes 2 colNames.length ++ colNames.flatMap fun col =>
    col ++ [0] ++ beBytes 4 0 ++ beBytes 2 0 ++ beBytes 4 25 ++ beBytes 2 (2 ^ 16 - 1) ++
      beBytes 4 (2 ^ 32 - 1) ++ beBytes 2 0)

/-- A value of a DataRow. -/
def dataCell (v : Bytes) : Bytes := beBytes 4 v.length ++ v

/-- DataRow. -/
def dataRow (rowVals : List Bytes) : Bytes :=
  message 68 (beBytes 2 rowVals.length ++ rowVals.flatMap dataCell)

/-- CommandComplete, whatever was executed. -/
def commandComplete : Bytes := message 67 (ofString "SELECT 1" ++ [0])

/-- `send_query_response`: the messages. A text of four lines has no end of its rows. -/
def sendQueryResponse (out : Bytes) : Except Fail (List Bytes) :=
  let ls := lines out
  if 4 ≤ ls.length && (ofString "+--").isPrefixOf (ls[0]?.getD []) then
    let colNames := (splitOn 124 (trim (trimMatches (· == 124) (ls[1]?.getD [])))).map trim
    if ls.length < 5 then .error .panic
    else
      let rowLines := ((ls.drop 3).take (ls.length - 2 - 3)).filter fun line => line.head? == some 124
      .ok (rowDescription colNames :: rowLines.map (fun line => dataRow (lineCells line)) ++
        [commandComplete])
  else .ok [commandComplete]

/-! ## What a client reads -/

/-- The values of a DataRow, none of which is NULL. -/
def readCells : Nat → Bytes → Option (List Bytes)
  | 0, body => if body.isEmpty then some [] else none
  | n + 1, body =>
    let len := beNat (body.take 4)
    if 2 ^ 31 ≤ len ∨ body.length < 4 + len then none
    else (readCells n (body.drop (4 + len))).map fun cells => (body.drop 4).take len :: cells

/-- A DataRow as the protocol says. Both lengths are signed. -/
def readDataRow : Bytes → Option (List Bytes)
  | [] => none
  | kind :: rest =>
    let len := beNat (rest.take 4)
    let count := beNat ((rest.drop 4).take 2)
    if kind ≠ 68 ∨ rest.length < 6 ∨ 2 ^ 31 ≤ len ∨ len ≠ rest.length ∨ 2 ^ 15 ≤ count then none
    else readCells count (rest.drop 6)

/-- The rows that a client gets. -/
def receivedRows (messages : List Bytes) : List (Option (List Bytes)) :=
  (messages.filter fun msg => msg.head? == some 68).map readDataRow

/-- A row that the lengths of a DataRow are wide enough for. -/
def fitsDataRow (row : List Bytes) : Bool :=
  decide (row.length < 2 ^ 15) && decide (6 + (row.map fun v => 4 + v.length).sum < 2 ^ 31)

section

@[simp] theorem beBytes_length (w n : Nat) : (beBytes w n).length = w := by
  unfold beBytes
  rw [length_reverse, leBytes_length]

theorem beNat_beBytes (w n : Nat) : beNat (beBytes w n) = n % 256 ^ w := by
  unfold beNat beBytes
  rw [reverse_reverse, leNat_leBytes]

theorem length_dataCells (row : List Bytes) :
    (row.flatMap dataCell).length = (row.map fun v => 4 + v.length).sum := by
  rw [length_flatMap]
  congr 1
  refine map_congr_left fun v _ => ?_
  rw [dataCell, length_append, beBytes_length]

theorem length_of_readCells {n : Nat} {body : Bytes} {cells : List Bytes}
    (h : readCells n body = some cells) : cells.length = n := by
  induction n generalizing body cells with
  | zero =>
    rw [readCells] at h
    split at h
    · injection h with h
      rw [← h]
      rfl
    · exact absurd h (by simp)
  | succ n ih =>
    rw [readCells] at h
    split at h
    · exact absurd h (by simp)
    · obtain ⟨rest, hrest, rfl⟩ := Option.map_eq_some_iff.mp h
      rw [length_cons, ih hrest]

/-- Values that are short enough are read back. -/
theorem readCells_dataCells {row : List Bytes} (h : ∀ v ∈ row, v.length < 2 ^ 31) :
    readCells row.length (row.flatMap dataCell) = some row := by
  induction row with
  | nil => rfl
  | cons v row ih =>
    have hv : v.length < 2 ^ 31 := h v mem_cons_self
    have hbytes : (v :: row).flatMap dataCell
        = beBytes 4 v.length ++ (v ++ row.flatMap dataCell) := by
      rw [flatMap_cons, dataCell, append_assoc]
    have htake : beNat (((v :: row).flatMap dataCell).take 4) = v.length := by
      rw [hbytes, take_left' (beBytes_length 4 _), beNat_beBytes]
      exact Nat.mod_eq_of_lt (by omega)
    have hdrop : ((v :: row).flatMap dataCell).drop 4 = v ++ row.flatMap dataCell := by
      rw [hbytes, drop_left' (beBytes_length 4 _)]
    have hlen : ((v :: row).flatMap dataCell).length
        = 4 + v.length + (row.flatMap dataCell).length := by
      rw [hbytes, length_append, length_append, beBytes_length, Nat.add_assoc]
    rw [length_cons, readCells, htake, if_neg (by omega), ← drop_drop, hdrop, drop_left, take_left,
      ih fun w hw => h w (mem_cons_of_mem _ hw)]
    rfl

/-- A row is read back from its DataRow exactly if the lengths are wide enough for it. -/
theorem readDataRow_dataRow_iff (row : List Bytes) :
    readDataRow (dataRow row) = some row ↔ fitsDataRow row := by
  set total := (beBytes 2 row.length ++ row.flatMap dataCell).length + 4 with htotal
  have hbody : total = 6 + (row.map fun v => 4 + v.length).sum := by
    rw [htotal, length_append, beBytes_length, length_dataCells]
    omega
  have hrest : dataRow row
      = 68 :: (beBytes 4 total ++ (beBytes 2 row.length ++ row.flatMap dataCell)) := rfl
  have hlength : (beBytes 4 total ++ (beBytes 2 row.length ++ row.flatMap dataCell)).length = total := by
    rw [length_append, beBytes_length, htotal, Nat.add_comm]
  rw [hrest, readDataRow, take_left' (beBytes_length 4 _), drop_left' (beBytes_length 4 _),
    take_left' (beBytes_length 2 _), beNat_beBytes, beNat_beBytes, hlength]
  unfold fitsDataRow
  rw [Bool.and_eq_true, decide_eq_true_iff, decide_eq_true_iff, ← hbody]
  constructor
  · intro hread
    split at hread
    · exact absurd hread (by simp)
    · -- the number of values that were read is the one in the message
      have hcount := length_of_readCells hread
      omega
  · rintro ⟨hcount, hlen⟩
    have hshort : ∀ v ∈ row, v.length < 2 ^ 31 := by
      intro v hv
      have hle : 4 + v.length ≤ (row.map fun v => 4 + v.length).sum :=
        le_sum_of_mem (mem_map_of_mem hv)
      omega
    have hdrop : (beBytes 4 total ++ (beBytes 2 row.length ++ row.flatMap dataCell)).drop 6
        = row.flatMap dataCell := by
      rw [← append_assoc]
      exact drop_left' (by rw [length_append, beBytes_length, beBytes_length])
    have hmod : row.length % 256 ^ 2 = row.length := Nat.mod_eq_of_lt (by omega)
    rw [hdrop, hmod, if_neg]
    · exact readCells_dataCells hshort
    · rintro (hkind | hbad | hbad | hbad | hbad)
      · exact hkind rfl
      all_goals omega

end

end MagnumDB
