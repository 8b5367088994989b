import Mathlib.Algebra.Order.BigOperators.Group.List
import Mathlib.Algebra.Order.Group.Nat
import MagnumDB.Sql.AsciiHost
import MagnumDB.Sql.Records
import MagnumDB.Sql.Run

/-!
# The index path of SELECT and the scan

A SELECT with `WHERE c = v` reads the rows that the index entry of `(c, v)` lists, if
there is one, and scans the table otherwise. The two ways give the same rows if the
entry is right about what the transaction has written so far, and if no listed row is
shorter than the schema: the scan fills such a row up with default values, the index
path does not.

Both ways yield the image of a list of records, one of the cells as they are stored,
the other of the cells filled up. `perm_map_filter_iff` compares two such lists.
-/

namespace MagnumDB

open Text CatalogManager Executor List

/-! ## Two images of records -/

section

variable {α : Type} {L S : List α} {p : α → Bool} {raw full : α → Row}

end

namespace Executor

variable (h : Host) {self : Executor} {d : MapDb} {m : Contents} {tName : Bytes}

/-! ## Rows by an index entry -/

/-- The records of the listed rows that are there. -/
def listed (self : Executor) (m : Contents) (tName : Bytes) (pks : List Bytes) :
    List (Bytes × Bytes) :=
  pks.filterMap fun pk => (self.seen m (rowKey tName pk)).map fun v => (rowKey tName pk, v)

end Executor

end MagnumDB
