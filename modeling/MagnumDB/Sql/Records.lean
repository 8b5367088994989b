import MagnumDB.Sql.MapDb

/-!
# Records of rows

What an executor sees under a key, what it scans, and the rows that it reads from
records: small facts that the statements about rows are made of.
-/

namespace MagnumDB

open Text List

namespace Executor

variable {self : Executor} {m : Contents} {tName : Bytes}

/-! ## Keys -/

variable {schema : Option TableSchema} {rows : List Row}

end Executor

end MagnumDB
