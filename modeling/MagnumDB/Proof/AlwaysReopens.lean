import MagnumDB.Storage.Lifetime

/-!
# Opening after calls that failed

A write is logged before the index looks at it. A put that the index refuses has
returned an error by then, but its record is in the log, and recovery stops at it.
-/

namespace MagnumDB

open TxLog WriteAheadLog Updates Prog

end MagnumDB
