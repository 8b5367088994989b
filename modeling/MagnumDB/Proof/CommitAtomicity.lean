import MagnumDB.Sql.AsciiHost
import MagnumDB.Sql.Transaction

/-!
# A COMMIT that fails

COMMIT writes the buffer out one key at a time. If a write is refused, those before it
stay, and a ROLLBACK that follows only logs a record. So the contents are what they
were before the COMMIT exactly if the writes before the refused one change nothing.
-/

namespace MagnumDB

open Text Executor SortedAssoc

end MagnumDB
