import MagnumDB.Proof.Shutdown

/-!
# A crash in the middle of writing pages

The pages of the pool reach the file in no particular order, and a split changes
several of them. If the left half of a leaf is written and its new parent is not,
the keys of the right half are nowhere to be found, and the log does not have them:
they were logged before the last checkpoint.
-/

namespace MagnumDB

open TxLog WriteAheadLog Updates Prog

end MagnumDB
