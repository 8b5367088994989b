import MagnumDB.Storage.Lifetime

/-!
# Transactions and crashes

A write of a transaction is applied to the index at once, and the pages it changed
may reach the file before the transaction ends: by the flush of another commit, by
the sync interval, or by an eviction. Recovery only redoes what is committed; it
takes nothing back.
-/

namespace MagnumDB

open TxLog WriteAheadLog Updates Prog

end MagnumDB
