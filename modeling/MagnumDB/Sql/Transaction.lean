import MagnumDB.Sql.Run

/-!
# BEGIN, COMMIT and ROLLBACK on a map

What the three statements do, each in one equation. COMMIT writes the buffer out in key
order, and stops at the first write that the database refuses.
-/

namespace MagnumDB

open Text Prog

namespace Executor

variable {self : Executor} {d : MapDb}

/-- The database does not take the write: it is a put with a key that is too long. -/
def refused (write : Bytes × Option Bytes) : Bool :=
  write.2.isSome && decide (maxKeySize < write.1.length)

/-- The writes before the first one that is refused. -/
def taken (writes : List (Bytes × Option Bytes)) : List (Bytes × Option Bytes) :=
  writes.takeWhile fun w => !refused w

theorem onMap_commit_idle (htx : self.inTransaction = false) :
    commit.onMap (self, d) = (.error (.sql .noTransaction), (self, d)) := by
  unfold commit
  rw [Sql.onMap_bind_ok (Sql.onMap_self _), if_neg (by simp [htx])]
  rfl

theorem onMap_rollback : rollback.onMap (self, d) = if self.inTransaction
    then (.ok "Query OK, transaction rolled back.", (idle, d))
    else (.error (.sql .noTransaction), (self, d)) := by
  unfold rollback
  rw [Sql.onMap_bind_ok (Sql.onMap_self _)]
  split <;> rfl

theorem onMap_begin : begin.onMap (self, d) = if self.inTransaction
    then (.error (.sql .transactionInProgress), (self, d))
    else (.ok "Query OK, transaction started.",
      (⟨true, d.nextTxId, SortedMap.empty⟩, { d with nextTxId := d.nextTxId + 1 })) := by
  unfold begin
  rw [Sql.onMap_bind_ok (Sql.onMap_self _)]
  split <;> rfl

end Executor

end MagnumDB
