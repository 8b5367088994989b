import MagnumDB.Lib.Script
import MagnumDB.Lib.SortedMap
import MagnumDB.Sql.Types

/-!
# The executor and its database

An `Executor` of `src/sql/executor.rs` holds a reference to the database, and whether
it is in a transaction with the writes of that transaction. What it does is a program
that calls the database: which database is left open here, so the same program runs on
the storage engine and on a finite map. The counter of transaction ids belongs to the
process and is read by a call, too.
-/

namespace MagnumDB

/-- The calls of the executor: those of `Database`, and the counter of transaction ids. -/
inductive Call where
  | get (key : Bytes)
  | scanPrefix (pre : Bytes)
  | putWithTx (txId : UInt64) (key value : Bytes)
  | deleteWithTx (txId : UInt64) (key : Bytes)
  | beginTx (txId : UInt64)
  | commitTx (txId : UInt64)
  | rollbackTx (txId : UInt64)
  /-- `TX_ID_COUNTER.fetch_add(1)`. -/
  | fetchTxId

namespace Call

/-- What the call returns if it does not fail. -/
def Result : Call → Type
  | .get _ => Option Bytes
  | .scanPrefix _ => List (Bytes × Bytes)
  | .fetchTxId => UInt64
  | _ => Unit

def Answer (c : Call) : Type := Except Fail c.Result

end Call

/-- The fields of `Executor` apart from the reference to the database. -/
structure Executor where
  inTransaction : Bool
  currentTxId : UInt64
  /-- The writes of the transaction; `none` is a deletion. -/
  writeBuffer : SortedMap Bytes (Option Bytes)

/-- What the executor does. -/
abbrev Sql (α : Type) : Type := Client SqlFail Executor Call Call.Answer α

namespace Sql

/-- Make a call; if it fails, so does the statement. -/
def call (c : Call) : Sql c.Result := Client.ask c fun r => r.mapError SqlFail.db

def fail {α : Type} (e : SqlError) : Sql α := Client.fail (.sql e)

/-- A computation of the SQL layer that can fail. -/
def lift {α : Type} (x : Except SqlFail α) : Sql α := Client.lift x

end Sql

namespace Db

/-- `Database::get`. -/
def get (key : Bytes) : Sql (Option Bytes) := Sql.call (.get key)

/-- `Database::scan_prefix`. -/
def scanPrefix (pre : Bytes) : Sql (List (Bytes × Bytes)) := Sql.call (.scanPrefix pre)

/-- `Database::put`. -/
def put (key value : Bytes) : Sql Unit := Sql.call (.putWithTx 0 key value)

/-- `Database::delete`. -/
def delete (key : Bytes) : Sql Unit := Sql.call (.deleteWithTx 0 key)

end Db

namespace Executor

/-- A write: to the buffer of the transaction, or to the database. -/
def writeOrBuffer (key : Bytes) (value : Option Bytes) : Sql Unit := do
  let self ← Client.get
  if self.inTransaction then
    Client.modify fun self => { self with writeBuffer := self.writeBuffer.insert key value }
  else
    match value with
    | some value => Db.put key value
    | none => Db.delete key

end Executor

end MagnumDB
