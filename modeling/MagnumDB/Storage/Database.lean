import MagnumDB.Storage.BTree
import MagnumDB.Wal.Log

/-!
# The database

`Database` of `src/storage/mod.rs`: the index and the write-ahead log in front of
it. A write is logged first and applied to the index at once, in whatever
transaction it is; `commit_tx` adds the COMMIT record and flushes the index.

Of a directory, the data file and the log file matter. A write that was issued is
in its file, so a crash leaves the files as they are at that moment, and what the
pool has not written is lost. Syncing a file has no effect here, and of the
configuration only what changes the behaviour is kept: whether there is a log, and
the sync interval of the pool.
-/

namespace MagnumDB

/-- What the database reads of `Config`. -/
structure Config where
  /-- `wal.enabled`. -/
  walEnabled : Bool
  /-- `storage.sync_interval`. -/
  syncInterval : Nat
  deriving DecidableEq

/-- `Config::default`. -/
def Config.default : Config := { walEnabled := true, syncInterval := 1000 }

/-- The files of a data directory, `magnum.data` and `magnum.wal`. -/
structure Files where
  data : DataFile
  wal : Bytes

/-- A directory that was just created. -/
def Files.empty : Files := ⟨DataFile.empty, []⟩

/-- `BTree::flush_all`. -/
def BTree.flushAll (t : BTree BufferPool) : BTree BufferPool :=
  { t with bufferPool := t.bufferPool.flushAll }

/-- `BTree::flush_and_sync`. -/
def BTree.flushAndSync (t : BTree BufferPool) : BTree BufferPool :=
  { t with bufferPool := t.bufferPool.flushAndSync }

structure Database where
  config : Config
  wal : Option WriteAheadLog
  index : BTree BufferPool

namespace Database

/-- What is left in the directory when the process ends here. Without a log in use, the log
file stays as it was. -/
def files (db : Database) (dir : Files) : Files :=
  { data := db.index.bufferPool.pager.file
    wal := match db.wal with
      | some w => w.file
      | none => dir.wal }

/-! ## Opening -/

/-- The first half of `Database::open`: the index as the data file has it, and the checkpoint
LSN, which is read through a second pager. -/
def openIndex (config : Config) (data : DataFile) : Except Fail (BTree BufferPool × UInt64) := do
  let pager ← Pager.open data
  let tmpPager ← Pager.open pager.file
  let checkpointLsn := tmpPager.readCheckpointLsn
  let bufferPool := (BufferPool.new pager 1024).withSyncInterval config.syncInterval
  let index ← BTree.new BufferPool.store bufferPool
  pure (index, checkpointLsn)

/-- One round of the recovery loop. -/
def replayEntry (fuel : Nat) : WalEntry → Prog Fail (BTree BufferPool) Unit
  | .put k v => BTree.insert BufferPool.store fuel k v
  | .delete k => BTree.delete BufferPool.store fuel k

/-- The recovery loop: the first entry that fails ends it. -/
def replayEntries (fuel : Nat) : List WalEntry → Prog Fail (BTree BufferPool) Unit
  | [] => pure ()
  | entry :: entries => do
    replayEntry fuel entry
    replayEntries fuel entries

/-- `Database::open`. Recovery always flushes: `entries_is_empty_hint` is constantly false. -/
def «open» (crc : Bytes → UInt32) (config : Config) (dir : Files) (fuel : Nat) :
    Except Fail Database := do
  let (index, checkpointLsn) ← openIndex config dir.data
  if config.walEnabled then
    let (entries, wal) := (WriteAheadLog.open dir.wal).recover crc checkpointLsn
    match replayEntries fuel entries index with
    | (.ok _, index) => pure { config, wal := some wal, index := index.flushAndSync }
    | (.error e, _) => throw e
  else
    pure { config, wal := none, index }

/-! ## The calls -/

/-- A call to the index. -/
def onIndex {α : Type} (x : Prog Fail (BTree BufferPool) α) : Prog Fail Database α :=
  Prog.zoom index (fun index db => { db with index }) x

/-- A call to the log, if there is one. -/
def log (x : Prog Fail WriteAheadLog UInt64) : Prog Fail Database Unit := fun db =>
  match db.wal with
  | none => (.ok (), db)
  | some w =>
    let r := x w
    (r.1.map fun _ => (), { db with wal := some r.2 })

variable (crc : Bytes → UInt32) (fuel : Nat)

/-- `Database::put_with_tx`. -/
def putWithTx (txId : UInt64) (key value : Bytes) : Prog Fail Database Unit := do
  log (WriteAheadLog.appendTxPut crc txId key value)
  onIndex (BTree.insert BufferPool.store fuel key value)

/-- `Database::put`. -/
def put (key value : Bytes) : Prog Fail Database Unit := putWithTx crc fuel 0 key value

/-- `Database::get`. -/
def get (key : Bytes) : Prog Fail Database (Option Bytes) :=
  onIndex (BTree.search BufferPool.store fuel key)

/-- `Database::scan_prefix`. -/
def scanPrefix (pre : Bytes) : Prog Fail Database (List (Bytes × Bytes)) :=
  onIndex (BTree.scanPrefix BufferPool.store fuel pre)

/-- `Database::scan`. -/
def scan : Prog Fail Database (List (Bytes × Bytes)) := onIndex (BTree.scan BufferPool.store fuel)

/-- `Database::delete_with_tx`. -/
def deleteWithTx (txId : UInt64) (key : Bytes) : Prog Fail Database Unit := do
  log (WriteAheadLog.appendTxDelete crc txId key)
  onIndex (BTree.delete BufferPool.store fuel key)

/-- `Database::delete`. -/
def delete (key : Bytes) : Prog Fail Database Unit := deleteWithTx crc fuel 0 key

/-- `Database::begin_tx`. -/
def beginTx (txId : UInt64) : Prog Fail Database Unit := log (WriteAheadLog.appendBegin crc txId)

/-- `Database::commit_tx`. The index is flushed even if there is no log. -/
def commitTx (txId : UInt64) : Prog Fail Database Unit := do
  log (WriteAheadLog.appendCommit crc txId)
  onIndex (Prog.modify BTree.flushAndSync)

/-- `Database::rollback_tx`. The index keeps what the transaction wrote. -/
def rollbackTx (txId : UInt64) : Prog Fail Database Unit :=
  log (WriteAheadLog.appendRollback crc txId)

/-- `Database::close`. -/
def close : Prog Fail Database Unit := do
  onIndex (Prog.modify BTree.flushAll)
  let db ← Prog.get
  match db.wal with
  | none => pure ()
  | some wal =>
    let currentLsn := wal.currentLsn
    onIndex (Prog.modify fun t => { t with
      bufferPool := t.bufferPool.writeCheckpointLsn currentLsn })
    Prog.modify fun db => { db with wal := some (WriteAheadLog.checkpoint wal).2 }

end Database

end MagnumDB
