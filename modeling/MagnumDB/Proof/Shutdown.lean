import MagnumDB.Storage.Lifetime

/-!
# Writes after a clean shutdown

`close` stores the number of the last record as the checkpoint and empties the log.
The records after the next `open` are numbered from 1 again, so the recovery after a
crash takes the first of them for records from before the checkpoint and leaves
them out: as many as the closed database had logged.
-/

namespace MagnumDB

open TxLog WriteAheadLog Updates Prog

/-- A put or a delete outside of any transaction, of a key within the limit. -/
def DbOp.Plain : DbOp → Prop
  | .put txId key _ => txId = 0 ∧ key.length ≤ maxKeySize
  | .delete txId _ => txId = 0
  | _ => False

variable {ops : List DbOp}

/-- A database that holds `M` is closed and opened again, puts and deletes are made, and the process
ends. -/
structure ShutdownRun (crc : Bytes → UInt32) (dir : Files) (db₁ : Database) (w : WriteAheadLog)
    (M : Bytes → Option Bytes) (ops : List DbOp) (db₄ : Database) : Prop where
  walEnabled : db₁.config.walEnabled
  wal : db₁.wal = some w
  holds : HoldsMap db₁.index M
  /-- The flush of the close does not move the free-list head. -/
  flush : headOk false db₁.index.bufferPool.pager db₁.index.bufferPool.flushAll.pager
  plain : ∀ op ∈ ops, op.Plain
  /-- The close, the open and the calls; the calls meet the conditions of the index. -/
  run : ∃ db₂ db₃ rs, Database.close db₁ = (.ok (), db₂) ∧
    Opens crc db₁.config (db₂.files dir) db₃ ∧ DbSafe crc ops db₃ ∧ DbRuns crc ops db₃ rs db₄

/-- After such a run the log has the later calls, numbered from 1, but the checkpoint is the one of
the close. -/
theorem ShutdownRun.files {crc : Bytes → UInt32} {dir : Files} {db₁ db₄ : Database}
    {w : WriteAheadLog} {M : Bytes → Option Bytes} (h : ShutdownRun crc dir db₁ w M ops db₄)
    (hfit : ∀ r ∈ records ops, r.Fits) :
    (db₄.files dir).wal = fileOf crc (records ops) ∧ db₄.index.bufferPool.LsnIs w.lsn ∧
      db₄.index.bufferPool.cache.WF := by
  obtain ⟨db₂, db₃, rs, hclose, hopen, hsafe, hruns⟩ := h.run
  obtain ⟨db₂', hclose', hw₂, _, hfile₂, hlsn₂⟩ := h.holds.close h.wal h.flush
  obtain rfl : db₂' = db₂ := congrArg Prod.snd (hclose'.symm.trans hclose)
  -- the database that is opened after the close holds `M` and has an empty log
  have hfile₂' : FileHolds (db₂'.files dir).data M := hfile₂
  have hcheck₂ : (db₂'.files dir).data.checkpoint = w.lsn := hlsn₂
  have hwal₂ : (db₂'.files dir).wal = [] := by
    unfold Database.files
    rw [hw₂]
  obtain ⟨db₃', hopen', _, hw₃, _, hlsn₃, hM₃⟩ := hfile₂'.opens crc h.walEnabled hwal₂
  obtain rfl : db₃' = db₃ := hopen'.unique hopen
  rw [hcheck₂] at hlsn₃
  -- the later calls leave the checkpoint alone
  obtain ⟨rs', db₄', hruns', hM₄, _, hlsn₄⟩ := hM₃.dbRun (sized_of_fits hfit) hsafe
  obtain ⟨rfl, rfl⟩ := hruns.unique hruns'
  exact ⟨hruns.wal_file hw₃ dir, hlsn₄ _ hlsn₃, hM₄.wf⟩

end MagnumDB
