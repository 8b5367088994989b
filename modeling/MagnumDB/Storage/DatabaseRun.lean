import MagnumDB.Lib.Updates
import MagnumDB.Storage.Database
import MagnumDB.Storage.Reopen
import MagnumDB.Wal.RecoverProof

/-!
# Runs of the database

Every call does two things that do not depend on each other: it adds a record to
the log, and it changes the index (`exec_eq`). So the log after a run has the
records of its calls, whether they succeeded or not, and the index went through a
run of its own.
-/

namespace MagnumDB

open TxLog Framing WriteAheadLog Updates Prog

/-- The calls of the database. The non-transactional ones are those with transaction id 0. -/
inductive DbOp where
  | put (txId : UInt64) (key value : Bytes)
  | delete (txId : UInt64) (key : Bytes)
  | begin (txId : UInt64)
  | commit (txId : UInt64)
  | rollback (txId : UInt64)
  | get (key : Bytes)

namespace DbOp

/-- The call on a database. Only `get` returns something. -/
def exec (crc : Bytes → UInt32) (op : DbOp) (fuel : Nat) : Prog Fail Database (Option Bytes) :=
  match op with
  | .put txId key value => Database.putWithTx crc fuel txId key value >>= fun _ => pure none
  | .delete txId key => Database.deleteWithTx crc fuel txId key >>= fun _ => pure none
  | .begin txId => Database.beginTx crc txId >>= fun _ => pure none
  | .commit txId => Database.commitTx crc txId >>= fun _ => pure none
  | .rollback txId => Database.rollbackTx crc txId >>= fun _ => pure none
  | .get key => Database.get fuel key

/-- The record the call logs. -/
def record : DbOp → Option Record
  | .put txId key value => some (.op txId (.put key value))
  | .delete txId key => some (.op txId (.delete key))
  | .begin txId => some (.begin txId)
  | .commit txId => some (.commit txId)
  | .rollback txId => some (.rollback txId)
  | .get _ => none

/-- What the call does to the index. -/
def onTree (op : DbOp) (fuel : Nat) : Prog Fail (BTree BufferPool) (Option Bytes) :=
  match op with
  | .put _ key value => (TreeOp.insert key value).exec BufferPool.store fuel
  | .delete _ key => (TreeOp.delete key).exec BufferPool.store fuel
  | .get key => (TreeOp.search key).exec BufferPool.store fuel
  | .commit _ => Prog.modify BTree.flushAndSync >>= fun _ => pure none
  | .begin _ | .rollback _ => pure none

/-- What the call does to the log. -/
def logged (crc : Bytes → UInt32) (op : DbOp) (wal : Option WriteAheadLog) : Option WriteAheadLog :=
  match op.record with
  | none => wal
  | some r => wal.map fun w => (append crc r w).2

end DbOp

theorem WriteAheadLog.append_ok (crc : Bytes → UInt32) (r : Record) (w : WriteAheadLog) :
    ∃ lsn w', append crc r w = (.ok lsn, w') := by
  cases r with
  | op tx entry => cases entry <;> exact ⟨_, _, rfl⟩
  | begin tx | commit tx | rollback tx => exact ⟨_, _, rfl⟩

theorem Database.log_eq (crc : Bytes → UInt32) (r : Record) (db : Database) :
    Database.log (append crc r) db
      = (.ok (), { db with wal := db.wal.map fun w => (append crc r w).2 }) := by
  obtain ⟨config, wal, index⟩ := db
  cases wal with
  | none => rfl
  | some w =>
    obtain ⟨lsn, w', h⟩ := append_ok crc r w
    simp only [Database.log, Option.map_some, h]
    rfl

theorem Database.onIndex_eq {α : Type} (x : Prog Fail (BTree BufferPool) α) (db : Database) :
    Database.onIndex x db = ((x db.index).1, { db with index := (x db.index).2 }) := rfl

theorem Database.log_onIndex (crc : Bytes → UInt32) (r : Record)
    (x : Prog Fail (BTree BufferPool) Unit) (db : Database) :
    ((Database.log (append crc r) >>= fun _ => Database.onIndex x) >>= fun _ =>
        (pure none : Prog Fail Database (Option Bytes))) db
      = (((x >>= fun _ => pure none) db.index).1,
          ⟨db.config, db.wal.map fun w => (append crc r w).2,
            ((x >>= fun _ => (pure none : Prog Fail _ (Option Bytes))) db.index).2⟩) := by
  rw [bind_assoc, bind_of_ok (Database.log_eq crc r db)]
  match hx : x db.index with
  | (.ok u, t) =>
    have hcall : Database.onIndex x { db with wal := db.wal.map fun w => (append crc r w).2 }
        = (.ok u, ⟨db.config, db.wal.map fun w => (append crc r w).2, t⟩) := by
      rw [Database.onIndex_eq, hx]
    rw [bind_of_ok hx, bind_of_ok hcall]
    rfl
  | (.error e, t) =>
    have hcall : Database.onIndex x { db with wal := db.wal.map fun w => (append crc r w).2 }
        = (.error e, ⟨db.config, db.wal.map fun w => (append crc r w).2, t⟩) := by
      rw [Database.onIndex_eq, hx]
    rw [bind_of_error hx, bind_of_error hcall]

theorem Database.log_only (crc : Bytes → UInt32) (r : Record) (db : Database) :
    (Database.log (append crc r) >>= fun _ => (pure none : Prog Fail Database (Option Bytes))) db
      = (.ok none, { db with wal := db.wal.map fun w => (append crc r w).2 }) := by
  rw [bind_of_ok (Database.log_eq crc r db)]
  rfl

/-- **The two sides of a call.** -/
theorem DbOp.exec_eq (crc : Bytes → UInt32) (op : DbOp) (n : Nat) (db : Database) :
    op.exec crc n db
      = ((op.onTree n db.index).1, ⟨db.config, op.logged crc db.wal, (op.onTree n db.index).2⟩) := by
  cases op with
  | put txId key value => exact Database.log_onIndex crc (.op txId (.put key value)) _ db
  | delete txId key => exact Database.log_onIndex crc (.op txId (.delete key)) _ db
  | begin txId => exact Database.log_only crc (.begin txId) db
  | commit txId => exact Database.log_onIndex crc (.commit txId) _ db
  | rollback txId => exact Database.log_only crc (.rollback txId) db
  | get key => rfl

variable {crc : Bytes → UInt32} {db : Database} {ops : List DbOp} {t : BTree BufferPool}
  {m : Bytes → Option Bytes}

variable {op : DbOp} {db' : Database} {fuel : Nat}

theorem DbOp.ends_iff {r : Except Fail (Option Bytes)} :
    Ends (op.exec crc) db (r, db') ↔ ∃ t, Ends op.onTree db.index (r, t) ∧
      db' = ⟨db.config, op.logged crc db.wal, t⟩ := by
  constructor
  · intro h
    obtain ⟨n, hn⟩ := h
    have hdb := congrArg Prod.snd ((op.exec_eq crc n db).symm.trans (hn n (Nat.le_refl n)))
    refine ⟨db'.index, ⟨n, fun m hm => ?_⟩, ?_⟩
    · have hm' := (op.exec_eq crc m db).symm.trans (hn m hm)
      have hr : (op.onTree m db.index).1 = r := congrArg Prod.fst hm'
      have ht : (op.onTree m db.index).2 = db'.index := congrArg (fun x => x.2.index) hm'
      exact Prod.ext hr ht
    · have hdb' : (⟨db.config, op.logged crc db.wal, (op.onTree n db.index).2⟩ : Database) = db' :=
        hdb
      rw [← hdb']
  · intro h
    obtain ⟨t, ⟨n, hn⟩, rfl⟩ := h
    refine ⟨n, fun m hm => ?_⟩
    rw [op.exec_eq crc m db, hn m hm]

/-! ## The log of a run -/

/-- The calls are made one after the other, with these results. -/
inductive DbRuns (crc : Bytes → UInt32) : List DbOp → Database →
    List (Except Fail (Option Bytes)) → Database → Prop where
  | nil (db : Database) : DbRuns crc [] db [] db
  | cons {op : DbOp} {ops : List DbOp} {db db₁ db₂ : Database} {r : Except Fail (Option Bytes)}
      {rs : List (Except Fail (Option Bytes))} : Ends (op.exec crc) db (r, db₁) →
      DbRuns crc ops db₁ rs db₂ → DbRuns crc (op :: ops) db (r :: rs) db₂

/-- The records of a run. -/
def records (ops : List DbOp) : List Record := ops.filterMap DbOp.record

theorem records_cons (op : DbOp) (ops : List DbOp) :
    records (op :: ops) = op.record.toList ++ records ops := by
  unfold records
  cases h : op.record with
  | none => simp [h]
  | some r => simp [h]

theorem DbOp.logged_eq {wal : Option WriteAheadLog} {w : WriteAheadLog} {n : Nat}
    (hwal : wal = some w) (hlsn : w.lsn = UInt64.ofNat n) :
    op.logged crc wal = some ⟨w.file ++ encodeFrom (recordBytes crc) n op.record.toList,
      UInt64.ofNat (n + op.record.toList.length)⟩ := by
  subst hwal
  unfold logged
  cases op.record with
  | none => simp [encodeFrom, ← hlsn]
  | some r => simp [encodeFrom, append_eq crc hlsn r]

/-- **The log has the records of all calls**, also of those that failed. -/
theorem DbRuns.log {rs : List (Except Fail (Option Bytes))} (h : DbRuns crc ops db rs db') :
    ∀ {w : WriteAheadLog} {n : Nat}, db.wal = some w → w.lsn = UInt64.ofNat n →
      db'.config = db.config ∧
      db'.wal = some ⟨w.file ++ encodeFrom (recordBytes crc) n (records ops),
        UInt64.ofNat (n + (records ops).length)⟩ := by
  induction h with
  | nil db =>
    intro w n hwal hlsn
    simp [records, encodeFrom, hwal, ← hlsn]
  | cons hends _ ih =>
    rename_i op ops db db₁ db₂ r rs _
    intro w n hwal hlsn
    obtain ⟨t, _, rfl⟩ := DbOp.ends_iff.mp hends
    obtain ⟨hconfig, hrest⟩ := ih (DbOp.logged_eq hwal hlsn) rfl
    refine ⟨hconfig, ?_⟩
    rw [hrest, records_cons, encodeFrom_append, List.append_assoc, List.length_append, Nat.add_assoc]

theorem DbRuns.wal_file {rs : List (Except Fail (Option Bytes))} (h : DbRuns crc ops db rs db')
    (hwal : db.wal = some ⟨[], 0⟩) (dir : Files) :
    (db'.files dir).wal = fileOf crc (records ops) := by
  obtain ⟨_, hwal'⟩ := h.log hwal (n := 0) rfl
  unfold Database.files
  rw [hwal']
  rfl

/-! ## The index of a run -/

theorem HoldsMap.wf (h : HoldsMap t m) : t.bufferPool.cache.WF := by
  obtain ⟨_, _, _, ⟨_, hat, _, _⟩, _, _⟩ := h
  exact hat.inv.1.wf

/-- Flushing leaves the bindings alone if it does not move the free-list head. -/
theorem HoldsMap.flush (h : HoldsMap t m)
    (hhead : headOk false t.bufferPool.pager t.bufferPool.flushAll.pager) :
    HoldsMap t.flushAndSync m := by
  obtain ⟨K, d, c, ⟨v, hat, hrep, hK⟩, hread, hm⟩ := h
  obtain ⟨hinv, hview, hroot⟩ := hat.inv.settles (BufferPool.flushAll_settles hat.inv.1.wf) hhead
  refine ⟨K, d, c, ⟨v, ⟨hinv, fun q hq => ?_, hat.rootId, hroot.trans hat.stored⟩, hrep, hK⟩, hread, hm⟩
  exact (hview q (hat.inv.1.used q hq).1).trans (hat.view q hq)

namespace DbOp

/-- The state of the index is one in which the call works. A put of a key above the limit is
refused in every state. -/
def Ok : DbOp → BTree BufferPool → Prop
  | .put _ key value, t => (TreeOp.insert key value).Ok false t
  | .delete _ key, t => (TreeOp.delete key).Ok false t
  | .get key, t => (TreeOp.search key).Ok false t
  | .commit _, t => headOk false t.bufferPool.pager t.bufferPool.flushAll.pager
  | .begin _, _ | .rollback _, _ => True

/-- The call is a put of a key above the limit. -/
def refused : DbOp → Bool
  | .put _ key _ => decide (maxKeySize < key.length)
  | _ => false

/-- The length of the value is one that can be stored. -/
def Sized : DbOp → Prop
  | .put _ _ value => value.length < 2 ^ 32
  | _ => True

/-- What the call writes to the index, in whatever transaction it is. -/
def write : DbOp → Option (Write Bytes Bytes)
  | .put _ key value => if maxKeySize < key.length then none else some (key, some value)
  | .delete _ key => some (key, none)
  | _ => none

end DbOp

/-- What the calls write to the index, in the order of the calls. -/
def writes (ops : List DbOp) : List (Write Bytes Bytes) := ops.filterMap DbOp.write

theorem writes_cons (op : DbOp) (ops : List DbOp) :
    writes (op :: ops) = op.write.toList ++ writes ops := by
  unfold writes
  cases h : op.write with
  | none => simp [h]
  | some w => simp [h]

/-- A call of the index that works does to the bindings what it should, and leaves the
checkpoint alone. -/
theorem HoldsMap.treeStep (op : TreeOp) (h : HoldsMap t m) (hsize : op.Sized)
    (hok : op.Ok false t) :
    ∃ r t', Ends (op.exec BufferPool.store) t (.ok r, t') ∧ HoldsMap t' (op.apply m) ∧
      ∀ c, t.bufferPool.LsnIs c → t'.bufferPool.LsnIs c := by
  obtain ⟨r, t', hends, h'⟩ := h.step hsize hok
  exact ⟨r, t', hends, h', fun c hc => h.keeps (BufferPool.lsnIs_kept false c) hok hends hc⟩

/-- **One call.** It succeeds unless it is refused, and the index changes by what it writes. -/
theorem HoldsMap.dbStep (h : HoldsMap t m) (hsize : op.Sized) (hok : op.Ok t) :
    ∃ r t', Ends op.onTree t (r, t') ∧ r.isOk = !op.refused ∧
      HoldsMap t' (applyAll m op.write.toList) ∧
      ∀ c, t.bufferPool.LsnIs c → t'.bufferPool.LsnIs c := by
  cases op with
  | put txId key value =>
    by_cases hkey : maxKeySize < key.length
    · -- the index refuses the key before it looks at anything
      refine ⟨.error (.err (.keyTooLarge key.length maxKeySize)), t,
        ends_bind_error _ (BTree.insert_refused hkey), ?_, ?_, fun _ hc => hc⟩
      · simp [DbOp.refused, hkey, Except.isOk, Except.toBool]
      · simpa [DbOp.write, hkey] using h
    · obtain ⟨r, t', hends, h', hlsn⟩ := h.treeStep (.insert key value)
        ⟨Nat.not_lt.mp hkey, hsize⟩ hok
      refine ⟨.ok r, t', hends, ?_, ?_, hlsn⟩
      · simp [DbOp.refused, hkey, Except.isOk, Except.toBool]
      · rw [show (DbOp.put txId key value).write = some (key, some value) from if_neg hkey]
        exact h'
  | delete txId key =>
    obtain ⟨r, t', hends, h', hlsn⟩ := h.treeStep (.delete key) trivial hok
    exact ⟨.ok r, t', hends, rfl, h', hlsn⟩
  | get key =>
    obtain ⟨r, t', hends, h', hlsn⟩ := h.treeStep (.search key) trivial hok
    exact ⟨.ok r, t', hends, rfl, h', hlsn⟩
  | commit txId =>
    refine ⟨.ok none, t.flushAndSync, ⟨0, fun _ _ => rfl⟩, rfl, h.flush hok, fun c hc => ?_⟩
    exact hc.settles (BufferPool.flushAll_settles h.wf)
  | begin txId | rollback txId => exact ⟨.ok none, t, ⟨0, fun _ _ => rfl⟩, rfl, h, fun _ hc => hc⟩

/-- Every call finds the index in a state in which it works. -/
def DbSafe (crc : Bytes → UInt32) : List DbOp → Database → Prop
  | [], _ => True
  | op :: ops, db => op.Ok db.index ∧
      ∀ r db', Ends (op.exec crc) db (r, db') → DbSafe crc ops db'

/-- **A run.** By induction on the calls. -/
theorem HoldsMap.dbRun :
    ∀ {db : Database} {m : Bytes → Option Bytes}, HoldsMap db.index m →
    (∀ op ∈ ops, op.Sized) → DbSafe crc ops db →
    ∃ rs db', DbRuns crc ops db rs db' ∧ HoldsMap db'.index (applyAll m (writes ops)) ∧
      rs.map Except.isOk = ops.map (fun op => !op.refused) ∧
      ∀ c, db.index.bufferPool.LsnIs c → db'.index.bufferPool.LsnIs c := by
  induction ops with
  | nil => exact fun {db m} h _ _ => ⟨[], db, .nil db, h, rfl, fun _ hc => hc⟩
  | cons op ops ih =>
    intro db m h hsize hsafe
    obtain ⟨hok, hrest⟩ := hsafe
    obtain ⟨r, t, hends, hr, h₁, hlsn₁⟩ := h.dbStep (hsize op List.mem_cons_self) hok
    let db₁ : Database := ⟨db.config, op.logged crc db.wal, t⟩
    have hends' : Ends (op.exec crc) db (r, db₁) := DbOp.ends_iff.mpr ⟨t, hends, rfl⟩
    have h₁' : HoldsMap db₁.index (applyAll m op.write.toList) := h₁
    obtain ⟨rs, db', hruns, h', hrs, hlsn⟩ := ih h₁'
      (fun x hx => hsize x (List.mem_cons_of_mem _ hx)) (hrest _ _ hends')
    refine ⟨r :: rs, db', .cons hends' hruns, ?_, by simp [hr, hrs], fun c hc => ?_⟩
    · rw [writes_cons, applyAll_append]
      exact h'
    · exact hlsn c (hlsn₁ c hc)

/-- A run is determined by its calls and the state it starts in. -/
theorem DbRuns.unique {db₁ : Database} {rs₁ : List (Except Fail (Option Bytes))}
    (h₁ : DbRuns crc ops db rs₁ db₁) :
    ∀ {rs₂ : List (Except Fail (Option Bytes))} {db₂ : Database},
    DbRuns crc ops db rs₂ db₂ → rs₁ = rs₂ ∧ db₁ = db₂ := by
  induction h₁ with
  | nil db => intro rs₂ db₂ h₂; cases h₂; exact ⟨rfl, rfl⟩
  | cons hends _ ih =>
    intro rs₂ db₂ h₂
    cases h₂ with
    | cons hends' hrest =>
      obtain ⟨rfl, rfl⟩ := Prod.mk.inj (hends.unique hends')
      obtain ⟨rfl, rfl⟩ := ih hrest
      exact ⟨rfl, rfl⟩

/-! ## Reading -/

/-- `get` returns this for the key. -/
def Database.Reads (db : Database) (key : Bytes) (value : Option Bytes) : Prop :=
  ∃ db', Ends (fun n => Database.get n key) db (.ok value, db')

theorem DbOp.onTree_agrees (op : DbOp) {n m : Nat} (h : n ≤ m) :
    Upto GaveUp (op.onTree n) (op.onTree m) := by
  cases op with
  | put txId key value => exact TreeOp.exec_agrees (.refl _) _ h
  | delete txId key => exact TreeOp.exec_agrees (.refl _) _ h
  | get key => exact TreeOp.exec_agrees (.refl _) _ h
  | commit txId | begin txId | rollback txId => exact .refl _

/-- Make the calls, each with the given fuel. -/
def evalDb (crc : Bytes → UInt32) (fuel : Nat) : List DbOp → Database →
    List (Except Fail (Option Bytes)) × Database
  | [], db => ([], db)
  | op :: ops, db =>
    let r := op.exec crc fuel db
    let rest := evalDb crc fuel ops r.2
    (r.1 :: rest.1, rest.2)

theorem DbOp.ends_of_finished (h : finished (op.exec crc fuel db).1) :
    Ends (op.exec crc) db (op.exec crc fuel db) := by
  have hexec := op.exec_eq crc fuel db
  have htree : Ends op.onTree db.index (op.onTree fuel db.index) := by
    refine MagnumDB.ends_of_finished (fun hnm => op.onTree_agrees hnm) ?_
    rw [hexec] at h
    exact h
  rw [hexec]
  exact DbOp.ends_iff.mpr ⟨_, htree, rfl⟩

/-- The state is one in which the call works, decided with the given fuel. -/
def DbOp.check (fuel : Nat) : DbOp → BTree BufferPool → Bool
  | .put _ key value, t => (TreeOp.insert key value).check false fuel t
  | .delete _ key, t => (TreeOp.delete key).check false fuel t
  | .get key, t => (TreeOp.search key).check false fuel t
  | .commit _, t => headOk false t.bufferPool.pager t.bufferPool.flushAll.pager
  | .begin _, _ | .rollback _, _ => true

theorem DbOp.ok_of_check (h : op.check fuel t) : op.Ok t := by
  cases op with
  | put txId key value =>
    have hins : (TreeOp.insert key value).check false fuel t := h
    exact TreeOp.ok_of_check hins
  | delete txId key =>
    have hdel : (TreeOp.delete key).check false fuel t := h
    exact TreeOp.ok_of_check hdel
  | get key =>
    have hget : (TreeOp.search key).check false fuel t := h
    exact TreeOp.ok_of_check hget
  | commit txId => exact h
  | begin txId | rollback txId => trivial

/-- Check every call with the given fuel. -/
def checkDb (crc : Bytes → UInt32) (fuel : Nat) : List DbOp → Database → Bool
  | [], _ => true
  | op :: ops, db =>
    let r := op.exec crc fuel db
    op.check fuel db.index && finished r.1 && checkDb crc fuel ops r.2

theorem dbSafe_of_check : ∀ {ops : List DbOp} {db : Database},
    checkDb crc fuel ops db →
    DbSafe crc ops db ∧ DbRuns crc ops db (evalDb crc fuel ops db).1 (evalDb crc fuel ops db).2
  | [], db, _ => ⟨trivial, .nil db⟩
  | op :: ops, db, h => by
    rw [checkDb, Bool.and_eq_true, Bool.and_eq_true] at h
    obtain ⟨⟨hop, hfin⟩, hrest⟩ := h
    obtain ⟨hsafe, hruns⟩ := dbSafe_of_check hrest
    have hends := DbOp.ends_of_finished hfin
    refine ⟨⟨DbOp.ok_of_check hop, fun r db' hends' => ?_⟩, .cons hends hruns⟩
    have hst : db' = (op.exec crc fuel db).2 := congrArg Prod.snd (hends'.unique hends)
    rw [hst]
    exact hsafe

/-- Decide something about the database after a concrete run. -/
def checkRunDb (crc : Bytes → UInt32) (fuel : Nat) (ops : List DbOp) (P : Database → Bool)
    (db : Database) : Bool :=
  checkDb crc fuel ops db && P (evalDb crc fuel ops db).2

theorem HoldsMap.dbEval {P : Database → Bool} (h : HoldsMap db.index m)
    (hsize : ∀ op ∈ ops, op.Sized) (hcheck : checkRunDb crc fuel ops P db) :
    ∃ rs db', DbRuns crc ops db rs db' ∧ DbSafe crc ops db ∧
      HoldsMap db'.index (applyAll m (writes ops)) ∧
      (∀ c, db.index.bufferPool.LsnIs c → db'.index.bufferPool.LsnIs c) ∧ P db' := by
  obtain ⟨hdb, hP⟩ := Bool.and_eq_true_iff.mp hcheck
  obtain ⟨hsafe, hruns⟩ := dbSafe_of_check hdb
  obtain ⟨rs, db', hruns', h', _, hlsn⟩ := h.dbRun hsize hsafe
  obtain ⟨rfl, rfl⟩ := hruns.unique hruns'
  exact ⟨_, _, hruns, hsafe, h', hlsn, hP⟩

end MagnumDB
