import MagnumDB.Sql.MapDb
import MagnumDB.Storage.Contents

/-!
# The executor on the storage engine

The calls of the executor go to the `Database` of the storage layer. Two results
connect that with the database that is a map.

Calls that only read or log (`Call.isQuiet`) never change what the database holds, in
any state in which its tree can be read (`Engine.quiet`). Any program at all does to
the engine what it does to the map as long as each of its calls finds the engine in a
state in which it works (`Engine.run_refines`): the conditions are those of the storage
layer, call by call, and nothing about SQL enters.
-/

namespace MagnumDB

open Prog

/-- A database and the counter of transaction ids of the process. -/
structure Engine where
  db : Database
  nextTxId : UInt64

namespace Engine

variable (crc : Bytes → UInt32) (fuel : Nat)

/-- A call to the database. -/
def onDb {α : Type} (x : Prog Fail Database α) (e : Engine) : Except Fail α × Engine :=
  ((x e.db).1, { e with db := (x e.db).2 })

def handle : (c : Call) → Engine → c.Answer × Engine
  | .get key, e => onDb (Database.get fuel key) e
  | .scanPrefix pre, e => onDb (Database.scanPrefix fuel pre) e
  | .putWithTx txId key value, e => onDb (Database.putWithTx crc fuel txId key value) e
  | .deleteWithTx txId key, e => onDb (Database.deleteWithTx crc fuel txId key) e
  | .beginTx txId, e => onDb (Database.beginTx crc txId) e
  | .commitTx txId, e => onDb (Database.commitTx crc txId) e
  | .rollbackTx txId, e => onDb (Database.rollbackTx crc txId) e
  | .fetchTxId, e => (.ok e.nextTxId, { e with nextTxId := e.nextTxId + 1 })

end Engine

/-- The call changes nothing of what the database holds. -/
def Call.isQuiet : Call → Bool
  | .putWithTx .. | .deleteWithTx .. | .commitTx _ => false
  | _ => true

/-! ## Quiet calls -/

/-- The engine can be read, and holds what the map holds. -/
def Engine.Shows (bound : Nat) (e : Engine) (d : MapDb) : Prop :=
  e.db.index.Shows bound d.contents ∧ e.nextTxId = d.nextTxId

/-- **Reading.** A quiet call leaves the contents alone, and with enough fuel it is answered as
the map answers it. -/
theorem Engine.quiet {crc : Bytes → UInt32} {fuel bound : Nat} {e : Engine} {d : MapDb} {c : Call}
    (hc : c.isQuiet) (h : e.Shows bound d) :
    (bound ≤ fuel → (Engine.handle crc fuel c e).1 = (MapDb.handle c d).1) ∧
      (Engine.handle crc fuel c e).2.Shows bound (MapDb.handle c d).2 := by
  obtain ⟨hshows, htx⟩ := h
  cases c with
  | get key =>
    obtain ⟨hread, hkeep⟩ := hshows.search fuel key
    exact ⟨hread, hkeep, htx⟩
  | scanPrefix pre =>
    obtain ⟨hread, hkeep⟩ := hshows.scanPrefix fuel pre
    exact ⟨hread, hkeep, htx⟩
  | beginTx txId =>
    have hlog : Database.beginTx crc txId e.db = (.ok (), _) :=
      Database.log_eq crc (.begin txId) e.db
    refine ⟨fun _ => congrArg Prod.fst hlog, ?_, htx⟩
    show BTree.Shows bound (Database.beginTx crc txId e.db).2.index d.contents
    rw [hlog]
    exact hshows
  | rollbackTx txId =>
    have hlog : Database.rollbackTx crc txId e.db = (.ok (), _) :=
      Database.log_eq crc (.rollback txId) e.db
    refine ⟨fun _ => congrArg Prod.fst hlog, ?_, htx⟩
    show BTree.Shows bound (Database.rollbackTx crc txId e.db).2.index d.contents
    rw [hlog]
    exact hshows
  | fetchTxId =>
    refine ⟨fun _ => congrArg Except.ok htx, hshows, ?_⟩
    show e.nextTxId + 1 = d.nextTxId + 1
    rw [htx]
  | putWithTx txId key value => exact absurd hc (by simp [Call.isQuiet])
  | deleteWithTx txId key => exact absurd hc (by simp [Call.isQuiet])
  | commitTx txId => exact absurd hc (by simp [Call.isQuiet])

/-- **Quiet programs.** A program that makes quiet calls on the map makes the same calls on the
engine, ends alike and leaves the contents alone. -/
theorem Engine.run_quiet {α : Type} {crc : Bytes → UInt32} {fuel bound : Nat} {x : Sql α}
    {self : Executor} {e : Engine} {d : MapDb} (h : e.Shows bound d) (hfuel : bound ≤ fuel)
    (hquiet : (x self).Safe (fun c _ => c.isQuiet) MapDb.handle d) :
    (x.run (Engine.handle crc fuel) (self, e)).1 = (x.onMap (self, d)).1 ∧
      (x.run (Engine.handle crc fuel) (self, e)).2.1 = (x.onMap (self, d)).2.1 ∧
      (x.run (Engine.handle crc fuel) (self, e)).2.2.Shows bound (x.onMap (self, d)).2.2 := by
  have hcall : ∀ (c : Call) (d : MapDb) (e : Engine), e.Shows bound d → c.isQuiet →
      (MapDb.handle c d).1 = (Engine.handle crc fuel c e).1 ∧
        (Engine.handle crc fuel c e).2.Shows bound (MapDb.handle c d).2 := by
    intro c d e hshows hc
    obtain ⟨hanswer, hkeep⟩ := Engine.quiet hc hshows
    exact ⟨(hanswer hfuel).symm, hkeep⟩
  obtain ⟨hresult, hrel⟩ := Script.run_sim hcall (x self) h hquiet
  exact ⟨(congrArg Prod.fst hresult).symm, (congrArg Prod.snd hresult).symm, hrel⟩

/-! ## All calls -/

/-- The engine holds what the map holds. -/
def Engine.Holds (e : Engine) (d : MapDb) : Prop :=
  HoldsMap e.db.index d.contents.get ∧ e.nextTxId = d.nextTxId

/-- The index is in a state in which the call works, and there is fuel enough for it. -/
def Engine.Ok (crc : Bytes → UInt32) (fuel : Nat) (c : Call) (e : Engine) : Prop :=
  finished (Engine.handle crc fuel c e).1 ∧
    match c with
    | .get key => (TreeOp.search key).Ok false e.db.index
    | .scanPrefix pre => Calm (fun n => BTree.scanPrefix (guardedPool false) n pre) e.db.index
    | .putWithTx _ key value => (TreeOp.insert key value).Ok false e.db.index ∧ value.length < 2 ^ 32
    | .deleteWithTx _ key => (TreeOp.delete key).Ok false e.db.index
    | .commitTx _ => headOk false e.db.index.bufferPool.pager
        e.db.index.bufferPool.flushAll.pager
    | _ => True

section

variable {crc : Bytes → UInt32} {fuel : Nat} {e : Engine} {d : MapDb} {t : BTree BufferPool}

/-- A call of the index that ends with enough fuel has ended so with the fuel it had, if it
finished. -/
theorem eq_of_finished {α : Type} {x : Nat → Prog Fail (BTree BufferPool) α} {t' : BTree BufferPool}
    {r : Except Fail α} (hx : ∀ {n m}, n ≤ m → Upto GaveUp (x n) (x m)) (hends : Ends x t (r, t'))
    (hfin : finished (x fuel t).1) : x fuel t = (r, t') :=
  (ends_of_finished hx hfin).unique hends

theorem MapDb.write_get (d : MapDb) (key : Bytes) (value : Option Bytes) :
    (d.write key value).contents.get = Function.update d.contents.get key value := by
  funext k
  refine (d.contents.get_set key k value).trans ?_
  by_cases hk : k = key
  · rw [if_pos hk, hk, Function.update_self]
  · rw [if_neg hk, Function.update_of_ne hk]

theorem HoldsMap.insert_run {f : Bytes → Option Bytes} {key value : Bytes} (h : HoldsMap t f)
    (hok : (TreeOp.insert key value).Ok false t) (hlen : value.length < 2 ^ 32)
    (hfin : finished (BTree.insert BufferPool.store fuel key value t).1) :
    if maxKeySize < key.length then
      BTree.insert BufferPool.store fuel key value t
        = (.error (.err (.keyTooLarge key.length maxKeySize)), t)
    else ∃ t', BTree.insert BufferPool.store fuel key value t = (.ok (), t') ∧
      HoldsMap t' (Function.update f key (some value)) := by
  have hagree : ∀ {n m : Nat}, n ≤ m → Upto GaveUp (BTree.insert BufferPool.store n key value)
      (BTree.insert BufferPool.store m key value) :=
    fun hnm => BTree.insert_agrees (.refl _) hnm key value
  split
  · exact eq_of_finished hagree (BTree.insert_refused ‹_›) hfin
  · rename_i hkey
    obtain ⟨K, d, c, ht, hread, hm⟩ := h
    obtain ⟨hv, hins⟩ := hok (Nat.not_lt.mp hkey)
    obtain ⟨t', h', c', s, hends, ht', hslot, hrec⟩ :=
      BTree.insert_ends ht hread.genuine (Nat.not_lt.mp hkey) hins
    exact ⟨t', eq_of_finished hagree hends hfin, K, h', c', ht',
      BTree.records_upsert hrec hread (hslot.readable hv hlen), bindings_upsert hm hslot hrec⟩

theorem HoldsMap.delete_run {f : Bytes → Option Bytes} {key : Bytes} (h : HoldsMap t f)
    (hok : (TreeOp.delete key).Ok false t)
    (hfin : finished (BTree.delete BufferPool.store fuel key t).1) :
    ∃ t', BTree.delete BufferPool.store fuel key t = (.ok (), t') ∧
      HoldsMap t' (Function.update f key none) := by
  obtain ⟨K, d, c, ht, hread, hm⟩ := h
  obtain ⟨t', c', hends, ht', hrec⟩ := BTree.delete_ends ht hread.genuine hok
  exact ⟨t', eq_of_finished (fun hnm => BTree.delete_agrees (.refl _) hnm key) hends hfin, K, d, c',
    ht', BTree.records_erase hrec hread, bindings_erase hm hrec⟩

theorem Database.logged_onIndex (r : Record) (x : Prog Fail (BTree BufferPool) Unit)
    (db : Database) :
    (Database.log (WriteAheadLog.append crc r) >>= fun _ => Database.onIndex x) db
      = ((x db.index).1, ⟨db.config, db.wal.map fun w => (WriteAheadLog.append crc r w).2,
          (x db.index).2⟩) := by
  rw [bind_of_ok (Database.log_eq crc r db)]
  rfl

/-- **One call.** In a state in which it works, the engine answers as the map does. -/
theorem Engine.refines {c : Call} (h : e.Holds d) (hok : Engine.Ok crc fuel c e) :
    (Engine.handle crc fuel c e).1 = (MapDb.handle c d).1 ∧
      (Engine.handle crc fuel c e).2.Holds (MapDb.handle c d).2 := by
  obtain ⟨hfin, hok⟩ := hok
  obtain ⟨hholds, htx⟩ := h
  cases c with
  | get key =>
    obtain ⟨K, t, c, ht, hread, hm⟩ := hholds
    obtain ⟨t', hends, ht'⟩ := BTree.search_ends ht hread hok
    have hrun := eq_of_finished (fun hnm => BTree.search_agrees (.refl _) hnm key) hends hfin
    refine ⟨?_, ⟨K, t, c, ?_, hread, hm⟩, htx⟩
    · show (BTree.search BufferPool.store fuel key e.db.index).1 = _
      rw [hrun, hm key]
      rfl
    · show BTree.HoldsTree _ (BTree.search BufferPool.store fuel key e.db.index).2 K c
      rw [hrun]
      exact ht'
  | scanPrefix pre =>
    obtain ⟨K, t, c, ht, hread, hm⟩ := hholds
    obtain ⟨t', hends, ht'⟩ := BTree.scanPrefix_ends ht hread hok
    have hrun := eq_of_finished (fun hnm => BTree.scanPrefix_agrees (.refl _) hnm pre) hends hfin
    have hbindings : d.contents.entries = c.records.map BTree.binding :=
      SortedAssoc.sorted_ext d.contents.sorted (SortedAssoc.sorted_map Slot.value ht.sorted)
        fun k => ((SortedAssoc.lookup_map Slot.value k c.records).trans (hm k)).symm
    refine ⟨?_, ⟨K, t, c, ?_, hread, hm⟩, htx⟩
    · show (BTree.scanPrefix BufferPool.store fuel pre e.db.index).1
        = .ok (d.contents.select pre.isPrefixOf)
      rw [hrun, scanTake_eq_filter ht.sorted, SortedMap.select, hbindings, List.filter_map]
      rfl
    · show BTree.HoldsTree _ (BTree.scanPrefix BufferPool.store fuel pre e.db.index).2 K c
      rw [hrun]
      exact ht'
  | putWithTx txId key value =>
    have hcall : Database.putWithTx crc fuel txId key value e.db
        = ((BTree.insert BufferPool.store fuel key value e.db.index).1, _) :=
      Database.logged_onIndex (.op txId (.put key value)) _ e.db
    have hends : finished (BTree.insert BufferPool.store fuel key value e.db.index).1 :=
      (congrArg (fun r => finished r.1) hcall).symm.trans hfin
    have hrun := hholds.insert_run hok.1 hok.2 hends
    show (Database.putWithTx crc fuel txId key value e.db).1 = _ ∧
      Engine.Holds ⟨(Database.putWithTx crc fuel txId key value e.db).2, e.nextTxId⟩ _
    rw [hcall]
    unfold MapDb.handle
    dsimp only
    split at hrun
    · rename_i hkey
      rw [if_pos hkey, hrun]
      exact ⟨rfl, hholds, htx⟩
    · rename_i hkey
      obtain ⟨t', hrun, hholds'⟩ := hrun
      rw [if_neg hkey, hrun]
      refine ⟨rfl, ?_, htx⟩
      rw [MapDb.write_get]
      exact hholds'
  | deleteWithTx txId key =>
    have hcall : Database.deleteWithTx crc fuel txId key e.db
        = ((BTree.delete BufferPool.store fuel key e.db.index).1, _) :=
      Database.logged_onIndex (.op txId (.delete key)) _ e.db
    have hends : finished (BTree.delete BufferPool.store fuel key e.db.index).1 :=
      (congrArg (fun r => finished r.1) hcall).symm.trans hfin
    obtain ⟨t', hrun, hholds'⟩ := hholds.delete_run hok hends
    show (Database.deleteWithTx crc fuel txId key e.db).1 = _ ∧
      Engine.Holds ⟨(Database.deleteWithTx crc fuel txId key e.db).2, e.nextTxId⟩ _
    rw [hcall, hrun]
    refine ⟨rfl, ?_, htx⟩
    show HoldsMap t' (d.write key none).contents.get
    rw [MapDb.write_get]
    exact hholds'
  | beginTx txId =>
    have hlog : Database.beginTx crc txId e.db = (.ok (), _) :=
      Database.log_eq crc (.begin txId) e.db
    show (Database.beginTx crc txId e.db).1 = _ ∧
      Engine.Holds ⟨(Database.beginTx crc txId e.db).2, e.nextTxId⟩ _
    rw [hlog]
    exact ⟨rfl, hholds, htx⟩
  | rollbackTx txId =>
    have hlog : Database.rollbackTx crc txId e.db = (.ok (), _) :=
      Database.log_eq crc (.rollback txId) e.db
    show (Database.rollbackTx crc txId e.db).1 = _ ∧
      Engine.Holds ⟨(Database.rollbackTx crc txId e.db).2, e.nextTxId⟩ _
    rw [hlog]
    exact ⟨rfl, hholds, htx⟩
  | commitTx txId =>
    have hcall : Database.commitTx crc txId e.db = (.ok (), _) :=
      Database.logged_onIndex (.commit txId) (Prog.modify BTree.flushAndSync) e.db
    show (Database.commitTx crc txId e.db).1 = _ ∧
      Engine.Holds ⟨(Database.commitTx crc txId e.db).2, e.nextTxId⟩ _
    rw [hcall]
    exact ⟨rfl, hholds.flush hok, htx⟩
  | fetchTxId => exact ⟨congrArg Except.ok htx, hholds, congrArg (· + 1) htx⟩

/-- **Any program.** If every call finds the engine in a state in which it works, the executor
does to the engine what it does to the map. -/
theorem Engine.run_refines {α : Type} {x : Sql α} {self : Executor} (h : e.Holds d)
    (hsafe : (x self).Safe (Engine.Ok crc fuel) (Engine.handle crc fuel) e) :
    (x.run (Engine.handle crc fuel) (self, e)).1 = (x.onMap (self, d)).1 ∧
      (x.run (Engine.handle crc fuel) (self, e)).2.1 = (x.onMap (self, d)).2.1 ∧
      (x.run (Engine.handle crc fuel) (self, e)).2.2.Holds (x.onMap (self, d)).2.2 := by
  have hcall : ∀ (c : Call) (e : Engine) (d : MapDb), e.Holds d → Engine.Ok crc fuel c e →
      (Engine.handle crc fuel c e).1 = (MapDb.handle c d).1 ∧
        (Engine.handle crc fuel c e).2.Holds (MapDb.handle c d).2 :=
    fun _ _ _ hholds hok => Engine.refines hholds hok
  obtain ⟨hresult, hrel⟩ := Script.run_sim hcall (x self) h hsafe
  exact ⟨congrArg Prod.fst hresult, congrArg Prod.snd hresult, hrel⟩

end

end MagnumDB
