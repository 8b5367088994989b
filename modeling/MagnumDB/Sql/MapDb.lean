import MagnumDB.Storage.Node
import MagnumDB.Sql.Query

/-!
# A database that is a map

What `Database` is for: a finite map from keys to values, with a limit on the length of
a key. The executor runs on it as it does on the storage engine, and what a statement
means is said in terms of it.
-/

namespace MagnumDB

open Text Prog CatalogManager

/-- What a database holds. -/
abbrev Contents : Type := SortedMap Bytes Bytes

/-- A finite map, and the counter of transaction ids. -/
structure MapDb where
  contents : Contents
  nextTxId : UInt64

namespace MapDb

/-- Change a key, if it is within the limit. -/
def write (d : MapDb) (key : Bytes) (value : Option Bytes) : MapDb :=
  { d with contents := d.contents.set key value }

/-- The calls. Writes take effect at once, in whatever transaction they are. -/
def handle : (c : Call) → MapDb → c.Answer × MapDb
  | .get key, d => (.ok (d.contents.get key), d)
  | .scanPrefix pre, d => (.ok (d.contents.select pre.isPrefixOf), d)
  | .putWithTx _ key value, d =>
    if maxKeySize < key.length then (.error (.err (.keyTooLarge key.length maxKeySize)), d)
    else (.ok (), d.write key (some value))
  | .deleteWithTx _ key, d => (.ok (), d.write key none)
  | .beginTx _, d => (.ok (), d)
  | .commitTx _, d => (.ok (), d)
  | .rollbackTx _, d => (.ok (), d)
  | .fetchTxId, d => (.ok d.nextTxId, { d with nextTxId := d.nextTxId + 1 })

end MapDb

/-- What the executor does to a map. -/
def Sql.onMap {α : Type} (x : Sql α) : Prog SqlFail (Executor × MapDb) α := x.run MapDb.handle

namespace Sql

variable {α β : Type} {self : Executor} {d : MapDb}

theorem onMap_bind (x : Sql α) (f : α → Sql β) :
    (x >>= f).onMap = x.onMap >>= fun a => (f a).onMap := Client.run_bind MapDb.handle x f

variable {f : α → Sql β} {x : Sql α} {γ : Type}

theorem onMap_bind_ok {a : α} {st st' : Executor × MapDb} (hx : x.onMap st = (.ok a, st')) :
    (x >>= f).onMap st = (f a).onMap st' := by
  rw [onMap_bind]
  exact bind_of_ok hx

theorem onMap_bind_error {e : SqlFail} {st st' : Executor × MapDb}
    (hx : x.onMap st = (.error e, st')) : (x >>= f).onMap st = (.error e, st') := by
  rw [onMap_bind]
  exact bind_of_error hx

@[simp] theorem onMap_pure (a : α) (st : Executor × MapDb) :
    (pure a : Sql α).onMap st = (.ok a, st) := rfl

@[simp] theorem onMap_lift (x : Except SqlFail α) (st : Executor × MapDb) :
    (Sql.lift x).onMap st = (x, st) := rfl

@[simp] theorem onMap_self (st : Executor × MapDb) :
    Sql.onMap Client.get st = (.ok st.1, st) := rfl

@[simp] theorem onMap_get (key : Bytes) (st : Executor × MapDb) :
    (Db.get key).onMap st = (.ok (st.2.contents.get key), st) := rfl

@[simp] theorem onMap_scanPrefix (pre : Bytes) (st : Executor × MapDb) :
    (Db.scanPrefix pre).onMap st = (.ok (st.2.contents.select pre.isPrefixOf), st) := rfl

theorem onMap_put (key value : Bytes) :
    (Db.put key value).onMap (self, d) = if maxKeySize < key.length
      then (.error (.db (.err (.keyTooLarge key.length maxKeySize))), (self, d))
      else (.ok (), (self, d.write key (some value))) := by
  show (Except.mapError SqlFail.db (MapDb.handle (.putWithTx 0 key value) d).1,
    (self, (MapDb.handle (.putWithTx 0 key value) d).2)) = _
  unfold MapDb.handle
  dsimp only
  split <;> rfl

@[simp] theorem onMap_delete (key : Bytes) :
    (Db.delete key).onMap (self, d) = (.ok (), (self, d.write key none)) := rfl

@[simp] theorem onMap_forEach_nil (f : α → Sql Unit) (st : Executor × MapDb) :
    Sql.onMap (Client.forEach f []) st = (.ok (), st) := rfl

theorem onMap_forEach_cons (f : α → Sql Unit) (a : α) (as : List α) (st : Executor × MapDb) :
    Sql.onMap (Client.forEach f (a :: as)) st
      = Sql.onMap (f a >>= fun _ => Client.forEach f as) st := rfl

/-- Go on from a state with what was read in it. -/
def resume {γ : Type} (st : γ) (k : α → Except SqlFail β × γ) :
    Except SqlFail α → Except SqlFail β × γ
  | .ok a => k a
  | .error e => (.error e, st)

theorem onMap_reads {r : Except SqlFail α} {st : Executor × MapDb} (hx : x.onMap st = (r, st)) :
    (x >>= f).onMap st = resume st (fun a => (f a).onMap st) r := by
  cases r with
  | ok a => exact onMap_bind_ok hx
  | error e => exact onMap_bind_error hx

theorem onMap_read {δ : Type} {r : Except SqlFail α} {st : Executor × MapDb} {g : α → Except SqlFail δ}
    {k : δ → Except SqlFail β × (Executor × MapDb)} (hx : x.onMap st = (r, st))
    (hf : ∀ a, (f a).onMap st = resume st k (g a)) : (x >>= f).onMap st = resume st k (r >>= g) := by
  rw [onMap_reads hx]
  cases r with
  | ok a => exact hf a
  | error e => rfl

end Sql

namespace Executor

variable (h : Host) {self : Executor} {d : MapDb}

/-! ## What is read -/

/-- What an executor sees of a key that it reads through its buffer. -/
def seen (self : Executor) (m : Contents) (key : Bytes) : Option Bytes :=
  match if self.inTransaction then self.writeBuffer.get key else none with
  | some value => value
  | none => m.get key

theorem onMap_readThrough (key : Bytes) (st : Executor × MapDb) :
    (readThrough key).onMap st = (.ok (st.1.seen st.2.contents key), st) := by
  unfold readThrough seen
  rw [Sql.onMap_bind_ok (Sql.onMap_self st)]
  cases if st.1.inTransaction then st.1.writeBuffer.get key else none with
  | none => rfl
  | some value => rfl

/-- The schema of a table, as the catalog has it. -/
def tableSchemaIn (m : Contents) (schemaName tableName : Bytes) :
    Except SqlFail (Option TableSchema) :=
  match m.get (tableKey h schemaName tableName) with
  | some bytes =>
    match h.schemaFromJson bytes with
    | some schema => .ok (some schema)
    | none => .error (.sql .badJson)
  | none =>
    if eqIgnoreAsciiCase schemaName defaultSchema then
      match m.get (schemaKeyOf tableName) with
      | some bytes =>
        if isUtf8 bytes then .ok (some (legacySchema h tableName bytes))
        else .error (.sql .notUtf8)
      | none => .ok none
    else .ok none

theorem onMap_getTableSchema (schemaName tableName : Bytes) (st : Executor × MapDb) :
    (getTableSchema h schemaName tableName).onMap st
      = (tableSchemaIn h st.2.contents schemaName tableName, st) := by
  unfold getTableSchema tableSchemaIn
  rw [Sql.onMap_bind_ok (Sql.onMap_get _ st)]
  cases st.2.contents.get (tableKey h schemaName tableName) with
  | some bytes =>
    dsimp only
    cases h.schemaFromJson bytes with
    | some schema => rfl
    | none => rfl
  | none =>
    by_cases hdef : eqIgnoreAsciiCase schemaName defaultSchema
    · rw [if_pos hdef, if_pos hdef, Sql.onMap_bind_ok (Sql.onMap_get _ st)]
      cases st.2.contents.get (schemaKeyOf tableName) with
      | some bytes =>
        dsimp only
        split <;> rfl
      | none => rfl
    · rw [if_neg hdef, if_neg hdef]
      rfl

/-- The names of the columns of a table. -/
def columnNamesIn (self : Executor) (m : Contents) (tName tableName : Bytes) :
    Except SqlFail (List Bytes) :=
  match self.seen m (schemaKeyOf tName) with
  | none => .error (.sql (.noTable tableName))
  | some bytes => if isUtf8 bytes then .ok (extractColNames bytes) else .error (.sql .notUtf8)

theorem onMap_columnNames (tName tableName : Bytes) (st : Executor × MapDb) :
    (columnNames tName tableName).onMap st
      = (columnNamesIn st.1 st.2.contents tName tableName, st) := by
  unfold columnNames columnNamesIn
  unfold getSchemaBytes
  rw [Sql.onMap_bind_ok (onMap_readThrough _ st)]
  cases st.1.seen st.2.contents (schemaKeyOf tName) with
  | none => rfl
  | some bytes =>
    dsimp only
    split <;> rfl

/-- The contents with the writes of the transaction over them. -/
def view (self : Executor) (m : Contents) : Contents :=
  if self.inTransaction then m.apply self.writeBuffer.entries else m

/-- The rows of a table that an executor sees. -/
def rowsIn (self : Executor) (m : Contents) (tableName : Bytes) : Except SqlFail (List Row) := do
  let (schemaName, tNameOnly) := parseQualifiedTableName tableName
  let catalogSchema ← tableSchemaIn h m schemaName tNameOnly
  decodeRows catalogSchema ((self.view m).select (rowPrefix tableName).isPrefixOf)

theorem view_get (self : Executor) (m : Contents) (key : Bytes) :
    (self.view m).get key = self.seen m key := by
  unfold view seen
  split
  · rw [SortedMap.get_apply self.writeBuffer.sorted]
    show ((self.writeBuffer.get key).getD (m.get key)) = _
    cases self.writeBuffer.get key with
    | none => rfl
    | some value => rfl
  · rfl

theorem rowMap_entries (self : Executor) (m : Contents) (pre : Bytes) :
    (rowMap self pre (m.select pre.isPrefixOf)).entries = (self.view m).select pre.isPrefixOf := by
  refine SortedAssoc.sorted_ext (SortedMap.sorted _) (SortedMap.sorted_select _ _) fun k => ?_
  have hrows : (SortedMap.ofList (m.select pre.isPrefixOf)).get k
      = if pre.isPrefixOf k then m.get k else none := by
    rw [SortedMap.get_ofList (m.sorted_select _), SortedMap.lookup_select]
  rw [SortedMap.lookup_select, view_get]
  show (rowMap self pre _).get k = _
  unfold rowMap seen
  split
  · rw [SortedMap.get_apply (self.writeBuffer.sorted_select _), SortedMap.lookup_select, hrows]
    by_cases hp : pre.isPrefixOf k
    · rw [if_pos hp, if_pos hp, if_pos hp]
      cases self.writeBuffer.get k with
      | none => rfl
      | some value => rfl
    · rw [if_neg hp, if_neg hp, if_neg hp]
      rfl
  · exact hrows

/-- **`scan_table_rows` sees the transaction's own writes over the database.** -/
theorem onMap_scanTableRows (tableName : Bytes) (st : Executor × MapDb) :
    (scanTableRows h tableName).onMap st = (st.1.rowsIn h st.2.contents tableName, st) := by
  unfold scanTableRows rowsIn
  rw [Sql.onMap_bind_ok (Sql.onMap_scanPrefix _ st), Sql.onMap_bind_ok (Sql.onMap_self st),
    Sql.onMap_reads (onMap_getTableSchema h _ _ st)]
  dsimp only
  cases tableSchemaIn h st.2.contents (parseQualifiedTableName tableName).1
    (parseQualifiedTableName tableName).2 with
  | error e => rfl
  | ok schema =>
    rw [rowMap_entries]
    rfl

end Executor

end MagnumDB
