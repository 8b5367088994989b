import MagnumDB.Sql.Transaction

/-!
# Definitions of tables and indexes on a map

When CREATE TABLE, CREATE INDEX and ALTER TABLE stop before they have written anything,
and what DROP TABLE does in a transaction. The first write of each of them goes to the
database, in a transaction as well as outside.
-/

namespace MagnumDB

open Text Prog CatalogManager

namespace Executor

variable {h : Host} {self : Executor} {d : MapDb}

/-- What the database says to a key that is too long. -/
def tooLong (key : Bytes) : SqlFail := .db (.err (.keyTooLarge key.length maxKeySize))

theorem onMap_writeOrBuffer_tx (htx : self.inTransaction) (key : Bytes)
    (value : Option Bytes) : (writeOrBuffer key value).onMap (self, d)
      = (.ok (), ({ self with writeBuffer := self.writeBuffer.insert key value }, d)) := by
  unfold writeOrBuffer
  rw [Sql.onMap_bind_ok (Sql.onMap_self _), if_pos htx]
  rfl

/-- A write outside a transaction goes to the database, which may refuse it. -/
theorem onMap_writeOrBuffer (htx : self.inTransaction = false) (key : Bytes)
    (value : Option Bytes) : (writeOrBuffer key value).onMap (self, d)
      = if refused (key, value) then (.error (tooLong key), (self, d))
        else (.ok (), (self, d.write key value)) := by
  unfold writeOrBuffer
  rw [Sql.onMap_bind_ok (Sql.onMap_self _), if_neg (by simp [htx])]
  cases value with
  | none => rfl
  | some value =>
    rw [Sql.onMap_put]
    unfold refused
    by_cases hkey : maxKeySize < key.length
    · simp only [if_pos hkey, Option.isSome_some, decide_eq_true hkey, Bool.and_self, if_true]
      rfl
    · simp only [if_neg hkey, decide_eq_false hkey, Bool.and_false, Bool.false_eq_true, if_false]

theorem onMap_getSchemaBytes (tName : Bytes) (st : Executor × MapDb) :
    (getSchemaBytes tName).onMap st = (.ok (st.1.seen st.2.contents (schemaKeyOf tName)), st) :=
  onMap_readThrough _ st

/-- The table is there, as CREATE TABLE looks for it. -/
def existsIn (h : Host) (self : Executor) (m : Contents) (schemaName tName : Bytes) :
    Except SqlFail Bool :=
  if (self.seen m (schemaKeyOf tName)).isSome then .ok true
  else (tableSchemaIn h m schemaName tName).map Option.isSome

theorem onMap_tableExists (schemaName tName : Bytes) (st : Executor × MapDb) :
    (tableExists h schemaName tName).onMap st
      = (existsIn h st.1 st.2.contents schemaName tName, st) := by
  unfold tableExists existsIn
  rw [Sql.onMap_bind_ok (onMap_getSchemaBytes tName st)]
  split
  · rfl
  · rw [Sql.onMap_reads (onMap_getTableSchema h schemaName tName st)]
    cases tableSchemaIn h st.2.contents schemaName tName with
    | error e => rfl
    | ok schema => rfl

theorem onMap_saveTableSchema_refused {schema : TableSchema}
    (hkey : maxKeySize < (tableKey h schema.schemaName schema.tableName).length) :
    (saveTableSchema h schema).onMap (self, d)
      = (.error (tooLong (tableKey h schema.schemaName schema.tableName)), (self, d)) := by
  refine Sql.onMap_bind_error ?_
  rw [Sql.onMap_put, if_pos hkey]
  rfl

/-! ## Statements that stop before their first write -/

/-- CREATE TABLE stops: the table is there, or its columns cannot be read, or its name is too long
for the catalog. -/
def createTableStops (h : Host) (self : Executor) (m : Contents) (tableName : Bytes)
    (columns : List Bytes) : Prop :=
  existsIn h self m (parseQualifiedTableName tableName).1 (parseQualifiedTableName tableName).2
      ≠ .ok false ∨
    (parseColumnDefs h columns).isOk = false ∨
    maxKeySize < (tableKey h (parseQualifiedTableName tableName).1
      (parseQualifiedTableName tableName).2).length

variable {tableName : Bytes}

theorem createTable_stops {columns : List Bytes}
    (hstop : createTableStops h self d.contents tableName columns) :
    ∃ e, (createTable h tableName columns).onMap (self, d) = (.error e, (self, d)) := by
  unfold createTable
  rw [Sql.onMap_reads (onMap_tableExists _ _ (self, d))]
  cases hex : existsIn h self d.contents (parseQualifiedTableName tableName).1
    (parseQualifiedTableName tableName).2 with
  | error e => exact ⟨e, rfl⟩
  | ok there =>
    cases there with
    | true => exact ⟨_, rfl⟩
    | false =>
      have hrest := hstop.resolve_left (by simp [hex])
      show ∃ e, Sql.onMap (Sql.lift (parseColumnDefs h columns) >>= _) (self, d) = _
      rw [Sql.onMap_reads (Sql.onMap_lift _ (self, d))]
      cases hcols : parseColumnDefs h columns with
      | error e => exact ⟨e, rfl⟩
      | ok colDefs =>
        have hkey := hrest.resolve_left (by simp [hcols, Except.isOk, Except.toBool])
        exact ⟨_, Sql.onMap_bind_error (onMap_saveTableSchema_refused hkey)⟩

/-- CREATE INDEX stops: there is no such table, or there is an index of this name, or its key is
too long. -/
def createIndexStops (self : Executor) (m : Contents) (indexName tableName : Bytes) : Prop :=
  self.seen m (schemaKeyOf (parseQualifiedTableName tableName).2) = none ∨
    (m.get (indexKey (parseQualifiedTableName tableName).2 indexName)).isSome ∨
    maxKeySize < (indexKey (parseQualifiedTableName tableName).2 indexName).length

theorem createIndex_stops {indexName : Bytes} {columns : List Bytes}
    (hstop : createIndexStops self d.contents indexName tableName) :
    ∃ e, (createIndex indexName tableName columns).onMap (self, d) = (.error e, (self, d)) := by
  unfold createIndex
  rw [Sql.onMap_bind_ok (onMap_getSchemaBytes _ (self, d))]
  cases hseen : self.seen d.contents (schemaKeyOf (parseQualifiedTableName tableName).2) with
  | none => exact ⟨_, rfl⟩
  | some schemaBytes =>
    have hrest := hstop.resolve_left (by simp [hseen])
    rw [Sql.onMap_bind_ok (Sql.onMap_get _ (self, d))]
    by_cases hthere : (d.contents.get
        (indexKey (parseQualifiedTableName tableName).2 indexName)).isSome
    · rw [if_pos hthere]
      exact ⟨_, rfl⟩
    · rw [if_neg hthere]
      refine ⟨tooLong (indexKey (parseQualifiedTableName tableName).2 indexName),
        Sql.onMap_bind_error ?_⟩
      rw [Sql.onMap_put, if_pos (hrest.resolve_left hthere)]
      rfl

/-- ALTER TABLE stops: the column cannot be read, or there is no such table, or the name in its
catalog record is too long for the catalog. -/
def alterTableStops (h : Host) (m : Contents) (tableName columnDef : Bytes) : Prop :=
  (parseColumnDef h columnDef).isOk = false ∨
    ∀ schema, tableSchemaIn h m (parseQualifiedTableName tableName).1
        (parseQualifiedTableName tableName).2 = .ok (some schema) →
      maxKeySize < (tableKey h schema.schemaName schema.tableName).length

theorem alterTable_stops {columnDef : Bytes}
    (hstop : alterTableStops h d.contents tableName columnDef) :
    ∃ e, (alterTableAddColumn h tableName columnDef).onMap (self, d) = (.error e, (self, d)) := by
  unfold alterTableAddColumn
  rw [Sql.onMap_reads (Sql.onMap_lift _ (self, d))]
  cases hcol : parseColumnDef h columnDef with
  | error e => exact ⟨e, rfl⟩
  | ok colDef =>
    have hrest := hstop.resolve_left (by simp [hcol, Except.isOk, Except.toBool])
    show ∃ e, Sql.onMap (getTableSchema h _ _ >>= _) (self, d) = _
    rw [Sql.onMap_reads (onMap_getTableSchema h _ _ (self, d))]
    cases hschema : tableSchemaIn h d.contents (parseQualifiedTableName tableName).1
      (parseQualifiedTableName tableName).2 with
    | error e => exact ⟨e, rfl⟩
    | ok found =>
      cases found with
      | none => exact ⟨_, rfl⟩
      | some schema =>
        exact ⟨_, Sql.onMap_bind_error (onMap_saveTableSchema_refused (hrest schema hschema))⟩

/-! ## DROP TABLE -/

theorem dropTable_missing
    (hmissing : self.seen d.contents (schemaKeyOf (parseQualifiedTableName tableName).2) = none) :
    (dropTable h tableName).onMap (self, d) = (.error (.sql (.noTable tableName)), (self, d)) := by
  unfold dropTable
  rw [Sql.onMap_bind_ok (onMap_getSchemaBytes _ (self, d))]
  rw [hmissing]
  rfl

theorem onMap_bufferDeletes (htx : self.inTransaction) (records : List (Bytes × Bytes)) :
    ∃ buffer, Sql.onMap (Client.forEach (fun record => writeOrBuffer record.1 none) records) (self, d)
      = (.ok (), ({ self with writeBuffer := buffer }, d)) := by
  induction records generalizing self with
  | nil => exact ⟨self.writeBuffer, rfl⟩
  | cons record records ih =>
    obtain ⟨buffer, hrest⟩ :=
      @ih { self with writeBuffer := self.writeBuffer.insert record.1 none } htx
    exact ⟨buffer, (Sql.onMap_bind_ok (onMap_writeOrBuffer_tx htx record.1 none)).trans hrest⟩

/-- Nothing of the table is in the catalog, and it has no index. -/
def uncatalogued (h : Host) (m : Contents) (tableName : Bytes) : Prop :=
  m.get (tableKey h (parseQualifiedTableName tableName).1 (parseQualifiedTableName tableName).2)
      = none ∧
    m.select (indexPrefix (parseQualifiedTableName tableName).2).isPrefixOf = [] ∧
    m.select (secPrefix (parseQualifiedTableName tableName).2).isPrefixOf = []

/-- DROP TABLE in a transaction changes the database only if the table is in the catalog or has
an index. -/
theorem dropTable_uncatalogued (htx : self.inTransaction)
    (hfree : uncatalogued h d.contents tableName) :
    ∃ r buffer, (dropTable h tableName).onMap (self, d)
      = (r, ({ self with writeBuffer := buffer }, d)) := by
  obtain ⟨hcatalog, hindex, hsec⟩ := hfree
  cases hseen : self.seen d.contents (schemaKeyOf (parseQualifiedTableName tableName).2) with
  | none => exact ⟨_, self.writeBuffer, dropTable_missing hseen⟩
  | some bytes =>
    let buffered := self.writeBuffer.insert (schemaKeyOf (parseQualifiedTableName tableName).2) none
    obtain ⟨buffer, hrows⟩ :=
      @onMap_bufferDeletes { self with writeBuffer := buffered } d htx
        (d.contents.select (rowPrefix (parseQualifiedTableName tableName).2).isPrefixOf)
    have hkeep : d.write (tableKey h (parseQualifiedTableName tableName).1
        (parseQualifiedTableName tableName).2) none = d := by
      have hsame : d.contents.erase (tableKey h (parseQualifiedTableName tableName).1
          (parseQualifiedTableName tableName).2) = d.contents := by
        refine SortedMap.ext fun k => ?_
        rw [SortedMap.get_erase]
        split
        · rename_i hk
          rw [hk, hcatalog]
        · rfl
      show ({ d with contents := d.contents.erase _ } : MapDb) = d
      rw [hsame]
    refine ⟨.ok ("Query OK, table " ++ quoted tableName ++ " dropped."), buffer, ?_⟩
    unfold dropTable
    rw [Sql.onMap_bind_ok (onMap_getSchemaBytes _ (self, d))]
    rw [hseen, if_neg (by simp), Sql.onMap_bind_ok (Sql.onMap_scanPrefix _ _),
      Sql.onMap_bind_ok (Sql.onMap_scanPrefix _ _)]
    rw [hindex, Sql.onMap_bind_ok (Sql.onMap_forEach_nil _ _),
      Sql.onMap_bind_ok (Sql.onMap_scanPrefix _ _)]
    rw [hsec, Sql.onMap_bind_ok (Sql.onMap_forEach_nil _ _), Sql.onMap_bind_ok (Sql.onMap_delete _),
      hkeep, Sql.onMap_bind_ok (onMap_writeOrBuffer_tx htx _ none), Sql.onMap_bind_ok hrows]
    rfl

end Executor

end MagnumDB
