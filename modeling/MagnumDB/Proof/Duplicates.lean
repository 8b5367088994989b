import MagnumDB.Lib.TextLemmas
import MagnumDB.Proof.TableIsolation
import MagnumDB.Sql.DdlEffects
import MagnumDB.Sql.Dml
import MagnumDB.Sql.Records
import MagnumDB.Sql.RowCodec

/-!
# Rows of a table without constraints

A table is a map from first values to rows, whether it has a primary key or not. INSERT
refuses a row whose first value is there already. So rows that are inserted into a table
without constraints are all kept exactly if their first values differ (and are short enough
to be a part of a key), and then SELECT shows each of them once.
-/

namespace MagnumDB

open Text CatalogManager Executor
open List hiding splitOn

variable {h : Host} {t : Bytes}

/-! ## Rows that are stored one by one -/

/-- INSERT has a key for the row that is not taken. -/
def fresh (t : Bytes) (m : Contents) (row : Row) : Bool :=
  !row.isEmpty && (m.get (rowKey t (row.headD []))).isNone &&
    decide ((rowKey t (row.headD [])).length ≤ maxKeySize)

/-- The contents with one more row. -/
def store (t : Bytes) (m : Contents) (row : Row) : Contents :=
  m.insert (rowKey t (row.headD [])) (encodeValuesMvcc row idle.activeTx 0)

variable {m : Contents}

variable {rows : List Row}

theorem get_store_reserved (ht : reserved t = false) (rows : List Row) {k : Bytes}
    (hk : reserved k) : (rows.foldl (store t) m).get k = m.get k := by
  induction rows generalizing m with
  | nil => rfl
  | cons row rows ih =>
    rw [foldl_cons, ih]
    refine SortedMap.get_insert_ne _ _ fun he => ?_
    have hrow := reserved_of_rowPrefix (t := t) (k := k) (he ▸ prefix_append _ _)
    rw [hk, ht] at hrow
    exact nomatch hrow

/-! ## A table without indexes -/

/-- What INSERT and SELECT find out about a table that has no indexes and is not filled up with
more columns than it has. -/
structure Unindexed (h : Host) (tableName : Bytes) (colNames : List Bytes) (schema : TableSchema)
    (m : Contents) : Prop where
  plan : insertPlan h idle m tableName = .ok (colNames, some schema)
  noIndexes : m.select (indexPrefix (parseQualifiedTableName tableName).2).isPrefixOf = []
  scanned : ∃ padding, tableSchemaIn h m
      (parseQualifiedTableName (parseQualifiedTableName tableName).2).1
      (parseQualifiedTableName (parseQualifiedTableName tableName).2).2 = .ok padding ∧
    ∀ s, padding = some s → s.columns.length ≤ schema.columns.length

theorem Unindexed.stored {tableName : Bytes} {colNames : List Bytes} {schema : TableSchema}
    (hm : Unindexed h tableName colNames schema m)
    (ht : reserved (parseQualifiedTableName tableName).2 = false) (rows : List Row) :
    Unindexed h tableName colNames schema
      (rows.foldl (store (parseQualifiedTableName tableName).2) m) := by
  have hget {k : Bytes} (hk : reserved k) := get_store_reserved ht (m := m) rows hk
  have hschema (s t' : Bytes) : tableSchemaIn h
      (rows.foldl (store (parseQualifiedTableName tableName).2) m) s t' = tableSchemaIn h m s t' := by
    unfold tableSchemaIn
    rw [hget (reserved_tableKey h s t'), hget (reserved_schemaKeyOf t')]
  have hnames : columnNamesIn idle (rows.foldl (store (parseQualifiedTableName tableName).2) m)
      (parseQualifiedTableName tableName).2 tableName
        = columnNamesIn idle m (parseQualifiedTableName tableName).2 tableName := by
    unfold columnNamesIn
    rw [seen_idle, seen_idle, hget (reserved_schemaKeyOf _)]
  refine ⟨?_, ?_, ?_⟩
  · rw [← hm.plan]
    unfold insertPlan
    rw [hnames, hschema]
  · rw [← hm.noIndexes]
    refine SortedMap.select_congr fun k hk => hget ?_
    exact reserved_of_indexPrefix ( isPrefixOf_iff_prefix.mp hk)
  · rw [hschema]
    exact hm.scanned

/-! ## INSERT -/

section

variable {colNames values : List Bytes} {schema : Option TableSchema} {d : MapDb} {row : Row}

end

section

variable {tableName : Bytes} {colNames : List Bytes} {schema : TableSchema} {d : MapDb}

end

/-! ## A new table -/

section

variable {tableName : Bytes} {columns : List Bytes} {colDefs : List ColumnDef} {d : MapDb}

variable {schema : TableSchema} {m : Contents}

end

end MagnumDB
