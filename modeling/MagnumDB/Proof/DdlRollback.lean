import MagnumDB.Sql.AsciiHost
import MagnumDB.Sql.Ddl

/-!
# Definitions in a transaction that is rolled back

CREATE TABLE, CREATE INDEX, ALTER TABLE and DROP TABLE write some of their records to
the database at once, whether there is a transaction or not, and ROLLBACK only forgets
the buffer. What is rolled back is as it was before exactly as long as none of the
statements gets to such a write.
-/

namespace MagnumDB

open Text Executor

/-- CREATE TABLE, CREATE INDEX, ALTER TABLE ADD COLUMN, DROP TABLE. -/
def Statement.isDdl : Statement → Bool
  | .createTable .. => true
  | .createIndex .. => true
  | .alterTableAddColumn .. => true
  | .dropTable _ => true
  | _ => false

/-- In this state the statement does not get to a write that goes to the database. -/
def Statement.Bufferable (h : Host) (st : Executor × MapDb) : Statement → Prop
  | .createTable tableName columns => createTableStops h st.1 st.2.contents tableName columns
  | .createIndex indexName tableName _ => createIndexStops st.1 st.2.contents indexName tableName
  | .alterTableAddColumn tableName columnDef =>
    alterTableStops h st.2.contents tableName columnDef
  | .dropTable tableName =>
    st.1.seen st.2.contents (schemaKeyOf (parseQualifiedTableName tableName).2) = none ∨
      uncatalogued h st.2.contents tableName
  | _ => True

variable {h : Host}

theorem ddl_step {stmt : Statement} {st : Executor × MapDb} (hddl : stmt.isDdl)
    (htx : st.1.inTransaction) (hbuf : stmt.Bufferable h st) :
    (after h stmt st).2 = st.2 ∧ (after h stmt st).1.inTransaction := by
  obtain ⟨self, d⟩ := st
  unfold after
  cases stmt with
  | createTable tableName columns =>
    obtain ⟨e, he⟩ := createTable_stops hbuf
    rw [execute, he]
    exact ⟨rfl, htx⟩
  | createIndex indexName tableName columns =>
    obtain ⟨e, he⟩ : ∃ e, (createIndex indexName tableName columns).onMap (self, d) = _ :=
      createIndex_stops hbuf
    rw [execute, he]
    exact ⟨rfl, htx⟩
  | alterTableAddColumn tableName columnDef =>
    obtain ⟨e, he⟩ : ∃ e, (alterTableAddColumn h tableName columnDef).onMap (self, d) = _ :=
      alterTable_stops hbuf
    rw [execute, he]
    exact ⟨rfl, htx⟩
  | dropTable tableName =>
    rcases hbuf with hmissing | hfree
    · rw [execute, dropTable_missing hmissing]
      exact ⟨rfl, htx⟩
    · obtain ⟨r, buffer, hr⟩ := dropTable_uncatalogued htx hfree
      rw [execute, hr]
      exact ⟨rfl, htx⟩
  | _ => exact absurd hddl (by simp [Statement.isDdl])

theorem ddl_run {stmts : List Statement} : ∀ {st : Executor × MapDb}, st.1.inTransaction →
    (∀ stmt ∈ stmts, stmt.isDdl) →
    (∀ before stmt rest, stmts = before ++ stmt :: rest →
      stmt.Bufferable h (before.foldl (fun st s => after h s st) st)) →
    (stmts.foldl (fun st s => after h s st) st).2 = st.2 ∧
      (stmts.foldl (fun st s => after h s st) st).1.inTransaction := by
  induction stmts with
  | nil => exact fun htx _ _ => ⟨rfl, htx⟩
  | cons stmt stmts ih =>
    intro st htx hddl hbuf
    obtain ⟨hkept, htx'⟩ := ddl_step (hddl stmt List.mem_cons_self) htx (hbuf [] stmt stmts rfl)
    obtain ⟨hrest, hopen⟩ := ih htx' (fun s hs => hddl s (List.mem_cons_of_mem stmt hs))
      fun before s rest hsplit => hbuf (stmt :: before) s rest (by rw [hsplit]; rfl)
    exact ⟨hrest.trans hkept, hopen⟩

/-- **Definitions are undone by ROLLBACK in every run in which no statement gets to a write that
goes to the database.** -/
theorem ddl_rolled_back (self : Executor) (d : MapDb) (stmts : List Statement)
    (hddl : ∀ stmt ∈ stmts, stmt.isDdl)
    (hbuf : ∀ before stmt rest, stmts = before ++ stmt :: rest →
      stmt.Bufferable h ((executeAll h (.begin :: before)).onMap (self, d)).2) :
    ((executeAll h (.begin :: (stmts ++ [.rollback]))).onMap (self, d)).2.2.contents
      = d.contents := by
  have hbegin : (after h .begin (self, d)).1.inTransaction ∧
      (after h .begin (self, d)).2.contents = d.contents := by
    show (begin.onMap (self, d)).2.1.inTransaction ∧
      (begin.onMap (self, d)).2.2.contents = d.contents
    rw [onMap_begin]
    split
    · exact ⟨‹_›, rfl⟩
    · exact ⟨rfl, rfl⟩
  have hrun := ddl_run (h := h) hbegin.1 hddl fun before stmt rest hsplit => by
    have hst := hbuf before stmt rest hsplit
    rw [onMap_executeAll] at hst
    exact hst
  rw [onMap_executeAll, List.foldl_cons, List.foldl_append]
  generalize stmts.foldl (fun st s => after h s st) (after h .begin (self, d)) = st at hrun
  show (rollback.onMap (st.1, st.2)).2.2.contents = _
  rw [onMap_rollback, if_pos hrun.2]
  rw [hrun.1, hbegin.2]

/-- CREATE TABLE of a table that is there, and DROP TABLE of one that is not. -/
theorem ddl_rolled_back_refused :
    ((executeAll asciiHost (.begin :: ([.createTable "t" ["id INT"],
        .dropTable "u"] ++ [.rollback]))).onMap
      (idle, ⟨SortedMap.empty.insert (schemaKeyOf "t") "id INT", 1⟩)).2.2.contents
      = SortedMap.empty.insert (schemaKeyOf "t") (ofString "id INT") := by
  refine ddl_rolled_back idle _ _ (by decide) fun before stmt rest hsplit => ?_
  match before, hsplit with
  | [], hsplit =>
    obtain ⟨rfl, -⟩ := List.cons.inj hsplit
    exact .inl (by decide)
  | [_], hsplit =>
    obtain ⟨rfl, htail⟩ := List.cons.inj hsplit
    obtain ⟨rfl, -⟩ := List.cons.inj htail
    exact .inl (by decide)
  | _ :: _ :: _, hsplit => simp at hsplit

/-- **A table that is still there.** After BEGIN, CREATE TABLE and ROLLBACK, all of which succeed,
the records of the table are in the database. -/
theorem created_table_survives_rollback :
    let r := (executeAll asciiHost [.begin, .createTable "t" ["id INT"],
      .rollback]).onMap (idle, ⟨SortedMap.empty, 1⟩)
    (r.1.toOption.map fun rs => rs.map Except.isOk) = some [true, true, true] ∧
      r.2.2.contents.get (schemaKeyOf "t") = some "id INTEGER" := by
  decide +kernel

end MagnumDB
