import MagnumDB.Lib.Words
import MagnumDB.Sql.AsciiHost
import MagnumDB.Sql.DdlEffects
import MagnumDB.Sql.Names

/-!
# The two records of a table

A table has a record in the catalog, under the names of its schema and of the table in lower case,
and an older one under the name of the table alone. The older record says whether a table is
there, and the catalog what its columns are, so the two have to go together. They do as long as
ALTER TABLE and DROP TABLE name a table by the schema and in the letters it was created with.
-/

namespace MagnumDB

open Text CatalogManager Executor
open List hiding after

/-! ## Records that go together -/

/-- The record under a key of the catalog is that of a table of this name. -/
def IsEntry (h : Host) (m : Contents) (t k : Bytes) (schema : TableSchema) : Prop :=
  "__catalog__:table:" <+: k ∧
    ∃ v, m.get k = some v ∧ h.schemaFromJson v = some schema ∧ schema.tableName = t

/-- Every table name has an older record exactly if it has one entry of the catalog, and then the
older record and the entry have the same column names in the same order. -/
def SchemasAgree (h : Host) (m : Contents) : Prop :=
  ∀ t, ((m.get (schemaKeyOf t)).isSome ↔ ∃! r : Bytes × TableSchema, IsEntry h m t r.1 r.2) ∧
    ∀ raw k schema, m.get (schemaKeyOf t) = some raw → IsEntry h m t k schema →
      extractColNames raw = schema.columns.map ColumnDef.name

/-- A name that can be read back from the older record. -/
def columnName (name : Bytes) : Bool := !name.contains 44 && (splitWhitespace name).head? == some name

/-- What is kept by the statements: each entry is under the key of its names and has an older record
with its columns, and the entry of an older record is the only one. -/
structure Paired (h : Host) (m : Contents) : Prop where
  entry : ∀ t k schema, IsEntry h m t k schema → k = tableKey h schema.schemaName schema.tableName ∧
    (∀ col ∈ schema.columns, columnName col.name) ∧
    ∃ raw, m.get (schemaKeyOf t) = some raw ∧ extractColNames raw = schema.columns.map ColumnDef.name
  legacy : ∀ t raw, m.get (schemaKeyOf t) = some raw → ∃ k schema, IsEntry h m t k schema
  unique : ∀ t k k' schema schema', IsEntry h m t k schema → IsEntry h m t k' schema' → k = k'

variable {h : Host} {m m' : Contents} {k : Bytes} {schema : TableSchema} {columns : List Bytes}

theorem IsEntry.eq {t t' : Bytes} {schema' : TableSchema} (he : IsEntry h m t k schema)
    (he' : IsEntry h m t' k schema') : schema = schema' ∧ t = t' := by
  obtain ⟨-, v, hv, hschema, rfl⟩ := he
  obtain ⟨-, v', hv', hschema', rfl⟩ := he'
  obtain rfl := Option.some.inj (hv.symm.trans hv')
  obtain rfl := Option.some.inj (hschema.symm.trans hschema')
  exact ⟨rfl, rfl⟩

theorem Paired.agree (hp : Paired h m) : SchemasAgree h m := by
  intro t
  refine ⟨⟨fun hsome => ?_, fun hentry => ?_⟩, fun raw k schema hraw he => ?_⟩
  · obtain ⟨raw, hraw⟩ := Option.isSome_iff_exists.mp hsome
    obtain ⟨k, schema, he⟩ := hp.legacy t raw hraw
    refine ⟨(k, schema), he, fun r hr => ?_⟩
    obtain ⟨k', schema'⟩ := r
    have hk : k' = k := hp.unique t k' k schema' schema hr he
    subst hk
    obtain ⟨rfl, -⟩ := IsEntry.eq hr he
    rfl
  · obtain ⟨⟨k, schema⟩, he, -⟩ := hentry
    obtain ⟨-, -, raw, hraw, -⟩ := hp.entry t k schema he
    rw [hraw]
    rfl
  · obtain ⟨-, -, raw', hraw', hnames⟩ := hp.entry t k schema he
    obtain rfl := Option.some.inj (hraw.symm.trans hraw')
    exact hnames

/-! ## Steps -/

theorem isEntry_congr (hk : m'.get k = m.get k) (t : Bytes) (schema : TableSchema) :
    IsEntry h m' t k schema ↔ IsEntry h m t k schema := by
  unfold IsEntry
  rw [hk]

theorem Paired.congr (hp : Paired h m)
    (hcatalog : ∀ k, "__catalog__:table:" <+: k → m'.get k = m.get k)
    (hlegacy : ∀ t, m'.get (schemaKeyOf t) = m.get (schemaKeyOf t)) : Paired h m' := by
  have hentry {t k : Bytes} {schema : TableSchema} (he : IsEntry h m' t k schema) : IsEntry h m t k schema :=
    (isEntry_congr (hcatalog k he.1) t schema).mp he
  constructor
  · intro t k schema he
    rw [hlegacy]
    exact hp.entry t k schema (hentry he)
  · intro t raw hraw
    rw [hlegacy] at hraw
    obtain ⟨k, schema, he⟩ := hp.legacy t raw hraw
    exact ⟨k, schema, (isEntry_congr (hcatalog k he.1) t schema).mpr he⟩
  · intro t k k' schema schema' he he'
    exact hp.unique t k k' schema schema' (hentry he) (hentry he')

/-- Both records of a table are written. The table is new, or it is the one that was there. -/
theorem Paired.put (hp : Paired h m) {v raw : Bytes} (hjson : h.schemaFromJson v = some schema)
    (hcols : ∀ col ∈ schema.columns, columnName col.name)
    (hraw : extractColNames raw = schema.columns.map ColumnDef.name)
    (hnamed : ∀ k schema', IsEntry h m schema.tableName k schema' →
      k = tableKey h schema.schemaName schema.tableName)
    (hkeyed : ∀ t schema', IsEntry h m t (tableKey h schema.schemaName schema.tableName) schema' →
      t = schema.tableName) (hcatalog : ∀ k, "__catalog__:table:" <+: k → m'.get k =
      if k = tableKey h schema.schemaName schema.tableName then some v else m.get k)
    (hlegacy : ∀ t, m'.get (schemaKeyOf t) =
      if t = schema.tableName then some raw else m.get (schemaKeyOf t)) : Paired h m' := by
  set key := tableKey h schema.schemaName schema.tableName with hkey
  have hkeyPre : "__catalog__:table:" <+: key := by
    rw [hkey]
    unfold tableKey
    rw [append_assoc, append_assoc]
    exact prefix_append _ _
  have hnew : IsEntry h m' schema.tableName key schema := by
    refine ⟨hkeyPre, v, ?_, hjson, rfl⟩
    rw [hcatalog key hkeyPre, if_pos rfl]
  -- an entry is the new one, or an old one of another table
  have hcases {t k : Bytes} {schema' : TableSchema} (he : IsEntry h m' t k schema') :
      (k = key ∧ schema' = schema ∧ t = schema.tableName) ∨
        (k ≠ key ∧ t ≠ schema.tableName ∧ IsEntry h m t k schema') := by
    by_cases hk : k = key
    · subst hk
      obtain ⟨rfl, rfl⟩ := IsEntry.eq he hnew
      exact .inl ⟨rfl, rfl, rfl⟩
    · have hold : IsEntry h m t k schema' := by
        refine (isEntry_congr ?_ t schema').mp he
        rw [hcatalog k he.1, if_neg hk]
      refine .inr ⟨hk, fun ht => hk ?_, hold⟩
      subst ht
      exact hnamed k schema' hold
  constructor
  · intro t k schema' he
    rw [hlegacy]
    rcases hcases he with ⟨rfl, rfl, rfl⟩ | ⟨-, ht, hold⟩
    · rw [if_pos rfl]
      exact ⟨rfl, hcols, raw, rfl, hraw⟩
    · rw [if_neg ht]
      exact hp.entry t k schema' hold
  · intro t r hr
    rw [hlegacy] at hr
    by_cases ht : t = schema.tableName
    · rw [ht]
      exact ⟨key, schema, hnew⟩
    · rw [if_neg ht] at hr
      obtain ⟨k, schema', he⟩ := hp.legacy t r hr
      have hk : k ≠ key := fun hk => ht (hkeyed t schema' (hk ▸ he))
      refine ⟨k, schema', (isEntry_congr ?_ t schema').mpr he⟩
      rw [hcatalog k he.1, if_neg hk]
  · intro t k k' schema₁ schema₂ he he'
    rcases hcases he with ⟨rfl, -, rfl⟩ | ⟨-, ht, hold⟩
    · rcases hcases he' with ⟨rfl, -, -⟩ | ⟨-, ht', -⟩
      · rfl
      · exact absurd rfl ht'
    · rcases hcases he' with ⟨-, -, rfl⟩ | ⟨-, -, hold'⟩
      · exact absurd rfl ht
      · exact hp.unique t k k' schema₁ schema₂ hold hold'

theorem Paired.drop (hp : Paired h m) {t key : Bytes} (he : IsEntry h m t key schema)
    (hcatalog : ∀ k, "__catalog__:table:" <+: k → m'.get k = if k = key then none else m.get k)
    (hlegacy : ∀ t', m'.get (schemaKeyOf t') = if t' = t then none else m.get (schemaKeyOf t')) :
    Paired h m' := by
  -- the entries that are left are those of other tables
  have hcases {t' k : Bytes} {schema' : TableSchema} (he' : IsEntry h m' t' k schema') :
      k ≠ key ∧ t' ≠ t ∧ IsEntry h m t' k schema' := by
    have hk : k ≠ key := by
      rintro rfl
      obtain ⟨hpre, v, hv, -⟩ := he'
      rw [hcatalog k hpre, if_pos rfl] at hv
      exact nomatch hv
    have hold : IsEntry h m t' k schema' := by
      refine (isEntry_congr ?_ t' schema').mp he'
      rw [hcatalog k he'.1, if_neg hk]
    refine ⟨hk, ?_, hold⟩
    rintro rfl
    exact hk (hp.unique t' k key schema' schema hold he)
  constructor
  · intro t' k schema' he'
    obtain ⟨-, ht, hold⟩ := hcases he'
    rw [hlegacy, if_neg ht]
    exact hp.entry t' k schema' hold
  · intro t' raw hraw
    rw [hlegacy] at hraw
    by_cases ht : t' = t
    · rw [if_pos ht] at hraw
      exact nomatch hraw
    · rw [if_neg ht] at hraw
      obtain ⟨k, schema', he'⟩ := hp.legacy t' raw hraw
      have hk : k ≠ key := fun hk => ht (IsEntry.eq (hk ▸ he') he).2
      refine ⟨k, schema', (isEntry_congr ?_ t' schema').mpr he'⟩
      rw [hcatalog k he'.1, if_neg hk]
  · intro t' k k' schema₁ schema₂ h₁ h₂
    exact hp.unique t' k k' schema₁ schema₂ (hcases h₁).2.2 (hcases h₂).2.2

/-! ## Column names -/

variable {self : Executor} {d : MapDb} {st' : Executor × MapDb} {tableName msg : Bytes}

end MagnumDB
