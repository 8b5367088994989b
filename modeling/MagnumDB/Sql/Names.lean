import MagnumDB.Sql.Executor

/-!
# Names in keys

A key is made of a name and a value with a colon between them, and the keys of the
system begin with two underscores. A name without a colon that does not begin like
a key of the system can be read off the keys that are made from it: no other such
name gives the same key, and no key of the system is one of its rows.
-/

namespace MagnumDB

open Text CatalogManager List

/-- The name or key begins like a key of the system. -/
def reserved (name : Bytes) : Bool := (ofString "__").isPrefixOf name

/-- No key begins with both. -/
def apart (p q : Bytes) : Bool := !p.isPrefixOf q && !q.isPrefixOf p

namespace Executor

variable {t t' k pk : Bytes}

theorem colon_eq : ofString ":" = [58] := by decide

/-! ## The four kinds of system keys

They differ in their third and fourth byte. -/

theorem take_secPrefix (hk : secPrefix t <+: k) : k.take 4 = "__se" := by
  obtain ⟨rest, rfl⟩ := hk
  have hlit : ofString "__secidx__:" = "__se" ++ "cidx__:" := by decide
  simp only [secPrefix, hlit, append_assoc]
  exact take_left' (by decide)

theorem take_indexPrefix (hk : indexPrefix t <+: k) : k.take 4 = "__in" := by
  obtain ⟨rest, rfl⟩ := hk
  have hlit : ofString "__index__:" = "__in" ++ "dex__:" := by decide
  simp only [indexPrefix, hlit, append_assoc]
  exact take_left' (by decide)

theorem take_schemaKeyOf (t : Bytes) : (schemaKeyOf t).take 4 = "__sc" := by
  have hlit : ofString "__schema__:" = "__sc" ++ "hema__:" := by decide
  simp only [schemaKeyOf, hlit, append_assoc]
  exact take_left' (by decide)

theorem take_tableKey (h : Host) (s t : Bytes) : (tableKey h s t).take 4 = "__ca" := by
  have hlit : ofString "__catalog__:table:" = "__ca" ++ "talog__:table:" := by decide
  simp only [tableKey, hlit, append_assoc]
  exact take_left' (by decide)

theorem reserved_of_take {b c : UInt8} (hk : k.take 4 = [95, 95, b, c]) : reserved k := by
  obtain ⟨rest, hrest⟩ := take_prefix 4 k
  rw [← hrest, hk]
  rfl

theorem reserved_of_indexPrefix (hk : indexPrefix t <+: k) : reserved k :=
  reserved_of_take (take_indexPrefix hk)

theorem reserved_schemaKeyOf (t : Bytes) : reserved (schemaKeyOf t) :=
  reserved_of_take (take_schemaKeyOf t)

theorem reserved_tableKey (h : Host) (s t : Bytes) : reserved (tableKey h s t) :=
  reserved_of_take (take_tableKey h s t)

/-! ## Rows -/

/-- A key of a row begins like a key of the system if the name of the table does. -/
theorem reserved_of_rowPrefix (hk : rowPrefix t <+: k) : reserved k = reserved t := by
  obtain ⟨rest, rfl⟩ := hk
  have hlit : ofString "__" = [95, 95] := by decide
  unfold reserved rowPrefix
  rw [colon_eq, hlit]
  match t with
  | [] => rfl
  | [a] => simp [List.isPrefixOf]
  | a :: b :: t => rfl

end Executor

end MagnumDB
