import MagnumDB.Sql.Row

/-!
# Reading stored rows back

A row whose cells are texts shorter than `2^32` bytes is read back as it was stored;
a longer cell would have its length cut off at 32 bits. What is read from a record,
whatever the record is, are such cells.
-/

namespace MagnumDB

open Text ByteString List

/-- The cell is a text with a length that fits its field. -/
def storableCell (cell : Bytes) : Bool := isUtf8 cell && decide (cell.length < 2 ^ 32)

/-- All cells of the row can be stored. -/
def storable (row : List Bytes) : Bool := row.all storableCell

theorem storableCell_iff {cell : Bytes} :
    storableCell cell ↔ isUtf8 cell ∧ cell.length < 2 ^ 32 := by
  simp [storableCell]

theorem decodeCells_encodeCell {cell : Bytes} (hcell : storableCell cell) (n : Nat)
    (rest : Bytes) : decodeCells (n + 1) (encodeCell cell ++ rest)
      = (decodeCells n rest).map fun cells => cell :: cells := by
  obtain ⟨hutf8, hlen⟩ := storableCell_iff.mp hcell
  have hdata : encodeCell cell ++ rest = leBytes 4 cell.length ++ (cell ++ rest) :=
    List.append_assoc _ _ _
  have hfour : (leBytes 4 cell.length).length = 4 := leBytes_length 4 _
  have hlong : ¬ (leBytes 4 cell.length ++ (cell ++ rest)).length < 4 := by
    rw [List.length_append]
    omega
  have hne : ¬ (leBytes 4 cell.length ++ (cell ++ rest)).isEmpty := by
    rw [List.isEmpty_iff, ← List.length_eq_zero_iff]
    omega
  conv_lhs => unfold decodeCells
  rw [hdata, if_neg hne, if_neg hlong, List.take_left' hfour, List.drop_left' hfour,
    leNat_leBytes_of_lt (by omega), if_neg (by rw [List.length_append]; omega), List.take_left,
    List.drop_left, hutf8]
  rfl

/-- The loop reads the cells that were written, if it has a round for each. -/
theorem decodeCells_encode {cells : List Bytes} (hcells : storable cells) {n : Nat}
    (hn : cells.length ≤ n) : decodeCells n (cells.flatMap encodeCell) = .ok cells := by
  induction cells generalizing n with
  | nil =>
    cases n with
    | zero => rfl
    | succ n => rfl
  | cons cell cells ih =>
    obtain ⟨hcell, hrest⟩ := Bool.and_eq_true_iff.mp hcells
    rw [length_cons] at hn
    obtain ⟨n, rfl⟩ : ∃ n', n = n' + 1 := ⟨n - 1, by omega⟩
    rw [flatMap_cons, decodeCells_encodeCell hcell, ih hrest (by omega)]
    rfl

theorem length_le_flatMap_encodeCell (cells : List Bytes) :
    cells.length ≤ (cells.flatMap encodeCell).length := by
  induction cells with
  | nil => exact Nat.le_refl 0
  | cons cell cells ih =>
    rw [flatMap_cons, length_append, length_cons]
    have hcell : 4 ≤ (encodeCell cell).length := by simp [encodeCell]
    omega

/-- **A row is read back as it was stored.** -/
theorem decodeValues_encode {cells : List Bytes} (hcells : storable cells)
    (xmin xmax : UInt64) : decodeValues (encodeValuesMvcc cells xmin xmax) = .ok cells := by
  have hheader : (encodeValuesMvcc cells xmin xmax).drop 16 = cells.flatMap encodeCell := by
    unfold encodeValuesMvcc
    rw [← append_assoc]
    exact drop_left' (by simp)
  have hlen : (encodeValuesMvcc cells xmin xmax).length = 16 + (cells.flatMap encodeCell).length := by
    simp [encodeValuesMvcc]
    omega
  have hrounds := length_le_flatMap_encodeCell cells
  unfold decodeValues
  dsimp only
  rw [if_pos (by omega), hheader, decodeCells_encode hcells (by omega)]

/-- Cells that are read were written so. -/
theorem decodeCells_eq_ok {n : Nat} : ∀ {data : Bytes} {cells : List Bytes}, data.length ≤ n →
    decodeCells n data = .ok cells → storable cells ∧ data = cells.flatMap encodeCell := by
  induction n with
  | zero =>
    intro data cells hn h
    obtain rfl : data = [] := by simpa using hn
    cases h
    exact ⟨rfl, rfl⟩
  | succ n ih =>
    intro data cells hn h
    unfold decodeCells at h
    split at h
    · rename_i hempty
      cases h
      exact ⟨rfl, by simpa using hempty⟩
    split at h
    · cases h
    rename_i hfour
    dsimp only at h
    generalize hlen : leNat (data.take 4) = len at h
    split at h
    · cases h
    rename_i hrest
    split at h
    · cases h
    rename_i hutf8
    -- one cell is there
    cases hnext : decodeCells n ((data.drop 4).drop len) with
    | error e => rw [hnext] at h; cases h
    | ok cells' =>
      rw [hnext] at h
      cases h
      rw [length_drop] at hrest
      obtain ⟨hstore, hdata⟩ := ih (by simp; omega) hnext
      have htake : (data.take 4).length = 4 := by simp; omega
      have hcell : ((data.drop 4).take len).length = len := by simp; omega
      have hle := leBytes_leNat (data.take 4)
      have hlt := leNat_lt (data.take 4)
      rw [hlen, htake] at hle hlt
      refine ⟨Bool.and_eq_true_iff.mpr ⟨storableCell_iff.mpr ⟨by simpa using hutf8, ?_⟩, hstore⟩, ?_⟩
      · rw [hcell]
        exact hlt
      · rw [flatMap_cons, ← hdata, encodeCell, hcell, hle, append_assoc, take_append_drop,
          take_append_drop]

theorem exists_header {data : Bytes} (h : 16 ≤ data.length) : ∃ xmin xmax : UInt64,
    data = leBytes 8 xmin.toNat ++ (leBytes 8 xmax.toNat ++ data.drop 16) := by
  have hword : ∀ {bs : Bytes}, bs.length = 8 → ∃ x : UInt64, leBytes 8 x.toNat = bs := by
    intro bs hbs
    have hlt := leNat_lt bs
    have hle := leBytes_leNat bs
    rw [hbs] at hlt hle
    exact ⟨UInt64.ofNat (leNat bs), by rw [UInt64.toNat_ofNat_of_lt' hlt, hle]⟩
  obtain ⟨xmin, hmin⟩ := hword (show (data.take 8).length = 8 by simp; omega)
  obtain ⟨xmax, hmax⟩ := hword (show ((data.drop 8).take 8).length = 8 by simp; omega)
  refine ⟨xmin, xmax, ?_⟩
  rw [hmin, hmax, ← drop_drop (i := 8) (j := 8), take_append_drop, take_append_drop]

/-- **The records that are read.** These are the records with a header, and of those without one
the ones that are shorter than a header, or have less than a length left behind one. -/
theorem decodeValues_eq_ok_iff (data : Bytes) (cells : List Bytes) :
    decodeValues data = .ok cells ↔ storable cells ∧
      ((∃ xmin xmax, data = encodeValuesMvcc cells xmin xmax) ∨
        data = cells.flatMap encodeCell ∧
          (data.length < 16 ∨ decodeCells data.length (data.drop 16) = .error .short)) := by
  constructor
  · intro h
    unfold decodeValues at h
    dsimp only at h
    split at h
    · rename_i values hfirst
      cases h
      obtain ⟨hstore, hdata⟩ := decodeCells_eq_ok (by simp) hfirst
      refine ⟨hstore, ?_⟩
      by_cases hlong : 16 ≤ data.length
      · obtain ⟨xmin, xmax, hheader⟩ := exists_header hlong
        rw [if_pos hlong] at hdata
        rw [hdata] at hheader
        exact .inl ⟨xmin, xmax, hheader⟩
      · rw [if_neg hlong] at hdata
        exact .inr ⟨hdata, .inl (by omega)⟩
    · cases h
    · cases h
    · -- the reading without a header
      rename_i hfirst
      split at h
      · rename_i values hsecond
        cases h
        obtain ⟨hstore, hdata⟩ := decodeCells_eq_ok (Nat.le_refl _) hsecond
        refine ⟨hstore, .inr ⟨hdata, ?_⟩⟩
        by_cases hlong : 16 ≤ data.length
        · rw [if_pos hlong] at hfirst
          exact .inr hfirst
        · exact .inl (by omega)
      · cases h
      · cases h
  · rintro ⟨hstore, ⟨xmin, xmax, rfl⟩ | ⟨hdata, hwhy⟩⟩
    · exact decodeValues_encode hstore xmin xmax
    · have hcells : decodeCells data.length data = .ok cells := by
        have hlen := length_le_flatMap_encodeCell cells
        rw [← hdata] at hlen
        have h := decodeCells_encode hstore hlen
        rwa [← hdata] at h
      unfold decodeValues
      dsimp only
      by_cases hlong : 16 ≤ data.length
      · rw [if_pos hlong, hwhy.resolve_left (by omega), hcells]
      · rw [if_neg hlong, drop_zero, hcells]

end MagnumDB
