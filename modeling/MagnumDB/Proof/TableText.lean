import MagnumDB.Lib.TextLemmas
import MagnumDB.Network.Response

/-!
# Results and their text

A result is passed on as the text of a table: to the client, and inside the executor to the
parts of a query that are made from other queries. Nothing in it is escaped. So a result is
read back exactly if no name and no cell has a line feed, and no cell has a bar or blanks at
its ends.
-/

namespace MagnumDB

open Text List

/-- A cell that can be told from the table around it. -/
def plainCell (cell : Bytes) : Bool := !cell.contains 124 && !cell.contains 10 && trim cell == cell

/-- The result is read back as it was. -/
def readable (headers : List Bytes) (rows : List (List Bytes)) : Bool :=
  headers.all (fun name => !name.contains 10) &&
    rows.all fun row => row.all plainCell && fitsDataRow row

/-! ## The lines of the text -/

/-- The line between the header and the rows. -/
def ruleLine : Bytes := "+-----------------+"

/-- A line of cells, without its end. -/
def cellLine (cells : List Bytes) : Bytes := 124 :: 32 :: (join [32, 124, 32] cells ++ [32, 124])

theorem rule_eq : rule = ruleLine ++ [10] := by decide

theorem tableLine_eq (cells : List Bytes) : tableLine cells = cellLine cells ++ [10] := by
  have hopen : ofString "| " = [124, 32] := by decide
  have hglue : ofString " | " = [32, 124, 32] := by decide
  have hclose : ofString " |\n" = [32, 124, 10] := by decide
  unfold tableLine cellLine
  rw [hopen, hglue, hclose]
  simp

theorem rowsInSet_ne_nil (n : Nat) : rowsInSet n ≠ [] := by
  have hlit : ofString " row(s) in set." ≠ [] := by decide
  exact append_ne_nil_of_right_ne_nil _ hlit

theorem newline_not_mem_rowsInSet (n : Nat) : (10 : UInt8) ∉ rowsInSet n := by
  have hlit : (10 : UInt8) ∉ ofString " row(s) in set." := by decide
  unfold rowsInSet
  rw [mem_append]
  rintro (hdigit | htext)
  · exact absurd (digit_of_mem_decimal hdigit).1 (by decide)
  · exact hlit htext

/-- The lines that are put together, but for the last one. -/
def tableLines (headers : List Bytes) (rows : List (List Bytes)) : List Bytes :=
  ruleLine :: cellLine headers :: ruleLine :: (rows.map cellLine ++ [ruleLine])

theorem formatTableOutput_eq (headers : List Bytes) (rows : List (List Bytes)) :
    formatTableOutput headers rows
      = (tableLines headers rows).flatMap (· ++ [10]) ++ rowsInSet rows.length := by
  have hrows : (rows.map cellLine).flatMap (· ++ [10]) = rows.flatMap tableLine := by
    rw [flatMap_map]
    exact congrArg (List.flatMap · rows) (funext fun row => (tableLine_eq row).symm)
  unfold formatTableOutput tableLines
  simp only [flatMap_cons, flatMap_append, flatMap_nil, append_nil, hrows,
    rule_eq, tableLine_eq, append_assoc]

/-! ## Counting lines -/

theorem count_cellLine (cells : List Bytes) :
    (cellLine cells).count 10 = (cells.map (List.count 10)).sum := by
  unfold cellLine
  rw [count_cons_of_ne (by decide), count_cons_of_ne (by decide), count_append,
    count_join (by decide)]
  rfl

/-- The line feeds of the names and the cells. -/
def newlines (headers : List Bytes) (rows : List (List Bytes)) : Nat :=
  (headers.map (List.count 10)).sum + (rows.map fun row => (row.map (List.count 10)).sum).sum

/-- Each line feed of a name or a cell is one line more. -/
theorem length_lines (headers : List Bytes) (rows : List (List Bytes)) :
    (lines (formatTableOutput headers rows)).length = 5 + rows.length + newlines headers rows := by
  have hend (l : Bytes) : (l ++ [10]).count 10 = l.count 10 + 1 := by
    rw [count_append]
    rfl
  have hrule : ruleLine.count 10 = 0 := by decide
  have hrows : ((rows.map cellLine).flatMap (· ++ [10])).count 10
      = rows.length + (rows.map fun row => (row.map (List.count 10)).sum).sum := by
    induction rows with
    | nil => rfl
    | cons row rows ih =>
      rw [map_cons, flatMap_cons, count_append, ih, hend, count_cellLine,
        length_cons, map_cons, sum_cons]
      omega
  rw [formatTableOutput_eq, length_lines_append _ (newline_not_mem_rowsInSet _) (rowsInSet_ne_nil _)]
  unfold tableLines newlines
  simp only [flatMap_cons, flatMap_append, flatMap_nil, append_nil,
    count_append, hend, hrows, hrule, count_cellLine]
  omega

/-! ## Reading the text back -/

variable {headers : List Bytes} {rows : List (List Bytes)}

theorem newlines_eq_zero_iff :
    newlines headers rows = 0 ↔
      (∀ name ∈ headers, 10 ∉ name) ∧ ∀ row ∈ rows, ∀ cell ∈ row, 10 ∉ cell := by
  unfold newlines
  rw [Nat.add_eq_zero_iff, sum_eq_zero_iff, sum_eq_zero_iff]
  simp only [forall_mem_map, sum_eq_zero_iff, count_eq_zero]

variable {cells : List Bytes}

theorem newline_not_mem_cellLine (h : ∀ cell ∈ cells, 10 ∉ cell) : 10 ∉ cellLine cells := by
  rw [← count_eq_zero, count_cellLine, sum_eq_zero_iff, forall_mem_map]
  exact fun cell hcell => count_eq_zero.mpr (h cell hcell)

theorem getLast?_cellLine (cells : List Bytes) : (cellLine cells).getLast? = some 124 := by
  have hsnoc : cellLine cells = (124 :: 32 :: (join [32, 124, 32] cells ++ [32])) ++ [124] := by
    unfold cellLine
    simp
  rw [hsnoc, getLast?_concat]

/-- Without line feeds of their own, the lines are the ones that were put together. -/
theorem lines_formatTableOutput (h : newlines headers rows = 0) :
    lines (formatTableOutput headers rows) = tableLines headers rows ++ [rowsInSet rows.length] := by
  obtain ⟨hnames, hcells⟩ := newlines_eq_zero_iff.mp h
  have hrule : 10 ∉ ruleLine ∧ ruleLine.getLast? ≠ some 13 := by decide
  have hline {cells : List Bytes} (hc : ∀ cell ∈ cells, 10 ∉ cell) :
      10 ∉ cellLine cells ∧ (cellLine cells).getLast? ≠ some 13 := by
    refine ⟨newline_not_mem_cellLine hc, ?_⟩
    rw [getLast?_cellLine]
    decide
  rw [formatTableOutput_eq]
  refine lines_flatMap ?_ (newline_not_mem_rowsInSet _) (rowsInSet_ne_nil _)
  intro l hl
  unfold tableLines at hl
  simp only [mem_cons, mem_append, mem_map, not_mem_nil, or_false] at hl
  rcases hl with rfl | rfl | rfl | ⟨row, hrow, rfl⟩ | rfl
  · exact hrule
  · exact hline hnames
  · exact hrule
  · exact hline (hcells row hrow)
  · exact hrule

/-- The lines of the rows are where both readers look for them. -/
theorem rowLines_formatTableOutput (h : newlines headers rows = 0) :
    let ls := lines (formatTableOutput headers rows)
    (ls.drop 3).take (ls.length - 2 - 3) = rows.map cellLine := by
  have hlen := length_lines headers rows
  rw [h, Nat.add_zero] at hlen
  dsimp only
  rw [hlen, lines_formatTableOutput h]
  have hdrop : (tableLines headers rows ++ [rowsInSet rows.length]).drop 3
      = rows.map cellLine ++ ([ruleLine] ++ [rowsInSet rows.length]) := by
    rw [← append_assoc]
    rfl
  rw [hdrop]
  exact take_left' (by rw [length_map]; omega)

/-- As many rows are read as there are, and one more for each line feed. -/
theorem length_parseFormattedTable (headers : List Bytes) (rows : List (List Bytes)) :
    (parseFormattedTable (formatTableOutput headers rows)).2.length
      = rows.length + newlines headers rows := by
  have hlen := length_lines headers rows
  unfold parseFormattedTable
  rw [if_neg (by omega), length_take, length_drop]
  omega

theorem parseFormattedTable_format (h : newlines headers rows = 0) :
    (parseFormattedTable (formatTableOutput headers rows)).2 = rows.map cellLine := by
  have hlen := length_lines headers rows
  unfold parseFormattedTable
  rw [if_neg (by omega)]
  exact rowLines_formatTableOutput h

/-! ## Reading a line back -/

theorem trimMatches_cellLine (hne : cells ≠ []) :
    trimMatches (· == 124) (cellLine cells)
      = join [124] (cells.map fun cell => 32 :: (cell ++ [32])) := by
  have hline : cellLine cells = 124 :: (32 :: (join [32, 124, 32] cells ++ [32]) ++ [124]) := by
    unfold cellLine
    simp
  -- blanks shield the bars of the first and of the last cell
  have hback : ((32 :: (join [32, 124, 32] cells ++ [32]) ++ [124]).reverse.dropWhile (· == 124))
      = (32 :: (join [32, 124, 32] cells ++ [32])).reverse := by
    rw [reverse_append, ← cons_append, reverse_append]
    rfl
  rw [hline]
  show ((32 :: (join [32, 124, 32] cells ++ [32]) ++ [124]).reverse.dropWhile (· == 124)).reverse = _
  rw [hback, reverse_reverse, join_pad 124 hne]

/-- A line is read back exactly if none of its cells has a bar or blanks at its ends. -/
theorem lineCells_cellLine_iff (hne : cells ≠ []) :
    lineCells (cellLine cells) = cells ↔ ∀ cell ∈ cells, 124 ∉ cell ∧ trim cell = cell := by
  set padded := cells.map fun cell => 32 :: (cell ++ [32]) with hpadded
  have hpadne : padded ≠ [] := by simpa [hpadded] using hne
  have hbars (cell : Bytes) : (32 :: (cell ++ [32])).count 124 = cell.count 124 := by
    rw [count_cons_of_ne (by decide), count_append]
    rfl
  have hsplit (hcells : ∀ cell ∈ cells, 124 ∉ cell) :
      lineCells (cellLine cells) = cells.map trim := by
    unfold lineCells
    rw [trimMatches_cellLine hne, splitOn_join hpadne, hpadded, map_map]
    · exact map_congr_left fun cell _ => trim_pad cell
    · intro part hpart
      obtain ⟨cell, hcell, rfl⟩ := mem_map.mp hpart
      rw [← count_eq_zero, hbars, count_eq_zero]
      exact hcells cell hcell
  constructor
  · intro hread
    -- each bar of a cell would make one cell more
    have hlen := congrArg List.length hread
    have hcount := count_join_add 124 [124] hpadne
    unfold lineCells at hlen
    rw [trimMatches_cellLine hne, length_map, length_splitOn] at hlen
    have hone : List.count (124 : UInt8) [124] = 1 := by decide
    rw [hpadded, map_map, hone] at hcount
    have hsum : (cells.map ((fun p : Bytes => p.count 124 + 1) ∘ fun cell => 32 :: (cell ++ [32]))).sum
        = (cells.map (List.count 124)).sum + cells.length := by
      clear hread hlen hcount hsplit hpadne hpadded hne
      induction cells with
      | nil => rfl
      | cons cell cells ih =>
        rw [map_cons, sum_cons, ih, map_cons, sum_cons, length_cons,
          Function.comp_apply, hbars]
        omega
    have htotal := hlen.symm.trans hcount
    rw [hsum] at htotal
    have hzero : (cells.map (List.count 124)).sum = 0 := by omega
    rw [sum_eq_zero_iff, forall_mem_map] at hzero
    have hnone : ∀ cell ∈ cells, 124 ∉ cell := fun cell hc => count_eq_zero.mp (hzero cell hc)
    rw [hsplit hnone] at hread
    have htrim := map_inj_left.mp (hread.trans (map_id cells).symm)
    exact fun cell hc => ⟨hnone cell hc, htrim cell hc⟩
  · intro hcells
    rw [hsplit fun cell hc => (hcells cell hc).1]
    exact (map_congr_left fun cell hc => (hcells cell hc).2).trans (map_id cells)

/-! ## The messages -/

/-- Without line feeds in the result, each row is sent in a message of its own. -/
theorem receivedRows_format (h : newlines headers rows = 0) :
    (sendQueryResponse (formatTableOutput headers rows)).map receivedRows
      = .ok (rows.map fun row => readDataRow (dataRow (lineCells (cellLine row)))) := by
  have hlen := length_lines headers rows
  have hrows := rowLines_formatTableOutput h
  dsimp only at hrows
  have hfirst : (lines (formatTableOutput headers rows))[0]?.getD [] = ruleLine := by
    rw [lines_formatTableOutput h]
    rfl
  have hcond : (decide (4 ≤ (lines (formatTableOutput headers rows)).length) &&
      (ofString "+--").isPrefixOf ((lines (formatTableOutput headers rows))[0]?.getD [])) := by
    rw [hfirst, Bool.and_eq_true, decide_eq_true_iff]
    exact ⟨by omega, by decide⟩
  have hbar : (rows.map cellLine).filter (fun line => line.head? == some 124) = rows.map cellLine := by
    rw [filter_eq_self, forall_mem_map]
    exact fun row _ => rfl
  have hdata : ((rows.map cellLine).map fun line => dataRow (lineCells line)).filter
      (fun msg => msg.head? == some 68) = (rows.map cellLine).map fun line => dataRow (lineCells line) := by
    rw [filter_eq_self, forall_mem_map]
    exact fun line _ => rfl
  have hdescription (names : List Bytes) : ¬((rowDescription names).head? == some 68) := by
    show ¬(some (84 : UInt8) == some 68)
    decide
  unfold sendQueryResponse
  rw [if_pos hcond, if_neg (by omega), hrows, hbar]
  show Except.ok (receivedRows _) = _
  unfold receivedRows
  rw [cons_append, filter_cons_of_neg (p := fun msg : Bytes => msg.head? == some 68) (hdescription _),
    filter_append, hdata]
  show Except.ok ((((rows.map cellLine).map fun line => dataRow (lineCells line)) ++ []).map readDataRow) = _
  rw [append_nil, map_map, map_map]
  rfl

/-- **Results and their text.** A result is read back as it was, by the executor and by a client,
exactly if it has no line feeds, and its cells have no bars and no blanks at their ends. -/
theorem table_text_read_back_iff {headers : List Bytes} {rows : List (List Bytes)}
    (hheaders : 1 ≤ headers.length) (hrows : ∀ row ∈ rows, row.length = headers.length) :
    ((parseFormattedTable (formatTableOutput headers rows)).2.map lineCells = rows ∧
      (sendQueryResponse (formatTableOutput headers rows)).map receivedRows = .ok (rows.map some)) ↔
    readable headers rows := by
  have hne {row : List Bytes} (hrow : row ∈ rows) : row ≠ [] := by
    rintro rfl
    have := hrows [] hrow
    rw [length_nil] at this
    omega
  unfold readable plainCell
  simp only [Bool.and_eq_true, all_eq_true, Bool.not_eq_true', beq_iff_eq,
    contains_eq_mem, decide_eq_false_iff_not]
  constructor
  · rintro ⟨hparse, hsend⟩
    have hnew : newlines headers rows = 0 := by
      have hlen := congrArg List.length hparse
      rw [length_map, length_parseFormattedTable] at hlen
      omega
    obtain ⟨hnames, hcells⟩ := newlines_eq_zero_iff.mp hnew
    rw [parseFormattedTable_format hnew, map_map] at hparse
    have hread := map_inj_left.mp (hparse.trans (map_id rows).symm)
    rw [receivedRows_format hnew, Except.ok.injEq] at hsend
    have hreceived := map_inj_left.mp hsend
    refine ⟨hnames, fun row hrow => ⟨fun cell hcell => ?_, ?_⟩⟩
    · have hline := (lineCells_cellLine_iff (hne hrow)).mp (hread row hrow) cell hcell
      exact ⟨⟨hline.1, hcells row hrow cell hcell⟩, hline.2⟩
    · have hdata := hreceived row hrow
      have hline : lineCells (cellLine row) = row := hread row hrow
      rw [hline] at hdata
      exact (readDataRow_dataRow_iff row).mp hdata
  · rintro ⟨hnames, hplain⟩
    have hnew : newlines headers rows = 0 :=
      newlines_eq_zero_iff.mpr ⟨hnames, fun row hrow cell hcell => ((hplain row hrow).1 cell hcell).1.2⟩
    have hline (row : List Bytes) (hrow : row ∈ rows) : lineCells (cellLine row) = row :=
      (lineCells_cellLine_iff (hne hrow)).mpr fun cell hcell =>
        ⟨((hplain row hrow).1 cell hcell).1.1, ((hplain row hrow).1 cell hcell).2⟩
    rw [parseFormattedTable_format hnew, receivedRows_format hnew, map_map]
    refine ⟨(map_congr_left hline).trans (map_id rows), ?_⟩
    refine congrArg Except.ok (map_congr_left fun row hrow => ?_)
    rw [hline row hrow]
    exact (readDataRow_dataRow_iff row).mpr (hplain row hrow).2

/-- Two columns and two rows, which are read back. -/
theorem table_text_read_back_two_rows :
    let headers := ["id", "name"]
    let rows := [[ofString "1", "Ada L."], ["2", ""]]
    readable headers rows ∧
      (parseFormattedTable (formatTableOutput headers rows)).2.map lineCells = rows := by
  refine ⟨by decide, ?_⟩
  exact ((table_text_read_back_iff (by decide) (by decide)).mpr (by decide)).1

/-- A cell with a bar is read back as two cells. -/
theorem bar_in_cell_read_back :
    (parseFormattedTable (formatTableOutput ["v"] [["a|b"]])).2.map lineCells
      = [[ofString "a", "b"]] := by decide

end MagnumDB
