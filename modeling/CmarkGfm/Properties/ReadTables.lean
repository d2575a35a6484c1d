import CmarkGfm.Properties.WrittenTables
import CmarkGfm.Properties.Tables

/-!
# Tables that are read back

A table of which every line is written with pipes around its cells: the header and the delimiter row open it,
and the lines below are its rows.
-/

namespace CmarkGfm

namespace Scanners

theorem scan_whole {r : Re} {u : Bytes} (matched : Regex.Matches CharClass.mem r u) : scan r u = u.length := by
  have eq := scan_eq (v := []) matched (by simp)
  rwa [List.append_nil] at eq

end Scanners

namespace Table

variable {self : Nat} {options : Options} {table : TableNode} {p : ParserState} {input : Bytes} {alignment : UInt8}
  {alignments : List UInt8} {n : Nat}

/-! ### The delimiter row -/

/-- What a column may be aligned to. -/
def IsAlignment (alignment : UInt8) : Prop :=
  alignment = 0 ∨ alignment = chr 'l' ∨ alignment = chr 'c' ∨ alignment = chr 'r'

theorem isAlignment_alignmentOf (buf : Bytes) : IsAlignment (alignmentOf buf) := by
  unfold alignmentOf
  dsimp only
  split
  next => exact .inr (.inr (.inl rfl))
  next =>
    split
    next => exact .inr (.inl rfl)
    next =>
      split
      next => exact .inr (.inr (.inr rfl))
      next => exact .inl rfl

/-- The delimiter of a column, between its pipes. -/
def delimiterOf (alignment : UInt8) : Bytes :=
  if alignment = chr 'l' then lit " :-- "
  else if alignment = chr 'c' then lit " :-: "
  else if alignment = chr 'r' then lit " --: "
  else lit " --- "

theorem delimiterOf_cases (alignment : UInt8) :
    delimiterOf alignment ∈ [lit " --- ", lit " :-- ", lit " :-: ", lit " --: "] := by
  unfold delimiterOf
  split
  next => simp
  next =>
    split
    next => simp
    next =>
      split
      next => simp
      next => simp

theorem cellSource_delimiterOf (alignment : UInt8) : CellSource (delimiterOf alignment) := by
  have cases := delimiterOf_cases alignment
  generalize delimiterOf alignment = w at cases
  have all : ∀ w ∈ [lit " --- ", lit " :-- ", lit " :-: ", lit " --: "],
      (∀ c ∈ w, 32 ≤ c ∧ c < 0x80) ∧ chr '|' ∉ w ∧ w.getLast? ≠ some (chr '\\') := by decide
  obtain ⟨plain, noPipe, last⟩ := all w cases
  exact .of_ascii plain (pipesEscaped_of_not_mem noPipe) last

theorem alignmentOf_delimiterOf (isAlignment : IsAlignment alignment) :
    alignmentOf (bufOf (delimiterOf alignment)) = alignment := by
  rcases isAlignment with rfl | rfl | rfl | rfl <;> decide

theorem matches_delimiterOf (alignment : UInt8) :
    Regex.Matches CharClass.mem Scanners.tableMarker (delimiterOf alignment) := by
  have cases := delimiterOf_cases alignment
  generalize delimiterOf alignment = w at cases
  have whole : ∀ w ∈ [lit " --- ", lit " :-- ", lit " :-: ", lit " --: "],
      Scanners.scan Scanners.tableMarker w = w.length ∧ 0 < w.length := by decide +kernel
  obtain ⟨eq, some⟩ := whole w cases
  have matched := (Scanners.scan_sound (eq ▸ some : 0 < Scanners.scan Scanners.tableMarker w)).2
  rwa [eq, List.take_length] at matched

/-- Cells with a pipe behind each, read as cells with a pipe before each. -/
theorem flatMap_pipes (ws : List Bytes) :
    chr '|' :: ws.flatMap (· ++ [chr '|']) = ws.flatMap (chr '|' :: ·) ++ [chr '|'] := by
  induction ws with
  | nil => rfl
  | cons w rest ih =>
    calc chr '|' :: (w :: rest).flatMap (· ++ [chr '|'])
        = chr '|' :: w ++ (chr '|' :: rest.flatMap (· ++ [chr '|'])) := by simp
      _ = chr '|' :: w ++ (rest.flatMap (chr '|' :: ·) ++ [chr '|']) := by rw [ih]
      _ = (w :: rest).flatMap (chr '|' :: ·) ++ [chr '|'] := by simp

theorem joinCells_eq (ws : List Bytes) : joinCells ws = ws.flatMap (chr '|' :: ·) ++ [chr '|'] := flatMap_pipes ws

/-- A delimiter row begins a table. -/
theorem tableStart_joinCells {tail : Bytes} (some : alignments ≠ []) (lineEnd : LineEnd tail) :
    0 < Scanners.tableStart (joinCells (alignments.map delimiterOf) ++ tail) := by
  obtain ⟨first, rest, rfl⟩ := List.exists_cons_of_ne_nil some
  have pipe : Regex.Matches CharClass.mem (Scanners.str "|") [chr '|'] :=
    (Scanners.matches_single_iff _ _).mpr rfl
  have others : Regex.Matches CharClass.mem (.star (.seq (Scanners.str "|") Scanners.tableMarker))
      ((rest.map delimiterOf).flatMap (chr '|' :: ·)) := by
    induction rest with
    | nil => exact .nil
    | cons a rest ih => exact .more (.seq pipe (matches_delimiterOf a)) (ih (by simp))
  have newline : Regex.Matches CharClass.mem Scanners.extNewline tail := by
    rcases lineEnd with rfl | rfl
    · exact .seq (u := []) (.right .eps) ((Scanners.matches_single_iff 10 _).mpr rfl)
    · exact .seq (u := [13]) (.left ((Scanners.matches_single_iff 13 _).mpr rfl)) ((Scanners.matches_single_iff 10 _).mpr rfl)
  have shape : joinCells ((first :: rest).map delimiterOf) ++ tail =
      [chr '|'] ++ (delimiterOf first ++ ((rest.map delimiterOf).flatMap (chr '|' :: ·) ++
        ([chr '|'] ++ ([] ++ tail)))) := by
    simp [joinCells_eq]
  rw [shape]
  have whole : Scanners.tableStart ([chr '|'] ++ (delimiterOf first ++ ((rest.map delimiterOf).flatMap (chr '|' :: ·) ++
      ([chr '|'] ++ ([] ++ tail))))) = _ :=
    Scanners.scan_whole (.seq (.left pipe) (.seq (matches_delimiterOf first)
      (.seq others (.seq (.left pipe) (.seq .nil newline)))))
  rw [whole]
  simp

/-! ### What is read of a cell -/

/-- A cell as it is read: its text, and whether it is a part of the cell before it or above it. The text of a part
does not matter. -/
structure CellView where
  text : Bytes
  covered : Bool
  marker : Bool
  deriving DecidableEq

/-- What is read of a cell that is written as `w`. -/
def sourceView (options : Options) (w : Bytes) : CellView :=
  let marker := options.has optTableSpans && bufOf w == rowspanMarker options
  ⟨if marker then [] else bufOf w, options.has optTableSpans && w.isEmpty, marker⟩

def RowCell.cellView (cell : RowCell) : CellView :=
  ⟨if cell.rowspan = 0 then [] else cell.buf, cell.colspan == 0, cell.rowspan == 0⟩

def CellNode.view (cell : CellNode) : CellView :=
  ⟨if cell.rowspan = 0 then [] else cell.data.content, cell.colspan == 0, cell.rowspan == 0⟩

def RowNode.view (row : RowNode) : List CellView := row.cells.map CellNode.view

theorem cellViews_of_joinCells {ws : List Bytes} {row : Row} (marked : ∀ c ∈ row.cells, c.Marked options)
    (views : row.cells.map RowCell.view = ws.map fun w => (bufOf w, options.has optTableSpans && w.isEmpty)) :
    row.cells.map RowCell.cellView = ws.map (sourceView options) := by
  generalize row.cells = cells at marked views
  induction ws generalizing cells with
  | nil =>
    rw [List.map_eq_nil_iff.mp views]
    rfl
  | cons w rest ih =>
    cases cells with
    | nil => cases views
    | cons cell cells =>
      obtain ⟨here, later⟩ := List.forall_mem_cons.mp marked
      rw [List.map_cons, List.map_cons, List.cons.injEq] at views
      obtain ⟨view, views⟩ := views
      obtain ⟨buf, covered⟩ := Prod.mk.inj view
      have marker : (cell.rowspan == 0) = (options.has optTableSpans && bufOf w == rowspanMarker options) := by
        rw [Bool.eq_iff_iff, beq_iff_eq, Bool.and_eq_true, beq_iff_eq, here, buf]
        split
        next both => simp [both]
        next other => simpa using fun spans => not_and.mp other spans
      rw [List.map_cons, List.map_cons, ih cells later views, RowCell.cellView, sourceView, covered, buf, ← marker]
      simp

/-- A line that is written with pipes around its cells is read as these. -/
theorem cellViews_joinCells (options : Options) {ws : List Bytes} {tail : Bytes} (nonempty : ws ≠ [])
    (few : ws.length < maxColumns) (sources : ∀ w ∈ ws, CellSource w) (lineEnd : LineEnd tail) :
    ∃ row, rowFromString options (joinCells ws ++ tail) = some row ∧ row.paragraphOffset = 0 ∧
      row.cells.map RowCell.cellView = ws.map (sourceView options) := by
  obtain ⟨row, read, offset, views⟩ := rowFromString_joinCells options nonempty few sources lineEnd
  exact ⟨row, read, offset, cellViews_of_joinCells (rowFromString_spans read).2 views⟩

/-! ### The rows of a table that is read -/

/-- The marker of a cell loses nothing but its text. -/
theorem spanRows_map_cells {β : Type} {f : RowCell → β}
    (forgets : ∀ cell : RowCell, cell.rowspan = 0 → f { cell with buf := [] } = f cell) (cells : List RowCell) (i : Nat)
    (above : List RowNode) : (spanRows i cells above).1.map f = cells.map f := by
  induction cells generalizing i above with
  | nil => rfl
  | cons cell rest ih =>
    by_cases marker : cell.rowspan = 0
    · rw [spanRows, if_pos marker]
      cases spanRow i above with
      | none => simp [ih]
      | some above' => simp [ih, forgets cell marker]
    · rw [spanRows, if_neg marker]
      simp [ih]

theorem mergedCells_map {β : Type} {f : RowCell → β}
    (forgets : ∀ cell : RowCell, cell.rowspan = 0 → f { cell with buf := [] } = f cell) (options : Options)
    (cells : List RowCell) (rows : List RowNode) : (mergedCells options cells rows).map f = cells.map f := by
  rw [mergedCells]
  split
  next => exact spanRows_map_cells forgets cells 0 rows.reverse
  next => rfl

/-- A cell that is no marker shows the same with a greater span. -/
theorem view_extendSpan (i : Nat) (row : RowNode) (stops : RowNode.rowspanAt row i ≠ some 0) :
    (row.extendSpan i).view = row.view := by
  rw [RowNode.view, RowNode.view]
  apply List.ext_getElem?
  intro j
  rw [List.getElem?_map, List.getElem?_map, getElem?_extendSpan]
  split
  next same =>
    subst same
    cases there : row.cells[i]? with
    | none => rfl
    | some cell =>
      rw [RowNode.rowspanAt, there] at stops
      have some : cell.rowspan ≠ 0 := fun zero => stops (congrArg Option.some zero)
      have grown : cell.incrementRowspan.rowspan ≠ 0 := by
        rw [CellNode.rowspan_incrementRowspan]
        split <;> omega
      have colspan : cell.incrementRowspan.colspan = cell.colspan := by
        obtain ⟨data, none | d⟩ := cell <;> rfl
      have content : cell.incrementRowspan.data = cell.data := rfl
      simp [CellNode.view, some, grown, colspan, content]
  next => rfl

/-- A table that is read from lines with these cells. -/
structure TableNode.Reads (options : Options) (table : TableNode) (n : Nat) (alignments : List UInt8)
    (rows : List (List Bytes)) : Prop where
  nColumns : table.nColumns = n
  alignments : table.alignments = alignments
  nRows : table.nRows = rows.length
  complete : table.nNonemptyCells = n * rows.length
  rows : table.rows.map RowNode.view = rows.map (·.map (sourceView options))

/-- A line at the first nonspace of which there is a text. -/
structure LineAt (text : Bytes) (line : ParserState × Bytes) : Prop where
  notBlank : line.1.blank = false
  text : ∃ tail, line.2.drop line.1.firstNonspace = text ++ tail ∧ LineEnd tail

theorem view_newRow {cells : List RowCell} (full : cells.length = table.nColumns) :
    (newRow self p table cells).view = cells.map RowCell.cellView := by
  rw [RowNode.view, newRow, full, Nat.sub_self, List.replicate_zero, List.append_nil]
  apply List.ext_getElem?
  intro i
  simp only [List.getElem?_map, List.getElem?_mapIdx]
  cases cells[i]? <;> rfl

/-- A line opens a row with its cells. -/
theorem TableNode.Reads.addRow {rows : List (List Bytes)} {cells : List RowCell} {ws : List Bytes}
    (reads : table.Reads options n alignments rows) (length : ws.length = n)
    (views : cells.map RowCell.cellView = ws.map (sourceView options)) :
    (Table.addRow self options p table cells).Reads options n alignments (rows ++ [ws]) := by
  have full : cells.length = table.nColumns := by
    have := congrArg List.length views
    rw [List.length_map, List.length_map, length] at this
    rw [this, reads.nColumns]
  have forgets (cell : RowCell) (zero : cell.rowspan = 0) :
      RowCell.cellView { cell with buf := [] } = cell.cellView := by simp [RowCell.cellView, zero]
  have merged := mergedCells_map forgets options cells table.rows
  have mergedLength : (mergedCells options cells table.rows).length = n := by
    rw [(mergedCells_spec options cells table.rows).1, full, reads.nColumns]
  have taken : cells.take table.nColumns = cells := List.take_of_length_le (Nat.le_of_eq full)
  rw [Table.addRow, taken]
  constructor
  · exact reads.nColumns
  · exact reads.alignments
  · simp [TableNode.incrRowCount, reads.nRows]
  · simp only [TableNode.incrRowCount, reads.complete, mergedLength, List.length_append, List.length_singleton]
    rw [Nat.mul_add, Nat.mul_one]
  · simp only [TableNode.incrRowCount, List.map_append, List.map_singleton]
    rw [spannedRows_map options view_extendSpan, reads.rows, view_newRow (mergedLength.trans reads.nColumns.symm), merged,
      views]

theorem TableNode.Reads.complete_autocompleted {rows : List (List Bytes)} (reads : table.Reads options n alignments rows) :
    table.nAutocompletedCells = 0 := by
  rw [TableNode.nAutocompletedCells, reads.nColumns, reads.nRows, reads.complete]
  push_cast
  omega

/-- The lines below open the rows with their cells. -/
theorem readRows_joinCells (self : Nat) {lines : List (ParserState × Bytes)} {rows below : List (List Bytes)}
    (reads : table.Reads options n alignments rows) (positive : 0 < n) (few : n < maxColumns)
    (written : List.Forall₂ (fun line ws => LineAt (joinCells ws) line) lines below)
    (lengths : ∀ ws ∈ below, ws.length = n) (sources : ∀ ws ∈ below, ∀ w ∈ ws, CellSource w) :
    ∃ table', readRows self options table lines = some table' ∧
      table'.Reads options n alignments (rows ++ below) := by
  induction written generalizing table rows with
  | nil => exact ⟨table, rfl, by rwa [List.append_nil]⟩
  | @cons line ws lines below here _ ih =>
    obtain ⟨length, lengths⟩ := List.forall_mem_cons.mp lengths
    obtain ⟨source, sources⟩ := List.forall_mem_cons.mp sources
    obtain ⟨tail, text, lineEnd⟩ := here.text
    have nonempty : ws ≠ [] := by
      rintro rfl
      exact absurd length (Nat.ne_of_lt positive)
    obtain ⟨row, read, -, views⟩ := cellViews_joinCells options nonempty (by rw [length]; exact few) source lineEnd
    have autocompleted : table.nAutocompletedCells ≤ maxAutocompletedCells := by
      rw [reads.complete_autocompleted]
      exact Int.natCast_nonneg _
    have opened := tryOpeningTableRow_eq self here.notBlank autocompleted (text ▸ read)
    obtain ⟨table', later, reads'⟩ := ih (reads.addRow length views) lengths sources
    refine ⟨table', ?_, ?_⟩
    · rw [readRows, List.foldlM_cons, opened]
      exact later
    · rwa [List.append_assoc] at reads'

/-! ### The table that is read -/

/-- The alignments of a delimiter row are those that it is written for. -/
theorem alignments_joinCells {delimiter : Row} (isAlignment : ∀ a ∈ alignments, IsAlignment a)
    (views : delimiter.cells.map RowCell.view =
      (alignments.map delimiterOf).map fun w => (bufOf w, options.has optTableSpans && w.isEmpty)) :
    delimiter.cells.map (fun cell => alignmentOf cell.buf) = alignments :=
  calc delimiter.cells.map (fun cell => alignmentOf cell.buf)
      = (delimiter.cells.map RowCell.view).map fun v => alignmentOf v.1 := by
        rw [List.map_map]
        rfl
    _ = alignments.map fun a => alignmentOf (bufOf (delimiterOf a)) := by
        rw [views, List.map_map, List.map_map]
        rfl
    _ = alignments.map id := List.map_congr_left fun a member => alignmentOf_delimiterOf (isAlignment a member)
    _ = alignments := List.map_id alignments

theorem reads_headerTable (self : Nat) (parent : NodeData) (line : Int) {header delimiter : Row} {ws : List Bytes}
    (views : header.cells.map RowCell.cellView = ws.map (sourceView options))
    (aligned : delimiter.cells.map (fun cell => alignmentOf cell.buf) = alignments) :
    (headerTable self parent line header delimiter).Reads options ws.length alignments [ws] := by
  have length : header.cells.length = ws.length := by simpa using congrArg List.length views
  have view : (headerRow self parent line header).view = header.cells.map RowCell.cellView := by
    rw [RowNode.view, headerRow]
    apply List.ext_getElem?
    intro i
    simp only [List.getElem?_map, List.getElem?_mapIdx]
    cases header.cells[i]? <;> rfl
  constructor
  · exact length
  · exact aligned
  · rfl
  · simp [headerTable, TableNode.incrRowCount, length]
  · rw [rows_headerTable, List.map_singleton, view, views, List.map_singleton]

/-- The lines of a table are read as a table with the same alignments and cells: a paragraph with the cells of the
header, a delimiter row, and rows below it. -/
theorem readTable_joinCells (self : Nat) (options : Options) {parent : NodeData} {delimiter : ParserState × Bytes}
    {lines : List (ParserState × Bytes)} {header : List Bytes} {below : List (List Bytes)} (nonempty : header ≠ [])
    (few : header.length < maxColumns) (aligned : alignments.length = header.length)
    (isAlignment : ∀ a ∈ alignments, IsAlignment a) (lengths : ∀ ws ∈ below, ws.length = header.length)
    (sources : ∀ ws ∈ header :: below, ∀ w ∈ ws, CellSource w)
    (content : ∃ tail, parent.content = joinCells header ++ tail ∧ LineEnd tail)
    (delimits : LineAt (joinCells (alignments.map delimiterOf)) delimiter)
    (written : List.Forall₂ (fun line ws => LineAt (joinCells ws) line) lines below) :
    ∃ table, readTable self options parent delimiter lines = some table ∧
      table.Reads options header.length alignments (header :: below) := by
  obtain ⟨source, sources⟩ := List.forall_mem_cons.mp sources
  obtain ⟨tail, text, lineEnd⟩ := content
  obtain ⟨headerRow, above, offset, views⟩ := cellViews_joinCells options nonempty few source lineEnd
  obtain ⟨tail', text', lineEnd'⟩ := delimits.text
  have some : alignments ≠ [] := by
    rintro rfl
    exact nonempty (List.eq_nil_of_length_eq_zero aligned.symm)
  have delimiterSources : ∀ w ∈ alignments.map delimiterOf, CellSource w := by
    intro w member
    obtain ⟨a, -, rfl⟩ := List.mem_map.mp member
    exact cellSource_delimiterOf a
  obtain ⟨delimiterRow, here, -, views'⟩ := rowFromString_joinCells options (by simpa using some)
    (by rwa [List.length_map, aligned]) delimiterSources lineEnd'
  have starts : Scanners.scanAt Scanners.tableStart delimiter.2 delimiter.1.firstNonspace ≠ 0 := by
    rw [Scanners.scanAt, text']
    exact Nat.ne_of_gt (tableStart_joinCells some lineEnd')
  have headerLength : headerRow.cells.length = header.length := by simpa using congrArg List.length views
  have delimiterLength : delimiterRow.cells.length = header.length := by
    simpa [aligned] using congrArg List.length views'
  have opened : (tryOpeningTableHeader self options delimiter.1 parent false true delimiter.2).opened =
      Option.some (headerTable self parent delimiter.1.lineNumber headerRow delimiterRow) := by
    unfold tryOpeningTableHeader
    rw [if_neg (by simp), if_neg starts, text', here, text, above]
    simp [headerLength, delimiterLength, HeaderResult.opened]
  have reads := reads_headerTable self parent delimiter.1.lineNumber views (alignments_joinCells isAlignment views')
  obtain ⟨table, read, reads'⟩ := readRows_joinCells self reads (List.length_pos_of_ne_nil nonempty) few written lengths
    sources
  refine ⟨table, ?_, reads'⟩
  rw [readTable, opened]
  exact read

/-- A header, and a row that is a part of it. -/
theorem readTable_joinCells_example :
    ∃ table, readTable 0 optTableSpans { makeBlock .paragraph 1 1 with content := lit "| a | b |\n" }
        (exampleLine 2 "| :-- | --- |\n") [exampleLine 3 "| ^ ||\n"] = some table ∧
      table.Reads optTableSpans 2 [chr 'l', 0] [[lit " a ", lit " b "], [lit " ^ ", []]] := by
  have sources : ∀ ws ∈ [[lit " a ", lit " b "], [lit " ^ ", []]], ∀ w ∈ ws, CellSource w := by
    have all : ∀ ws ∈ [[lit " a ", lit " b "], [lit " ^ ", []]], ∀ w ∈ ws,
        (∀ c ∈ w, 32 ≤ c ∧ c < 0x80) ∧ chr '|' ∉ w ∧ w.getLast? ≠ some (chr '\\') := by decide
    intro ws inTable w inRow
    obtain ⟨plain, noPipe, last⟩ := all ws inTable w inRow
    exact .of_ascii plain (pipesEscaped_of_not_mem noPipe) last
  have aligned : ∀ a ∈ [chr 'l', 0], IsAlignment a := by simp [IsAlignment]
  have lineAt {line : Nat} {s : String} {text : Bytes} (eq : lit s = text ++ lit "\n") :
      LineAt text (exampleLine line s) := ⟨rfl, lit "\n", eq, .inl rfl⟩
  exact readTable_joinCells 0 optTableSpans (by decide) (by decide) (by decide) aligned (by decide) sources
    ⟨lit "\n", by decide, .inl rfl⟩ (lineAt (by decide)) (.cons (lineAt (by decide)) .nil)

end Table

end CmarkGfm
