import CmarkGfm.Properties.TableRows

/-!
# Tables

A table is built from the paragraph and the delimiter row that open it, one line after the other. Every
row has the columns of the table, whatever the line says, and the cells that no text was read for are few.
-/

namespace CmarkGfm

namespace Table

variable {self : Nat} {options : Options} {table table' : TableNode} {p p' : ParserState} {input : Bytes}
  {i n bytes : Nat} {above above' : List RowNode}

/-- The tables that are built, each with the number of bytes that were read for it. -/
inductive Built (self : Nat) (options : Options) : TableNode → Nat → Prop where
  | opens {p p' : ParserState} {parent : NodeData} {visited accepts : Bool} {input : Bytes}
      {paragraph : Option Bytes} {table : TableNode} :
      tryOpeningTableHeader self options p parent visited accepts input = .table paragraph table p' →
      Built self options table parent.content.length
  | row {p p' : ParserState} {input : Bytes} {table table' : TableNode} {bytes : Nat} :
      Built self options table bytes → tryOpeningTableRow self options p table input = some (p', table') →
      Built self options table' (bytes + input.length)

/-- The table that a line has opened. -/
def HeaderResult.opened : HeaderResult → Option TableNode
  | .unchanged | .visited => none
  | .table _ table _ => some table

/-- The table after further lines, each with the state of the parser at it. -/
def readRows (self : Nat) (options : Options) (table : TableNode) (lines : List (ParserState × Bytes)) :
    Option TableNode :=
  lines.foldlM (fun table line => (tryOpeningTableRow self options line.1 table line.2).map Prod.snd) table

/-- The table of a paragraph with a delimiter row and rows below it. -/
def readTable (self : Nat) (options : Options) (parent : NodeData) (delimiter : ParserState × Bytes)
    (lines : List (ParserState × Bytes)) : Option TableNode :=
  (tryOpeningTableHeader self options delimiter.1 parent false true delimiter.2).opened.bind
    (readRows self options · lines)

theorem built_readRows {lines : List (ParserState × Bytes)} (built : Built self options table bytes)
    (read : readRows self options table lines = some table') :
    Built self options table' (bytes + (lines.map fun line => line.2.length).sum) := by
  induction lines generalizing table bytes with
  | nil =>
    cases read
    exact built
  | cons line rest ih =>
    rw [readRows, List.foldlM_cons] at read
    obtain ⟨table₁, first, later⟩ := Option.bind_eq_some_iff.mp read
    obtain ⟨⟨p', _⟩, opened, rfl⟩ := Option.map_eq_some_iff.mp first
    rw [List.map_cons, List.sum_cons, ← Nat.add_assoc]
    exact ih (built.row opened) later

theorem built_readTable {parent : NodeData} {delimiter : ParserState × Bytes} {lines : List (ParserState × Bytes)}
    (read : readTable self options parent delimiter lines = some table) :
    Built self options table (parent.content.length + (lines.map fun line => line.2.length).sum) := by
  obtain ⟨table₀, first, later⟩ := Option.bind_eq_some_iff.mp read
  generalize result : tryOpeningTableHeader self options delimiter.1 parent false true delimiter.2 = header at first
  cases header with
  | unchanged => cases first
  | visited => cases first
  | table paragraph table₁ p' =>
    cases first
    exact built_readRows (.opens result) later

/-! ### Row spans -/

/-- The row with a greater span of its cell in column `i`. -/
def RowNode.extendSpan (i : Nat) (row : RowNode) : RowNode :=
  { row with cells := row.cells.modify i CellNode.incrementRowspan }

theorem spanRow_some (found : spanRow i above = some above') :
    ∃ before row rest, above = before ++ row :: rest ∧ above' = before ++ row.extendSpan i :: rest ∧
      (∀ r ∈ before, r.rowspanAt i = some 0) ∧ row.rowspanAt i ≠ some 0 := by
  induction above generalizing above' with
  | nil => cases found
  | cons row above ih =>
    rw [spanRow] at found
    split at found
    next covered =>
      obtain ⟨rows, further, rfl⟩ := Option.map_eq_some_iff.mp found
      obtain ⟨before, r, rest, rfl, rfl, zeros, some⟩ := ih further
      exact ⟨row :: before, r, rest, rfl, rfl, List.forall_mem_cons.mpr ⟨covered, zeros⟩, some⟩
    next some =>
      cases found
      exact ⟨[], row, above, rfl, rfl, by simp, some⟩

theorem spanRow_none (missing : spanRow i above = none) : ∀ r ∈ above, r.rowspanAt i = some 0 := by
  induction above with
  | nil => simp
  | cons row above ih =>
    rw [spanRow] at missing
    split at missing
    next covered => exact List.forall_mem_cons.mpr ⟨covered, ih (Option.map_eq_none_iff.mp missing)⟩
    next => cases missing

/-- What is kept of a row when a span grows is kept of all the rows above. -/
theorem spanRow_map {β : Type} {f : RowNode → β}
    (keeps : ∀ row, RowNode.rowspanAt row i ≠ some 0 → f (row.extendSpan i) = f row)
    (found : spanRow i above = some above') : above'.map f = above.map f := by
  obtain ⟨before, row, rest, rfl, rfl, -, stops⟩ := spanRow_some found
  simp [keeps row stops]

/-- The cells of a column. -/
def columnOf (i : Nat) (rows : List RowNode) : List CellNode := rows.filterMap (·.cells[i]?)

/-- A cell that completes a row has no span to be incremented. -/
def CellNode.fixed (cell : CellNode) : Bool := cell.opaqueData.isNone

theorem CellNode.rowspan_incrementRowspan (cell : CellNode) :
    cell.incrementRowspan.rowspan = if cell.fixed then cell.rowspan else cell.rowspan + 1 := by
  obtain ⟨data, none | d⟩ := cell <;> rfl

theorem CellNode.fixed_incrementRowspan (cell : CellNode) : cell.incrementRowspan.fixed = cell.fixed := by
  obtain ⟨data, none | d⟩ := cell <;> rfl

theorem columnOf_append (i : Nat) (rows rows' : List RowNode) :
    columnOf i (rows ++ rows') = columnOf i rows ++ columnOf i rows' := List.filterMap_append

theorem columnOf_cons (i : Nat) (row : RowNode) (rows : List RowNode) :
    columnOf i (row :: rows) = row.cells[i]?.toList ++ columnOf i rows := by
  rw [columnOf, List.filterMap_cons]
  cases row.cells[i]? <;> rfl

theorem getElem?_extendSpan (row : RowNode) (j : Nat) :
    (row.extendSpan i).cells[j]? = if i = j then row.cells[j]?.map CellNode.incrementRowspan else row.cells[j]? := by
  rw [RowNode.extendSpan, List.getElem?_modify]
  split <;> simp

/-- The marker of a column extends the last cell of it that is none, and nothing else. -/
theorem columnOf_spanRow (inside : ∀ row ∈ above, i < row.cells.length) (j : Nat) :
    columnOf j ((spanRow i above).getD above) = if i = j then
      Spans.growLast CellNode.rowspan CellNode.incrementRowspan (columnOf j above) else columnOf j above := by
  have covered {rows : List RowNode} (zeros : ∀ r ∈ rows, r.rowspanAt i = some 0) :
      ∀ c ∈ columnOf i rows, c.rowspan = 0 := by
    intro c member
    obtain ⟨r, inRows, cell⟩ := List.mem_filterMap.mp member
    have zero := zeros r inRows
    rw [RowNode.rowspanAt, cell] at zero
    exact Option.some.inj zero
  cases found : spanRow i above with
  | none =>
    rw [Option.getD_none]
    split
    next same => rw [← same, Spans.growLast_of_covered (covered (spanRow_none found))]
    next => rfl
  | some above' =>
    rw [Option.getD_some]
    obtain ⟨before, row, rest, rfl, rfl, zeros, stops⟩ := spanRow_some found
    have inRow := inside row (by simp)
    rw [columnOf_append, columnOf_append, columnOf_cons, columnOf_cons, getElem?_extendSpan]
    split
    next same =>
      subst same
      obtain ⟨cell, there⟩ : ∃ cell, row.cells[i]? = some cell := ⟨_, List.getElem?_eq_getElem inRow⟩
      have cellSpan : cell.rowspan ≠ 0 := by
        rw [RowNode.rowspanAt, there] at stops
        exact fun none => stops (congrArg Option.some none)
      rw [there]
      exact (Spans.growLast_block (covered zeros) cellSpan).symm
    next => rfl

/-- The rows above, after what may be a marker in column `i`. -/
def mergeAbove (i : Nat) (cell : RowCell) (above : List RowNode) : List RowNode :=
  if cell.rowspan = 0 then (spanRow i above).getD above else above

theorem spanRows_cons (i : Nat) (cell : RowCell) (rest : List RowCell) (above : List RowNode) :
    ∃ buf, spanRows i (cell :: rest) above =
      ({ cell with buf := buf } :: (spanRows (i + 1) rest (mergeAbove i cell above)).1,
        (spanRows (i + 1) rest (mergeAbove i cell above)).2) := by
  by_cases marker : cell.rowspan = 0
  · rw [spanRows, mergeAbove, if_pos marker, if_pos marker]
    cases spanRow i above with
    | none => exact ⟨cell.buf, rfl⟩
    | some above' => exact ⟨[], rfl⟩
  · rw [spanRows, mergeAbove, if_neg marker, if_neg marker]
    exact ⟨cell.buf, rfl⟩

/-- A marker loses its text, and nothing else. -/
theorem spanRows_cells (cells : List RowCell) (i : Nat) (above : List RowNode) :
    (spanRows i cells above).1.length = cells.length ∧
      ∀ (k : Nat) (cell : RowCell), (spanRows i cells above).1[k]? = some cell →
        ∃ old, cells[k]? = some old ∧ cell = { old with buf := cell.buf } := by
  induction cells generalizing i above with
  | nil => exact ⟨rfl, fun k cell found => by cases found⟩
  | cons c rest ih =>
    obtain ⟨buf, eq⟩ := spanRows_cons i c rest above
    obtain ⟨length, each⟩ := ih (i + 1) (mergeAbove i c above)
    rw [eq]
    refine ⟨congrArg Nat.succ length, ?_⟩
    intro k cell found
    cases k with
    | zero =>
      cases found
      exact ⟨c, rfl, rfl⟩
    | succ k => exact each k cell found

theorem mergeAbove_map {β : Type} {f : RowNode → β}
    (keeps : ∀ i row, RowNode.rowspanAt row i ≠ some 0 → f (RowNode.extendSpan i row) = f row)
    (i : Nat) (cell : RowCell) (above : List RowNode) : (mergeAbove i cell above).map f = above.map f := by
  rw [mergeAbove]
  split
  next =>
    cases found : spanRow i above with
    | none => rfl
    | some above' => exact spanRow_map (keeps i) found
  next => rfl

theorem spanRows_map {β : Type} {f : RowNode → β}
    (keeps : ∀ i row, RowNode.rowspanAt row i ≠ some 0 → f (RowNode.extendSpan i row) = f row)
    (cells : List RowCell) (i : Nat) (above : List RowNode) :
    (spanRows i cells above).2.map f = above.map f := by
  induction cells generalizing i above with
  | nil => rfl
  | cons c rest ih =>
    obtain ⟨buf, eq⟩ := spanRows_cons i c rest above
    rw [eq]
    exact (ih _ _).trans (mergeAbove_map keeps i c above)

theorem columnOf_mergeAbove {cell : RowCell} (inside : ∀ row ∈ above, i < row.cells.length) (j : Nat) :
    columnOf j (mergeAbove i cell above) = if i = j ∧ cell.rowspan = 0 then
      Spans.growLast CellNode.rowspan CellNode.incrementRowspan (columnOf j above) else columnOf j above := by
  rw [mergeAbove]
  split
  next marker =>
    rw [columnOf_spanRow inside]
    simp [marker]
  next other => simp [other]

/-- A column above, after the markers of a row from column `i` on: it is extended by the marker in it. -/
theorem columnOf_spanRows (cells : List RowCell) (i : Nat) (above : List RowNode)
    (inside : ∀ row ∈ above, i + cells.length ≤ row.cells.length) (j : Nat) :
    columnOf j (spanRows i cells above).2 =
      if i ≤ j ∧ (cells[j - i]?).any (·.rowspan == 0) then
        Spans.growLast CellNode.rowspan CellNode.incrementRowspan (columnOf j above) else columnOf j above := by
  induction cells generalizing i above with
  | nil => simp [spanRows]
  | cons c rest ih =>
    obtain ⟨buf, eq⟩ := spanRows_cons i c rest above
    have here : ∀ row ∈ above, i < row.cells.length := by
      intro row member
      have := inside row member
      rw [List.length_cons] at this
      omega
    have lengths := mergeAbove_map (f := fun row => row.cells.length)
      (fun i row _ => List.length_modify _ _ _) i c above
    have inside' : ∀ row ∈ mergeAbove i c above, i + 1 + rest.length ≤ row.cells.length := by
      intro row member
      have among : row.cells.length ∈ above.map fun row => row.cells.length :=
        lengths ▸ List.mem_map_of_mem member
      obtain ⟨row', inAbove, same⟩ := List.mem_map.mp among
      have := inside row' inAbove
      rw [List.length_cons] at this
      omega
    rw [eq, ih _ _ inside', columnOf_mergeAbove here]
    rcases Nat.lt_trichotomy i j with after | rfl | before
    · have next : (c :: rest)[j - i]? = rest[j - (i + 1)]? := by
        rw [show j - i = j - (i + 1) + 1 by omega]
        rfl
      have later : i ≤ j ∧ i + 1 ≤ j ∧ ¬i = j := by omega
      simp [next, later]
    · have first : ¬i + 1 ≤ i := by omega
      simp [first]
    · have earlier : ¬i ≤ j ∧ ¬i + 1 ≤ j ∧ ¬i = j := by omega
      simp [earlier]

/-! ### What a line adds -/

/-- The row of the cells that were read from a line, completed. -/
def newRow (self : Nat) (p : ParserState) (table : TableNode) (cells : List RowCell) : RowNode where
  data :=
    { makeBlock rowType p.lineNumber table.data.startColumn with
      endColumn := table.data.endColumn
      extension := some self }
  isHeader := false
  cells := (cells.mapIdx fun i cell => makeCell self p.lineNumber table.data.startColumn i cell) ++
    List.replicate (table.nColumns - cells.length) (fillerCell self p.lineNumber)

/-- The row of the cells of the header. -/
def headerRow (self : Nat) (parent : NodeData) (line : Int) (header : Row) : RowNode where
  data :=
    { makeBlock rowType line parent.startColumn with
      endColumn := parent.startColumn + parent.content.length - 2
      startLine := parent.startLine
      endLine := parent.startLine
      extension := some self }
  isHeader := true
  cells := header.cells.mapIdx fun i cell => makeCell self parent.startLine parent.startColumn i cell

theorem rows_headerTable (self : Nat) (parent : NodeData) (line : Int) (header delimiter : Row) :
    (headerTable self parent line header delimiter).rows = [headerRow self parent line header] := rfl

/-- The rows above with the spans that the cells of a row extend. -/
def spannedRows (options : Options) (cells : List RowCell) (rows : List RowNode) : List RowNode :=
  if options.has optTableSpans then (spanRows 0 cells rows.reverse).2.reverse else rows

/-- The cells of a row, of which a marker has lost its text if there is a cell above for it. -/
def mergedCells (options : Options) (cells : List RowCell) (rows : List RowNode) : List RowCell :=
  if options.has optTableSpans then (spanRows 0 cells rows.reverse).1 else cells

/-- The table with a row of the cells, of which it takes as many as it has columns. -/
def addRow (self : Nat) (options : Options) (p : ParserState) (table : TableNode) (cells : List RowCell) : TableNode :=
  TableNode.incrRowCount
    { table with rows := spannedRows options (cells.take table.nColumns) table.rows ++
        [newRow self p table (mergedCells options (cells.take table.nColumns) table.rows)] }
    (mergedCells options (cells.take table.nColumns) table.rows).length

theorem tryOpeningTableRow_eq (self : Nat) {row : Row} (notBlank : p.blank = false)
    (few : table.nAutocompletedCells ≤ maxAutocompletedCells)
    (read : rowFromString options (input.drop p.firstNonspace) = some row) :
    tryOpeningTableRow self options p table input =
      some (advanceOffset input ((input.length : Int) - 1 - p.offset) false p, addRow self options p table row.cells) := by
  have some : ¬table.nAutocompletedCells > maxAutocompletedCells := by omega
  unfold tryOpeningTableRow addRow mergedCells spannedRows
  rw [if_neg (by simp [notBlank]), if_neg some, read]
  by_cases spans : options.has optTableSpans
  · simp only [spans, if_true]
    rfl
  · simp only [spans, Bool.false_eq_true, if_false]
    rfl

theorem tryOpeningTableRow_some (opened : tryOpeningTableRow self options p table input = some (p', table')) :
    table.nAutocompletedCells ≤ maxAutocompletedCells ∧
      ∃ row, rowFromString options (input.drop p.firstNonspace) = some row ∧
        table' = addRow self options p table row.cells := by
  have opened' := opened
  unfold tryOpeningTableRow at opened
  split at opened
  next => cases opened
  next notBlank =>
    split at opened
    next => cases opened
    next few =>
      have few : table.nAutocompletedCells ≤ maxAutocompletedCells := by omega
      split at opened
      next => cases opened
      next row read =>
        rw [tryOpeningTableRow_eq self (by simpa using notBlank) few read, Option.some.injEq, Prod.mk.injEq] at opened'
        exact ⟨few, row, read, opened'.2.symm⟩

/-- A line that goes on with a table adds a row to it, unless it is blank or the limit on completed cells is exceeded. No
other line does. -/
theorem tryOpeningTableRow_isSome_iff : (tryOpeningTableRow self options p table input).isSome = true ↔
    «matches» options p input = true ∧ p.blank = false ∧ table.nAutocompletedCells ≤ maxAutocompletedCells := by
  have goesOn : «matches» options p input = true ↔
      (rowFromString options (input.drop p.firstNonspace)).isSome = true := by
    unfold «matches»
    cases read : rowFromString options (input.drop p.firstNonspace) with
    | none => simp
    | some row => simpa [Nat.pos_iff_ne_zero] using (rowLoop_of_rowFromString read).2
  rw [goesOn]
  constructor
  · intro opened
    obtain ⟨⟨p', table'⟩, opened⟩ := Option.isSome_iff_exists.mp opened
    obtain ⟨few, row, read, -⟩ := tryOpeningTableRow_some opened
    refine ⟨by simp [read], ?_, few⟩
    by_contra blank
    rw [tryOpeningTableRow, if_pos (by simpa using blank)] at opened
    cases opened
  · rintro ⟨row, notBlank, few⟩
    obtain ⟨row, read⟩ := Option.isSome_iff_exists.mp row
    rw [tryOpeningTableRow_eq self notBlank few read]
    rfl

theorem mergedCells_spec (options : Options) (cells : List RowCell) (rows : List RowNode) :
    (mergedCells options cells rows).length = cells.length ∧
      ∀ (k : Nat) (cell : RowCell), (mergedCells options cells rows)[k]? = some cell →
        ∃ old, cells[k]? = some old ∧ cell = { old with buf := cell.buf } := by
  rw [mergedCells]
  split
  next => exact spanRows_cells cells 0 rows.reverse
  next => exact ⟨rfl, fun k cell found => ⟨cell, found, rfl⟩⟩

theorem tryOpeningTableHeader_table {parent : NodeData} {visited accepts : Bool} {paragraph : Option Bytes}
    (opened : tryOpeningTableHeader self options p parent visited accepts input = .table paragraph table p') :
    ∃ header delimiter, rowFromString options parent.content = some header ∧
      rowFromString options (input.drop p.firstNonspace) = some delimiter ∧
      header.cells.length = delimiter.cells.length ∧
      table = headerTable self parent p.lineNumber header delimiter ∧
      p' = advanceOffset input ((input.length : Int) - 1 - p.offset) false p := by
  unfold tryOpeningTableHeader at opened
  split at opened
  next => cases opened
  next =>
    split at opened
    next => cases opened
    next =>
      split at opened
      next => cases opened
      next delimiter below =>
        split at opened
        next => cases opened
        next header above =>
          split at opened
          next => cases opened
          next same =>
            split at opened
            next => cases opened
            next =>
              injection opened with _ eq moved
              exact ⟨header, delimiter, above, below, not_not.mp same, eq.symm, moved.symm⟩

/-- A row that is read has no more cells than the string has bytes. -/
theorem rowFromString_length_le {string : Bytes} {row : Row} (read : rowFromString options string = some row) :
    row.cells.length ≤ string.length := by
  obtain ⟨lead, pieces, tail, eq, -, -, valid, -, -, -, length, -⟩ := rowFromString_reads read
  have each : ∀ (pieces : List Piece), (∀ piece ∈ pieces, piece.Valid) →
      pieces.length ≤ (pieces.flatMap Piece.text).length := by
    intro pieces
    induction pieces with
    | nil => simp
    | cons piece pieces ih =>
      intro valid
      have rest := ih fun q member => valid q (List.mem_cons_of_mem piece member)
      have some : 0 < piece.text.length := by
        rw [Piece.text, List.length_append]
        rcases (valid piece List.mem_cons_self).some with raw | sep
        · have := List.length_pos_of_ne_nil raw
          omega
        · have := List.length_pos_of_ne_nil sep
          omega
      rw [List.flatMap_cons, List.length_append, List.length_cons]
      omega
  have lengths := congrArg List.length eq
  simp only [List.length_append, List.length_take] at lengths
  have := each pieces valid
  omega

/-! ### The shape of a table -/

/-- How many of the cells of a row were read. -/
def RowNode.parsedCells (row : RowNode) : Nat := row.cells.countP (·.opaqueData.isSome)

/-- A row with the columns of its table: first the cells that were read, with their places, then those that
complete the row. -/
structure RowNode.Fits (nColumns : Nat) (row : RowNode) : Prop where
  type : row.data.type = rowType
  length : row.cells.length = nColumns
  types : ∀ cell ∈ row.cells, cell.data.type = cellType
  indices : ∀ (i : Nat) (cell : CellNode) (d : CellData), row.cells[i]? = some cell → cell.opaqueData = some d →
    d.cellIndex = i
  parsed : ∀ (i : Nat) (cell : CellNode), row.cells[i]? = some cell →
    (cell.opaqueData.isSome ↔ i < row.parsedCells)

/-- The table is a grid of which at most `bytes` cells were read. -/
structure TableNode.Grid (table : TableNode) (bytes : Nat) : Prop where
  type : table.data.type = tableType
  columns : 0 < table.nColumns ∧ table.nColumns < maxColumns
  alignments : table.alignments.length = table.nColumns
  rows : ∀ row ∈ table.rows, row.Fits table.nColumns
  header : ∃ header rows, table.rows = header :: rows ∧ header.isHeader ∧ ∀ row ∈ rows, row.isHeader = false
  nRows : table.nRows = table.rows.length
  nNonemptyCells : table.nNonemptyCells = (table.rows.map RowNode.parsedCells).sum
  read : table.nNonemptyCells ≤ bytes
  autocompleted : table.nAutocompletedCells ≤ maxAutocompletedCells + table.nColumns

/-- A cell with a greater span keeps the rest. -/
theorem getElem?_of_extendSpan {row : RowNode} {j : Nat} {cell : CellNode}
    (found : (row.extendSpan i).cells[j]? = some cell) :
    ∃ old, row.cells[j]? = some old ∧ cell.data = old.data ∧
      cell.opaqueData.map CellData.cellIndex = old.opaqueData.map CellData.cellIndex := by
  rw [getElem?_extendSpan] at found
  split at found
  next =>
    obtain ⟨⟨data, none | d⟩, there, rfl⟩ := Option.map_eq_some_iff.mp found
    all_goals exact ⟨_, there, rfl, rfl⟩
  next => exact ⟨cell, found, rfl, rfl⟩

theorem RowNode.parsedCells_extendSpan (i : Nat) (row : RowNode) :
    (row.extendSpan i).parsedCells = row.parsedCells := by
  have same : (row.extendSpan i).cells.map (·.opaqueData.isSome) = row.cells.map (·.opaqueData.isSome) := by
    apply List.ext_getElem?
    intro j
    rw [List.getElem?_map, List.getElem?_map, getElem?_extendSpan]
    split
    next =>
      rw [Option.map_map]
      congr 1
      funext cell
      obtain ⟨data, none | d⟩ := cell <;> rfl
    next => rfl
  have count (cells : List CellNode) :
      cells.countP (·.opaqueData.isSome) = (cells.map (·.opaqueData.isSome)).countP id := by
    rw [List.countP_map]
    rfl
  rw [RowNode.parsedCells, RowNode.parsedCells, count, count, same]

theorem RowNode.Fits.extendSpan {row : RowNode} (fits : row.Fits n) (i : Nat) : (row.extendSpan i).Fits n := by
  constructor
  · exact fits.type
  · exact (List.length_modify _ _ _).trans fits.length
  · intro cell member
    obtain ⟨j, found⟩ := List.mem_iff_getElem?.mp member
    obtain ⟨old, there, data, -⟩ := getElem?_of_extendSpan found
    rw [data]
    exact fits.types old (List.mem_of_getElem? there)
  · intro j cell d found some
    obtain ⟨old, there, -, index⟩ := getElem?_of_extendSpan found
    rw [some] at index
    obtain ⟨d', some', same⟩ := Option.map_eq_some_iff.mp index.symm
    rw [← fits.indices j old d' there some', same]
  · intro j cell found
    obtain ⟨old, there, -, index⟩ := getElem?_of_extendSpan found
    have both := congrArg Option.isSome index
    rw [Option.isSome_map, Option.isSome_map] at both
    rw [RowNode.parsedCells_extendSpan, both]
    exact fits.parsed j old there

/-- The cells of a row, those that were read and those that complete it. -/
theorem fits_of_cells (row : RowNode) {cells : List RowCell} {line startColumn : Int} (few : cells.length ≤ n)
    (type : row.data.type = rowType)
    (eq : row.cells = (cells.mapIdx fun i cell => makeCell self line startColumn i cell) ++
      List.replicate (n - cells.length) (fillerCell self line)) :
    row.Fits n ∧ row.parsedCells = cells.length := by
  have count : row.parsedCells = cells.length := by
    have all : (cells.mapIdx fun i cell => makeCell self line startColumn i cell).countP (·.opaqueData.isSome) =
        cells.length := by
      rw [List.countP_eq_length.mpr, List.length_mapIdx]
      intro cell member
      obtain ⟨i, inside, rfl⟩ := List.mem_mapIdx.mp member
      rfl
    rw [RowNode.parsedCells, eq, List.countP_append, all, List.countP_replicate]
    rfl
  -- a cell is one that was read, at its place, or it completes the row
  have cases (i : Nat) (cell : CellNode) (found : row.cells[i]? = some cell) :
      (i < cells.length ∧ ∃ c, cell = makeCell self line startColumn i c) ∨
        cells.length ≤ i ∧ cell = fillerCell self line := by
    rw [eq] at found
    rcases Nat.lt_or_ge i cells.length with read | beyond
    · rw [List.getElem?_append_left (by rwa [List.length_mapIdx]), List.getElem?_mapIdx] at found
      obtain ⟨c, _, same⟩ := Option.map_eq_some_iff.mp found
      exact .inl ⟨read, c, same.symm⟩
    · rw [List.getElem?_append_right (by rwa [List.length_mapIdx]), List.getElem?_replicate] at found
      split at found
      next =>
        cases found
        exact .inr ⟨beyond, rfl⟩
      next => cases found
  refine ⟨⟨type, ?_, ?_, ?_, ?_⟩, count⟩
  · rw [eq, List.length_append, List.length_mapIdx, List.length_replicate]
    omega
  · intro cell member
    obtain ⟨i, found⟩ := List.mem_iff_getElem?.mp member
    rcases cases i cell found with ⟨-, c, rfl⟩ | ⟨-, rfl⟩ <;> rfl
  · intro i cell d found some
    rcases cases i cell found with ⟨-, c, rfl⟩ | ⟨-, rfl⟩
    · cases some
      rfl
    · cases some
  · intro i cell found
    rw [count]
    rcases cases i cell found with ⟨read, c, rfl⟩ | ⟨beyond, rfl⟩
    · exact iff_of_true rfl read
    · exact iff_of_false (by simp [fillerCell]) (by omega)

theorem spannedRows_map {β : Type} (options : Options) {f : RowNode → β}
    (keeps : ∀ i row, RowNode.rowspanAt row i ≠ some 0 → f (RowNode.extendSpan i row) = f row)
    (cells : List RowCell) (rows : List RowNode) : (spannedRows options cells rows).map f = rows.map f := by
  rw [spannedRows]
  split
  next => rw [List.map_reverse, spanRows_map keeps, List.map_reverse, List.reverse_reverse]
  next => rfl

theorem spanRows_forall {P : RowNode → Prop} (keeps : ∀ i row, P row → P (RowNode.extendSpan i row))
    (cells : List RowCell) (i : Nat) (above : List RowNode) (holds : ∀ row ∈ above, P row) :
    ∀ row ∈ (spanRows i cells above).2, P row := by
  induction cells generalizing i above with
  | nil => exact holds
  | cons c rest ih =>
    obtain ⟨buf, eq⟩ := spanRows_cons i c rest above
    rw [eq]
    apply ih
    rw [mergeAbove]
    split
    next =>
      cases found : spanRow i above with
      | none => exact holds
      | some above' =>
        obtain ⟨before, row, rows, rfl, rfl, -, -⟩ := spanRow_some found
        obtain ⟨first, rest⟩ := List.forall_mem_append.mp holds
        obtain ⟨here, last⟩ := List.forall_mem_cons.mp rest
        exact List.forall_mem_append.mpr ⟨first, List.forall_mem_cons.mpr ⟨keeps i row here, last⟩⟩
    next => exact holds

theorem spannedRows_forall {P : RowNode → Prop} (keeps : ∀ i row, P row → P (RowNode.extendSpan i row))
    (cells : List RowCell) {rows : List RowNode} (holds : ∀ row ∈ rows, P row) :
    ∀ row ∈ spannedRows options cells rows, P row := by
  rw [spannedRows]
  split
  next =>
    intro row member
    apply spanRows_forall keeps cells 0 rows.reverse _ row (List.mem_reverse.mp member)
    exact fun row member => holds row (List.mem_reverse.mp member)
  next => exact holds

/-- Every table that is built is a grid. -/
theorem Built.grid (built : Built self options table bytes) : table.Grid bytes := by
  induction built with
  | @opens p p' parent visited accepts input paragraph table opened =>
    obtain ⟨header, delimiter, above, below, same, rfl, -⟩ := tryOpeningTableHeader_table opened
    have some := List.length_pos_of_ne_nil (rowLoop_of_rowFromString above).2
    have cells : (headerRow self parent p.lineNumber header).cells =
        (header.cells.mapIdx fun i cell => makeCell self parent.startLine parent.startColumn i cell) ++
          List.replicate (header.cells.length - header.cells.length) (fillerCell self parent.startLine) := by
      rw [Nat.sub_self, List.replicate_zero, List.append_nil]
      rfl
    obtain ⟨fits, parsed⟩ := fits_of_cells _ (Nat.le_refl _) rfl cells
    constructor
    · rfl
    · exact ⟨some, rowFromString_length_lt above⟩
    · exact (List.length_map _).trans same.symm
    · exact fun row member => List.mem_singleton.mp member ▸ fits
    · exact ⟨_, [], rfl, rfl, by simp⟩
    · rfl
    · rw [rows_headerTable, List.map_singleton, List.sum_singleton, parsed]
      exact Nat.zero_add _
    · exact (Nat.zero_add _).le.trans (rowFromString_length_le above)
    · simp only [headerTable, TableNode.incrRowCount, TableNode.nAutocompletedCells]
      omega
  | @row p p' input table table' bytes built opened ih =>
    obtain ⟨few, row, read, rfl⟩ := tryOpeningTableRow_some opened
    obtain ⟨length, -⟩ := mergedCells_spec options (row.cells.take table.nColumns) table.rows
    rw [addRow]
    generalize mergedCells options (row.cells.take table.nColumns) table.rows = cells at length ⊢
    rw [List.length_take] at length
    have atMost : cells.length ≤ table.nColumns := length ▸ Nat.min_le_left _ _
    obtain ⟨fits, parsed⟩ := fits_of_cells (newRow self p table cells) atMost rfl rfl
    have bytesRead : cells.length ≤ input.length := by
      have := rowFromString_length_le read
      rw [List.length_drop] at this
      omega
    constructor
    · exact ih.type
    · exact ih.columns
    · exact ih.alignments
    · exact List.forall_mem_append.mpr ⟨spannedRows_forall (fun i row fits => fits.extendSpan i) _ ih.rows,
        List.forall_mem_singleton.mpr fits⟩
    · obtain ⟨header, rows, eq, isHeader, others⟩ := ih.header
      have headers := @spannedRows_map _ options RowNode.isHeader (fun _ _ _ => rfl)
        (row.cells.take table.nColumns) table.rows
      rw [eq, List.map_cons] at headers
      obtain ⟨header', rows', eq', first, rest⟩ := List.map_eq_cons_iff.mp headers
      refine ⟨header', rows' ++ [newRow self p table cells], ?_, first.trans isHeader, ?_⟩
      · exact congrArg (· ++ [newRow self p table cells]) (eq ▸ eq')
      · refine List.forall_mem_append.mpr ⟨?_, List.forall_mem_singleton.mpr rfl⟩
        intro row member
        have among : row.isHeader ∈ rows.map RowNode.isHeader := rest ▸ List.mem_map_of_mem member
        obtain ⟨row', inRows, same⟩ := List.mem_map.mp among
        exact same ▸ others row' inRows
    · simp only [TableNode.incrRowCount, List.length_append, List.length_singleton]
      have lengths := congrArg List.length (@spannedRows_map _ options RowNode.isHeader
        (fun _ _ _ => rfl) (row.cells.take table.nColumns) table.rows)
      rw [List.length_map, List.length_map] at lengths
      rw [lengths, ih.nRows]
    · simp only [TableNode.incrRowCount, List.map_append, List.map_singleton, List.sum_append, List.sum_singleton]
      rw [spannedRows_map options fun i row _ => RowNode.parsedCells_extendSpan i row, parsed, ih.nNonemptyCells]
    · simp only [TableNode.incrRowCount]
      have := ih.read
      omega
    · -- a row is not opened once too many cells were completed, and completes at most its own
      simp only [TableNode.incrRowCount, TableNode.nAutocompletedCells] at few ⊢
      push_cast
      rw [Int.mul_add, Int.mul_one]
      omega

/-- A paragraph and a delimiter row, a row, and a row that is short and has a marker. -/
def exampleParagraph : NodeData := { makeBlock .paragraph 1 1 with content := lit "|a|b|\n" }

def exampleLine (line : Nat) (s : String) : ParserState × Bytes :=
  ({ root := 0, current := 0, nodes := fun _ => none, nextId := 1, lineNumber := line }, lit s)

theorem readTable_example : (readTable 0 optTableSpans exampleParagraph (exampleLine 2 "|:-|-|\n")
    [exampleLine 3 "|c|d|\n", exampleLine 4 "|^|\n"]).isSome = true := by decide +kernel

def exampleTable : TableNode := Option.get _ readTable_example

theorem built_exampleTable : Built 0 optTableSpans exampleTable 16 := built_readTable (Option.some_get _).symm

theorem grid_example : exampleTable.Grid 16 := built_exampleTable.grid

/-- The cells of a table: their number is bounded by what was read of the document, so that short rows do not
make a table that is much larger than its text. -/
theorem Built.cells_le (built : Built self options table bytes) :
    (table.rows.map (·.cells.length)).sum = table.nColumns * table.nRows ∧
      table.nColumns * table.nRows ≤ bytes + maxAutocompletedCells + table.nColumns := by
  have grid := built.grid
  constructor
  · have all : table.rows.map (·.cells.length) = List.replicate table.rows.length table.nColumns := by
      rw [List.eq_replicate_iff]
      refine ⟨List.length_map _, ?_⟩
      intro m member
      obtain ⟨row, inRows, rfl⟩ := List.mem_map.mp member
      exact (grid.rows row inRows).length
    rw [all, List.sum_replicate_nat, grid.nRows, Nat.mul_comm]
  · have bound := grid.autocompleted
    have read := grid.read
    rw [TableNode.nAutocompletedCells] at bound
    have product : ((table.nColumns * table.nRows : Nat) : Int) = (table.nColumns : Int) * table.nRows :=
      Int.natCast_mul _ _
    omega

theorem cells_le_example : (exampleTable.rows.map (·.cells.length)).sum = exampleTable.nColumns * exampleTable.nRows ∧
    exampleTable.nColumns * exampleTable.nRows ≤ 16 + maxAutocompletedCells + exampleTable.nColumns :=
  built_exampleTable.cells_le

/-! ### Spans over the rows -/

/-- The cell of a column, after the last of those before it: a marker is counted by that one. -/
theorem columnOf_spannedRows {rows : List RowNode} {cells : List RowCell}
    (inside : ∀ row ∈ rows, cells.length ≤ row.cells.length) (i : Nat) :
    (columnOf i (spannedRows options cells rows)).reverse =
      if options.has optTableSpans ∧ (cells[i]?).any (·.rowspan == 0) then
        Spans.growLast CellNode.rowspan CellNode.incrementRowspan (columnOf i rows).reverse
      else (columnOf i rows).reverse := by
  have reversed (rows : List RowNode) : columnOf i rows.reverse = (columnOf i rows).reverse :=
    List.filterMap_reverse
  rw [spannedRows]
  split
  next spans =>
    rw [reversed, List.reverse_reverse, columnOf_spanRows, reversed]
    · simp [spans]
    · intro row member
      rw [Nat.zero_add]
      exact inside row (List.mem_reverse.mp member)
  next none => simp [none]

/-- What a row has in a column: a cell that was read, or one that completes the row. -/
theorem getElem?_newRow (self : Nat) (p : ParserState) {table : TableNode} {cells : List RowCell}
    (few : cells.length ≤ table.nColumns) (i : Nat) :
    (newRow self p table cells).cells[i]? =
      cells[i]?.elim (if i < table.nColumns then some (fillerCell self p.lineNumber) else none)
        fun c => some (makeCell self p.lineNumber table.data.startColumn i c) := by
  rw [newRow]
  rcases Nat.lt_or_ge i cells.length with read | beyond
  · rw [List.getElem?_append_left (by rwa [List.length_mapIdx]), List.getElem?_mapIdx,
      List.getElem?_eq_getElem read]
    rfl
  · rw [List.getElem?_append_right (by rwa [List.length_mapIdx]), List.getElem?_replicate, List.length_mapIdx,
      List.getElem?_eq_none beyond, Option.elim_none]
    congr 1
    rw [eq_iff_iff]
    omega

/-- The spans of a column count the rows that they cover: a marker is counted by the last cell above it that is
no marker. Only a cell that completes its row does not count. -/
theorem Built.columns_tiled (built : Built self options table bytes) (i : Nat) :
    Spans.Tiled CellNode.rowspan CellNode.fixed (columnOf i table.rows).reverse := by
  induction built with
  | @opens p p' parent visited accepts input paragraph table opened =>
    obtain ⟨header, delimiter, above, -, -, rfl, -⟩ := tryOpeningTableHeader_table opened
    have marked := (rowFromString_spans above).2
    rw [rows_headerTable, columnOf_cons, headerRow, List.getElem?_mapIdx]
    cases found : header.cells[i]? with
    | none => exact .bare (by simp [columnOf])
    | some c =>
      have bare : Spans.Tiled CellNode.rowspan CellNode.fixed [] := .bare (by simp)
      rcases (marked c (List.mem_of_getElem? found)).zero_or_one with zero | one
      · exact .bare (List.forall_mem_singleton.mpr zero)
      · exact bare.single one
  | @row p p' input table table' bytes built opened ih =>
    have grid := built.grid
    obtain ⟨-, row, read, rfl⟩ := tryOpeningTableRow_some opened
    obtain ⟨length, each⟩ := mergedCells_spec options (row.cells.take table.nColumns) table.rows
    rw [addRow]
    generalize mergedCells options (row.cells.take table.nColumns) table.rows = cells at length each ⊢
    rw [List.length_take] at length
    have inside : ∀ r ∈ table.rows, (row.cells.take table.nColumns).length ≤ r.cells.length := by
      intro r member
      rw [(grid.rows r member).length, List.length_take]
      exact Nat.min_le_left _ _
    change Spans.Tiled _ _ (columnOf i (spannedRows options (row.cells.take table.nColumns) table.rows ++ _)).reverse
    have few : cells.length ≤ table.nColumns := length ▸ Nat.min_le_left _ _
    rw [columnOf_append, columnOf_cons, List.reverse_append, columnOf_spannedRows inside, getElem?_newRow self p few]
    have sameLength : (row.cells.take table.nColumns).length = cells.length := by rw [List.length_take, length]
    cases found : cells[i]? with
    | none =>
      -- no marker is in the column
      have beyond : (row.cells.take table.nColumns)[i]? = none := by
        rw [List.getElem?_eq_none_iff, sameLength]
        exact List.getElem?_eq_none_iff.mp found
      simp only [beyond, Option.any_none, Bool.false_eq_true, and_false, if_false, Option.elim_none]
      split
      next => exact ih.single (show (fillerCell self p.lineNumber).rowspan = 1 from rfl)
      next => exact ih
    | some c =>
      obtain ⟨old, taken, same⟩ := each i c found
      have mark := (rowFromString_spans read).2 old (List.mem_of_mem_take (List.mem_of_getElem? taken))
      have span : c.rowspan = old.rowspan := by rw [same]
      rw [taken, Option.elim_some]
      split
      next marker =>
        obtain ⟨-, zero⟩ := marker
        exact ih.cover (span.trans (by simpa using zero))
          (fun cell _ => cell.rowspan_incrementRowspan) CellNode.fixed_incrementRowspan
      next other =>
        rcases mark.zero_or_one with zero | one
        · have spans : ¬options.has optTableSpans := by simpa [zero] using other
          rw [RowCell.Marked, if_neg (fun both => spans both.1)] at mark
          exact ih.single (span.trans mark)
        · exact ih.single (span.trans one)

/-- The cells of a column are markers that nothing is above, and then cells with the markers below them: the row span
of such a cell counts it and its markers. The span of a cell that completes a row stays. -/
theorem Built.rowspans_cover (built : Built self options table bytes) (i : Nat) :
    (i < table.nColumns → (columnOf i table.rows).length = table.nRows) ∧
      ∃ (bare : List CellNode) (blocks : List (CellNode × List CellNode)),
        columnOf i table.rows = bare ++ blocks.flatMap (fun b => b.1 :: b.2) ∧ (∀ c ∈ bare, c.rowspan = 0) ∧
        ∀ b ∈ blocks, (∀ c ∈ b.2, c.rowspan = 0) ∧
          b.1.rowspan = if b.1.opaqueData = none then 1 else b.2.length + 1 := by
  have grid := built.grid
  constructor
  · intro inside
    have all : ∀ row ∈ table.rows, (row.cells[i]?).isSome := by
      intro row member
      rw [List.getElem?_eq_getElem (by rwa [(grid.rows row member).length])]
      rfl
    rw [columnOf, List.length_filterMap_eq_countP, List.countP_eq_length.mpr all, grid.nRows]
  · obtain ⟨bare, blocks, eq, zeros, spans⟩ := (built.columns_tiled i).blocks
    rw [List.reverse_reverse] at eq
    refine ⟨bare, blocks, eq, zeros, ?_⟩
    intro b member
    obtain ⟨covered, span⟩ := spans b member
    refine ⟨covered, span.trans ?_⟩
    simp [CellNode.fixed]

theorem rowspans_cover_example : (0 < exampleTable.nColumns → (columnOf 0 exampleTable.rows).length = exampleTable.nRows) ∧
    ∃ (bare : List CellNode) (blocks : List (CellNode × List CellNode)),
      columnOf 0 exampleTable.rows = bare ++ blocks.flatMap (fun b => b.1 :: b.2) ∧ (∀ c ∈ bare, c.rowspan = 0) ∧
      ∀ b ∈ blocks, (∀ c ∈ b.2, c.rowspan = 0) ∧
        b.1.rowspan = if b.1.opaqueData = none then 1 else b.2.length + 1 :=
  built_exampleTable.rowspans_cover 0

end Table

end CmarkGfm
