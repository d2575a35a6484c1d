import CmarkGfm.Extensions.Tasklist

/-!
# Tables (table.c)

The rows that lines of a document are cut into, and the table that they build. A table is its node with
its rows, a row its node with its cells; `as.opaque` of each is written out.
-/

namespace CmarkGfm

def optTablePreferStyleAttributes : Nat := 1 <<< 15

def optTableSpans : Nat := 1 <<< 20

def optTableRowspanDitto : Nat := 1 <<< 21

namespace Scanners

open Regex

/-! ### ext_scanners.re -/

def extNewline : Re := .seq (.opt (str "\r")) (str "\n")

def tableMarker : Re :=
  .seqs [.star extSpacechar, .opt (str ":"), .plus (str "-"), .opt (str ":"), .star extSpacechar]

def tableStart : Bytes → Nat := scan (.seqs [.opt (str "|"), tableMarker,
  .star (.seq (str "|") tableMarker), .opt (str "|"), .star extSpacechar, extNewline])

/-- The class of the source has NUL in it. There is no NUL in a line, and the line ends before that which
ends the string. -/
def tableCellText : Re := .plus (.alt escapedChar (noneOf (chars "|\r\n")))

def tableCell : Bytes → Nat := scan tableCellText

def tableCellSeparator : Re := .seq (str "|") (.star extSpacechar)

def tableCellEnd : Bytes → Nat := scan tableCellSeparator

def tableRowTail : Re := .seq (.star extSpacechar) extNewline

def tableRowEnd : Bytes → Nat := scan tableRowTail

end Scanners

namespace Table

/-! ### Rows -/

/-- `unescape_pipes`. -/
def unescapePipes : Bytes → Bytes
  | [] => []
  | [c] => [c]
  | c :: d :: rest =>
    if c == chr '\\' && d == chr '|' then d :: unescapePipes rest
    else c :: unescapePipes (d :: rest)

/-- `node_cell` with its `node_cell_data`, but the index. -/
structure RowCell where
  buf : Bytes
  startOffset : Nat
  endOffset : Nat
  internalOffset : Nat
  colspan : Nat
  rowspan : Nat
  deriving DecidableEq

/-- `table_row`. -/
structure Row where
  paragraphOffset : Nat := 0
  cells : List RowCell := []
  deriving DecidableEq

/-- Increment the column span of the first of the cells that is no part of one. -/
def widenCell : List RowCell → List RowCell
  | [] => []
  | cell :: rest =>
    if cell.colspan > 0 then { cell with colspan := cell.colspan + 1 } :: rest else cell :: widenCell rest

/-- The text that marks a cell as part of the one above. -/
def rowspanMarker (options : Options) : Bytes :=
  if options.has optTableRowspanDitto then lit "\"" else lit "^"

/-- How far the start of a cell is moved back, to behind the pipe before it. -/
def cellIndent (string : Bytes) (paragraphOffset offset : Nat) : Nat :=
  ((chunkDup string paragraphOffset (offset - paragraphOffset)).reverse.takeWhile (· != chr '|')).length

/-- The cell at `offset` with `cellMatched` bytes of text, behind those that the row has. -/
def addCell (options : Options) (string : Bytes) (row : Row) (offset cellMatched : Nat) : Row :=
  let indent := cellIndent string row.paragraphOffset offset
  let cell : RowCell :=
    { buf := strbufTrim (unescapePipes (chunkDup string offset cellMatched))
      startOffset := offset - indent
      endOffset := if cellMatched > 0 then offset + cellMatched - 1 else offset
      internalOffset := indent
      colspan := 1
      rowspan := 1 }
  if options.has optTableSpans then
    let rowspan := if cell.buf = rowspanMarker options then 0 else 1
    -- check for a column-spanning cell
    if cell.buf = [] ∧ cell.startOffset = cell.endOffset then
      { row with cells := (widenCell row.cells.reverse).reverse ++ [{ cell with colspan := 0, rowspan := rowspan }] }
    else { row with cells := row.cells ++ [{ cell with rowspan := rowspan }] }
  else { row with cells := row.cells ++ [cell] }

/-- `UINT16_MAX`. -/
def maxColumns : Nat := 65535

/-- The loop of `row_from_string`: the row, the offset it ends at, and whether it was given up for the
number of its columns. Every turn but the last takes some of the string, so its length is fuel enough. -/
def rowLoop (options : Options) (string : Bytes) : Nat → Row → Nat → Row × Nat × Bool
  | 0, row, offset => (row, offset, false)
  | fuel + 1, row, offset =>
    if offset < string.length then
      let cellMatched := Scanners.scanAt Scanners.tableCell string offset
      let pipeMatched := Scanners.scanAt Scanners.tableCellEnd string (offset + cellMatched)
      let row := if cellMatched > 0 ∨ pipeMatched > 0 then addCell options string row offset cellMatched else row
      -- make sure we never wrap row->n_columns
      if (cellMatched > 0 ∨ pipeMatched > 0) ∧ row.cells.length ≥ maxColumns then (row, offset, true)
      else
        let offset := offset + cellMatched + pipeMatched
        if pipeMatched > 0 then rowLoop options string fuel row offset
        else
          let rowEndOffset := Scanners.scanAt Scanners.tableRowEnd string offset
          let offset := offset + rowEndOffset
          -- what ends before the string is potentially part of the paragraph preceding the table
          if rowEndOffset > 0 ∧ offset ≠ string.length then
            rowLoop options string fuel ⟨offset, []⟩
              (offset + Scanners.scanAt Scanners.tableCellEnd string offset)
          else (row, offset, false)
    else (row, offset, false)

/-- `row_from_string`. -/
def rowFromString (options : Options) (string : Bytes) : Option Row :=
  match rowLoop options string (string.length + 1) {} (Scanners.scanAt Scanners.tableCellEnd string 0) with
  | (row, offset, aborted) =>
    if offset ≠ string.length ∨ row.cells = [] ∨ aborted then none else some row

/-! ### Nodes -/

def tableType : NodeType := .extensionBlock 0

def rowType : NodeType := .extensionBlock 1

def cellType : NodeType := .extensionBlock 2

/-- A cell. Those that complete a short row have no data. -/
structure CellNode where
  data : NodeData
  opaqueData : Option CellData
  deriving DecidableEq

/-- A row, with its `node_table_row`. -/
structure RowNode where
  data : NodeData
  isHeader : Bool
  cells : List CellNode
  deriving DecidableEq

/-- A table, with its `node_table`. -/
structure TableNode where
  data : NodeData
  nColumns : Nat
  alignments : List UInt8
  nRows : Nat
  nNonemptyCells : Nat
  rows : List RowNode
  deriving DecidableEq

/-- `get_cell_colspan`. -/
def CellNode.colspan (cell : CellNode) : Nat := cell.opaqueData.elim 1 (·.colspan)

/-- `get_cell_rowspan`. -/
def CellNode.rowspan (cell : CellNode) : Nat := cell.opaqueData.elim 1 (·.rowspan)

/-- `get_cell_alignment`. -/
def CellNode.alignment (table : TableNode) (cell : CellNode) : UInt8 :=
  cell.opaqueData.elim 0 fun d => table.alignments.getD d.cellIndex 0

/-- `increment_cell_rowspan`. -/
def CellNode.incrementRowspan (cell : CellNode) : CellNode :=
  { cell with opaqueData := cell.opaqueData.map fun d => { d with rowspan := d.rowspan + 1 } }

/-- `incr_table_row_count`. -/
def TableNode.incrRowCount (table : TableNode) (i : Nat) : TableNode :=
  { table with nRows := table.nRows + 1, nNonemptyCells := table.nNonemptyCells + i }

/-- `get_n_autocompleted_cells`. -/
def TableNode.nAutocompletedCells (table : TableNode) : Int :=
  (table.nColumns : Int) * table.nRows - table.nNonemptyCells

def maxAutocompletedCells : Nat := 0x80000

/-! ### The header -/

/-- The alignment that a cell of the delimiter row stands for. -/
def alignmentOf (buf : Bytes) : UInt8 :=
  let left := buf.head? == some (chr ':')
  let right := buf.getLast? == some (chr ':')
  if left && right then chr 'c' else if left then chr 'l' else if right then chr 'r' else 0

/-- The node of a cell that was parsed. -/
def makeCell (self : Nat) (line startColumn : Int) (i : Nat) (cell : RowCell) : CellNode where
  data :=
    { makeBlock cellType line (startColumn + cell.startOffset) with
      internalOffset := cell.internalOffset
      endColumn := startColumn + cell.endOffset
      content := cell.buf
      extension := some self }
  opaqueData := some ⟨cell.colspan, cell.rowspan, i⟩

/-- What `try_opening_table_header` makes of a paragraph: nothing, nothing ever, or a table, with the
content of a paragraph to be inserted before it. -/
inductive HeaderResult where
  | unchanged
  | visited
  | table (paragraph : Option Bytes) (table : TableNode) (p : ParserState)

/-- The table that the two rows begin. -/
def headerTable (self : Nat) (parent : NodeData) (line : Int) (header delimiter : Row) : TableNode :=
  let row : RowNode :=
    { data :=
        { makeBlock rowType line parent.startColumn with
          endColumn := parent.startColumn + parent.content.length - 2
          startLine := parent.startLine
          endLine := parent.startLine
          extension := some self }
      isHeader := true
      cells := header.cells.mapIdx fun i cell => makeCell self parent.startLine parent.startColumn i cell }
  TableNode.incrRowCount
    { data := { parent with type := tableType, extension := some self, as := .empty }
      nColumns := header.cells.length
      alignments := delimiter.cells.map fun cell => alignmentOf cell.buf
      nRows := 0
      nNonemptyCells := 0
      rows := [row] }
    header.cells.length

/-- `try_opening_table_header` for a paragraph, which may have been tried before, and may be in a parent that
takes no table. -/
def tryOpeningTableHeader (self : Nat) (options : Options) (p : ParserState) (parent : NodeData)
    (visited accepts : Bool) (input : Bytes) : HeaderResult :=
  if visited then .unchanged
  else if Scanners.scanAt Scanners.tableStart input p.firstNonspace = 0 then .unchanged
  else
    match rowFromString options (input.drop p.firstNonspace) with
    | none => .unchanged
    | some delimiter =>
      match rowFromString options parent.content with
      | none => .visited
      | some header =>
        if header.cells.length ≠ delimiter.cells.length then .visited
        else if !accepts then .unchanged
        else
          let paragraph := if header.paragraphOffset > 0 then
            some (strbufTrim (unescapePipes (parent.content.take header.paragraphOffset))) else none
          .table paragraph (headerTable self parent p.lineNumber header delimiter)
            (advanceOffset input ((input.length : Int) - 1 - p.offset) false p)

/-! ### The rows below -/

/-- The row span of a cell of a row. -/
def RowNode.rowspanAt (row : RowNode) (i : Nat) : Option Nat := (row.cells[i]?).map CellNode.rowspan

/-- Scan up through the rows above, the nearest first, for the cell of column `i` that is no marker, and increment its
row span; `none` if there is none. -/
def spanRow (i : Nat) : List RowNode → Option (List RowNode)
  | [] => none
  | row :: above =>
    if row.rowspanAt i = some 0 then (spanRow i above).map (row :: ·)
    else some ({ row with cells := row.cells.modify i CellNode.incrementRowspan } :: above)

/-- The first loop of `try_opening_table_row`: merge the markers of the new row, from column `i` on, with the cells
above. -/
def spanRows : Nat → List RowCell → List RowNode → List RowCell × List RowNode
  | _, [], above => ([], above)
  | i, cell :: rest, above =>
    let (cell, above) :=
      if cell.rowspan = 0 then
        match spanRow i above with
        | some above => ({ cell with buf := [] }, above)
        | none => (cell, above)
      else (cell, above)
    let (rest, above) := spanRows (i + 1) rest above
    (cell :: rest, above)

/-- A cell that completes a short row. -/
def fillerCell (self : Nat) (line : Int) : CellNode where
  data := { makeBlock cellType line 0 with extension := some self }
  opaqueData := none

/-- `try_opening_table_row`; `none` where it returns NULL, which leaves the table. -/
def tryOpeningTableRow (self : Nat) (options : Options) (p : ParserState) (table : TableNode) (input : Bytes) :
    Option (ParserState × TableNode) :=
  if p.blank then none
  else if table.nAutocompletedCells > maxAutocompletedCells then none
  else
    match rowFromString options (input.drop p.firstNonspace) with
    | none => none
    | some row =>
      let cells := row.cells.take table.nColumns
      let (cells, above) := if options.has optTableSpans then
        let (cells, above) := spanRows 0 cells table.rows.reverse
        (cells, above.reverse) else (cells, table.rows)
      let node : RowNode :=
        { data :=
            { makeBlock rowType p.lineNumber table.data.startColumn with
              endColumn := table.data.endColumn
              extension := some self }
          isHeader := false
          cells := (cells.mapIdx fun i cell => makeCell self p.lineNumber table.data.startColumn i cell) ++
            List.replicate (table.nColumns - cells.length) (fillerCell self p.lineNumber) }
      some (advanceOffset input ((input.length : Int) - 1 - p.offset) false p,
        TableNode.incrRowCount { table with rows := above ++ [node] } cells.length)

/-- `matches`, for a table. -/
def «matches» (options : Options) (p : ParserState) (input : Bytes) : Bool :=
  (rowFromString options (input.drop p.firstNonspace)).any fun row => row.cells.length > 0

end Table

end CmarkGfm
