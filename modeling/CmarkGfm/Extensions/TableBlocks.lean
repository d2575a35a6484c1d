import CmarkGfm.Extensions.Table
import CmarkGfm.Extensions.Strikethrough

/-!
# Tables among the blocks (table.c)

The callbacks of the extension. A paragraph becomes the node of a table, rows and cells are linked behind it, and
what they carry is in `as.opaque`.
-/

namespace CmarkGfm

namespace Table

def getTable (d : NodeData) : TableData :=
  match d.as with
  | .opaqueData (.table t) => t
  | _ => default

def isHeaderRow (d : NodeData) : Bool :=
  match d.as with
  | .opaqueData (.tableRow isHeader) => isHeader
  | _ => false

def getCellData (d : NodeData) : Option CellData :=
  match d.as with
  | .opaqueData (.tableCell c) => some c
  | _ => none

/-- `get_n_autocompleted_cells`. -/
def TableData.nAutocompletedCells (t : TableData) : Int := (t.nColumns : Int) * t.nRows - t.nNonemptyCells

/-- `incr_table_row_count`. -/
def TableData.incrRowCount (t : TableData) (i : Nat) : TableData :=
  { t with nRows := t.nRows + 1, nNonemptyCells := t.nNonemptyCells + i }

/-- `increment_cell_rowspan`. -/
def incrementCellRowspan (d : NodeData) : NodeData :=
  match d.as with
  | .opaqueData (.tableCell c) => { d with as := .opaqueData (.tableCell { c with rowspan := c.rowspan + 1 }) }
  | _ => d

/-! ### The nodes of a table -/

/-- The node of a cell among the blocks, with `as.opaque` written out. -/
def cellNode (p : ParserState) (cell : NodeId) : CellNode where
  data := { p.dataOf cell with as := .empty }
  opaqueData := getCellData (p.dataOf cell)

/-- The node of a row with its cells. -/
def rowNode (p : ParserState) (row : NodeId) : RowNode where
  data := { p.dataOf row with as := .empty }
  isHeader := isHeaderRow (p.dataOf row)
  cells := (p.childrenOf row).map (cellNode p)

/-- The node of a table with its rows. -/
def tableNode (p : ParserState) (table : NodeId) : TableNode where
  data := { p.dataOf table with as := .empty }
  nColumns := (getTable (p.dataOf table)).nColumns
  alignments := (getTable (p.dataOf table)).alignments
  nRows := (getTable (p.dataOf table)).nRows
  nNonemptyCells := (getTable (p.dataOf table)).nNonemptyCells
  rows := (p.childrenOf table).map (rowNode p)

/-- The data of the node of a cell. -/
def CellNode.blockData (cell : CellNode) : NodeData :=
  { cell.data with as := cell.opaqueData.elim .empty fun c => .opaqueData (.tableCell c) }

def RowNode.blockData (row : RowNode) : NodeData := { row.data with as := .opaqueData (.tableRow row.isHeader) }

def TableNode.blockData (table : TableNode) : NodeData :=
  { table.data with
    as := .opaqueData (.table ⟨table.nColumns, table.alignments, table.nRows, table.nNonemptyCells⟩) }

/-- Link the cells of a row. A row may have cells and a table rows, so the loop of `add_child` makes no turn for them. -/
def addCells (row : NodeId) (cells : List CellNode) (p : ParserState) : ParserState :=
  cells.foldl (fun p cell => (p.appendBlock row cell.blockData).1) p

/-! ### The header -/

/-- `try_inserting_table_header_paragraph`: link a paragraph before a block. -/
def tryInsertingTableHeaderParagraph (content : Bytes) (container : NodeId) (p : ParserState) : ParserState :=
  match p.parentOf container with
  | none => p
  | some parent =>
    let paragraph := p.nextId
    let p := p.modify parent fun b =>
      { b with children := b.children.flatMap fun c => if c = container then [paragraph, c] else [c] }
    { p with
      nodes := fun j =>
        if j = paragraph then some ⟨{ type := .paragraph, content := content }, some parent, []⟩ else p.nodes j
      nextId := paragraph + 1 }

/-- Whether `cmark_node_set_type` makes a table of the block. Of the extensions that the source has, none forbids a
block that holds a paragraph to hold a table. -/
def takesTable (p : ParserState) (container : NodeId) : Bool :=
  (p.parentOf container).any fun parent => (p.typeOf parent).canContainType tableType

/-- Write a table over the paragraph that it begins with. -/
def placeTable (container : NodeId) (paragraph : Option Bytes) (table : TableNode) (p : ParserState) : ParserState :=
  let p := paragraph.elim p fun content => tryInsertingTableHeaderParagraph content container p
  let p := p.modifyData container fun _ => table.blockData
  table.rows.foldl (fun p row =>
    let (p, new) := p.appendBlock container row.blockData
    addCells new row.cells p) p

/-- `try_opening_table_header`, which gives back the container in any case. -/
def tryOpeningTableHeaderAt (self : Nat) (options : Options) (p : ParserState) (container : NodeId) (input : Bytes) :
    ParserState :=
  let parent := p.dataOf container
  match tryOpeningTableHeader self options p parent parent.tableVisited (takesTable p container) input with
  | .unchanged => p
  | .visited => p.modifyData container fun d => { d with tableVisited := true }
  | .table paragraph table p => placeTable container paragraph table p

/-! ### The rows below -/

/-- Scan up through the rows above, the nearest first, for the cell of column `i` that is no marker, and increment its
row span; `none` if there is none. -/
def spanRowAt (i : Nat) (p : ParserState) : List NodeId → Option ParserState
  | [] => none
  | row :: above =>
    if (rowNode p row).rowspanAt i = some 0 then spanRowAt i p above
    else some ((p.childrenOf row)[i]?.elim p fun cell => p.modifyData cell incrementCellRowspan)

/-- Merge the markers of the new row, from column `i` on, with the cells above. -/
def spanRowsAt (above : List NodeId) : Nat → List RowCell → ParserState → List RowCell × ParserState
  | _, [], p => ([], p)
  | i, cell :: rest, p =>
    let (cell, p) :=
      if cell.rowspan = 0 then
        match spanRowAt i p above with
        | some p => ({ cell with buf := [] }, p)
        | none => (cell, p)
      else (cell, p)
    let (rest, p) := spanRowsAt above (i + 1) rest p
    (cell :: rest, p)

/-- The cells of a new row, which is completed. -/
def rowCells (self nColumns : Nat) (line startColumn : Int) (cells : List RowCell) : List CellNode :=
  (cells.mapIdx fun i cell => makeCell self line startColumn i cell) ++
    List.replicate (nColumns - cells.length) (fillerCell self line)

/-- The new row behind those of a table, with its cells. -/
def addRowAt (self : Nat) (options : Options) (p : ParserState) (container : NodeId) (cells : List RowCell) :
    ParserState × NodeId :=
  let d := p.dataOf container
  let t := getTable d
  let above := (p.childrenOf container).reverse
  let cells := cells.take t.nColumns
  let (p, new) := p.appendBlock container
    { makeBlock rowType p.lineNumber d.startColumn with
      endColumn := d.endColumn
      extension := some self
      as := .opaqueData (.tableRow false) }
  let (cells, p) := if options.has optTableSpans then spanRowsAt above 0 cells p else (cells, p)
  let p := addCells new (rowCells self t.nColumns p.lineNumber d.startColumn cells) p
  (p.modifyData container fun d => { d with as := .opaqueData (.table (t.incrRowCount cells.length)) }, new)

/-- `try_opening_table_row`. -/
def tryOpeningTableRowAt (self : Nat) (options : Options) (p : ParserState) (container : NodeId) (input : Bytes) :
    ParserState × Option NodeId :=
  if p.blank then (p, none)
  else if (getTable (p.dataOf container)).nAutocompletedCells > maxAutocompletedCells then (p, none)
  else
    match rowFromString options (input.drop p.firstNonspace) with
    | none => (p, none)
    | some row =>
      let (p, new) := addRowAt self options p container row.cells
      (advanceOffset input ((input.length : Int) - 1 - p.offset) false p, some new)

/-! ### The extension -/

/-- `try_opening_table_block`. -/
def tryOpeningTableBlock (self : Nat) (options : Options) (indented : Bool) (p : ParserState) (container : NodeId)
    (input : Bytes) : ParserState × Option NodeId :=
  if !indented && p.typeOf container = .paragraph then
    (tryOpeningTableHeaderAt self options p container input, some container)
  else if !indented && p.typeOf container = tableType then tryOpeningTableRowAt self options p container input
  else (p, none)

/-- `can_contain`. -/
def canContain (node : NodeData) (childType : NodeType) : Bool :=
  if node.type = tableType then childType = rowType
  else if node.type = rowType then childType = cellType
  else if node.type = cellType then
    [.text, .code, .emph, .strong, .link, .image, .attribute, strikethroughType, .htmlInline,
      .footnoteReference].contains childType
  else false

/-- `create_table_extension`, as far as it concerns parsing. -/
def extension (self : Nat) : Extension where
  lastBlockMatches := some fun options p input container =>
    (p, p.typeOf container = tableType && «matches» options p input)
  tryOpeningBlock := some (tryOpeningTableBlock self)
  canContainFunc := some canContain
  containsInlinesFunc := some fun node => node.type = cellType

end Table

end CmarkGfm
