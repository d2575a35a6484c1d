import Mathlib.Data.List.Basic

/-! # The cells of a table row (table.c) -/

namespace CmarkGfm

/-- `node_cell`, with the addresses of its buffer and of its further data. -/
structure NodeCell where
  buf : Nat
  startOffset : Int
  endOffset : Int
  internalOffset : Int
  cellData : Option Nat
  deriving DecidableEq

/-- `table_row`. The cells are a block of memory or a null pointer; a cell that nothing has been written to is
`none`. -/
structure TableRow where
  nColumns : UInt16 := 0
  paragraphOffset : Int := 0
  cells : Option (List (Option NodeCell)) := none
  deriving DecidableEq

/-- `mem->realloc` for a number of cells: those that the old block has stay. -/
def reallocCells (cells : Option (List (Option NodeCell))) (count : Nat) : List (Option NodeCell) :=
  let old := cells.getD []
  old.take count ++ List.replicate (count - old.length) none

namespace TableRow

/-- How many cells there is memory for. -/
def allocated (row : TableRow) : Nat := (row.cells.getD []).length

/-- `row->cells[i]`, if it has been written. -/
def cell? (row : TableRow) (i : Nat) : Option NodeCell := ((row.cells.getD [])[i]?).join

/-- Write to `row->cells[i]`; `none` if there is no such cell. -/
def setCell (row : TableRow) (i : Nat) (cell : NodeCell) : Option TableRow :=
  match row.cells with
  | none => none
  | some block => if i < block.length then some { row with cells := some (block.set i (some cell)) } else none

/-- `append_row_cell`: the row, and the index of the cell that the pointer is to. -/
def appendRowCell (row : TableRow) : TableRow × Option Nat :=
  let nColumns : UInt32 := row.nColumns.toUInt32 + 1
  let store (row : TableRow) : TableRow × Option Nat :=
    ({ row with nColumns := nColumns.toUInt16 }, some (nColumns - 1).toNat)
  -- realloc when n_columns is a power of 2
  if nColumns &&& (nColumns - 1) = 0 then
    -- make sure we never wrap row->n_columns
    if nColumns > 65535 then (row, none)
    else store { row with cells := some (reallocCells row.cells (2 * nColumns - 1).toNat) }
  else store row

/-- The cells that the loop of `free_row_cells` frees, in that order; `none` if it reads what is not there. -/
def freeCells (row : TableRow) : Nat → Option (List NodeCell)
  | 0 => some []
  | n + 1 => do
    let cell ← row.cell? n
    let freed ← freeCells row n
    some (cell :: freed)

/-- `free_row_cells` -/
def freeRowCells (row : TableRow) : Option (TableRow × List NodeCell) := do
  let freed ← row.freeCells row.nColumns.toNat
  some ({ row with nColumns := 0, cells := none }, freed)

end TableRow

/-- What a caller does with a row. It initializes the cell that it gets. -/
inductive RowCall where
  | append (cell : NodeCell)
  | free

namespace RowCall

def run (row : TableRow) : RowCall → Option TableRow
  | .append cell =>
    match row.appendRowCell with
    | (row, some i) => row.setCell i cell
    | (row, none) => some row
  | .free => (row.freeRowCells).map (·.1)

/-- The calls one after the other, from `mem->calloc(1, sizeof(table_row))` on. -/
def runAll (calls : List RowCall) : Option TableRow := calls.foldlM run {}

/-- The cells of the row after a call: they are only added at the end, and all go at once. -/
def written (cells : List NodeCell) : RowCall → List NodeCell
  | .append cell => if cells.length = 65535 then cells else cells ++ [cell]
  | .free => []

end RowCall

end CmarkGfm
