import CmarkGfm.Extensions.TableRow
import Mathlib.Algebra.Group.Nat.Defs

/-!
# The cells of a row that grows

`append_row_cell` keeps no capacity: the block was last made larger when the number of columns was a power of two,
and has one cell less than twice as many.
-/

namespace CmarkGfm

namespace TableRow

variable {row : TableRow} {cells : List NodeCell}

/-- There is a block for this number of cells, and it begins with those that have been written. -/
def Room (row : TableRow) (count : Nat) (cells : List NodeCell) : Prop :=
  ∃ block k, row.cells = some block ∧ 2 ^ k ≤ count ∧ count < 2 ^ (k + 1) ∧ block.length = 2 ^ (k + 1) - 1 ∧
    cells.map some <+: block

/-- The row has these cells. -/
structure HasCells (row : TableRow) (cells : List NodeCell) : Prop where
  count : row.nColumns.toNat = cells.length
  block : row.cells = none ∧ cells = [] ∨ Room row cells.length cells

theorem hasCells_new (row : TableRow) : HasCells { row with nColumns := 0, cells := none } [] := ⟨rfl, .inl ⟨rfl, rfl⟩⟩

/-! ### One call -/

/-- There is memory for the cells that are counted. -/
theorem Room.le_allocated {count : Nat} (room : Room row count cells) : count ≤ row.allocated := by
  obtain ⟨block, k, here, _, small, length, _⟩ := room
  rw [allocated, here, Option.getD_some, length]
  omega

theorem Room.cell? {count : Nat} (room : Room row count cells) {i : Nat} (inside : i < cells.length) :
    row.cell? i = cells[i]? := by
  obtain ⟨block, k, here, _, _, _, written⟩ := room
  obtain ⟨rest, rfl⟩ := written
  rw [TableRow.cell?, here, Option.getD_some, List.getElem?_append_left (by simpa using inside)]
  simp [List.getElem?_eq_getElem inside]

theorem HasCells.cell? (has : HasCells row cells) {i : Nat} (inside : i < cells.length) :
    row.cell? i = cells[i]? := by
  rcases has.block with ⟨_, rfl⟩ | room
  · cases inside
  · exact room.cell? inside

/-- The call in numbers that do not wrap. -/
theorem appendRowCell_eq (row : TableRow) : row.appendRowCell =
    if (row.nColumns.toNat + 1).isPowerOfTwo then
      if row.nColumns = 65535 then (row, none)
      else
        ({ row with
            nColumns := row.nColumns + 1
            cells := some (reallocCells row.cells (2 * row.nColumns.toNat + 1)) },
          some row.nColumns.toNat)
    else ({ row with nColumns := row.nColumns + 1 }, some row.nColumns.toNat) := by
  have bound := row.nColumns.toNat_lt
  unfold appendRowCell
  extract_lets nColumns store
  have next : nColumns.toNat = row.nColumns.toNat + 1 := by
    simp only [nColumns, UInt32.toNat_add, UInt16.toNat_toUInt32, UInt32.toNat_one]
    omega
  have before : (nColumns - 1).toNat = row.nColumns.toNat := by
    have positive : (1 : UInt32) ≤ nColumns := by
      rw [UInt32.le_iff_toNat_le, next]
      simp
    rw [UInt32.toNat_sub_of_le _ _ positive, next]
    simp
  have twice : (2 * nColumns - 1).toNat = 2 * row.nColumns.toNat + 1 := by
    have double : (2 * nColumns).toNat = 2 * row.nColumns.toNat + 2 := by
      rw [UInt32.toNat_mul, next]
      simp
      omega
    have positive : (1 : UInt32) ≤ 2 * nColumns := by
      rw [UInt32.le_iff_toNat_le, double]
      simp
    rw [UInt32.toNat_sub_of_le _ _ positive, double]
    simp
  have stored : nColumns.toUInt16 = row.nColumns + 1 := by
    rw [← UInt16.toNat_inj, UInt16.toNat_add, UInt32.toNat_toUInt16, next]
    simp
  have power : nColumns &&& (nColumns - 1) = 0 ↔ (row.nColumns.toNat + 1).isPowerOfTwo := by
    rw [← Nat.and_sub_one_eq_zero_iff_isPowerOfTwo (Nat.succ_ne_zero _), ← UInt32.toNat_inj, UInt32.toNat_and, next,
      before]
    rfl
  have full : nColumns > 65535 ↔ row.nColumns = 65535 := by
    rw [gt_iff_lt, UInt32.lt_iff_toNat_lt, next, ← UInt16.toNat_inj]
    simp
    omega
  simp only [power, full, store, twice, stored, before]

/-- The last column is number 65535, and then there are no more. -/
theorem HasCells.full (has : HasCells row cells) : row.nColumns = 65535 ↔ cells.length = 65535 := by
  rw [← UInt16.toNat_inj, has.count]
  rfl

theorem HasCells.append_full (has : HasCells row cells) (full : cells.length = 65535) :
    row.appendRowCell = (row, none) := by
  have power : (row.nColumns.toNat + 1).isPowerOfTwo := ⟨16, by rw [has.count, full]⟩
  rw [appendRowCell_eq, if_pos power, if_pos (has.full.mpr full)]

theorem length_reallocCells (block : Option (List (Option NodeCell))) (count : Nat) :
    (reallocCells block count).length = count := by
  simp only [reallocCells, List.length_append, List.length_take, List.length_replicate]
  omega

/-- A block that does not get smaller keeps its cells. -/
theorem prefix_reallocCells {block : Option (List (Option NodeCell))} {count : Nat}
    (larger : (block.getD []).length ≤ count) : block.getD [] <+: reallocCells block count := by
  rw [reallocCells, List.take_of_length_le larger]
  apply List.prefix_append

/-- The block is large enough for one cell more, and the cells stay where they are. -/
theorem HasCells.append (has : HasCells row cells) (notFull : cells.length ≠ 65535) :
    ∃ row', row.appendRowCell = (row', some cells.length) ∧ row'.nColumns.toNat = cells.length + 1 ∧
      Room row' (cells.length + 1) cells := by
  have bound := row.nColumns.toNat_lt
  have count := has.count
  have next : (row.nColumns + 1).toNat = cells.length + 1 := by
    rw [UInt16.toNat_add, count]
    simp
    omega
  rw [appendRowCell_eq, count]
  by_cases power : (cells.length + 1).isPowerOfTwo
  · rw [if_pos power, if_neg fun full => notFull (has.full.mp full)]
    refine ⟨_, rfl, next, ?_⟩
    obtain ⟨k, isPower⟩ := power
    refine ⟨_, k, rfl, Nat.le_of_eq isPower.symm, ?_, ?_, ?_⟩
    · rw [isPower]
      exact Nat.pow_lt_pow_succ Nat.one_lt_two
    · rw [length_reallocCells, Nat.pow_succ]
      omega
    · rcases has.block with ⟨_, rfl⟩ | ⟨block, j, here, _, small, length, written⟩
      · apply List.nil_prefix
      · -- the old block is full
        have same : j + 1 = k := by
          have upper : 2 ^ k ≤ 2 ^ (j + 1) := by omega
          have lower : 2 ^ j < 2 ^ k := by omega
          have := (Nat.pow_le_pow_iff_right Nat.one_lt_two).mp upper
          have := (Nat.pow_lt_pow_iff_right Nat.one_lt_two).mp lower
          omega
        have larger : (row.cells.getD []).length ≤ 2 * cells.length + 1 := by
          rw [here, Option.getD_some, length, same]
          omega
        have kept := prefix_reallocCells larger
        rw [here, Option.getD_some] at kept
        rw [here]
        exact written.trans kept
  · rw [if_neg power]
    refine ⟨_, rfl, next, ?_⟩
    rcases has.block with ⟨_, rfl⟩ | ⟨block, k, here, large, small, length, written⟩
    · exact absurd Nat.isPowerOfTwo_one power
    · have notNext : cells.length + 1 ≠ 2 ^ (k + 1) := fun same => power ⟨k + 1, same⟩
      exact ⟨block, k, here, by omega, by omega, length, written⟩

/-- The caller writes the cell that it got. -/
theorem Room.setCell (room : Room row (cells.length + 1) cells) (cell : NodeCell) :
    ∃ row', row.setCell cells.length cell = some row' ∧ row'.nColumns = row.nColumns ∧
      Room row' (cells.length + 1) (cells ++ [cell]) := by
  have inside := room.le_allocated
  obtain ⟨block, k, here, large, small, length, rest, rfl⟩ := room
  rw [allocated, here, Option.getD_some] at inside
  rw [TableRow.setCell, here]
  dsimp only
  rw [if_pos (Nat.lt_of_succ_le inside)]
  refine ⟨_, rfl, rfl, _, k, rfl, large, small, ?_, ?_⟩
  · rw [List.length_set, length]
  · cases rest with
    | nil =>
      rw [List.append_nil, List.length_map] at inside
      exact absurd inside (Nat.not_succ_le_self _)
    | cons c rest =>
      rw [List.set_append_right _ _ (by simp)]
      simp

theorem HasCells.freeCells (has : HasCells row cells) (n : Nat) (within : n ≤ cells.length) :
    row.freeCells n = some (cells.take n).reverse := by
  induction n with
  | zero => rfl
  | succ n ih =>
    rw [TableRow.freeCells, has.cell? within, ih (Nat.le_of_succ_le within), List.take_add_one,
      List.getElem?_eq_getElem within, Option.toList_some, List.reverse_append]
    rfl

/-- Every cell is freed once, from the last one on. -/
theorem HasCells.freeRowCells (has : HasCells row cells) :
    row.freeRowCells = some ({ row with nColumns := 0, cells := none }, cells.reverse) := by
  rw [TableRow.freeRowCells, has.count, has.freeCells _ (Nat.le_refl _), List.take_length]
  rfl

/-! ### Any number of calls -/

theorem HasCells.run (has : HasCells row cells) (call : RowCall) :
    ∃ row', call.run row = some row' ∧ HasCells row' (call.written cells) := by
  cases call with
  | append cell =>
    rw [RowCall.run, RowCall.written]
    by_cases full : cells.length = 65535
    · rw [has.append_full full, if_pos full]
      exact ⟨row, rfl, has⟩
    · obtain ⟨row', appended, count, room⟩ := has.append full
      obtain ⟨row'', written, same, room'⟩ := room.setCell cell
      rw [appended, if_neg full]
      refine ⟨row'', written, ?_, .inr ?_⟩
      · rw [same, count, List.length_append, List.length_singleton]
      · rw [List.length_append, List.length_singleton]
        exact room'
  | free =>
    rw [RowCall.run, has.freeRowCells]
    exact ⟨_, rfl, hasCells_new row⟩

theorem hasCells_runAll (calls : List RowCall) : ∃ row, RowCall.runAll calls = some row ∧
    HasCells row (calls.foldl RowCall.written []) := by
  unfold RowCall.runAll
  generalize start : ({} : TableRow) = row
  have has : HasCells row [] := start ▸ hasCells_new {}
  generalize ([] : List NodeCell) = cells at has
  clear start
  induction calls generalizing row cells with
  | nil => exact ⟨row, rfl, has⟩
  | cons call calls ih =>
    obtain ⟨row', ran, has'⟩ := has.run call
    rw [List.foldlM_cons, ran]
    exact ih row' _ has'

/-- After any calls the row has the cells that were appended since the cells were freed last, in that order. The next
cell is behind them, in the block, and leaves them alone, unless there are as many as the counter can hold. -/
theorem appendRowCell_runAll (calls : List RowCall) : ∃ row, RowCall.runAll calls = some row ∧
    row.nColumns.toNat = (calls.foldl RowCall.written []).length ∧
    (∀ i < row.nColumns.toNat, row.cell? i = (calls.foldl RowCall.written [])[i]?) ∧
    (row.appendRowCell.2 = none ↔ row.nColumns = 65535) ∧
    (row.appendRowCell.2 = none → row.appendRowCell.1 = row) ∧
    (∀ i, row.appendRowCell.2 = some i → row.appendRowCell.1.nColumns.toNat = row.nColumns.toNat + 1 ∧
      i = row.appendRowCell.1.nColumns.toNat - 1 ∧ i < row.appendRowCell.1.allocated ∧
      ∀ j < row.nColumns.toNat, row.appendRowCell.1.cell? j = row.cell? j) ∧
    row.freeRowCells =
      some ({ row with nColumns := 0, cells := none }, (calls.foldl RowCall.written []).reverse) := by
  obtain ⟨row, ran, has⟩ := hasCells_runAll calls
  generalize calls.foldl RowCall.written [] = cells at has ⊢
  refine ⟨row, ran, has.count, fun i inside => has.cell? (has.count ▸ inside), ?_⟩
  by_cases full : cells.length = 65535
  · rw [has.append_full full]
    exact ⟨iff_of_true rfl (has.full.mpr full), fun _ => rfl, nofun, has.freeRowCells⟩
  · obtain ⟨row', appended, count, room⟩ := has.append full
    rw [appended]
    refine ⟨iff_of_false nofun fun last => full (has.full.mp last), nofun, ?_, has.freeRowCells⟩
    rintro i ⟨⟩
    refine ⟨by rw [count, has.count], by rw [count, Nat.add_sub_cancel], room.le_allocated, fun j before => ?_⟩
    rw [has.count] at before
    rw [room.cell? before, has.cell? before]

end TableRow

end CmarkGfm
