import CmarkGfm.Extensions.Table
import CmarkGfm.Library.Spans
import CmarkGfm.Properties.BlockSteps
import CmarkGfm.Properties.Progress

/-!
# The rows of a table

A line is cut into the cells of a row without losing any of it: what is no text of a cell is a pipe, a
blank or the end of the line. What comes before the line is kept for a paragraph.
-/

namespace CmarkGfm

namespace Table

/-! ### The language of a row -/

/-- Every pipe is behind a backslash. -/
def PipesEscaped (w : Bytes) : Prop := ∀ u v, w = u ++ chr '|' :: v → u.getLast? = some (chr '\\')

theorem PipesEscaped.append {u v : Bytes} (first : PipesEscaped u) (second : PipesEscaped v) :
    PipesEscaped (u ++ v) := by
  intro before after eq
  rcases List.append_eq_append_iff.mp eq with ⟨more, rfl, inSecond⟩ | ⟨more, rfl, inFirst⟩
  · have behind := second more after inSecond
    rw [List.getLast?_append, behind]
    rfl
  · cases more with
    | nil =>
      have behind := second [] after inFirst.symm
      cases behind
    | cons c more =>
      obtain ⟨rfl, rfl⟩ := List.cons.inj (List.cons_append ▸ inFirst)
      exact first before more rfl

theorem pipesEscaped_of_not_mem {w : Bytes} (none : chr '|' ∉ w) : PipesEscaped w := by
  rintro u v rfl
  exact absurd (List.mem_append_right u List.mem_cons_self) none

theorem pipesEscaped_pair : PipesEscaped (lit "\\|") := by
  intro u v eq
  cases u with
  | nil => exact absurd (List.cons.inj eq).1 (by decide)
  | cons c u =>
    cases u with
    | nil => exact congrArg some (List.cons.inj eq).1.symm
    | cons d u =>
      have length := congrArg List.length eq
      simp [lit] at length

/-- The blanks of ext_scanners.re. -/
def isBlank (c : UInt8) : Bool := CharClass.mem ⟨false, [(9, 9), (11, 12), (32, 32)]⟩ c

/-- A pipe and the blanks behind it. -/
def Separator (sep : Bytes) : Prop := ∃ blanks, sep = chr '|' :: blanks ∧ ∀ c ∈ blanks, isBlank c = true

/-- The end of a line, with the blanks before it. -/
def RowEnd (tail : Bytes) : Prop :=
  ∃ blanks, (tail = blanks ++ lit "\n" ∨ tail = blanks ++ lit "\r\n") ∧ ∀ c ∈ blanks, isBlank c = true

end Table

namespace Scanners

open Regex Table

theorem matches_single_iff (c : UInt8) (w : Bytes) :
    Matches CharClass.mem (oneOf [(c, c)]) w ↔ w = [c] := by
  rw [oneOf, matches_cls_iff]
  constructor
  · rintro ⟨d, rfl, inClass⟩
    rw [mem_single inClass]
  · rintro rfl
    refine ⟨c, rfl, ?_⟩
    simp [CharClass.mem]

theorem tableCellEnd_sound {input : Bytes} (found : 0 < tableCellEnd input) :
    Separator (input.take (tableCellEnd input)) := by
  obtain ⟨_, matched⟩ := scan_sound found
  obtain ⟨u, v, eq, pipe, blanks⟩ := (matches_seq_iff _ _ _).mp matched
  rw [(matches_single_iff (chr '|') u).mp pipe] at eq
  exact ⟨v, eq, (matches_star_cls_iff _ v).mp blanks⟩

theorem tableRowEnd_sound {input : Bytes} (found : 0 < tableRowEnd input) :
    RowEnd (input.take (tableRowEnd input)) := by
  obtain ⟨_, matched⟩ := scan_sound found
  obtain ⟨u, v, eq, blanks, newline⟩ := (matches_seq_iff _ _ _).mp matched
  obtain ⟨cr, lf, rfl, optional, last⟩ := (matches_seq_iff _ _ _).mp newline
  refine ⟨u, ?_, (matches_star_cls_iff _ u).mp blanks⟩
  unfold tableRowEnd
  rw [eq, (matches_single_iff 10 lf).mp last]
  cases optional with
  | left one => exact .inr (by rw [(matches_single_iff 13 cr).mp one]; rfl)
  | right none => exact .inl (by cases none; rfl)

/-- A character of a cell: an escaped character, or one that ends neither the cell nor the line. -/
theorem tableCellText_char {u : Bytes}
    (matched : Matches CharClass.mem (.alt escapedChar (noneOf (chars "|\r\n"))) u) :
    (∀ c ∈ u, isLineEndChar c = false) ∧ PipesEscaped u := by
  constructor
  · intro c member
    obtain ⟨k, among, inClass⟩ := matched.mem_classes c member
    rw [Bool.eq_false_iff]
    intro lineEnd
    have either : c = 10 ∨ c = 13 := by simpa [isLineEndChar] using lineEnd
    revert inClass
    rcases either with rfl | rfl
    · exact ne_of_beq_false ((by decide : ∀ k ∈ _, (CharClass.mem k 10 == true) = false) k among)
    · exact ne_of_beq_false ((by decide : ∀ k ∈ _, (CharClass.mem k 13 == true) = false) k among)
  · cases matched with
    | left escaped =>
      obtain ⟨a, b, rfl, backslash, one⟩ := (matches_seq_iff _ _ _).mp escaped
      obtain ⟨c, rfl, _⟩ := (matches_cls_iff _ _).mp one
      rw [(matches_single_iff (chr '\\') a).mp backslash]
      intro before after eq
      rcases List.cons_eq_append_iff.mp eq with ⟨rfl, none⟩ | ⟨more, rfl, rest⟩
      · cases none
      · rcases List.cons_eq_append_iff.mp rest with ⟨rfl, _⟩ | ⟨more', rfl, none⟩
        · rfl
        · simp at none
    | right other =>
      apply pipesEscaped_of_not_mem
      intro member
      obtain ⟨k, among, inClass⟩ := other.mem_classes _ member
      exact ne_of_beq_false ((by decide : ∀ k ∈ _, (CharClass.mem k (chr '|') == true) = false) k among)
        inClass

/-- The text of a cell has no line end in it, and no pipe that is not escaped. -/
theorem tableCellText_spec {w : Bytes} (matched : Matches CharClass.mem tableCellText w) :
    (∀ c ∈ w, isLineEndChar c = false) ∧ PipesEscaped w := by
  obtain ⟨u, v, rfl, first, more⟩ := (matches_seq_iff _ _ _).mp matched
  have all : (∀ c ∈ v, isLineEndChar c = false) ∧ PipesEscaped v := by
    clear matched
    generalize expression : Re.star _ = r at more
    induction more with
    | nil => exact ⟨by simp, pipesEscaped_of_not_mem (by simp)⟩
    | more one _ _ ih =>
      cases expression
      obtain ⟨lineEnds, escaped⟩ := tableCellText_char one
      obtain ⟨lineEnds', escaped'⟩ := ih rfl
      exact ⟨List.forall_mem_append.mpr ⟨lineEnds, lineEnds'⟩, escaped.append escaped'⟩
    | eps | cls | seq | left | right => cases expression
  obtain ⟨lineEnds, escaped⟩ := tableCellText_char first
  exact ⟨List.forall_mem_append.mpr ⟨lineEnds, all.1⟩, escaped.append all.2⟩

theorem tableCell_sound {input : Bytes} (found : 0 < tableCell input) :
    (∀ c ∈ input.take (tableCell input), isLineEndChar c = false) ∧
      PipesEscaped (input.take (tableCell input)) :=
  tableCellText_spec (scan_sound found).2

end Scanners

namespace Table

/-! ### The cells of a row -/

/-- The text of a cell, and what separates it from the next. -/
structure Piece where
  raw : Bytes
  sep : Bytes
  deriving DecidableEq

def Piece.text (piece : Piece) : Bytes := piece.raw ++ piece.sep

structure Piece.Valid (piece : Piece) : Prop where
  lineEnds : ∀ c ∈ piece.raw, isLineEndChar c = false
  pipes : PipesEscaped piece.raw
  sep : piece.sep = [] ∨ Separator piece.sep
  some : piece.raw ≠ [] ∨ piece.sep ≠ []

/-- The cell is that of a piece at `offset`, which begins behind a pipe or where the row does. -/
structure RowCell.Of (string : Bytes) (start : Nat) (piece : Piece) (offset : Nat) (cell : RowCell) : Prop where
  buf : cell.buf = strbufTrim (unescapePipes piece.raw)
  begins : cell.startOffset + cell.internalOffset = offset
  last : cell.endOffset = offset + (piece.raw.length - 1)
  within : start ≤ cell.startOffset
  behind : cell.startOffset = start ∨ string[cell.startOffset - 1]? = some (chr '|')
  pipes : chr '|' ∉ chunkDup string cell.startOffset cell.internalOffset

/-- What the row is of the string up to `offset`. -/
structure RowText (string : Bytes) (row : Row) (lead : Bytes) (pieces : List Piece) (offset : Nat) : Prop where
  text : string.take offset = string.take row.paragraphOffset ++ lead ++ pieces.flatMap Piece.text
  inside : offset ≤ string.length
  start : row.paragraphOffset + lead.length + (pieces.flatMap Piece.text).length = offset
  paragraph : row.paragraphOffset = 0 ∨ string[row.paragraphOffset - 1]? = some 10
  leading : lead = [] ∨ Separator lead
  valid : ∀ piece ∈ pieces, piece.Valid
  length : row.cells.length = pieces.length
  cells : ∀ (i : Nat) (cell : RowCell) (piece : Piece), row.cells[i]? = some cell → pieces[i]? = some piece →
    cell.Of string row.paragraphOffset piece
      (row.paragraphOffset + lead.length + ((pieces.take i).flatMap Piece.text).length)

/-- A string up to a later position. -/
theorem take_add_chunkDup (string : Bytes) (offset n : Nat) :
    string.take (offset + n) = string.take offset ++ chunkDup string offset n := by
  rw [chunkDup, List.take_add]

/-- A cell that is moved back starts behind a pipe, or where the row does, with no pipe on the way. -/
theorem cellIndent_spec {string : Bytes} {start offset : Nat} (after : start ≤ offset)
    (inside : offset ≤ string.length) :
    cellIndent string start offset ≤ offset - start ∧
      (offset - cellIndent string start offset = start ∨
        string[offset - cellIndent string start offset - 1]? = some (chr '|')) ∧
      chr '|' ∉ chunkDup string (offset - cellIndent string start offset) (cellIndent string start offset) := by
  generalize chunk : chunkDup string start (offset - start) = t
  have length : t.length = offset - start := by
    rw [← chunk, chunkDup, List.length_take, List.length_drop]
    omega
  have whole : string.take offset = string.take start ++ t := by
    rw [← chunk, ← take_add_chunkDup, Nat.add_sub_cancel' after]
  obtain ⟨before, text, split, indent, none, last⟩ : ∃ before text, t = before ++ text ∧
      cellIndent string start offset = text.length ∧ chr '|' ∉ text ∧
      (before = [] ∨ before.getLast? = some (chr '|')) := by
    refine ⟨(t.reverse.dropWhile (· != chr '|')).reverse, (t.reverse.takeWhile (· != chr '|')).reverse, ?_, ?_,
      ?_, ?_⟩
    · rw [← List.reverse_append, List.takeWhile_append_dropWhile, List.reverse_reverse]
    · rw [cellIndent, chunk, List.length_reverse]
    · intro member
      have other := List.mem_takeWhile_imp (List.mem_reverse.mp member)
      exact absurd other (by decide)
    · rw [List.getLast?_reverse, List.reverse_eq_nil_iff]
      cases found : t.reverse.dropWhile (· != chr '|') with
      | nil => exact .inl rfl
      | cons c rest =>
        refine .inr ?_
        have stops : (c != chr '|') = false := by
          have := List.head?_dropWhile_not (· != chr '|') t.reverse
          rwa [found] at this
        rw [List.head?_cons, bne_eq_false_iff_eq.mp stops]
  rw [split, List.length_append] at length
  obtain ⟨front, rest, whole, frontLength, frontLast⟩ : ∃ front rest, string = front ++ (text ++ rest) ∧
      front.length = offset - text.length ∧
      (offset - text.length = start ∨ front.getLast? = some (chr '|')) := by
    refine ⟨string.take start ++ before, string.drop offset, ?_, ?_, ?_⟩
    · have taken : string.take offset = string.take start ++ t := by
        rw [← chunk, ← take_add_chunkDup, Nat.add_sub_cancel' after]
      rw [← List.append_assoc, List.append_assoc (string.take start), ← split, ← taken, List.take_append_drop]
    · rw [List.length_append, List.length_take_of_le (by omega)]
      omega
    · rcases last with rfl | last
      · exact .inl (by simp at length; omega)
      · exact .inr (by rw [List.getLast?_append, last]; rfl)
  rw [indent, ← frontLength]
  refine ⟨by omega, ?_, ?_⟩
  · rcases frontLast with same | last
    · exact .inl (by omega)
    · refine .inr ?_
      have some : front ≠ [] := by
        rintro rfl
        cases last
      have := List.length_pos_of_ne_nil some
      rw [whole, List.getElem?_append_left (by omega), ← List.getLast?_eq_getElem?, last]
  · have chunked : chunkDup string front.length text.length = text := by
      rw [whole, chunkDup, List.drop_left, List.take_left]
    rwa [chunked]

theorem widenCell_eq (cells : List RowCell) :
    widenCell cells = Spans.growLast RowCell.colspan (fun c => { c with colspan := c.colspan + 1 }) cells := by
  induction cells with
  | nil => rfl
  | cons c rest ih =>
    rw [widenCell, Spans.growLast, ih]
    split
    next some => rw [if_neg (by omega)]
    next none => rw [if_pos (by omega)]

/-- Only the span of a cell grows. -/
theorem widenCell_getElem? {cells : List RowCell} {i : Nat} {cell : RowCell}
    (found : (widenCell cells)[i]? = some cell) :
    ∃ old, cells[i]? = some old ∧ cell = { old with colspan := cell.colspan } := by
  induction cells generalizing i with
  | nil => cases found
  | cons c rest ih =>
    rw [widenCell] at found
    split at found
    next =>
      cases i with
      | zero =>
        cases found
        exact ⟨c, rfl, rfl⟩
      | succ i => exact ⟨cell, found, rfl⟩
    next =>
      cases i with
      | zero =>
        cases found
        exact ⟨cell, rfl, rfl⟩
      | succ i => exact ih found

theorem length_widenCell (cells : List RowCell) : (widenCell cells).length = cells.length := by
  rw [widenCell_eq, Spans.length_growLast]

theorem RowCell.Of.colspan {string : Bytes} {start offset colspan : Nat} {piece : Piece} {cell : RowCell}
    (of : cell.Of string start piece offset) : { cell with colspan := colspan }.Of string start piece offset :=
  ⟨of.buf, of.begins, of.last, of.within, of.behind, of.pipes⟩

/-- The span of a cell that is read is 1, or 0 where the cell is a part of one above. -/
def RowCell.Marked (options : Options) (cell : RowCell) : Prop :=
  cell.rowspan = if options.has optTableSpans ∧ cell.buf = rowspanMarker options then 0 else 1

theorem RowCell.Marked.zero_or_one {cell : RowCell} {options : Options} (marked : cell.Marked options) :
    cell.rowspan = 0 ∨ cell.rowspan = 1 := by
  rw [marked]
  split
  next => exact .inl rfl
  next => exact .inr rfl

/-- A cell is added at the end. The others stay, but for a column span that grows. -/
theorem addCell_cases (options : Options) (string : Bytes) (row : Row) (offset cellMatched : Nat) :
    ∃ cells cell, addCell options string row offset cellMatched = { row with cells := cells ++ [cell] } ∧
      cell.buf = strbufTrim (unescapePipes (chunkDup string offset cellMatched)) ∧
      cell.startOffset = offset - cellIndent string row.paragraphOffset offset ∧
      cell.endOffset = offset + (cellMatched - 1) ∧
      cell.internalOffset = cellIndent string row.paragraphOffset offset ∧ cell.Marked options ∧
      (cells = row.cells ∧ cell.colspan = 1 ∨
        cells = (widenCell row.cells.reverse).reverse ∧ cell.colspan = 0) ∧
      (cell.colspan = 0 ↔ options.has optTableSpans ∧ cell.buf = [] ∧ cell.startOffset = cell.endOffset) := by
  have last : (if cellMatched > 0 then offset + cellMatched - 1 else offset) = offset + (cellMatched - 1) := by
    split <;> omega
  by_cases spans : options.has optTableSpans
  · simp only [addCell, last, spans, if_true]
    split
    next none =>
      exact ⟨_, _, rfl, rfl, rfl, rfl, rfl, by simp [RowCell.Marked, spans], .inr ⟨rfl, rfl⟩, by simpa using none⟩
    next some =>
      exact ⟨_, _, rfl, rfl, rfl, rfl, rfl, by simp [RowCell.Marked, spans], .inl ⟨rfl, rfl⟩, by simpa using some⟩
  · simp only [addCell, last, spans]
    exact ⟨_, _, rfl, rfl, rfl, rfl, rfl, by simp [RowCell.Marked, spans], .inl ⟨rfl, rfl⟩, by simp⟩

/-- What a cell that stays keeps. -/
theorem kept_of_widenCell {cells widened : List RowCell}
    (either : widened = cells ∨ widened = (widenCell cells.reverse).reverse) {i : Nat} {c : RowCell}
    (found : widened[i]? = some c) : ∃ old, cells[i]? = some old ∧ c = { old with colspan := c.colspan } := by
  rcases either with rfl | rfl
  · exact ⟨c, found, rfl⟩
  · have inRow : i < cells.length := by
      have := (List.getElem?_eq_some_iff.mp found).1
      rwa [List.length_reverse, length_widenCell, List.length_reverse] at this
    rw [List.getElem?_reverse (by rwa [length_widenCell, List.length_reverse]), length_widenCell,
      List.length_reverse] at found
    obtain ⟨old, there, same⟩ := widenCell_getElem? found
    rw [List.getElem?_reverse (by omega)] at there
    refine ⟨old, ?_, same⟩
    rw [← there]
    congr 1
    omega

theorem addCell_spec (options : Options) (sep : Bytes) {string : Bytes} {row : Row} {offset cellMatched : Nat}
    (after : row.paragraphOffset ≤ offset) (inside : offset + cellMatched ≤ string.length) :
    ∃ cells cell, addCell options string row offset cellMatched = { row with cells := cells ++ [cell] } ∧
      cells.length = row.cells.length ∧
      (∀ (i : Nat) (c : RowCell), cells[i]? = some c →
        ∃ old, row.cells[i]? = some old ∧ c = { old with colspan := c.colspan }) ∧
      cell.Of string row.paragraphOffset ⟨chunkDup string offset cellMatched, sep⟩ offset := by
  obtain ⟨cells, cell, eq, buf, start, last, indent, -, widened, -⟩ :=
    addCell_cases options string row offset cellMatched
  obtain ⟨within, behind, pipes⟩ := cellIndent_spec after (by omega : offset ≤ string.length)
  have rawLength : (chunkDup string offset cellMatched).length = cellMatched := by
    rw [chunkDup, List.length_take, List.length_drop]
    omega
  have either := widened.imp And.left And.left
  refine ⟨cells, cell, eq, ?_, fun i c found => kept_of_widenCell either found, buf, ?_, ?_, ?_, ?_, ?_⟩
  · rcases either with rfl | rfl
    · rfl
    · rw [List.length_reverse, length_widenCell, List.length_reverse]
  · rw [start, indent, Nat.sub_add_cancel (by omega)]
  · rw [last, rawLength]
  · rw [start]
    omega
  · rw [start]
    exact behind
  · rw [start, indent]
    exact pipes

/-! ### The line of a row -/

variable {options : Options} {string : Bytes} {row : Row} {lead : Bytes} {pieces : List Piece} {offset : Nat}

/-- What the scanner of a separator takes. -/
theorem scan_separator (string : Bytes) (offset : Nat) :
    let sep := chunkDup string offset (Scanners.scanAt Scanners.tableCellEnd string offset)
    sep = [] ∨ Separator sep := by
  rcases Nat.eq_zero_or_pos (Scanners.scanAt Scanners.tableCellEnd string offset) with none | found
  · exact .inl (by simp [none, chunkDup])
  · exact .inr (Scanners.tableCellEnd_sound found)

/-- The piece that the scanners find at `offset`. -/
def pieceAt (string : Bytes) (offset : Nat) : Piece :=
  let cellMatched := Scanners.scanAt Scanners.tableCell string offset
  ⟨chunkDup string offset cellMatched,
    chunkDup string (offset + cellMatched) (Scanners.scanAt Scanners.tableCellEnd string (offset + cellMatched))⟩

theorem length_pieceAt (inside : offset ≤ string.length) :
    (pieceAt string offset).raw.length = Scanners.scanAt Scanners.tableCell string offset ∧
      (pieceAt string offset).sep.length = Scanners.scanAt Scanners.tableCellEnd string
        (offset + Scanners.scanAt Scanners.tableCell string offset) := by
  have cellEnd := add_scanAt_le Scanners.tableCellText inside
  have pipeEnd := add_scanAt_le Scanners.tableCellSeparator cellEnd
  simp only [pieceAt, chunkDup, List.length_take, List.length_drop, Scanners.tableCell, Scanners.tableCellEnd]
  omega

theorem pieceAt_valid
    (some : (pieceAt string offset).raw ≠ [] ∨ (pieceAt string offset).sep ≠ []) : (pieceAt string offset).Valid := by
  have raw : (∀ c ∈ (pieceAt string offset).raw, isLineEndChar c = false) ∧
      PipesEscaped (pieceAt string offset).raw := by
    rcases Nat.eq_zero_or_pos (Scanners.scanAt Scanners.tableCell string offset) with none | found
    · have empty : (pieceAt string offset).raw = [] := by simp [pieceAt, none, chunkDup]
      rw [empty]
      exact ⟨by simp, pipesEscaped_of_not_mem (by simp)⟩
    · exact Scanners.tableCell_sound found
  exact ⟨raw.1, raw.2, scan_separator string _, some⟩

/-- A cell is read: its text, and the separator behind it. -/
theorem RowText.addCell (text : RowText string row lead pieces offset)
    (some : (pieceAt string offset).raw ≠ [] ∨ (pieceAt string offset).sep ≠ []) :
    RowText string (addCell options string row offset (Scanners.scanAt Scanners.tableCell string offset)) lead
      (pieces ++ [pieceAt string offset]) (offset + (pieceAt string offset).text.length) := by
  obtain ⟨rawLength, sepLength⟩ := length_pieceAt text.inside
  have cellEnd := add_scanAt_le Scanners.tableCellText text.inside
  have pipeEnd := add_scanAt_le Scanners.tableCellSeparator cellEnd
  change offset + Scanners.scanAt Scanners.tableCell string offset ≤ string.length at cellEnd
  change offset + Scanners.scanAt Scanners.tableCell string offset + Scanners.scanAt Scanners.tableCellEnd string
    (offset + Scanners.scanAt Scanners.tableCell string offset) ≤ string.length at pipeEnd
  have start := text.start
  have textLength : (pieceAt string offset).text.length =
      (pieceAt string offset).raw.length + (pieceAt string offset).sep.length := List.length_append
  obtain ⟨cells, cell, eq, length, kept, of⟩ := addCell_spec options (pieceAt string offset).sep
    (by omega : row.paragraphOffset ≤ offset) cellEnd
  rw [eq]
  have taken : string.take (offset + (pieceAt string offset).text.length) =
      string.take offset ++ (pieceAt string offset).text := by
    rw [textLength, rawLength, sepLength, ← Nat.add_assoc, take_add_chunkDup, take_add_chunkDup, List.append_assoc]
    rfl
  constructor
  · rw [taken, text.text, List.flatMap_append, List.flatMap_singleton]
    simp only [List.append_assoc]
  · omega
  · rw [List.flatMap_append, List.flatMap_singleton, List.length_append]
    dsimp only
    omega
  · exact text.paragraph
  · exact text.leading
  · intro piece member
    rcases List.mem_append.mp member with old | new
    · exact text.valid piece old
    · rw [List.mem_singleton.mp new]
      exact pieceAt_valid some
  · rw [List.length_append, List.length_append, length, text.length]
    rfl
  · intro i c piece foundCell foundPiece
    rcases Nat.lt_trichotomy i pieces.length with old | last | beyond
    · rw [List.getElem?_append_left (by rw [length, text.length]; exact old)] at foundCell
      rw [List.getElem?_append_left old] at foundPiece
      obtain ⟨c', found', same⟩ := kept i c foundCell
      rw [List.take_append_of_le_length (Nat.le_of_lt old), same]
      exact (text.cells i c' piece found' foundPiece).colspan
    · have here : i = cells.length := by rw [length, text.length, last]
      rw [here, List.getElem?_concat_length] at foundCell
      rw [last, List.getElem?_concat_length] at foundPiece
      cases foundCell
      cases foundPiece
      rw [last, List.take_left, start]
      exact of
    · rw [List.getElem?_eq_none (by simp; omega)] at foundPiece
      cases foundPiece

/-- A row begins at the start of a line. -/
theorem rowText_start (start : Nat) (inside : start ≤ string.length)
    (paragraph : start = 0 ∨ string[start - 1]? = some 10) :
    RowText string ⟨start, []⟩ (chunkDup string start (Scanners.scanAt Scanners.tableCellEnd string start)) []
      (start + Scanners.scanAt Scanners.tableCellEnd string start) := by
  have leadEnd := add_scanAt_le Scanners.tableCellSeparator inside
  change start + Scanners.scanAt Scanners.tableCellEnd string start ≤ string.length at leadEnd
  constructor
  · rw [take_add_chunkDup, List.flatMap_nil, List.append_nil]
  · exact leadEnd
  · rw [chunkDup, List.length_take, List.length_drop, List.flatMap_nil, List.length_nil]
    dsimp only
    omega
  · exact paragraph
  · exact scan_separator string start
  · simp
  · rfl
  · simp

/-- A line ends in a newline. -/
theorem RowEnd.getLast? {tail : Bytes} (rowEnd : RowEnd tail) : tail.getLast? = some 10 := by
  obtain ⟨blanks, rfl | rfl, _⟩ := rowEnd
  all_goals
    rw [List.getLast?_append]
    rfl

/-- The row is what the line at the end of the string says, up to the end of the line. -/
def ReadsRow (string : Bytes) (row : Row) : Prop :=
  ∃ lead pieces offset, RowText string row lead pieces offset ∧
    (string.drop offset = [] ∨ RowEnd (string.drop offset)) ∧ ∀ piece ∈ pieces.dropLast, piece.sep ≠ []

/-- A cell is read, or there is none. -/
inductive ReadsCell (options : Options) (string : Bytes) (row : Row) (offset : Nat) : Row → Nat → Prop where
  | cell : (pieceAt string offset).raw ≠ [] ∨ (pieceAt string offset).sep ≠ [] →
      (addCell options string row offset (Scanners.scanAt Scanners.tableCell string offset)).cells.length <
        maxColumns →
      ReadsCell options string row offset
        (addCell options string row offset (Scanners.scanAt Scanners.tableCell string offset))
        (offset + (pieceAt string offset).text.length)
  | none : (pieceAt string offset).sep = [] → ReadsCell options string row offset row offset

/-- The end of a turn: more cells, another line, or the end of the row. -/
inductive Continues (options : Options) (string : Bytes) (fuel : Nat) (sep : Bytes) (row : Row) (offset : Nat) :
    Row × Nat × Bool → Prop where
  | more (found : sep ≠ []) : Continues options string fuel sep row offset (rowLoop options string fuel row offset)
  | line (last : sep = []) (found : 0 < Scanners.scanAt Scanners.tableRowEnd string offset) (next : Nat)
      (eq : next = offset + Scanners.scanAt Scanners.tableRowEnd string offset) :
      Continues options string fuel sep row offset
        (rowLoop options string fuel ⟨next, []⟩ (next + Scanners.scanAt Scanners.tableCellEnd string next))
  | done (last : sep = []) :
      Continues options string fuel sep row offset
        (row, offset + Scanners.scanAt Scanners.tableRowEnd string offset, false)

theorem rowLoop_succ {fuel : Nat} {result : Row × Nat × Bool} (more : offset < string.length)
    (read : rowLoop options string (fuel + 1) row offset = result) (kept : result.2.2 = false) :
    ∃ row' offset', ReadsCell options string row offset row' offset' ∧
      Continues options string fuel (pieceAt string offset).sep row' offset' result := by
  obtain ⟨rawLength, sepLength⟩ := length_pieceAt (Nat.le_of_lt more)
  have textLength : (pieceAt string offset).text.length =
      (pieceAt string offset).raw.length + (pieceAt string offset).sep.length := List.length_append
  rw [rowLoop, if_pos more] at read
  dsimp only at read
  rw [← sepLength] at read
  generalize added : (if Scanners.scanAt Scanners.tableCell string offset > 0 ∨
    (pieceAt string offset).sep.length > 0 then
      addCell options string row offset (Scanners.scanAt Scanners.tableCell string offset) else row) = row' at read
  rw [Nat.add_assoc, ← rawLength, ← textLength] at read
  by_cases aborted : ((pieceAt string offset).raw.length > 0 ∨ (pieceAt string offset).sep.length > 0) ∧
      row'.cells.length ≥ maxColumns
  · rw [if_pos aborted] at read
    rw [← read] at kept
    simp at kept
  · have reads : ReadsCell options string row offset row' (offset + (pieceAt string offset).text.length) := by
      rw [← added]
      split
      next some =>
        rw [if_pos some] at added
        rw [← rawLength] at some
        refine .cell (some.imp List.length_pos_iff.mp List.length_pos_iff.mp) ?_
        rw [added]
        exact Nat.lt_of_not_le fun full => aborted ⟨some, full⟩
      next none =>
        have nothing : (pieceAt string offset).text.length = 0 := by omega
        rw [nothing]
        exact .none (List.eq_nil_of_length_eq_zero (by omega))
    refine ⟨_, _, reads, ?_⟩
    rw [if_neg aborted] at read
    split at read
    next found =>
      rw [← read]
      exact .more (List.length_pos_iff.mp found)
    next last =>
      have none : (pieceAt string offset).sep = [] := List.eq_nil_of_length_eq_zero (by omega)
      split at read
      next another =>
        rw [← read]
        exact .line none another.1 _ rfl
      next =>
        rw [← read]
        exact .done none

theorem ReadsCell.text {row' : Row} {offset' : Nat} (reads : ReadsCell options string row offset row' offset')
    (text : RowText string row lead pieces offset) (closed : ∀ piece ∈ pieces, piece.sep ≠ []) :
    ∃ pieces', RowText string row' lead pieces' offset' ∧ (∀ piece ∈ pieces'.dropLast, piece.sep ≠ []) ∧
      ((pieceAt string offset).sep ≠ [] → ∀ piece ∈ pieces', piece.sep ≠ []) := by
  cases reads with
  | cell some _ =>
    refine ⟨_, text.addCell some, by rwa [List.dropLast_concat], ?_⟩
    intro found piece member
    rcases List.mem_append.mp member with old | new
    · exact closed piece old
    · rwa [List.mem_singleton.mp new]
  | none => exact ⟨pieces, text, fun piece member => closed piece (List.mem_of_mem_dropLast member), fun _ => closed⟩

/-- A row does not have more cells than can be counted. -/
theorem rowLoop_length_lt (fuel : Nat) (few : row.cells.length < maxColumns) {result : Row × Nat × Bool}
    (read : rowLoop options string fuel row offset = result) (kept : result.2.2 = false) :
    result.1.cells.length < maxColumns := by
  induction fuel generalizing row offset with
  | zero =>
    cases read
    exact few
  | succ fuel ih =>
    by_cases more : offset < string.length
    · obtain ⟨row₁, offset₁, reads, continues⟩ := rowLoop_succ more read kept
      have few₁ : row₁.cells.length < maxColumns := by
        cases reads with
        | cell _ bound => exact bound
        | none => exact few
      cases continues with
      | more => exact ih few₁ rfl
      | line => exact ih (by simp [maxColumns]) rfl
      | done => exact few₁
    · rw [rowLoop, if_neg more] at read
      cases read
      exact few

theorem RowText.reads (text : RowText string row lead pieces offset)
    (closed : ∀ piece ∈ pieces.dropLast, piece.sep ≠ [])
    (ended : string.length = offset + Scanners.scanAt Scanners.tableRowEnd string offset) : ReadsRow string row := by
  refine ⟨lead, pieces, offset, text, ?_, closed⟩
  rcases Nat.eq_zero_or_pos (Scanners.scanAt Scanners.tableRowEnd string offset) with none | found
  · exact .inl (List.drop_eq_nil_of_le (by omega))
  · have rowEnd := Scanners.tableRowEnd_sound found
    rw [List.take_of_length_le] at rowEnd
    · exact .inr rowEnd
    · rw [List.length_drop, ended]
      exact Nat.le_of_eq (Nat.add_sub_cancel_left _ _)

/-- The line behind the end of another begins behind a newline. -/
theorem getElem?_scan_rowEnd (inside : offset ≤ string.length)
    (found : 0 < Scanners.scanAt Scanners.tableRowEnd string offset) :
    string[offset + Scanners.scanAt Scanners.tableRowEnd string offset - 1]? = some 10 := by
  have last := (Scanners.tableRowEnd_sound found).getLast?
  have bound := add_scanAt_le Scanners.tableRowTail inside
  change offset + Scanners.scanAt Scanners.tableRowEnd string offset ≤ string.length at bound
  change (List.take (Scanners.scanAt Scanners.tableRowEnd string offset) _).getLast? = _ at last
  rw [List.getLast?_eq_getElem?, List.length_take, List.length_drop, Nat.min_eq_left (by omega),
    List.getElem?_take_of_lt (by omega), List.getElem?_drop] at last
  rw [← last]
  congr 1
  omega

theorem rowLoop_reads (fuel : Nat) (text : RowText string row lead pieces offset)
    (closed : ∀ piece ∈ pieces, piece.sep ≠ []) {row' : Row}
    (read : rowLoop options string fuel row offset = (row', string.length, false)) : ReadsRow string row' := by
  have closed' : ∀ piece ∈ pieces.dropLast, piece.sep ≠ [] :=
    fun piece member => closed piece (List.mem_of_mem_dropLast member)
  induction fuel generalizing row lead pieces offset with
  | zero =>
    cases read
    exact ⟨lead, pieces, _, text, .inl List.drop_length, closed'⟩
  | succ fuel ih =>
    by_cases more : offset < string.length
    · obtain ⟨row₁, offset₁, reads, continues⟩ := rowLoop_succ more read rfl
      obtain ⟨pieces₁, text₁, inner, closed₁⟩ := reads.text text closed
      generalize result : (row', string.length, false) = result' at continues
      cases continues with
      | more found => exact ih text₁ (closed₁ found) result.symm inner
      | line last found next eq =>
        -- the line was one of the paragraph
        have bound := add_scanAt_le Scanners.tableRowTail text₁.inside
        have newline := getElem?_scan_rowEnd text₁.inside found
        rw [← eq] at newline
        have inside : next ≤ string.length := eq ▸ bound
        exact ih (rowText_start next inside (.inr newline)) (by simp) result.symm (by simp)
      | done last =>
        obtain ⟨rfl, ended⟩ := Prod.mk.inj result
        exact text₁.reads inner (Prod.mk.inj ended).1
    · rw [rowLoop, if_neg more] at read
      cases read
      exact ⟨lead, pieces, _, text, .inl List.drop_length, closed'⟩

/-- What the loop did when there is a row. -/
theorem rowLoop_of_rowFromString (read : rowFromString options string = some row) :
    rowLoop options string (string.length + 1) {} (Scanners.scanAt Scanners.tableCellEnd string 0) =
      (row, string.length, false) ∧ row.cells ≠ [] := by
  rw [rowFromString] at read
  split at read
  next row' offset aborted result =>
    split at read
    next => cases read
    next whole =>
      cases read
      obtain ⟨rfl, some, rfl⟩ : offset = string.length ∧ row.cells ≠ [] ∧ aborted = false := by
        simpa using whole
      exact ⟨result, some⟩

theorem rowFromString_length_lt (read : rowFromString options string = some row) : row.cells.length < maxColumns :=
  rowLoop_length_lt _ (by decide) (rowLoop_of_rowFromString read).1 rfl

/-- A string with a row in it is what is left for a paragraph, and the line of the row: its cells in their order,
with all their text, and pipes and blanks between them. -/
theorem rowFromString_reads (read : rowFromString options string = some row) :
    ∃ (lead : Bytes) (pieces : List Piece) (tail : Bytes), string =
        string.take row.paragraphOffset ++ lead ++ pieces.flatMap Piece.text ++ tail ∧
      (row.paragraphOffset = 0 ∨ string[row.paragraphOffset - 1]? = some 10) ∧
      (lead = [] ∨ Separator lead) ∧
      (∀ piece ∈ pieces, piece.Valid) ∧ (∀ piece ∈ pieces.dropLast, piece.sep ≠ []) ∧
      (tail = [] ∨ RowEnd tail) ∧
      row.cells ≠ [] ∧ row.cells.length = pieces.length ∧
      ∀ (i : Nat) (cell : RowCell) (piece : Piece), row.cells[i]? = some cell → pieces[i]? = some piece →
        cell.Of string row.paragraphOffset piece
          (row.paragraphOffset + lead.length + ((pieces.take i).flatMap Piece.text).length) := by
  obtain ⟨result, some⟩ := rowLoop_of_rowFromString read
  have start := rowText_start 0 (Nat.zero_le string.length) (.inl rfl)
  rw [Nat.zero_add] at start
  obtain ⟨lead, pieces, offset, text, last, closed⟩ := rowLoop_reads _ start (by simp) result
  refine ⟨lead, pieces, string.drop offset, ?_, text.paragraph, text.leading, text.valid, closed, last, some,
    text.length, text.cells⟩
  rw [← text.text, List.take_append_drop]

/-- A paragraph with a line that has a cell, nothing between two pipes, and a marker. -/
def exampleString : Bytes := lit "x\n|a || ^ |\n"

theorem rowFromString_exampleString : rowFromString optTableSpans exampleString =
    some ⟨2, [⟨lit "a", 3, 4, 0, 2, 1⟩, ⟨[], 6, 6, 0, 0, 1⟩, ⟨lit "^", 7, 9, 1, 1, 0⟩]⟩ := by decide +kernel

theorem rowFromString_reads_exampleString : ∃ (lead : Bytes) (pieces : List Piece) (tail : Bytes),
    exampleString = lit "x\n" ++ lead ++ pieces.flatMap Piece.text ++ tail ∧ (lead = [] ∨ Separator lead) ∧
      (∀ piece ∈ pieces, piece.Valid) ∧ pieces.length = 3 ∧ (tail = [] ∨ RowEnd tail) := by
  obtain ⟨lead, pieces, tail, eq, -, leading, valid, -, ends, -, length, -⟩ :=
    rowFromString_reads rowFromString_exampleString
  exact ⟨lead, pieces, tail, eq, leading, valid, length.symm, ends⟩

/-! ### Spans -/

/-- What holds of no cells and is kept when a cell is added holds of the cells of a row. -/
theorem rowLoop_cells {P : List RowCell → Prop} (empty : P [])
    (step : ∀ (row : Row) (offset cellMatched : Nat), P row.cells →
      P (addCell options string row offset cellMatched).cells)
    (fuel : Nat) (row : Row) (offset : Nat) (holds : P row.cells) :
    P (rowLoop options string fuel row offset).1.cells := by
  induction fuel generalizing row offset with
  | zero => exact holds
  | succ fuel ih =>
    rw [rowLoop]
    split
    next =>
      have added : P (if Scanners.scanAt Scanners.tableCell string offset > 0 ∨
          Scanners.scanAt Scanners.tableCellEnd string
            (offset + Scanners.scanAt Scanners.tableCell string offset) > 0 then
          addCell options string row offset (Scanners.scanAt Scanners.tableCell string offset) else row).cells := by
        split
        next => exact step row offset _ holds
        next => exact holds
      dsimp only
      generalize (if Scanners.scanAt Scanners.tableCell string offset > 0 ∨
        Scanners.scanAt Scanners.tableCellEnd string
          (offset + Scanners.scanAt Scanners.tableCell string offset) > 0 then
        addCell options string row offset (Scanners.scanAt Scanners.tableCell string offset) else row) = row'
        at added ⊢
      split
      next => exact added
      next =>
        split
        next => exact ih _ _ added
        next =>
          split
          next => exact ih _ _ empty
          next => exact added
    next => exact holds

theorem rowFromString_cells {P : List RowCell → Prop} (empty : P [])
    (step : ∀ (row : Row) (offset cellMatched : Nat), P row.cells →
      P (addCell options string row offset cellMatched).cells)
    (read : rowFromString options string = some row) : P row.cells := by
  have all := rowLoop_cells empty step (string.length + 1) {} (Scanners.scanAt Scanners.tableCellEnd string 0) empty
  rwa [(rowLoop_of_rowFromString read).1] at all

theorem addCell_tiled (row : Row) (offset cellMatched : Nat)
    (holds : Spans.Tiled RowCell.colspan (fun _ => false) row.cells.reverse ∧ ∀ c ∈ row.cells, c.Marked options) :
    Spans.Tiled RowCell.colspan (fun _ => false) (addCell options string row offset cellMatched).cells.reverse ∧
      ∀ c ∈ (addCell options string row offset cellMatched).cells, c.Marked options := by
  obtain ⟨tiled, marked⟩ := holds
  obtain ⟨cells, cell, eq, -, -, -, -, mark, widened, -⟩ := addCell_cases options string row offset cellMatched
  rw [eq]
  constructor
  · rw [List.reverse_append, List.reverse_singleton, List.singleton_append]
    rcases widened with ⟨rfl, one⟩ | ⟨rfl, none⟩
    · exact tiled.single one
    · rw [List.reverse_reverse, widenCell_eq]
      exact tiled.cover none (fun _ _ => rfl) (fun _ => rfl)
  · rw [List.forall_mem_append]
    refine ⟨?_, by simpa using mark⟩
    intro c member
    obtain ⟨i, found⟩ := List.mem_iff_getElem?.mp member
    obtain ⟨old, there, same⟩ := kept_of_widenCell (widened.imp And.left And.left) found
    have kept := marked old (List.mem_of_getElem? there)
    rw [same]
    exact kept

/-- The cells of a row cover it: a cell that is a part of another is counted in the span of the last cell before
it that is none, and there is nothing else in that span. -/
theorem rowFromString_spans (read : rowFromString options string = some row) :
    (∃ (bare : Nat) (covered : List Nat), row.cells.map RowCell.colspan =
      List.replicate bare 0 ++ covered.flatMap fun m => (m + 1) :: List.replicate m 0) ∧
      ∀ c ∈ row.cells, c.Marked options := by
  obtain ⟨tiled, marked⟩ := rowFromString_cells
    (P := fun cells => Spans.Tiled RowCell.colspan (fun _ => false) cells.reverse ∧ ∀ c ∈ cells, c.Marked options)
    ⟨.bare (by simp), by simp⟩ addCell_tiled read
  obtain ⟨bare, covered, eq⟩ := tiled.map_span
  rw [List.reverse_reverse] at eq
  exact ⟨⟨bare, covered, eq⟩, marked⟩

theorem rowFromString_spans_exampleString :
    (∃ (bare : Nat) (covered : List Nat), [2, 0, 1] =
      List.replicate bare 0 ++ covered.flatMap fun m => (m + 1) :: List.replicate m 0) ∧
      ∀ c ∈ ([⟨lit "a", 3, 4, 0, 2, 1⟩, ⟨[], 6, 6, 0, 0, 1⟩, ⟨lit "^", 7, 9, 1, 1, 0⟩] : List RowCell),
        c.Marked optTableSpans :=
  rowFromString_spans rowFromString_exampleString

end Table

end CmarkGfm
