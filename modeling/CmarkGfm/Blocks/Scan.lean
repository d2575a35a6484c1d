import CmarkGfm.Parser.State
import CmarkGfm.Scanners

/-! # Reading a line (blocks.c) -/

namespace CmarkGfm

def codeIndent : Int := 4

def tabStop : Nat := 4

def isBlank (s : Bytes) : Bool :=
  match s.dropWhile isSpaceOrTab with
  | [] => true
  | c :: _ => isLineEndChar c

/-- `remove_trailing_blank_lines`: cut at the first line end after the last byte that is
neither white space nor a line end. -/
def removeTrailingBlankLines (ln : Bytes) : Bytes :=
  let kept := ln.rdropWhile fun c => isSpaceOrTab c || isLineEndChar c
  if kept = [] then []
  else kept ++ (ln.drop kept.length).takeWhile fun c => !isLineEndChar c

/-- `chop_trailing_hashtags`. -/
def chopTrailingHashtags (ch : Bytes) : Bytes :=
  let trimmed := chunkRtrim ch
  let kept := trimmed.rdropWhile (· == chr '#')
  -- Check for a space before the final #s
  if kept.length ≠ trimmed.length && isSpaceOrTab (byteAt kept (kept.length - 1)) && kept ≠ [] then
    chunkRtrim kept
  else trimmed

/-- The length of a line without its line end. -/
def lineLength (line : Bytes) : Nat :=
  let n := line.length
  let n := if n > 0 && byteAt line (n - 1) == 10 then n - 1 else n
  if n > 0 && byteAt line (n - 1) == 13 then n - 1 else n

/-! ### Offset and column -/

/-- The loop of `S_find_first_nonspace`: offset and column of the first byte that is not a
space. -/
def skipIndent : Bytes → Nat → Nat → Nat → Nat × Nat
  | [], offset, column, _ => (offset, column)
  | c :: rest, offset, column, charsToTab =>
    if c == 32 then
      skipIndent rest (offset + 1) (column + 1) (if charsToTab - 1 = 0 then tabStop else charsToTab - 1)
    else if c == 9 then skipIndent rest (offset + 1) (column + charsToTab) tabStop
    else (offset, column)

/-- `S_find_first_nonspace`. -/
def findFirstNonspace (input : Bytes) (p : ParserState) : ParserState :=
  let (firstNonspace, firstNonspaceColumn) :=
    if p.firstNonspace ≤ p.offset then
      skipIndent (input.drop p.offset) p.offset p.column (tabStop - p.column % tabStop)
    else (p.firstNonspace, p.firstNonspaceColumn)
  { p with
    firstNonspace := firstNonspace
    firstNonspaceColumn := firstNonspaceColumn
    indent := (firstNonspaceColumn : Int) - p.column
    blank := isLineEndChar (byteAt input firstNonspace) }

/-- The loop of `S_advance_offset`. Every turn counts down. -/
def advanceLoop (input : Bytes) (columns : Bool) : Nat → Nat → ParserState → ParserState
  | 0, _, p => p
  | fuel + 1, count, p =>
    let c := byteAt input p.offset
    if count = 0 || c == 0 then p
    else if c == 9 then
      let charsToTab := tabStop - p.column % tabStop
      if columns then
        let partiallyConsumed := charsToTab > count
        let charsToAdvance := min count charsToTab
        advanceLoop input columns fuel (count - charsToAdvance) { p with
          partiallyConsumedTab := partiallyConsumed
          column := p.column + charsToAdvance
          offset := p.offset + if partiallyConsumed then 0 else 1 }
      else
        advanceLoop input columns fuel (count - 1) { p with
          partiallyConsumedTab := false
          column := p.column + charsToTab
          offset := p.offset + 1 }
    else
      advanceLoop input columns fuel (count - 1) { p with
        partiallyConsumedTab := false
        offset := p.offset + 1
        column := p.column + 1 }

/-- `S_advance_offset`. -/
def advanceOffset (input : Bytes) (count : Int) (columns : Bool) (p : ParserState) : ParserState :=
  advanceLoop input columns count.toNat count.toNat p

/-- Advance to a position of the line. -/
def advanceTo (input : Bytes) (pos : Nat) (p : ParserState) : ParserState :=
  advanceOffset input ((pos : Int) - p.offset) false p

/-- Consume a space or tab at the offset, if there is one. -/
def advanceOptionalSpace (input : Bytes) (p : ParserState) : ParserState :=
  if isSpaceOrTab (byteAt input p.offset) then advanceOffset input 1 true p else p

/-! ### Thematic breaks and list markers -/

/-- The loop of `S_scan_thematic_break`: the bytes passed, their number equal to `c`, and the
byte that stopped it. -/
def thematicBreakLoop (c : UInt8) : Bytes → Nat → Nat → Nat × Nat × UInt8
  | [], n, count => (n, count, 0)
  | nextc :: rest, n, count =>
    if nextc == 0 then (n, count, 0)
    else if nextc == c then thematicBreakLoop c rest (n + 1) (count + 1)
    else if nextc != 32 && nextc != 9 then (n, count, nextc)
    else thematicBreakLoop c rest (n + 1) count

/-- `S_scan_thematic_break` at `first_nonspace`. -/
def scanThematicBreak (input : Bytes) (p : ParserState) : ParserState × Nat :=
  let offset := p.firstNonspace
  let c := byteAt input offset
  if !(c == chr '*' || c == chr '_' || c == chr '-') then
    ({ p with thematicBreakKillPos := offset }, 0)
  else
    let (n, count, nextc) := thematicBreakLoop c (input.drop (offset + 1)) 0 1
    let i := offset + 1 + n
    if count ≥ 3 && (nextc == 13 || nextc == 10) then (p, i - offset + 1)
    else ({ p with thematicBreakKillPos := i }, 0)

/-- The number at the start of a list marker: its value and its digits, at most nine. -/
def scanListNumber : Nat → Bytes → Nat → Nat → Nat × Nat
  | 0, _, start, digits => (start, digits)
  | _, [], start, digits => (start, digits)
  | fuel + 1, c :: rest, start, digits =>
    if isdigit c then scanListNumber fuel rest (10 * start + (c.toNat - 48)) (digits + 1)
    else (start, digits)

/-- `parse_list_marker`: the length of the marker and its data. -/
def parseListMarker (input : Bytes) (startpos : Nat) (interruptsParagraph : Bool) :
    Option (Nat × ListData) :=
  let c := byteAt input startpos
  -- require non-blank content after list marker
  let next := fun pos => byteAt input (skipWhileSpace input pos)
  if c == chr '*' || c == chr '-' || c == chr '+' then
    let pos := startpos + 1
    if !isspace (byteAt input pos) then none
    else if interruptsParagraph && next pos == 10 then none
    else some (1, ⟨.bullet, 0, 0, 0, .noDelim, c, false, false⟩)
  else if isdigit c then
    let (start, digits) := scanListNumber 9 (input.drop startpos) 0 0
    let c := byteAt input (startpos + digits)
    if interruptsParagraph && start ≠ 1 then none
    else if c == chr '.' || c == chr ')' then
      let pos := startpos + digits + 1
      if !isspace (byteAt input pos) then none
      else if interruptsParagraph && isLineEndChar (next pos) then none
      else some (digits + 1,
        ⟨.ordered, 0, 0, start, if c == chr '.' then .period else .paren, 0, false, false⟩)
    else none
  else none
where
  skipWhileSpace (input : Bytes) (pos : Nat) : Nat :=
    pos + ((input.drop pos).takeWhile isSpaceOrTab).length

/-- `lists_match`. -/
def listsMatch (listData itemData : ListData) : Bool :=
  listData.listType == itemData.listType && listData.delimiter == itemData.delimiter &&
    listData.bulletChar == itemData.bulletChar

end CmarkGfm
