import CmarkGfm.Properties.TableRows
import CmarkGfm.Library.Utf8
import CmarkGfm.Render.Tables

/-!
# Tables that are written and read back

What the scanners of a row find, when the row is given by its cells: a row that is written with pipes
between its cells is cut into these cells again.
-/

namespace CmarkGfm

namespace Scanners

open Regex Table

/-! ### What is found -/

/-- The longest prefix that matches. -/
theorem scan_eq {r : Re} {u v : Bytes} (matched : Matches CharClass.mem r u)
    (longest : ∀ c w, (c :: w) <+: v → ¬ Matches CharClass.mem r (u ++ c :: w)) : scan r (u ++ v) = u.length := by
  have inside : u.length ≤ (u ++ v).length := by simp
  have whole : Matches CharClass.mem r ((u ++ v).take u.length) := by rwa [List.take_left]
  obtain ⟨n, found, le⟩ := longestMatch_complete CharClass.mem r (u ++ v) inside whole
  obtain ⟨bound, matched'⟩ := longestMatch_sound CharClass.mem r (u ++ v) n found
  rw [scan, found, Option.getD_some]
  apply Nat.le_antisymm _ le
  by_contra more
  -- a longer match would take more of the rest
  obtain ⟨m, rfl⟩ : ∃ m, n = u.length + (m + 1) := ⟨n - u.length - 1, by omega⟩
  rw [List.take_length_add_append] at matched'
  rw [List.length_append] at bound
  cases v with
  | nil =>
    rw [List.length_nil] at bound
    omega
  | cons c v =>
    rw [List.take_succ_cons] at matched'
    exact longest c (v.take m) (List.cons_prefix_cons.mpr ⟨rfl, List.take_prefix m v⟩) matched'

theorem scan_eq_zero {r : Re} {v : Bytes} (none : ∀ c w, (c :: w) <+: v → ¬ Matches CharClass.mem r (c :: w)) :
    scan r v = 0 := by
  rcases Nat.eq_zero_or_pos (scan r v) with zero | found
  · exact zero
  · obtain ⟨bound, matched⟩ := scan_sound found
    cases v with
    | nil => exact Nat.le_zero.mp bound
    | cons c v =>
      obtain ⟨m, eq⟩ : ∃ m, scan r (c :: v) = m + 1 := ⟨scan r (c :: v) - 1, by omega⟩
      rw [eq, List.take_succ_cons] at matched
      exact absurd matched (none c (v.take m) (List.cons_prefix_cons.mpr ⟨rfl, List.take_prefix m v⟩))

/-- The text of a cell goes up to a pipe or the end of the line. -/
def CellEnd (raw rest : Bytes) : Prop :=
  rest = [] ∨ ∃ c more, rest = c :: more ∧
    (isLineEndChar c = true ∨ c = chr '|' ∧ raw.getLast? ≠ some (chr '\\'))

theorem CellEnd.longest {raw rest : Bytes} (ends : CellEnd raw rest) (c : UInt8) (w : Bytes)
    (among : (c :: w) <+: rest) : ¬ Matches CharClass.mem tableCellText (raw ++ c :: w) := by
  intro matched
  obtain ⟨lineEnds, pipes⟩ := tableCellText_spec matched
  rcases ends with rfl | ⟨d, more, rfl, stops⟩
  · simp at among
  · obtain ⟨rfl, -⟩ := List.cons_prefix_cons.mp among
    rcases stops with lineEnd | ⟨rfl, last⟩
    · rw [lineEnds c (by simp)] at lineEnd
      cases lineEnd
    · exact last (pipes raw w rfl)

/-- A text that can stand in a cell. -/
def CellText (w : Bytes) : Prop :=
  Matches CharClass.mem (.star (.alt escapedChar (noneOf (chars "|\r\n")))) w

theorem matches_oneOf {ranges : List (UInt8 × UInt8)} {c low high : UInt8} (range : (low, high) ∈ ranges)
    (above : low ≤ c) (below : c ≤ high) : Matches CharClass.mem (oneOf ranges) [c] := by
  refine .cls ?_
  have inRange : ranges.any (fun r => r.1 ≤ c && c ≤ r.2) = true :=
    List.any_eq_true.mpr ⟨(low, high), range, by simp [above, below]⟩
  simp [CharClass.mem, inRange]

theorem matches_tail {c : UInt8} (tail : Utf8.Tail c) : Matches CharClass.mem continuation [c] :=
  matches_oneOf (List.mem_singleton_self _) tail.1 tail.2

/-- The characters above ASCII are those of the scanners. -/
theorem matches_multibyte {c : UInt8} {w : Bytes} (character : Utf8.Character (c :: w)) (high : 0x80 ≤ c) :
    Matches CharClass.mem multibyte (c :: w) := by
  apply (matches_alts_iff _ _).mpr
  cases character with
  | one ascii => exact absurd ascii (UInt8.not_lt.mpr high)
  | two low high tail =>
    refine ⟨_, List.mem_cons_self, ?_⟩
    exact .seq (matches_oneOf (List.mem_singleton_self _) low high) (matches_tail tail)
  | @three _ b d low high tail tail' short surrogate =>
    by_cases first : c = 0xE0
    · refine ⟨_, .tail _ (.head _), ?_⟩
      subst first
      exact .seq (matches_oneOf (List.mem_singleton_self _) (by decide) (by decide))
        (.seq (matches_oneOf (List.mem_singleton_self _) (short rfl) tail.2) (matches_tail tail'))
    · by_cases second : c = 0xED
      · refine ⟨_, .tail _ (.tail _ (.tail _ (.head _))), ?_⟩
        subst second
        exact .seq (matches_oneOf (List.mem_singleton_self _) (by decide) (by decide))
          (.seq (matches_oneOf (List.mem_singleton_self _) tail.1 (surrogate rfl)) (matches_tail tail'))
      · refine ⟨_, .tail _ (.tail _ (.head _)), ?_⟩
        have either : 0xE1 ≤ c ∧ c ≤ 0xEC ∨ 0xEE ≤ c ∧ c ≤ 0xEF := by grind
        have lead : Matches CharClass.mem (oneOf [(0xe1, 0xec), (0xee, 0xef)]) [c] := by
          rcases either with ⟨low', high'⟩ | ⟨low', high'⟩
          · exact matches_oneOf List.mem_cons_self low' high'
          · exact matches_oneOf (.tail _ (.head _)) low' high'
        exact .seq lead (.seq (matches_tail tail) (matches_tail tail'))
  | @four _ b d e low high tail tail' tail'' short large =>
    by_cases first : c = 0xF0
    · refine ⟨_, .tail _ (.tail _ (.tail _ (.tail _ (.head _)))), ?_⟩
      subst first
      exact .seq (matches_oneOf (List.mem_singleton_self _) (by decide) (by decide))
        (.seq (matches_oneOf (List.mem_singleton_self _) (short rfl) tail.2)
          (.seq (matches_tail tail') (matches_tail tail'')))
    · by_cases second : c = 0xF4
      · refine ⟨_, .tail _ (.tail _ (.tail _ (.tail _ (.tail _ (.tail _ (.head _)))))), ?_⟩
        subst second
        exact .seq (matches_oneOf (List.mem_singleton_self _) (by decide) (by decide))
          (.seq (matches_oneOf (List.mem_singleton_self _) tail.1 (large rfl))
            (.seq (matches_tail tail') (matches_tail tail'')))
      · refine ⟨_, .tail _ (.tail _ (.tail _ (.tail _ (.tail _ (.head _))))), ?_⟩
        have low' : 0xF1 ≤ c := by grind
        have high' : c ≤ 0xF3 := by grind
        exact .seq (matches_oneOf (List.mem_singleton_self _) low' high')
          (.seq (matches_tail tail) (.seq (matches_tail tail') (matches_tail tail'')))

/-- A visible character that is no pipe. -/
theorem matches_noneOf {c : UInt8} (ascii : c < 0x80) (visible : c ≠ 0 ∧ isLineEndChar c = false)
    (pipe : c ≠ chr '|') : Matches CharClass.mem (noneOf (chars "|\r\n")) [c] := by
  refine .left (.cls ?_)
  obtain ⟨nul, lineEnd⟩ := visible
  have other : c ≠ 10 ∧ c ≠ 13 := by simpa [isLineEndChar] using lineEnd
  have outside : ((0, 0) :: (0x80, 0xff) :: chars "|\r\n").any (fun r => r.1 ≤ c && c ≤ r.2) = false := by
    rw [List.any_eq_false]
    intro r member
    have single (d : UInt8) (ne : c ≠ d) : ¬(d ≤ c ∧ c ≤ d) := fun both => ne (UInt8.le_antisymm both.2 both.1)
    have cases : r = (0, 0) ∨ r = (0x80, 0xff) ∨ r = (chr '|', chr '|') ∨ r = (13, 13) ∨ r = (10, 10) := by
      simpa [chars, lit, chr] using member
    rcases cases with rfl | rfl | rfl | rfl | rfl
    · simpa using single 0 nul
    · simpa using fun high => absurd ascii (UInt8.not_lt.mpr high)
    · simpa using single _ pipe
    · simpa using single _ other.2
    · simpa using single _ other.1
  change (true != ((0, 0) :: (0x80, 0xff) :: chars "|\r\n").any fun r => r.1 ≤ c && c ≤ r.2) = true
  rw [outside]
  rfl

theorem pipesEscaped_suffix {u v : Bytes} (pipes : PipesEscaped (u ++ v)) (start : v.head? ≠ some (chr '|')) :
    PipesEscaped v := by
  intro before after eq
  have some : before ≠ [] := by
    rintro rfl
    exact start (eq ▸ rfl)
  have last := pipes (u ++ before) after (by rw [eq, List.append_assoc])
  rwa [List.getLast?_append_of_ne_nil u some] at last

/-- Well-formed text without line ends is the text of a cell if its pipes are escaped. -/
theorem cellText_of_utf8 (n : Nat) {w : Bytes} (bound : w.length ≤ n) (text : Utf8.Text w)
    (visible : ∀ c ∈ w, c ≠ 0 ∧ isLineEndChar c = false) (pipes : PipesEscaped w) : CellText w := by
  induction n generalizing w with
  | zero =>
    rw [List.eq_nil_of_length_eq_zero (Nat.le_zero.mp bound)]
    exact .nil
  | succ n ih =>
    cases w with
    | nil => exact .nil
    | cons c s =>
      obtain ⟨here, later⟩ := List.forall_mem_cons.mp visible
      by_cases ascii : c < 0x80
      · have noPipe : c ≠ chr '|' := by
          rintro rfl
          cases pipes [] s rfl
        have textRest : Utf8.Text s := text.of_append (.one ascii)
        by_cases pair : c = chr '\\' ∧ s.head? = some (chr '|')
        · -- the backslash and the pipe are one character
          obtain ⟨rfl, second⟩ := pair
          obtain ⟨rest, rfl⟩ : ∃ rest, s = chr '|' :: rest := by
            cases s with
            | nil => cases second
            | cons d rest => exact ⟨rest, congrArg (· :: rest) (Option.some.inj second)⟩
          have next : rest.head? ≠ some (chr '|') := by
            intro third
            cases rest with
            | nil => cases third
            | cons d rest =>
              cases Option.some.inj third
              have := pipes [chr '\\', chr '|'] rest rfl
              revert this
              decide
          have escaped : Matches CharClass.mem escapedChar ([chr '\\'] ++ [chr '|']) :=
            .seq ((matches_single_iff _ _).mpr rfl) (.cls (by decide))
          rw [List.length_cons, List.length_cons] at bound
          exact .more (.left escaped) (ih (by omega) (textRest.of_append (.one (by decide)))
            (List.forall_mem_cons.mp later).2 (pipesEscaped_suffix (u := [chr '\\', chr '|']) pipes next))
        · have next : s.head? ≠ some (chr '|') := by
            intro second
            cases s with
            | nil => cases second
            | cons d rest =>
              cases Option.some.inj second
              exact pair ⟨Option.some.inj (pipes [c] rest rfl), rfl⟩
          exact .more (.right (matches_noneOf ascii here noPipe))
            (ih (Nat.le_of_succ_le_succ bound) textRest later (pipesEscaped_suffix (u := [c]) pipes next))
      · obtain ⟨tails, more, rfl, character, textMore⟩ := text.exists_character
        have high : 0x80 ≤ c := UInt8.not_lt.mp ascii
        have next : more.head? ≠ some (chr '|') := by
          intro second
          cases more with
          | nil => cases second
          | cons d rest =>
            cases Option.some.inj second
            have last := List.mem_of_getLast? (pipes (c :: tails) rest rfl)
            rcases List.mem_cons.mp last with rfl | inTails
            · exact absurd high (by decide)
            · exact absurd (character.tail_of_mem inTails).1 (by decide)
        rw [List.length_cons, List.length_append] at bound
        exact .more (.right (.right (matches_multibyte character high)))
          (ih (by omega) textMore (List.forall_mem_append.mp later).2 (pipesEscaped_suffix (u := c :: tails) pipes next))

theorem tableCell_eq {raw rest : Bytes} (text : CellText raw) (ends : CellEnd raw rest) :
    tableCell (raw ++ rest) = raw.length := by
  cases raw with
  | nil => exact scan_eq_zero fun c w among => ends.longest c w among
  | cons c raw =>
    refine scan_eq ?_ ends.longest
    generalize whole : c :: raw = w at text ⊢
    cases text with
    | nil => cases whole
    | more one more => exact .seq one more

/-- The blanks behind a pipe go up to something else. -/
theorem tableCellEnd_eq {blanks rest : Bytes} (all : ∀ c ∈ blanks, Table.isBlank c = true)
    (stops : ∀ c ∈ rest.head?, Table.isBlank c = false) :
    tableCellEnd (chr '|' :: blanks ++ rest) = blanks.length + 1 := by
  have matched : Matches CharClass.mem tableCellSeparator (chr '|' :: blanks) :=
    .seq ((matches_single_iff (chr '|') _).mpr rfl) ((matches_star_cls_iff _ blanks).mpr all)
  refine scan_eq matched ?_
  intro c w among matched'
  obtain ⟨u, v, eq, pipe, more⟩ := (matches_seq_iff _ _ _).mp matched'
  rw [(matches_single_iff (chr '|') u).mp pipe] at eq
  have same : blanks ++ c :: w = v := List.cons_injective eq
  have blank := (matches_star_cls_iff _ v).mp more c (same ▸ by simp)
  obtain ⟨d, rest', rfl⟩ : ∃ d rest', rest = d :: rest' := by
    cases rest with
    | nil => simp at among
    | cons d rest' => exact ⟨d, rest', rfl⟩
  obtain ⟨rfl, -⟩ := List.cons_prefix_cons.mp among
  have other := stops c rfl
  rw [Table.isBlank, blank] at other
  cases other

end Scanners

namespace Table

variable {options : Options} {string tail : Bytes} {pieces : List Piece} {row : Row} {offset fuel : Nat}

/-! ### A row that is given by its pieces -/

/-- The pieces are what the scanners find in front of `tail`. -/
inductive Scans (tail : Bytes) : List Piece → Prop where
  | none : Scanners.tableCell tail = 0 → Scanners.tableCellEnd tail = 0 → Scans tail []
  | last {raw : Bytes} : raw ≠ [] → Scanners.tableCell (raw ++ tail) = raw.length →
      Scanners.tableCellEnd tail = 0 → Scans tail [⟨raw, []⟩]
  | more {raw sep : Bytes} {rest : List Piece} : sep ≠ [] →
      Scanners.tableCell (raw ++ (sep ++ (rest.flatMap Piece.text ++ tail))) = raw.length →
      Scanners.tableCellEnd (sep ++ (rest.flatMap Piece.text ++ tail)) = sep.length →
      Scans tail rest → Scans tail (⟨raw, sep⟩ :: rest)

/-- The row with the cells of the pieces from `offset` on. -/
def addPieces (options : Options) (string : Bytes) : Row → Nat → List Piece → Row
  | row, _, [] => row
  | row, offset, piece :: rest =>
    addPieces options string (addCell options string row offset piece.raw.length) (offset + piece.text.length) rest

theorem length_addCell (options : Options) (string : Bytes) (row : Row) (offset cellMatched : Nat) :
    (addCell options string row offset cellMatched).cells.length = row.cells.length + 1 := by
  obtain ⟨cells, cell, eq, -, -, -, -, -, widened, -⟩ := addCell_cases options string row offset cellMatched
  rw [eq, List.length_append, List.length_singleton]
  rcases widened with ⟨rfl, _⟩ | ⟨rfl, _⟩
  · rfl
  · rw [List.length_reverse, length_widenCell, List.length_reverse]

/-- A turn that reads a cell with a separator. -/
theorem rowLoop_more {n m : Nat} (inside : offset < string.length)
    (cell : Scanners.scanAt Scanners.tableCell string offset = n)
    (sep : Scanners.scanAt Scanners.tableCellEnd string (offset + n) = m) (some : 0 < m)
    (few : row.cells.length + 1 < maxColumns) :
    rowLoop options string (fuel + 1) row offset =
      rowLoop options string fuel (addCell options string row offset n) (offset + (n + m)) := by
  have kept : ¬(addCell options string row offset n).cells.length ≥ maxColumns := by
    rw [length_addCell]
    omega
  have either : n > 0 ∨ m > 0 := .inr some
  rw [rowLoop, if_pos inside]
  simp only [cell, sep, if_pos either, if_neg fun both : _ ∧ _ => kept both.2, if_pos some, Nat.add_assoc]

/-- A turn that reads a cell at the end of the row, or none. -/
theorem rowLoop_last {n : Nat} {row' : Row} (inside : offset < string.length)
    (cell : Scanners.scanAt Scanners.tableCell string offset = n)
    (sep : Scanners.scanAt Scanners.tableCellEnd string (offset + n) = 0)
    (row'_eq : row' = if 0 < n then addCell options string row offset n else row)
    (few : row'.cells.length < maxColumns)
    (ends : offset + n + Scanners.scanAt Scanners.tableRowEnd string (offset + n) = string.length) :
    rowLoop options string (fuel + 1) row offset = (row', string.length, false) := by
  rw [rowLoop, if_pos inside]
  simp only [cell, sep, gt_iff_lt, Nat.lt_irrefl, or_false, Nat.add_zero, ends, ne_eq, not_true, and_false, if_false]
  rw [← row'_eq, if_neg (by omega)]

/-- The pieces that the scanners find are the cells of the row. -/
theorem rowLoop_scans (scans : Scans tail pieces) (fuel : Nat) (row : Row) (offset : Nat)
    (enough : pieces.length < fuel) (rest : string.drop offset = pieces.flatMap Piece.text ++ tail)
    (within : offset ≤ string.length) (rowEnd : Scanners.tableRowEnd tail = tail.length)
    (few : row.cells.length + pieces.length < maxColumns) :
    rowLoop options string fuel row offset = (addPieces options string row offset pieces, string.length, false) := by
  induction scans generalizing fuel row offset with
  | none noCell noSep =>
    obtain ⟨fuel, rfl⟩ : ∃ n, fuel = n + 1 := ⟨fuel - 1, by omega⟩
    rw [List.flatMap_nil, List.nil_append] at rest
    rw [List.length_nil, Nat.add_zero] at few
    have length := congrArg List.length rest
    rw [List.length_drop] at length
    rcases Nat.eq_or_lt_of_le within with same | inside
    · rw [rowLoop, if_neg (by omega), same]
      rfl
    · refine rowLoop_last inside (n := 0) (by rwa [Scanners.scanAt, rest]) (by rwa [Scanners.scanAt, Nat.add_zero, rest])
        rfl few ?_
      rw [Nat.add_zero, Scanners.scanAt, rest, rowEnd]
      omega
  | @last raw some cellText noSep =>
    obtain ⟨fuel, rfl⟩ : ∃ n, fuel = n + 1 := ⟨fuel - 1, by omega⟩
    rw [List.flatMap_singleton, Piece.text, List.append_nil] at rest
    dsimp only at rest
    have length := congrArg List.length rest
    rw [List.length_drop, List.length_append] at length
    have positive := List.length_pos_of_ne_nil some
    have next : string.drop (offset + raw.length) = tail := by rw [← List.drop_drop, rest, List.drop_left]
    refine rowLoop_last (by omega) (n := raw.length) (by rw [Scanners.scanAt, rest, cellText])
      (by rwa [Scanners.scanAt, next]) (by rw [if_pos positive, addPieces, addPieces]) ?_ ?_
    · rw [addPieces, addPieces, length_addCell]
      exact few
    · rw [Scanners.scanAt, next, rowEnd]
      omega
  | @more raw sep rest' some cellText sepText scans ih =>
    obtain ⟨fuel, rfl⟩ : ∃ n, fuel = n + 1 := ⟨fuel - 1, by omega⟩
    have shape : (⟨raw, sep⟩ :: rest' : List Piece).flatMap Piece.text ++ tail =
        raw ++ (sep ++ (rest'.flatMap Piece.text ++ tail)) := by simp [Piece.text]
    rw [shape] at rest
    have length := congrArg List.length rest
    rw [List.length_drop, List.length_append, List.length_append] at length
    have positive := List.length_pos_of_ne_nil some
    have next : string.drop (offset + raw.length) = sep ++ (rest'.flatMap Piece.text ++ tail) := by
      rw [← List.drop_drop, rest, List.drop_left]
    have after : string.drop (offset + (raw.length + sep.length)) = rest'.flatMap Piece.text ++ tail := by
      rw [← Nat.add_assoc, ← List.drop_drop, next, List.drop_left]
    rw [List.length_cons] at few enough
    rw [rowLoop_more (by omega) (by rw [Scanners.scanAt, rest, cellText]) (by rw [Scanners.scanAt, next, sepText])
      positive (by omega), addPieces, Piece.text, List.length_append]
    have few' : (addCell options string row offset raw.length).cells.length + rest'.length < maxColumns := by
      rw [length_addCell]
      omega
    exact ih fuel _ _ (by omega) after (by omega) few'

/-! ### Cells between pipes -/

/-- Something that can be written between two pipes. -/
structure CellSource (w : Bytes) : Prop where
  text : Utf8.Text w
  visible : ∀ c ∈ w, c ≠ 0 ∧ isLineEndChar c = false
  pipes : PipesEscaped w
  last : w.getLast? ≠ some (chr '\\')

/-- The text of a cell, without the blanks before it. -/
def rawOf (w : Bytes) : Bytes := w.dropWhile isBlank

/-- The separator before cells. -/
def sepBefore (ws : List Bytes) : Bytes := chr '|' :: (ws.head?.elim [] (·.takeWhile isBlank))

/-- The pieces of a row of cells between pipes. -/
def piecesOf : List Bytes → List Piece
  | [] => []
  | w :: rest => ⟨rawOf w, sepBefore rest⟩ :: piecesOf rest

/-- A row with pipes around its cells. -/
def joinCells (ws : List Bytes) : Bytes := chr '|' :: ws.flatMap (· ++ [chr '|'])

theorem sepBefore_piecesOf (ws : List Bytes) : sepBefore ws ++ (piecesOf ws).flatMap Piece.text = joinCells ws := by
  induction ws with
  | nil => rfl
  | cons w rest ih =>
    have split : w.takeWhile isBlank ++ rawOf w = w := List.takeWhile_append_dropWhile
    calc sepBefore (w :: rest) ++ (piecesOf (w :: rest)).flatMap Piece.text
        = chr '|' :: (w.takeWhile isBlank ++ rawOf w ++ (sepBefore rest ++ (piecesOf rest).flatMap Piece.text)) := by
          simp [sepBefore, piecesOf, Piece.text]
      _ = chr '|' :: (w ++ joinCells rest) := by rw [split, ih]
      _ = joinCells (w :: rest) := by simp [joinCells]

theorem isBlank_ascii {c : UInt8} (blank : isBlank c = true) : c < 0x80 := by
  have all : ∀ k < 256, isBlank (.ofNat k) = true → UInt8.ofNat k < 0x80 := by decide +kernel
  have := all c.toNat c.toNat_lt
  rw [UInt8.ofNat_toNat] at this
  exact this blank

theorem head?_rawOf (w : Bytes) : ∀ c ∈ (rawOf w).head?, isBlank c = false := by
  intro c first
  have stops := List.head?_dropWhile_not isBlank w
  rw [show w.dropWhile isBlank = rawOf w from rfl, Option.mem_def.mp first] at stops
  exact stops

theorem CellSource.raw {w : Bytes} (source : CellSource w) :
    Scanners.CellText (rawOf w) ∧ (rawOf w).getLast? ≠ some (chr '\\') := by
  have split : w.takeWhile isBlank ++ rawOf w = w := List.takeWhile_append_dropWhile
  have blanks : Utf8.Text (w.takeWhile isBlank) :=
    .of_ascii fun c member => isBlank_ascii (List.mem_takeWhile_imp member)
  obtain ⟨text, visible, pipes, ends⟩ := source
  rw [← split] at text visible pipes
  have textRaw : Utf8.Text (rawOf w) := blanks.append_iff.mp text
  have visibleRaw := (List.forall_mem_append.mp visible).2
  have start : (rawOf w).head? ≠ some (chr '|') := by
    intro first
    obtain ⟨more, eq⟩ : ∃ more, rawOf w = chr '|' :: more := by
      cases rest : rawOf w with
      | nil => simp [rest] at first
      | cons c more => exact ⟨more, by rw [rest] at first; rw [Option.some.inj first]⟩
    -- the byte before would be a backslash, and no blank
    have behind := pipes (w.takeWhile isBlank) more (by rw [← eq])
    have blank := List.mem_takeWhile_imp (List.mem_of_getLast? behind)
    exact absurd blank (by decide)
  refine ⟨Scanners.cellText_of_utf8 _ (Nat.le_refl _) textRaw visibleRaw (Scanners.pipesEscaped_suffix pipes start), ?_⟩
  intro last
  have some : rawOf w ≠ [] := by
    intro none
    rw [none] at last
    cases last
  apply ends
  rw [← split, List.getLast?_append_of_ne_nil _ some, last]

/-- The end of a line. -/
def LineEnd (tail : Bytes) : Prop := tail = lit "\n" ∨ tail = lit "\r\n"

theorem LineEnd.scans {tail : Bytes} (lineEnd : LineEnd tail) :
    Scanners.tableCell tail = 0 ∧ Scanners.tableCellEnd tail = 0 ∧ Scanners.tableRowEnd tail = tail.length ∧
      ∃ c more, tail = c :: more ∧ isBlank c = false ∧ isLineEndChar c = true := by
  rcases lineEnd with rfl | rfl
  · exact ⟨by decide +kernel, by decide +kernel, by decide +kernel, _, _, rfl, by decide, by decide⟩
  · exact ⟨by decide +kernel, by decide +kernel, by decide +kernel, _, _, rfl, by decide, by decide⟩

/-- Behind a separator there is no blank. -/
theorem head?_piecesOf {ws : List Bytes} {tail : Bytes} (lineEnd : LineEnd tail) :
    ∀ c ∈ ((piecesOf ws).flatMap Piece.text ++ tail).head?, isBlank c = false := by
  intro c first
  cases ws with
  | nil =>
    obtain ⟨-, -, -, d, more, rfl, other, -⟩ := lineEnd.scans
    cases first
    exact other
  | cons w rest =>
    have start : c ∈ (rawOf w ++ (sepBefore rest ++ ((piecesOf rest).flatMap Piece.text ++ tail))).head? := by
      simpa [piecesOf, Piece.text] using first
    cases raw : rawOf w with
    | nil =>
      rw [raw] at start
      cases start
      decide
    | cons d more =>
      rw [raw] at start
      cases start
      exact head?_rawOf w c (by rw [raw]; rfl)

theorem scan_sepBefore {ws : List Bytes} {tail : Bytes} (lineEnd : LineEnd tail) :
    Scanners.tableCellEnd (sepBefore ws ++ ((piecesOf ws).flatMap Piece.text ++ tail)) = (sepBefore ws).length := by
  have blanks : ∀ c ∈ ws.head?.elim [] (·.takeWhile isBlank), isBlank c = true := by
    intro c member
    cases ws with
    | nil => cases member
    | cons w rest => exact List.mem_takeWhile_imp member
  rw [sepBefore, Scanners.tableCellEnd_eq blanks (head?_piecesOf lineEnd), List.length_cons]

theorem scans_piecesOf {ws : List Bytes} {tail : Bytes} (sources : ∀ w ∈ ws, CellSource w) (lineEnd : LineEnd tail) :
    Scans tail (piecesOf ws) := by
  induction ws with
  | nil => exact .none lineEnd.scans.1 lineEnd.scans.2.1
  | cons w rest ih =>
    obtain ⟨here, later⟩ := List.forall_mem_cons.mp sources
    obtain ⟨text, last⟩ := here.raw
    exact .more (List.cons_ne_nil _ _) (Scanners.tableCell_eq text (.inr ⟨_, _, rfl, .inr ⟨rfl, last⟩⟩))
      (scan_sepBefore lineEnd) (ih later)

/-! ### The row that is read back -/

/-- What a cell is read as. -/
def bufOf (w : Bytes) : Bytes := strbufTrim (unescapePipes (rawOf w))

theorem isspace_of_visible {c : UInt8} (blank : isBlank c = false) (lineEnd : isLineEndChar c = false) :
    isspace c = false := by
  have all : ∀ k < 256, isBlank (.ofNat k) = false → isLineEndChar (.ofNat k) = false →
      isspace (.ofNat k) = false := by decide +kernel
  have := all c.toNat c.toNat_lt
  rw [UInt8.ofNat_toNat] at this
  exact this blank lineEnd

theorem head?_unescapePipes {c : UInt8} {w : Bytes} (visible : isspace c = false) :
    ∃ d more, unescapePipes (c :: w) = d :: more ∧ isspace d = false := by
  cases w with
  | nil => exact ⟨c, [], rfl, visible⟩
  | cons d more =>
    rw [unescapePipes]
    split
    next pipe =>
      simp only [Bool.and_eq_true, beq_iff_eq] at pipe
      exact ⟨d, _, rfl, by rw [pipe.2]; decide⟩
    next => exact ⟨c, _, rfl, visible⟩

theorem bufOf_eq_nil {w : Bytes} (visible : ∀ c ∈ w, isLineEndChar c = false) : bufOf w = [] ↔ rawOf w = [] := by
  constructor
  · intro empty
    cases raw : rawOf w with
    | nil => rfl
    | cons c more =>
      have first : isspace c = false := by
        apply isspace_of_visible (head?_rawOf w c (by rw [raw]; rfl))
        exact visible c (List.dropWhile_subset isBlank (show c ∈ rawOf w by rw [raw]; exact List.mem_cons_self))
      obtain ⟨d, rest, eq, other⟩ := head?_unescapePipes (w := more) first
      rw [bufOf, raw, eq, strbufTrim, chunkTrim, chunkLtrim, List.dropWhile_cons_of_neg (by simp [other]), chunkRtrim,
        List.rdropWhile_eq_nil_iff] at empty
      rw [empty d List.mem_cons_self] at other
      cases other
  · intro empty
    rw [bufOf, empty]
    rfl

/-- What is left of a cell when its column span grows. -/
theorem map_widenCell {β : Type} {f : RowCell → β}
    (keeps : ∀ c : RowCell, c.colspan > 0 → f { c with colspan := c.colspan + 1 } = f c) (cells : List RowCell) :
    (widenCell cells).map f = cells.map f := by
  induction cells with
  | nil => rfl
  | cons c rest ih =>
    rw [widenCell]
    split
    next some => rw [List.map_cons, keeps c some, List.map_cons]
    next => rw [List.map_cons, ih, List.map_cons]

/-- A cell as its text, and whether it is a part of another. -/
def RowCell.view (cell : RowCell) : Bytes × Bool := (cell.buf, cell.colspan == 0)

/-- A cell is moved back over the blanks behind its pipe. -/
theorem cellIndent_eq {front blanks rest : Bytes} {start : Nat} (within : start ≤ front.length)
    (noPipe : chr '|' ∉ blanks) :
    cellIndent (front ++ (chr '|' :: blanks) ++ rest) start (front ++ chr '|' :: blanks).length = blanks.length := by
  have chunk : chunkDup (front ++ (chr '|' :: blanks) ++ rest) start ((front ++ chr '|' :: blanks).length - start) =
      front.drop start ++ chr '|' :: blanks := by
    rw [chunkDup, List.append_assoc, List.drop_append_of_le_length within, ← List.append_assoc, List.take_left']
    simp
    omega
  have all : ∀ c ∈ blanks.reverse, (c != chr '|') = true := by
    intro c member
    rw [bne_iff_ne]
    rintro rfl
    exact noPipe (List.mem_reverse.mp member)
  rw [cellIndent, chunk, List.reverse_append, List.reverse_cons, List.append_assoc,
    List.takeWhile_append_of_pos all]
  simp

/-- A cell that is added shows its text. -/
theorem addCell_view (options : Options) {w front rest : Bytes} (source : CellSource w) (start : row.paragraphOffset ≤ front.length)
    (eq : string = front ++ (chr '|' :: w.takeWhile isBlank) ++ (rawOf w ++ rest)) :
    (addCell options string row (front ++ chr '|' :: w.takeWhile isBlank).length (rawOf w).length).cells.map
        RowCell.view =
      row.cells.map RowCell.view ++ [(bufOf w, options.has optTableSpans && w.isEmpty)] := by
  obtain ⟨cells, cell, added, buf, startOffset, endOffset, -, -, widened, spans⟩ := addCell_cases options string row
    (front ++ chr '|' :: w.takeWhile isBlank).length (rawOf w).length
  have noPipe : chr '|' ∉ w.takeWhile isBlank := fun member => absurd (List.mem_takeWhile_imp member) (by decide)
  have chunk : chunkDup string (front ++ chr '|' :: w.takeWhile isBlank).length (rawOf w).length = rawOf w := by
    rw [chunkDup, eq, List.drop_left, List.take_left]
  rw [chunk] at buf
  rw [eq, cellIndent_eq start noPipe] at startOffset
  have kept : cells.map RowCell.view = row.cells.map RowCell.view := by
    rcases widened with ⟨rfl, -⟩ | ⟨rfl, -⟩
    · rfl
    · have keeps (c : RowCell) (some : c.colspan > 0) : RowCell.view { c with colspan := c.colspan + 1 } = c.view := by
        have positive : ¬c.colspan = 0 := by omega
        simp [RowCell.view, positive]
      rw [List.map_reverse, map_widenCell keeps, List.map_reverse, List.reverse_reverse]
  have split : w.takeWhile isBlank ++ rawOf w = w := List.takeWhile_append_dropWhile
  have length : (front ++ chr '|' :: w.takeWhile isBlank).length = front.length + ((w.takeWhile isBlank).length + 1) :=
    List.length_append
  -- nothing between two pipes
  have none : cell.buf = [] ∧ cell.startOffset = cell.endOffset ↔ w = [] := by
    rw [buf, show strbufTrim (unescapePipes (rawOf w)) = bufOf w from rfl,
      bufOf_eq_nil fun c member => (source.visible c member).2, startOffset, endOffset, length]
    constructor
    · rintro ⟨raw, same⟩
      rw [raw, List.length_nil] at same
      have blanks : w.takeWhile isBlank = [] := List.eq_nil_of_length_eq_zero (by omega)
      rw [← split, raw, blanks]
      rfl
    · rintro rfl
      exact ⟨rfl, rfl⟩
  have isPart : (cell.colspan == 0) = (options.has optTableSpans && w.isEmpty) := by
    rw [Bool.eq_iff_iff, beq_iff_eq, spans, none, Bool.and_eq_true, List.isEmpty_iff]
  rw [added, List.map_append, kept, List.map_singleton, RowCell.view, buf, isPart]
  rfl

theorem addPieces_piecesOf (options : Options) (front : Bytes) (row : Row) {ws : List Bytes} {tail : Bytes}
    (sources : ∀ w ∈ ws, CellSource w) (start : row.paragraphOffset ≤ front.length)
    (eq : string = front ++ (sepBefore ws ++ ((piecesOf ws).flatMap Piece.text ++ tail))) :
    (addPieces options string row (front ++ sepBefore ws).length (piecesOf ws)).cells.map RowCell.view =
      row.cells.map RowCell.view ++
        ws.map fun w => (bufOf w, options.has optTableSpans && w.isEmpty) := by
  induction ws generalizing row front with
  | nil => simp [piecesOf, addPieces]
  | cons w rest ih =>
    obtain ⟨here, later⟩ := List.forall_mem_cons.mp sources
    have shape : string = front ++ (chr '|' :: w.takeWhile isBlank) ++
        (rawOf w ++ (sepBefore rest ++ ((piecesOf rest).flatMap Piece.text ++ tail))) := by
      rw [eq]
      simp [sepBefore, piecesOf, Piece.text]
    have added := addCell_view options here start shape
    have offset : (front ++ sepBefore (w :: rest)).length + (rawOf w ++ sepBefore rest).length =
        ((front ++ sepBefore (w :: rest) ++ rawOf w) ++ sepBefore rest).length := by
      simp only [List.length_append]
      omega
    rw [piecesOf, addPieces, Piece.text, offset]
    dsimp only
    have paragraph : (addCell options string row (front ++ sepBefore (w :: rest)).length (rawOf w).length).paragraphOffset
        = row.paragraphOffset := by
      obtain ⟨cells, cell, same, -⟩ := addCell_cases options string row (front ++ sepBefore (w :: rest)).length
        (rawOf w).length
      rw [same]
    rw [ih _ _ later]
    · rw [List.map_cons]
      exact (congrArg (· ++ _) added).trans (by rw [List.append_assoc, List.singleton_append])
    · rw [paragraph, List.length_append, List.length_append]
      omega
    · rw [eq]
      simp [piecesOf, Piece.text]

theorem length_piecesOf (ws : List Bytes) : (piecesOf ws).length = ws.length := by
  induction ws with
  | nil => rfl
  | cons w rest ih => rw [piecesOf, List.length_cons, List.length_cons, ih]

theorem paragraphOffset_addCell (options : Options) (string : Bytes) (row : Row) (offset cellMatched : Nat) :
    (addCell options string row offset cellMatched).paragraphOffset = row.paragraphOffset := by
  obtain ⟨cells, cell, eq, -⟩ := addCell_cases options string row offset cellMatched
  rw [eq]

theorem paragraphOffset_addPieces (options : Options) (string : Bytes) (pieces : List Piece) (row : Row)
    (offset : Nat) : (addPieces options string row offset pieces).paragraphOffset = row.paragraphOffset := by
  induction pieces generalizing row offset with
  | nil => rfl
  | cons piece rest ih => rw [addPieces, ih, paragraphOffset_addCell]

theorem length_le_joinCells (ws : List Bytes) : ws.length ≤ (joinCells ws).length := by
  induction ws with
  | nil => exact Nat.zero_le _
  | cons w rest ih =>
    simp only [joinCells, List.length_cons, List.flatMap_cons, List.length_append] at ih ⊢
    omega

/-- A row with pipes around its cells is read as these cells. Where column spans are read, a cell is a part of the one
before it if there is nothing between its pipes. -/
theorem rowFromString_joinCells (options : Options) {ws : List Bytes} {tail : Bytes} (nonempty : ws ≠ [])
    (few : ws.length < maxColumns) (sources : ∀ w ∈ ws, CellSource w) (lineEnd : LineEnd tail) :
    ∃ row, rowFromString options (joinCells ws ++ tail) = some row ∧ row.paragraphOffset = 0 ∧
      row.cells.map RowCell.view = ws.map fun w => (bufOf w, options.has optTableSpans && w.isEmpty) := by
  have shape : joinCells ws ++ tail = sepBefore ws ++ ((piecesOf ws).flatMap Piece.text ++ tail) := by
    rw [← sepBefore_piecesOf, List.append_assoc]
  have lead : Scanners.scanAt Scanners.tableCellEnd (joinCells ws ++ tail) 0 = (sepBefore ws).length := by
    rw [Scanners.scanAt, List.drop_zero, shape, scan_sepBefore lineEnd]
  have views := addPieces_piecesOf options [] {} sources (Nat.le_refl _) shape
  rw [List.nil_append] at views
  have read : rowLoop options (joinCells ws ++ tail) ((joinCells ws ++ tail).length + 1) {} (sepBefore ws).length =
      (addPieces options (joinCells ws ++ tail) {} (sepBefore ws).length (piecesOf ws), (joinCells ws ++ tail).length,
        false) := by
    apply rowLoop_scans (scans_piecesOf sources lineEnd)
    · have := length_le_joinCells ws
      rw [length_piecesOf, List.length_append]
      omega
    · rw [shape, List.drop_left]
    · rw [shape, List.length_append]
      omega
    · exact lineEnd.scans.2.2.1
    · rw [length_piecesOf]
      exact (Nat.zero_add _).symm ▸ few
  have some : (addPieces options (joinCells ws ++ tail) {} (sepBefore ws).length (piecesOf ws)).cells ≠ [] := by
    intro none
    rw [none] at views
    exact nonempty (List.map_eq_nil_iff.mp views.symm)
  refine ⟨_, ?_, paragraphOffset_addPieces _ _ _ _ _, views⟩
  rw [rowFromString, lead, read]
  simp [some]

theorem CellSource.of_ascii {w : Bytes} (plain : ∀ c ∈ w, 32 ≤ c ∧ c < 0x80) (pipes : PipesEscaped w)
    (last : w.getLast? ≠ some (chr '\\')) : CellSource w where
  text := .of_ascii fun c member => (plain c member).2
  visible c member := by
    have low := (plain c member).1
    constructor
    · rintro rfl
      exact absurd low (by decide)
    · rw [isLineEndChar, Bool.or_eq_false_iff, beq_eq_false_iff_ne, beq_eq_false_iff_ne]
      constructor <;> (rintro rfl; exact absurd low (by decide))
  pipes := pipes
  last := last

theorem rowFromString_joinCells_example :
    ∃ row, rowFromString optTableSpans (lit "| a || b\\|c |\n") = some row ∧ row.paragraphOffset = 0 ∧
      row.cells.map RowCell.view = [(lit "a", false), ([], true), (lit "b|c", false)] := by
  have source₁ : CellSource (lit " a ") :=
    .of_ascii (by decide) (pipesEscaped_of_not_mem (by decide)) (by decide)
  have source₂ : CellSource [] := .of_ascii (by simp) (pipesEscaped_of_not_mem (by simp)) (by simp)
  have pipes : PipesEscaped (lit " b" ++ lit "\\|" ++ lit "c ") :=
    ((pipesEscaped_of_not_mem (by decide)).append pipesEscaped_pair).append (pipesEscaped_of_not_mem (by decide))
  have source₃ : CellSource (lit " b\\|c ") := .of_ascii (by decide) pipes (by decide)
  have sources : ∀ w ∈ [lit " a ", [], lit " b\\|c "], CellSource w := by simp [source₁, source₂, source₃]
  have line : joinCells [lit " a ", [], lit " b\\|c "] ++ lit "\n" = lit "| a || b\\|c |\n" := by decide +kernel
  obtain ⟨row, read, offset, views⟩ := rowFromString_joinCells optTableSpans (by simp) (by decide +kernel) sources
    (.inl rfl)
  rw [line] at read
  exact ⟨row, read, offset, views.trans (by decide +kernel)⟩

end Table

end CmarkGfm
