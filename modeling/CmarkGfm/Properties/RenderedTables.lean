import CmarkGfm.Properties.CommonmarkLines
import CmarkGfm.Properties.ReadTables
import CmarkGfm.Properties.TableHtml

/-!
# Tables that are rendered as CommonMark

Where lines are not broken, a table is written as its lines: one for the header, the delimiter row, and one for
every other row, with pipes around the cells. These lines are read back.
-/

namespace CmarkGfm

open Renderer

variable {literalAt : NodeId → Option Bytes} {options : Options} {r : Renderer}

/-! ### Lines -/

namespace Renderer

variable {r r' : Renderer}

/-- A line that ends with the pipe behind its last cell. -/
structure LineDone (r : Renderer) : Prop where
  width : r.width ≤ 0
  needCr : r.needCr ≤ 1
  last : r.bytes.getLast? = some (chr '|')

theorem beginLine_writeBreaks (n upTo : Nat) (r : Renderer) :
    (r.writeBreaks (n + 1) upTo).beginLine = true ∧ (r.writeBreaks (n + 1) upTo).needCr = 0 ∧
      (r.writeBreaks (n + 1) upTo).pref = r.pref ∧ (r.writeBreaks (n + 1) upTo).width = r.width := by
  induction n generalizing r upTo with
  | zero =>
    rw [writeBreaks, writeBreaks]
    refine ⟨rfl, rfl, ?_, ?_⟩ <;> (dsimp only; split <;> rfl)
  | succ n ih =>
    rw [writeBreaks]
    obtain ⟨begins, none, pref, width⟩ := ih (if r.newlineAt upTo then upTo - 1 else upTo)
      { if r.newlineAt upTo then r else r.endLine (n + 1 + 1) with
        column := 0, lastBreakable := 0, beginLine := true, beginContent := true }
    refine ⟨begins, none, pref.trans ?_, width.trans ?_⟩
    · dsimp only
      split
      next => rfl
      next =>
        rw [endLine]
        split <;> rfl
    · dsimp only
      split
      next => rfl
      next =>
        rw [endLine]
        split <;> rfl

/-- A string behind a line that is due begins a line. -/
theorem startString_cr (r : Renderer) (origin : Origin) :
    (r.cr.startString origin).beginLine = true ∧ (r.cr.startString origin).needCr = 0 ∧
      (r.cr.startString origin).pref = r.pref ∧ (r.cr.startString origin).width = r.width := by
  have due : 0 < r.cr.needCr := by
    rw [cr]
    split
    next => exact Nat.one_pos
    next some => omega
  have same : r.cr.pref = r.pref ∧ r.cr.width = r.width := by
    rw [cr]
    split <;> exact ⟨rfl, rfl⟩
  have positive : 0 < if r.cr.inTightListItem ∧ r.cr.needCr > 1 then 1 else r.cr.needCr := by
    split
    next => exact Nat.one_pos
    next => exact due
  obtain ⟨n, eq⟩ := Nat.exists_eq_add_of_lt positive
  rw [Nat.zero_add] at eq
  obtain ⟨begins, none, pref, width⟩ := beginLine_writeBreaks n r.cr.buffer.length { r.cr with origin := origin }
  rw [startString, eq]
  exact ⟨begins, none, pref.trans same.1, width.trans same.2⟩

theorem bytes_writeBreaks_one {upTo : Nat} (line : r.newlineAt upTo = false) :
    (r.writeBreaks 1 upTo).bytes = r.bytes ++ [10] := by
  rw [writeBreaks, writeBreaks]
  simp [line, bytes, endLine, put]

theorem newlineAt_of_last {c : UInt8} (last : r.bytes.getLast? = some c) (other : c ≠ 10) :
    r.newlineAt r.buffer.length = false := by
  rw [bytes, List.getLast?_map, Option.map_eq_some_iff] at last
  obtain ⟨b, there, rfl⟩ := last
  have some : r.buffer ≠ [] := by
    intro empty
    rw [empty] at there
    cases there
  rw [List.getLast?_eq_getElem?] at there
  rw [newlineAt, there]
  simp [some, other]

/-- A line that is done is ended. -/
theorem bytes_startString_cr (done : r.LineDone) (origin : Origin) :
    (r.cr.startString origin).bytes = r.bytes ++ [10] := by
  have one : r.cr.needCr = 1 := by
    have := done.needCr
    rw [cr]
    split
    next => rfl
    next => omega
  have same : r.cr.bytes = r.bytes := by
    rw [cr]
    split <;> rfl
  have last : ({ r.cr with origin := origin } : Renderer).bytes.getLast? = some (chr '|') :=
    (congrArg List.getLast? same).trans done.last
  have breaks : (if r.cr.inTightListItem ∧ r.cr.needCr > 1 then 1 else r.cr.needCr) = 1 := by simp [one]
  rw [startString, breaks]
  exact (bytes_writeBreaks_one (newlineAt_of_last last (by decide))).trans (congrArg (· ++ [10]) same)

/-- The pipe that begins a line. -/
theorem wrote_lineStart (width : r.width ≤ 0) :
    ∃ r', [Call.cr, Call.puts "|"].foldlM (Call.run commonmarkOutc) r = .ok r' ∧
      r'.bytes = (r.cr.startString .renderer).bytes ++ (r.pref ++ lit "|") ∧ r'.pref = r.pref ∧ r'.MidLine := by
  obtain ⟨begins, none, pref, width'⟩ := r.startString_cr .renderer
  have run : [Call.cr, Call.puts "|"].foldlM (Call.run commonmarkOutc) r =
      .ok (if (((r.cr.startString .renderer).startLine.renderCodePoint 124).afterChar 124).breaks then
        (((r.cr.startString .renderer).startLine.renderCodePoint 124).afterChar 124).breakLine
        else ((r.cr.startString .renderer).startLine.renderCodePoint 124).afterChar 124) := rfl
  generalize r.cr.startString .renderer = s at begins none pref width' run ⊢
  have starts : s.startLine = { s.put .renderer s.pref with column := s.pref.length } := by
    rw [startLine, if_pos begins]
  have unbroken : ((s.startLine.renderCodePoint 124).afterChar 124).breaks = false := by
    rw [starts]
    have narrow : ¬0 < s.width := by omega
    simp [breaks, afterChar, renderCodePoint, put, narrow]
  rw [unbroken, if_neg (by simp)] at run
  refine ⟨_, run, ?_, ?_, ?_⟩
  · rw [starts, ← pref]
    simp [bytes, afterChar, renderCodePoint, put, Function.comp_def]
    rfl
  · rw [starts, ← pref]
    rfl
  · rw [starts]
    refine ⟨?_, none, rfl, ?_⟩
    · change s.width ≤ 0
      omega
    · exact Bool.and_eq_false_iff.mpr (.inr (by decide))

end Renderer

namespace Table

variable {table : TableNode} {contents : Nat → List Visit} {alignment : UInt8}

/-! ### Cells -/

/-- What is written between the pipes of a cell. -/
def cellSource (options : Options) (cell : CellNode) (text : Bytes) : Bytes :=
  if cell.colspan > 0 then lit " " ++ (if cell.rowspan = 0 then rowspanMarker options else []) ++ text ++ lit " "
  else text

/-- Strings of the renderer that are written as they are. -/
theorem wrote_bytes {ss : List Bytes} (plain : ∀ s ∈ ss, ∀ b ∈ s, 32 ≤ b ∧ b < 0x80) (mid : r.MidLine) :
    ∃ r', (ss.map Call.bytes).foldlM (Call.run commonmarkOutc) r = .ok r' ∧ r.Wrote ss.flatten r' := by
  have within {s : Bytes} (plain : ∀ b ∈ s, 32 ≤ b ∧ b < 0x80) : WithinLine s := by
    intro b member
    obtain ⟨low, -⟩ := plain b member
    constructor
    · rintro rfl
      exact absurd low (by decide)
    · rw [isLineEndChar, Bool.or_eq_false_iff, beq_eq_false_iff_ne, beq_eq_false_iff_ne]
      constructor <;> (rintro rfl; exact absurd low (by decide))
  have keeps : ∀ call ∈ ss.map Call.bytes, call.KeepsLine := by
    intro call member
    obtain ⟨s, inStrings, rfl⟩ := List.mem_map.mp member
    exact .out .renderer .literal (within (plain s inStrings))
  obtain ⟨r', run, wrote⟩ := wrote_calls keeps (fun _ => false) mid
  have same : runEscaped (fun _ => false) commonmarkOutc = Call.run commonmarkOutc := by
    funext r call
    exact runEscaped_none commonmarkOutc r call
  have texts : (ss.map Call.bytes).flatMap (callText fun _ => false) = ss.flatten := by
    rw [List.flatMap_map, ← List.flatMap_id]
    apply List.flatMap_congr
    intro s member
    refine callText_bytes ?_ fun b inString => (plain s member b inString).2
    exact fun nul => absurd (plain s member 0 nul).1 (by decide)
  rw [same] at run
  rw [texts] at wrote
  exact ⟨r', run, wrote⟩

/-- What is written before the contents of a cell. -/
def cellLead (options : Options) (cell : CellNode) : List Bytes :=
  if cell.colspan > 0 then lit " " :: (if cell.rowspan = 0 then [rowspanMarker options] else []) else []

/-- What is written behind the contents of a cell. -/
def cellTrail (cell : CellNode) : List Bytes := (if cell.colspan > 0 then [lit " "] else []) ++ [lit "|"]

/-- The delimiter row of a table. -/
def delimiterCalls (table : TableNode) : List Call :=
  [.cr, .puts "|"] ++ (table.alignments.take table.nColumns).flatMap alignmentCalls ++ [.cr]

theorem commonmarkRender_enter (options : Options) (table : TableNode) (cell : CellNode) (row : Option RowNode)
    (hasNext : Bool) :
    commonmarkRender options table (.cell cell) row hasNext true = (cellLead options cell).map Call.bytes := by
  rw [commonmarkRender, cellLead, if_pos rfl]
  split
  next =>
    rw [List.map_cons]
    split <;> rfl
  next => rfl

theorem commonmarkRender_leave (options : Options) (table : TableNode) (cell : CellNode) (row : RowNode)
    (hasNext : Bool) :
    commonmarkRender options table (.cell cell) (some row) hasNext false =
      (cellTrail cell).map Call.bytes ++ if row.isHeader && !hasNext then delimiterCalls table else [] := by
  rw [commonmarkRender, cellTrail, if_neg (by simp), List.map_append]
  congr 1
  congr 1
  split <;> rfl

theorem cellSource_eq (options : Options) (cell : CellNode) (text : Bytes) :
    (cellLead options cell).flatten ++ text ++ (cellTrail cell).flatten =
      cellSource options cell text ++ lit "|" := by
  unfold cellLead cellTrail cellSource
  split
  next => split <;> simp
  next => simp

theorem plain_cellLead (options : Options) (cell : CellNode) :
    ∀ s ∈ cellLead options cell, ∀ b ∈ s, 32 ≤ b ∧ b < 0x80 := by
  have marker : ∀ b ∈ rowspanMarker options, 32 ≤ b ∧ b < 0x80 := by
    unfold rowspanMarker
    split
    next => decide
    next => decide
  unfold cellLead
  split
  next =>
    refine List.forall_mem_cons.mpr ⟨by decide, ?_⟩
    split
    next => exact List.forall_mem_singleton.mpr marker
    next => exact List.forall_mem_nil _
  next => exact List.forall_mem_nil _

theorem plain_cellTrail (cell : CellNode) : ∀ s ∈ cellTrail cell, ∀ b ∈ s, 32 ≤ b ∧ b < 0x80 := by
  unfold cellTrail
  split
  next => decide
  next => decide

/-- The texts of the contents of a row. -/
def cellTexts (literalAt : NodeId → Option Bytes) (options : Options) (contents : Nat → List Visit) (j : Nat) :
    Bytes :=
  (contents j).flatMap (visitText literalAt options)

@[simp] theorem adjustTightPart_row (place : Place) (row : RowNode) (entering : Bool) :
    adjustTightPart place table (.row row) entering = [] := by
  cases entering <;> rfl

@[simp] theorem adjustTightPart_cell (place : Place) (cell : CellNode) (entering : Bool) :
    adjustTightPart place table (.cell cell) entering = [] := by
  cases entering <;> rfl

/-- The cells of a row, and the delimiter row behind those of the header. -/
theorem wrote_cells (options : Options) (table : TableNode) (visits : ∀ j, ∀ v ∈ contents j, VisitOfLine literalAt v)
    (row : RowNode) (j : Nat) (cells : List CellNode) (mid : r.MidLine) :
    ∃ r', r.Wrote ((cells.mapIdx fun k cell =>
        cellSource options cell (cellTexts literalAt options contents (j + k))).flatMap (· ++ lit "|")) r' ∧
      (cellEvents contents row j cells).foldlM (renderCommonmarkEvent literalAt options place table) r =
        if row.isHeader && !cells.isEmpty then (delimiterCalls table).foldlM (Call.run commonmarkOutc) r'
        else .ok r' := by
  induction cells generalizing j r with
  | nil => exact ⟨r, mid.refl, by simp [cellEvents]; rfl⟩
  | cons cell rest ih =>
    obtain ⟨r₁, enters, wrote₁⟩ := wrote_bytes (plain_cellLead options cell) mid
    obtain ⟨r₂, inside, wrote₂⟩ := wrote_visits options (visits j) wrote₁.midLine
    obtain ⟨r₃, leaves, wrote₃⟩ := wrote_bytes (plain_cellTrail cell) wrote₂.midLine
    have wrote := (wrote₁.trans wrote₂).trans wrote₃
    rw [show (contents j).flatMap (visitText literalAt options) = cellTexts literalAt options contents j from rfl,
      cellSource_eq] at wrote
    have start : (cellEvents contents row j (cell :: rest)).foldlM (renderCommonmarkEvent literalAt options place table) r =
        (if row.isHeader && !!rest.isEmpty then delimiterCalls table else []).foldlM (Call.run commonmarkOutc) r₃ >>=
          (cellEvents contents row (j + 1) rest).foldlM (renderCommonmarkEvent literalAt options place table) := by
      rw [cellEvents, List.foldlM_cons, renderCommonmarkEvent, adjustTightPart_cell, List.nil_append,
        commonmarkRender_enter, enters, render_bind, List.foldlM_append, List.foldlM_map]
      have within : (contents j).foldlM (fun r v => renderCommonmarkEvent literalAt options place table r (.content v))
          r₁ = .ok r₂ := inside
      rw [within, render_bind, List.foldlM_cons, renderCommonmarkEvent, adjustTightPart_cell, List.nil_append,
        commonmarkRender_leave, List.foldlM_append, leaves, render_bind]
    cases rest with
    | nil =>
      refine ⟨r₃, by simpa using wrote, ?_⟩
      rw [start]
      cases row.isHeader with
      | false => rfl
      | true =>
        simp only [List.isEmpty_nil, List.isEmpty_cons, Bool.not_true, Bool.not_false, Bool.and_true, if_true]
        exact bind_pure _
    | cons next rest =>
      obtain ⟨r₄, wrote₄, runs⟩ := ih (j + 1) wrote₃.midLine
      refine ⟨r₄, ?_, ?_⟩
      · have shifted : ((next :: rest).mapIdx fun k cell => cellSource options cell
            (cellTexts literalAt options contents (j + (k + 1)))) =
            (next :: rest).mapIdx fun k cell => cellSource options cell
              (cellTexts literalAt options contents (j + 1 + k)) := by
          congr 1
          funext k cell
          rw [Nat.add_assoc, Nat.add_comm 1 k]
        rw [List.mapIdx_cons, List.flatMap_cons, Nat.add_zero, shifted]
        exact wrote.trans wrote₄
      · rw [start]
        simpa using runs

/-! ### The lines of a table -/

/-- Lines behind a line, with the prefix before each. -/
def linesText (pref : Bytes) (lines : List Bytes) : Bytes := lines.flatMap fun line => [10] ++ (pref ++ line)

/-- The cells of a row as they are written. -/
def rowSources (literalAt : NodeId → Option Bytes) (options : Options) (contents : Nat → List Visit) (row : RowNode) :
    List Bytes :=
  row.cells.mapIdx fun j cell => cellSource options cell (cellTexts literalAt options contents j)

/-- The delimiter row of a table as it is written. -/
def delimiterLine (table : TableNode) : Bytes := joinCells (table.alignments.map delimiterOf)

theorem alignmentCalls_eq (isAlignment : IsAlignment alignment) :
    alignmentCalls alignment = [delimiterOf alignment ++ lit "|"].map Call.bytes := by
  rcases isAlignment with rfl | rfl | rfl | rfl <;> rfl

theorem plain_delimiterOf (alignment : UInt8) : ∀ b ∈ delimiterOf alignment ++ lit "|", 32 ≤ b ∧ b < 0x80 := by
  have cases := delimiterOf_cases alignment
  generalize delimiterOf alignment = w at cases
  have all : ∀ w ∈ [lit " --- ", lit " :-- ", lit " :-: ", lit " --: "],
      ∀ b ∈ w ++ lit "|", 32 ≤ b ∧ b < 0x80 := by decide
  exact all w cases

/-- A line that begins with a pipe and goes on with cells that have one behind them. -/
theorem done_of_cells {r' r'' : Renderer} {ws : List Bytes}
    (bytes : r'.bytes = (r.cr.startString .renderer).bytes ++ (r.pref ++ lit "|")) (pref : r'.pref = r.pref)
    (wrote : r'.Wrote (ws.flatMap (· ++ lit "|")) r'') :
    r''.bytes = (r.cr.startString .renderer).bytes ++ (r.pref ++ joinCells ws) ∧ r''.pref = r.pref ∧
      r''.LineDone := by
  have whole : r''.bytes = (r.cr.startString .renderer).bytes ++ (r.pref ++ joinCells ws) := by
    rw [wrote.bytes, bytes]
    simp [joinCells, lit]
  refine ⟨whole, wrote.pref.trans pref, wrote.midLine.width, ?_, ?_⟩
  · rw [wrote.midLine.needCr]
    exact Nat.zero_le 1
  · rw [whole, joinCells_eq]
    simp

theorem done_cr (done : r.LineDone) : r.cr.LineDone ∧ r.cr.bytes = r.bytes ∧ r.cr.pref = r.pref := by
  have same : r.cr.bytes = r.bytes ∧ r.cr.pref = r.pref ∧ r.cr.width = r.width ∧ r.cr.needCr ≤ 1 := by
    have few := done.needCr
    rw [Renderer.cr]
    split
    next => exact ⟨rfl, rfl, rfl, Nat.le_refl 1⟩
    next => exact ⟨rfl, rfl, rfl, few⟩
  exact ⟨⟨same.2.2.1.symm ▸ done.width, same.2.2.2, same.1.symm ▸ done.last⟩, same.1, same.2.1⟩

/-- The delimiter row is written as a line of its own. -/
theorem wrote_delimiter (isAlignment : ∀ a ∈ table.alignments, IsAlignment a)
    (aligned : table.alignments.length = table.nColumns) (done : r.LineDone) :
    ∃ r', (delimiterCalls table).foldlM (Call.run commonmarkOutc) r = .ok r' ∧
      r'.bytes = r.bytes ++ linesText r.pref [delimiterLine table] ∧ r'.pref = r.pref ∧ r'.LineDone := by
  obtain ⟨r₁, starts, bytes, pref, mid⟩ := wrote_lineStart done.width
  have plain : ∀ s ∈ table.alignments.map fun a => delimiterOf a ++ lit "|", ∀ b ∈ s, 32 ≤ b ∧ b < 0x80 := by
    intro s member
    obtain ⟨a, -, rfl⟩ := List.mem_map.mp member
    exact plain_delimiterOf a
  obtain ⟨r₂, runs, wrote⟩ := wrote_bytes plain mid
  have calls : (table.alignments.take table.nColumns).flatMap alignmentCalls =
      (table.alignments.map fun a => delimiterOf a ++ lit "|").map Call.bytes := by
    rw [List.take_of_length_le (Nat.le_of_eq aligned), List.map_map, ← List.flatMap_pure_eq_map]
    exact List.flatMap_congr fun a member => alignmentCalls_eq (isAlignment a member)
  have cells : (table.alignments.map fun a => delimiterOf a ++ lit "|").flatten =
      (table.alignments.map delimiterOf).flatMap (· ++ lit "|") := by
    rw [List.flatMap_map]
    rfl
  rw [cells] at wrote
  obtain ⟨bytes₂, pref₂, done₂⟩ := done_of_cells bytes pref wrote
  obtain ⟨done₃, bytes₃, pref₃⟩ := done_cr done₂
  refine ⟨r₂.cr, ?_, ?_, pref₃.trans pref₂, done₃⟩
  · rw [delimiterCalls, calls, List.foldlM_append, List.foldlM_append, starts, render_bind, runs]
    rfl
  · rw [bytes₃, bytes₂, bytes_startString_cr done, linesText, delimiterLine]
    simp

/-- A row is written as its line, behind which the header has the delimiter row. -/
theorem wrote_row (options : Options) (visits : ∀ j, ∀ v ∈ contents j, VisitOfLine literalAt v)
    (isAlignment : ∀ a ∈ table.alignments, IsAlignment a) (aligned : table.alignments.length = table.nColumns)
    (row : RowNode) (some : row.cells ≠ []) (hasNext : Bool) (width : r.width ≤ 0) :
    ∃ r', (eventsOfRow contents row hasNext).foldlM (renderCommonmarkEvent literalAt options place table) r = .ok r' ∧
      r'.bytes = (r.cr.startString .renderer).bytes ++
        (r.pref ++ joinCells (rowSources literalAt options contents row)) ++
        linesText r.pref (if row.isHeader then [delimiterLine table] else []) ∧
      r'.pref = r.pref ∧ r'.LineDone := by
  obtain ⟨r₁, starts, bytes, pref, mid⟩ := wrote_lineStart width
  obtain ⟨r₂, wrote, runs⟩ := wrote_cells options table visits row 0 row.cells mid
  have sources : (row.cells.mapIdx fun k cell =>
      cellSource options cell (cellTexts literalAt options contents (0 + k))) =
        rowSources literalAt options contents row := by
    simp only [Nat.zero_add]
    rfl
  rw [sources] at wrote
  obtain ⟨bytes₂, pref₂, done₂⟩ := done_of_cells bytes pref wrote
  have notEmpty : row.cells.isEmpty = false := by simpa using some
  have eq : (eventsOfRow contents row hasNext).foldlM (renderCommonmarkEvent literalAt options place table) r =
      (if row.isHeader then (delimiterCalls table).foldlM (Call.run commonmarkOutc) r₂ else .ok r₂) := by
    rw [eventsOfRow, List.foldlM_cons, renderCommonmarkEvent, adjustTightPart_row, List.nil_append, commonmarkRender,
      if_pos rfl, starts, render_bind, List.foldlM_append, runs, notEmpty]
    cases row.isHeader with
    | false => rfl
    | true =>
      simp only [Bool.not_false, Bool.and_true, if_true]
      exact bind_pure _
  rw [eq]
  cases row.isHeader with
  | false => exact ⟨r₂, rfl, by simpa [linesText] using bytes₂, pref₂, done₂⟩
  | true =>
    obtain ⟨r₃, delimits, bytes₃, pref₃, done₃⟩ := wrote_delimiter isAlignment aligned done₂
    refine ⟨r₃, delimits, ?_, pref₃.trans pref₂, done₃⟩
    rw [bytes₃, bytes₂, pref₂]
    rfl

theorem wrote_rows (options : Options) {contents : Nat → Nat → List Visit}
    (visits : ∀ i j, ∀ v ∈ contents i j, VisitOfLine literalAt v)
    (isAlignment : ∀ a ∈ table.alignments, IsAlignment a) (aligned : table.alignments.length = table.nColumns)
    (i : Nat) {rows : List RowNode} (body : ∀ row ∈ rows, row.isHeader = false) (some : ∀ row ∈ rows, row.cells ≠ [])
    (done : r.LineDone) :
    ∃ r', (rowEvents contents i rows).foldlM (renderCommonmarkEvent literalAt options place table) r = .ok r' ∧
      r'.bytes = r.bytes ++ linesText r.pref
        (rows.mapIdx fun k row => joinCells (rowSources literalAt options (contents (i + k)) row)) ∧
      r'.pref = r.pref ∧ r'.LineDone := by
  induction rows generalizing i r with
  | nil => exact ⟨r, rfl, by simp [linesText], rfl, done⟩
  | cons row rest ih =>
    obtain ⟨here, later⟩ := List.forall_mem_cons.mp body
    obtain ⟨some, others⟩ := List.forall_mem_cons.mp some
    obtain ⟨r₁, run, bytes₁, pref₁, done₁⟩ := wrote_row options (visits i) isAlignment aligned row some
      (!rest.isEmpty) done.width
    obtain ⟨r₂, runs, bytes₂, pref₂, done₂⟩ := ih (i + 1) later others done₁
    have shifted : (rest.mapIdx fun k row => joinCells (rowSources literalAt options (contents (i + (k + 1))) row)) =
        rest.mapIdx fun k row => joinCells (rowSources literalAt options (contents (i + 1 + k)) row) := by
      congr 1
      funext k row
      rw [Nat.add_assoc, Nat.add_comm 1 k]
    refine ⟨r₂, ?_, ?_, pref₂.trans pref₁, done₂⟩
    · rw [rowEvents_cons, List.foldlM_append, run, render_bind, runs]
    · rw [bytes₂, bytes₁, bytes_startString_cr done, pref₁, here, List.mapIdx_cons, shifted, Nat.add_zero]
      simp [linesText]

theorem cr_blankline (r : Renderer) : r.blankline.cr = r.blankline := by
  have due : ¬r.blankline.needCr < 1 := by
    rw [Renderer.blankline]
    split
    next => exact (by decide : ¬2 < 1)
    next some => omega
  rw [Renderer.cr, if_neg due]

/-- The alignments of a table that is built. -/
theorem Built.isAlignment {self bytes : Nat} (built : Built self options table bytes) :
    ∀ a ∈ table.alignments, IsAlignment a := by
  induction built with
  | opens opened =>
    obtain ⟨header, delimiter, -, -, -, rfl, -⟩ := tryOpeningTableHeader_table opened
    intro a member
    have ofDelimiter : a ∈ delimiter.cells.map fun cell => alignmentOf cell.buf := member
    obtain ⟨cell, -, rfl⟩ := List.mem_map.mp ofDelimiter
    exact isAlignment_alignmentOf cell.buf
  | row _ opened ih =>
    obtain ⟨-, row, -, rfl⟩ := tryOpeningTableRow_some opened
    exact ih

/-- The cells of a table as they are written. -/
def tableSources (literalAt : NodeId → Option Bytes) (options : Options) (contents : Nat → Nat → List Visit)
    (rows : List RowNode) : List (List Bytes) :=
  rows.mapIdx fun i row => rowSources literalAt options (contents i) row

/-- The renderer as a table finds it: in an item, its list says whether blank lines are left out. -/
def tightAt (place : Place) (r : Renderer) : Renderer :=
  if place.parent.any (·.type == .item) then
    { r with inTightListItem := place.grandparent.any fun list => list.as.getList.tight }
  else r

/-- An item is in a list. -/
def ItemInList (place : Place) : Prop := place.parent.any (·.type == .item) = true → place.grandparent.isSome = true

theorem foldlM_adjustTightPart (inList : ItemInList place) (r : Renderer) :
    (adjustTightPart place table .table true).foldlM (Call.run commonmarkOutc) r = .ok (tightAt place r) := by
  unfold adjustTightPart adjustTight tightAt
  dsimp only
  rw [if_pos rfl]
  split
  next inItem =>
    obtain ⟨list, above⟩ := Option.isSome_iff_exists.mp (inList inItem)
    rw [above]
    rfl
  next => rfl

theorem width_tightAt (place : Place) (r : Renderer) :
    (tightAt place r).width = r.width ∧ (tightAt place r).pref = r.pref := by
  unfold tightAt
  split <;> exact ⟨rfl, rfl⟩

/-- A table is written as its lines, where lines are not broken. In a tight list there is no blank line before it. -/
theorem renderCommonmarkTable_lines {self bytes : Nat} {parseOptions : Options}
    (built : Built self parseOptions table bytes) (options : Options) {place : Place} (inList : ItemInList place)
    {contents : Nat → Nat → Forest}
    (visits : ∀ i j, ∀ v ∈ cellVisitsSkipping place table contents i j, VisitOfLine literalAt v)
    (width : r.width ≤ 0) :
    ∃ r' header below,
      tableSources literalAt options (cellVisitsSkipping place table contents) table.rows = header :: below ∧
      renderCommonmarkTable literalAt options place table contents r = .ok r' ∧
      r'.bytes = ((tightAt place r).blankline.startString .renderer).bytes ++ (r.pref ++ joinCells header) ++
        linesText r.pref (delimiterLine table :: below.map joinCells) ∧
      r'.pref = r.pref ∧ r'.needCr = 2 := by
  have grid := built.grid
  obtain ⟨header, rows, eq, isHeader, body⟩ := grid.header
  have some : ∀ row ∈ table.rows, row.cells ≠ [] := by
    intro row member empty
    have := (grid.rows row member).length
    rw [empty] at this
    exact absurd this (Nat.ne_of_lt grid.columns.1)
  rw [eq, List.forall_mem_cons] at some
  unfold renderCommonmarkTable
  generalize cellVisitsSkipping place table contents = visited at visits ⊢
  obtain ⟨sameWidth, samePref⟩ := width_tightAt place r
  have entered : (adjustTightPart place table .table true).foldlM (Call.run commonmarkOutc) r = .ok (tightAt place r) :=
    foldlM_adjustTightPart inList r
  generalize tightAt place r = q at sameWidth samePref entered ⊢
  have blank : q.blankline.width ≤ 0 ∧ q.blankline.pref = r.pref := by
    rw [← samePref, Renderer.blankline]
    split <;> exact ⟨sameWidth.trans_le width, rfl⟩
  obtain ⟨r₁, first, bytes₁, pref₁, done₁⟩ := wrote_row options (visits 0) built.isAlignment grid.alignments
    header some.1 (!rows.isEmpty) blank.1
  obtain ⟨r₂, others, bytes₂, pref₂, done₂⟩ := wrote_rows options visits built.isAlignment grid.alignments 1
    body some.2 done₁
  rw [cr_blankline, isHeader, if_pos rfl, blank.2] at bytes₁
  have last : r₂.blankline.bytes = r₂.bytes ∧ r₂.blankline.pref = r₂.pref ∧ r₂.blankline.needCr = 2 := by
    have few := done₂.needCr
    rw [Renderer.blankline, if_pos (by omega)]
    exact ⟨rfl, rfl, rfl⟩
  refine ⟨r₂.blankline, rowSources literalAt options (visited 0) header,
    rows.mapIdx fun k row => rowSources literalAt options (visited (k + 1)) row, ?_, ?_, ?_, ?_, last.2.2⟩
  · rw [eq, tableSources, List.mapIdx_cons]
  · rw [events, List.foldlM_cons, renderCommonmarkEvent, List.foldlM_append, entered, render_bind, eq, rowEvents_cons]
    change (eventsOfRow (visited 0) header (!rows.isEmpty) ++ rowEvents visited 1 rows ++
      [Event.part .table none false false]).foldlM (renderCommonmarkEvent literalAt options place table) q.blankline = _
    rw [List.foldlM_append, List.foldlM_append, first, render_bind, others]
    rfl
  · have shifted : (rows.mapIdx fun k row => joinCells (rowSources literalAt options (visited (1 + k)) row)) =
        (rows.mapIdx fun k row => rowSources literalAt options (visited (k + 1)) row).map joinCells := by
      apply List.ext_getElem?
      intro k
      simp [Nat.add_comm 1 k, Function.comp_def]
    rw [last.1, bytes₂, bytes₁, pref₁, blank.2, shifted]
    simp [linesText]
  · rw [last.2.1, pref₂, pref₁, blank.2]

/-- A text with a pipe in each cell of the header. -/
def examplePipes : Node := .mk 5 { type := .text, as := .literal (lit "x|y") } []

def exampleContents (i _ : Nat) : Forest := if i = 0 then [examplePipes] else []

/-- An item of a tight list. -/
def exampleItem : Place :=
  { ancestors := [{ type := .item }, { type := .list, as := .list { (default : ListData) with tight := true } }] }

theorem itemInList_exampleItem : ItemInList exampleItem := fun _ => rfl

abbrev exampleVisits : Nat → Nat → List Visit := cellVisitsSkipping exampleItem exampleTable exampleContents

theorem visitOfLine_exampleContents : ∀ i j, ∀ v ∈ exampleVisits i j, VisitOfLine (fun _ => none) v := by
  have inline : InlineOfLine (fun _ => none) examplePipes.data :=
    ⟨by decide, by decide, fun reference => absurd reference (by decide)⟩
  intro i j v member
  unfold exampleVisits cellVisitsSkipping at member
  split at member
  next => cases member
  next row atRow =>
    split at member
    next => cases member
    next cell atCell =>
      have fits := grid_example.rows row (List.mem_of_getElem? atRow)
      have type : cell.data.type = cellType := fits.types cell (List.mem_of_getElem? atCell)
      unfold exampleContents at member
      split at member
      next =>
        rw [show v = ⟨true, examplePipes, _⟩ from List.mem_singleton.mp member]
        refine ⟨inline, ?_⟩
        change (cell.data.type == NodeType.item) = false
        rw [type]
        rfl
      next => cases member

theorem renderCommonmarkTable_lines_example :
    ∃ r' header below,
      tableSources (fun _ => none) optTableSpans exampleVisits exampleTable.rows = header :: below ∧
      renderCommonmarkTable (fun _ => none) optTableSpans exampleItem exampleTable exampleContents unbroken = .ok r' ∧
      r'.bytes = ((tightAt exampleItem unbroken).blankline.startString .renderer).bytes ++ (unbroken.pref ++ joinCells header) ++
        linesText unbroken.pref (delimiterLine exampleTable :: below.map joinCells) ∧
      r'.pref = unbroken.pref ∧ r'.needCr = 2 :=
  renderCommonmarkTable_lines built_exampleTable optTableSpans itemInList_exampleItem visitOfLine_exampleContents (by decide)

example : (renderCommonmarkTable (fun _ => none) optTableSpans exampleItem exampleTable exampleContents unbroken).toOption.map
    Renderer.bytes = some (lit "| x\\|y | x\\|y |\n| :-- | --- |\n|  |  |\n| ^ |  |") := by decide +kernel

/-! ### Reading the lines back -/

/-- What the spans of a cell that is a part of another say: spans are read, and a part of the cell before is no
marker. -/
def SpansRead (options : Options) (colspan rowspan : Nat) : Prop :=
  (colspan = 0 → options.has optTableSpans ∧ rowspan ≠ 0) ∧ (rowspan = 0 → options.has optTableSpans)

theorem spansRead_one (options : Options) : SpansRead options 1 1 := by simp [SpansRead]

theorem mem_widenCell {c : RowCell} {cells : List RowCell} (member : c ∈ widenCell cells) :
    c ∈ cells ∨ 0 < c.colspan := by
  induction cells with
  | nil => cases member
  | cons cell rest ih =>
    rw [widenCell] at member
    split at member
    next =>
      rcases List.mem_cons.mp member with rfl | later
      · exact .inr (Nat.succ_pos _)
      · exact .inl (List.mem_cons_of_mem _ later)
    next =>
      rcases List.mem_cons.mp member with rfl | later
      · exact .inl List.mem_cons_self
      · exact (ih later).imp_left (List.mem_cons_of_mem _)

/-- A part of the cell before has no text, so that it is no marker. -/
theorem rowFromString_parts {string : Bytes} {row : Row} (read : rowFromString options string = some row) :
    ∀ c ∈ row.cells, SpansRead options c.colspan c.rowspan := by
  have columns : ∀ c ∈ row.cells, c.colspan = 0 → options.has optTableSpans ∧ c.buf = [] := by
    refine rowFromString_cells (P := fun cells => ∀ c ∈ cells, c.colspan = 0 → options.has optTableSpans ∧ c.buf = [])
      (List.forall_mem_nil _) ?_ read
    intro row offset cellMatched holds
    obtain ⟨cells, cell, eq, -, -, -, -, -, widened, spans⟩ := addCell_cases options string row offset cellMatched
    have added : cell.colspan = 0 → options.has optTableSpans ∧ cell.buf = [] := fun zero => by
      obtain ⟨on, empty, -⟩ := spans.mp zero
      exact ⟨on, empty⟩
    rw [eq]
    refine List.forall_mem_append.mpr ⟨?_, List.forall_mem_singleton.mpr added⟩
    rcases widened with ⟨rfl, -⟩ | ⟨rfl, -⟩
    · exact holds
    · intro c member zero
      rcases mem_widenCell (List.mem_reverse.mp member) with old | positive
      · exact holds c (List.mem_reverse.mp old) zero
      · omega
  intro c member
  have marked := (rowFromString_spans read).2 c member
  have marker : rowspanMarker options ≠ [] := by
    unfold rowspanMarker
    split <;> decide
  rw [RowCell.Marked] at marked
  constructor
  · intro zero
    obtain ⟨on, empty⟩ := columns c member zero
    refine ⟨on, ?_⟩
    rw [marked, if_neg fun both => marker (both.2.symm.trans empty)]
    decide
  · intro zero
    by_contra off
    rw [zero, if_neg fun both => off both.1] at marked
    cases marked

/-- What the spans of all cells of a row say. -/
def RowNode.SpansRead (options : Options) (row : RowNode) : Prop :=
  ∀ cell ∈ row.cells, Table.SpansRead options cell.colspan cell.rowspan

theorem spansRead_extendSpan (i : Nat) (row : RowNode) (spans : row.SpansRead options) :
    (row.extendSpan i).SpansRead options := by
  intro cell member
  obtain ⟨j, there⟩ := List.getElem?_of_mem member
  rw [getElem?_extendSpan] at there
  split at there
  next =>
    obtain ⟨old, inRow, rfl⟩ := Option.map_eq_some_iff.mp there
    have kept := spans old (List.mem_of_getElem? inRow)
    have colspan : old.incrementRowspan.colspan = old.colspan := by
      obtain ⟨data, none | d⟩ := old <;> rfl
    rw [colspan, CellNode.rowspan_incrementRowspan]
    split
    next => exact kept
    next => exact ⟨fun zero => ⟨(kept.1 zero).1, Nat.succ_ne_zero _⟩, fun zero => absurd zero (Nat.succ_ne_zero _)⟩
  next => exact spans cell (List.mem_of_getElem? there)

theorem spansRead_makeCells {cells : List RowCell} (spans : ∀ c ∈ cells, SpansRead options c.colspan c.rowspan)
    (self : Nat) (line startColumn : Int) :
    ∀ cell ∈ cells.mapIdx fun i cell => makeCell self line startColumn i cell,
      SpansRead options cell.colspan cell.rowspan := by
  intro cell member
  obtain ⟨i, c, inCells, rfl⟩ := List.mem_mapIdx.mp member
  exact spans _ (List.getElem_mem _)

/-- In every run, the cells that are a part of another are those that were read as such. -/
theorem Built.spansRead {self bytes : Nat} (built : Built self options table bytes) :
    ∀ row ∈ table.rows, row.SpansRead options := by
  induction built with
  | @opens p p' parent visited accepts input paragraph table opened =>
    obtain ⟨header, delimiter, above, -, -, rfl, -⟩ := tryOpeningTableHeader_table opened
    rw [rows_headerTable]
    exact List.forall_mem_singleton.mpr (spansRead_makeCells (rowFromString_parts above) self _ _)
  | @row p p' input table table' bytes built opened ih =>
    obtain ⟨-, row, read, rfl⟩ := tryOpeningTableRow_some opened
    refine List.forall_mem_append.mpr ⟨spannedRows_forall spansRead_extendSpan _ ih, List.forall_mem_singleton.mpr ?_⟩
    -- merging a marker clears its text only
    have merged : ∀ c ∈ mergedCells options (row.cells.take table.nColumns) table.rows,
        SpansRead options c.colspan c.rowspan := by
      intro c member
      obtain ⟨k, there⟩ := List.getElem?_of_mem member
      obtain ⟨old, inRow, same⟩ := (mergedCells_spec options (row.cells.take table.nColumns) table.rows).2 k c there
      rw [same]
      exact rowFromString_parts read old (List.mem_of_mem_take (List.mem_of_getElem? inRow))
    refine List.forall_mem_append.mpr ⟨spansRead_makeCells merged self _ _, ?_⟩
    intro cell member
    rw [(List.mem_replicate.mp member).2]
    exact spansRead_one options

/-- The texts of the cells can be read back: they are well-formed, a part of another cell has no text, and no other
text is taken for a marker. -/
structure TableNode.Readable (literalAt : NodeId → Option Bytes) (options : Options) (table : TableNode)
    (contents : Nat → Nat → List Visit) : Prop where
  text : ∀ i j, Utf8.Text (cellTexts literalAt options (contents i) j)
  parts : ∀ (i j : Nat) (row : RowNode) (cell : CellNode), table.rows[i]? = some row → row.cells[j]? = some cell →
    cell.colspan = 0 ∨ cell.rowspan = 0 → cellTexts literalAt options (contents i) j = []
  others : ∀ (i j : Nat) (row : RowNode) (cell : CellNode), table.rows[i]? = some row → row.cells[j]? = some cell →
    cell.rowspan ≠ 0 → options.has optTableSpans →
      bufOf (cellSource options cell (cellTexts literalAt options (contents i) j)) ≠ rowspanMarker options

/-- What is read back of a cell. -/
def cellReadBack (options : Options) (cell : CellNode) (text : Bytes) : CellView :=
  ⟨if cell.rowspan = 0 then [] else bufOf (cellSource options cell text), cell.colspan == 0, cell.rowspan == 0⟩

theorem bufOf_marker (options : Options) :
    bufOf (lit " " ++ rowspanMarker options ++ [] ++ lit " ") = rowspanMarker options := by
  unfold rowspanMarker
  split <;> decide

theorem sourceView_cellSource {cell : CellNode} {text : Bytes} (spans : SpansRead options cell.colspan cell.rowspan)
    (parts : cell.colspan = 0 ∨ cell.rowspan = 0 → text = [])
    (others : cell.rowspan ≠ 0 → options.has optTableSpans →
      bufOf (cellSource options cell text) ≠ rowspanMarker options) :
    sourceView options (cellSource options cell text) = cellReadBack options cell text := by
  by_cases marker : cell.rowspan = 0
  · have on := spans.2 marker
    have whole : 0 < cell.colspan := Nat.pos_of_ne_zero fun zero => (spans.1 zero).2 marker
    have source : cellSource options cell text = lit " " ++ rowspanMarker options ++ [] ++ lit " " := by
      simp [cellSource, whole, marker, parts (.inr marker)]
    rw [sourceView, cellReadBack, source, bufOf_marker]
    have colspan : (cell.colspan == 0) = false := by simpa using Nat.ne_of_gt whole
    simp [on, marker, colspan, lit]
  · have other : (options.has optTableSpans && bufOf (cellSource options cell text) == rowspanMarker options) =
        false := by
      rw [Bool.and_eq_false_iff, beq_eq_false_iff_ne]
      by_cases on : options.has optTableSpans
      · exact .inr (others marker on)
      · exact .inl (by simpa using on)
    have covered : (options.has optTableSpans && (cellSource options cell text).isEmpty) = (cell.colspan == 0) := by
      by_cases part : cell.colspan = 0
      · simp [cellSource, part, parts (.inl part), (spans.1 part).1]
      · have whole : 0 < cell.colspan := Nat.pos_of_ne_zero part
        simp [cellSource, part, whole, lit]
    simp [sourceView, cellReadBack, other, covered, marker]

theorem cellSource_cellSource (options : Options) (cell : CellNode) {text : Bytes} (utf8 : Utf8.Text text)
    (pipes : PipesEscaped text) (line : WithinLine text) (parts : cell.colspan = 0 → text = []) :
    CellSource (cellSource options cell text) := by
  by_cases part : cell.colspan = 0
  · have source : cellSource options cell text = [] := by simp [cellSource, part, parts part]
    rw [source]
    exact .of_ascii (List.forall_mem_nil _) (pipesEscaped_of_not_mem List.not_mem_nil) (by simp)
  · -- blanks and the marker are around the text, so that its pipes and its last byte do no harm
    have whole : 0 < cell.colspan := Nat.pos_of_ne_zero part
    have marker : CellSource (if cell.rowspan = 0 then rowspanMarker options else []) := by
      split
      next =>
        unfold rowspanMarker
        split
        next => exact .of_ascii (by decide) (pipesEscaped_of_not_mem (by decide)) (by decide)
        next => exact .of_ascii (by decide) (pipesEscaped_of_not_mem (by decide)) (by decide)
      next => exact .of_ascii (List.forall_mem_nil _) (pipesEscaped_of_not_mem List.not_mem_nil) (by simp)
    have blank : CellSource (lit " ") := .of_ascii (by decide) (pipesEscaped_of_not_mem (by decide)) (by decide)
    rw [cellSource, if_pos whole]
    generalize (if cell.rowspan = 0 then rowspanMarker options else []) = m at marker ⊢
    constructor
    · exact ((blank.text.append marker.text).append utf8).append blank.text
    · exact List.forall_mem_append.mpr ⟨List.forall_mem_append.mpr
        ⟨List.forall_mem_append.mpr ⟨blank.visible, marker.visible⟩, line⟩, blank.visible⟩
    · exact ((blank.pipes.append marker.pipes).append pipes).append blank.pipes
    · have last : (lit " ").getLast? = some (chr ' ') := rfl
      rw [List.getLast?_append, last, Option.some_or]
      decide

/-- The cells of a table as they are read back. -/
def cellsReadBack (literalAt : NodeId → Option Bytes) (options : Options) (contents : Nat → Nat → List Visit)
    (rows : List RowNode) : List (List CellView) :=
  rows.mapIdx fun i row => row.cells.mapIdx fun j cell =>
    cellReadBack options cell (cellTexts literalAt options (contents i) j)

variable {visited : Nat → Nat → List Visit}

theorem cellSource_tableSources (visits : ∀ i j, ∀ v ∈ visited i j, VisitOfLine literalAt v)
    (readable : table.Readable literalAt options visited) :
    ∀ ws ∈ tableSources literalAt options visited table.rows, ∀ w ∈ ws, CellSource w := by
  intro ws inTable w inRow
  obtain ⟨i, inRows, rfl⟩ := List.mem_mapIdx.mp inTable
  obtain ⟨j, inCells, rfl⟩ := List.mem_mapIdx.mp inRow
  obtain ⟨pipes, line⟩ := visitsText_spec options (visits i j)
  refine cellSource_cellSource options _ (readable.text i j) pipes line fun part => ?_
  exact readable.parts i j _ _ (List.getElem?_eq_getElem inRows) (List.getElem?_eq_getElem inCells) (.inl part)

theorem sourceView_tableSources (spans : ∀ row ∈ table.rows, row.SpansRead options)
    (readable : table.Readable literalAt options visited) :
    (tableSources literalAt options visited table.rows).map (·.map (sourceView options)) =
      cellsReadBack literalAt options visited table.rows := by
  apply List.ext_getElem?
  intro i
  rw [tableSources, cellsReadBack, List.getElem?_map, List.getElem?_mapIdx, List.getElem?_mapIdx]
  cases atRow : table.rows[i]? with
  | none => rfl
  | some row =>
    rw [Option.map_some, Option.map_some, Option.map_some, Option.some.injEq]
    apply List.ext_getElem?
    intro j
    rw [rowSources, List.getElem?_map, List.getElem?_mapIdx, List.getElem?_mapIdx]
    cases atCell : row.cells[j]? with
    | none => rfl
    | some cell =>
      rw [Option.map_some, Option.map_some, Option.map_some, Option.some.injEq]
      have inRow := spans row (List.mem_of_getElem? atRow) cell (List.mem_of_getElem? atCell)
      exact sourceView_cellSource inRow (readable.parts i j row cell atRow atCell)
        (readable.others i j row cell atRow atCell)

/-- The lines that a table is written as are read back as a table with the same columns, alignments and rows, and
with the same cells. -/
theorem readTable_renderCommonmarkTable {self bytes : Nat} (built : Built self options table bytes) {place : Place}
    (inList : ItemInList place) {contents : Nat → Nat → Forest}
    (visits : ∀ i j, ∀ v ∈ cellVisitsSkipping place table contents i j, VisitOfLine literalAt v)
    (readable : table.Readable literalAt options (cellVisitsSkipping place table contents)) (width : r.width ≤ 0) :
    ∃ r' header below,
      renderCommonmarkTable literalAt options place table contents r = .ok r' ∧
      r'.bytes = ((tightAt place r).blankline.startString .renderer).bytes ++ (r.pref ++ joinCells header) ++
        linesText r.pref (delimiterLine table :: below.map joinCells) ∧
      ∀ (self' : Nat) (parent : NodeData) (delimiter : ParserState × Bytes) (lines : List (ParserState × Bytes)),
        (∃ tail, parent.content = joinCells header ++ tail ∧ LineEnd tail) →
        LineAt (delimiterLine table) delimiter →
        List.Forall₂ (fun line ws => LineAt (joinCells ws) line) lines below →
        ∃ table', readTable self' options parent delimiter lines = some table' ∧
          table'.nColumns = table.nColumns ∧ table'.alignments = table.alignments ∧ table'.nRows = table.nRows ∧
          table'.rows.map RowNode.view =
            cellsReadBack literalAt options (cellVisitsSkipping place table contents) table.rows := by
  obtain ⟨r', header, below, sources, rendered, bytes, -, -⟩ :=
    renderCommonmarkTable_lines built options inList visits width
  refine ⟨r', header, below, rendered, bytes, ?_⟩
  intro self' parent delimiter lines content delimits written
  have grid := built.grid
  have cells := cellSource_tableSources visits readable
  have views := sourceView_tableSources built.spansRead readable
  have lengths : ∀ ws ∈ header :: below, ws.length = table.nColumns := by
    intro ws member
    rw [← sources] at member
    obtain ⟨i, inRows, rfl⟩ := List.mem_mapIdx.mp member
    rw [rowSources, List.length_mapIdx]
    exact (grid.rows _ (List.getElem_mem inRows)).length
  rw [sources] at cells views
  obtain ⟨headerLength, belowLengths⟩ := List.forall_mem_cons.mp lengths
  have nonempty : header ≠ [] := by
    rintro rfl
    exact absurd headerLength (Nat.ne_of_lt grid.columns.1)
  obtain ⟨table', read, reads⟩ := readTable_joinCells self' options nonempty (headerLength ▸ grid.columns.2)
    (grid.alignments.trans headerLength.symm) built.isAlignment
    (fun ws member => (belowLengths ws member).trans headerLength.symm) cells content delimits written
  have nRows : (header :: below).length = table.nRows := by
    rw [← sources, tableSources, List.length_mapIdx, grid.nRows]
  exact ⟨table', read, reads.nColumns.trans headerLength, reads.alignments, reads.nRows.trans nRows,
    reads.rows.trans views⟩

theorem rows_exampleTable : exampleTable.rows.map (·.cells.map fun cell => (cell.colspan, cell.rowspan)) =
    [[(1, 1), (1, 1)], [(1, 2), (1, 1)], [(1, 0), (1, 1)]] := by decide +kernel

/-- The text of each cell of the header. -/
theorem cellTexts_exampleContents (i j : Nat) :
    cellTexts (fun _ => none) optTableSpans (exampleVisits i) j = [] ∨
      i = 0 ∧ cellTexts (fun _ => none) optTableSpans (exampleVisits i) j = lit "x\\|y" := by
  unfold cellTexts exampleVisits cellVisitsSkipping
  split
  next => exact .inl rfl
  next row atRow =>
    split
    next => exact .inl rfl
    next cell atCell =>
      unfold exampleContents
      split
      next header => exact .inr ⟨header, by rfl⟩
      next => exact .inl rfl

theorem readable_exampleContents : exampleTable.Readable (fun _ => none) optTableSpans exampleVisits := by
  have spans {i j : Nat} {row : RowNode} {cell : CellNode} (atRow : exampleTable.rows[i]? = some row)
      (atCell : row.cells[j]? = some cell) : cell.colspan ≠ 0 ∧ (i = 0 → cell.rowspan ≠ 0) := by
    have inTable := congrArg (·[i]?) rows_exampleTable
    simp only [List.getElem?_map, atRow, Option.map_some] at inTable
    have inRow : (cell.colspan, cell.rowspan) ∈ row.cells.map fun cell => (cell.colspan, cell.rowspan) :=
      List.mem_map.mpr ⟨cell, List.mem_of_getElem? atCell, rfl⟩
    have all : ∀ spans ∈ [[(1, 1), (1, 1)], [(1, 2), (1, 1)], [(1, 0), (1, 1)]], ∀ p ∈ spans, p.1 ≠ 0 := by decide
    refine ⟨all _ (List.mem_of_getElem? inTable.symm) _ inRow, ?_⟩
    rintro rfl
    rw [Option.some.inj inTable] at inRow
    have header : ∀ p ∈ [(1, 1), (1, 1)], p.2 ≠ 0 := by decide
    exact header _ inRow
  constructor
  · intro i j
    rcases cellTexts_exampleContents i j with none | ⟨-, some⟩
    · rw [none]
      exact .nil
    · rw [some]
      exact .of_ascii (by decide)
  · intro i j row cell atRow atCell part
    rcases cellTexts_exampleContents i j with none | ⟨header, -⟩
    · exact none
    · obtain ⟨colspan, rowspan⟩ := spans atRow atCell
      rcases part with part | part
      · exact absurd part colspan
      · exact absurd part (rowspan header)
  · intro i j row cell atRow atCell whole on
    have colspan : 0 < cell.colspan := Nat.pos_of_ne_zero (spans atRow atCell).1
    rw [cellSource, if_pos colspan, if_neg whole]
    rcases cellTexts_exampleContents i j with none | ⟨-, some⟩
    · rw [none]
      decide
    · rw [some]
      decide

theorem readTable_renderCommonmarkTable_example :
    ∃ r' header below,
      renderCommonmarkTable (fun _ => none) optTableSpans exampleItem exampleTable exampleContents unbroken = .ok r' ∧
      r'.bytes = ((tightAt exampleItem unbroken).blankline.startString .renderer).bytes ++ (unbroken.pref ++ joinCells header) ++
        linesText unbroken.pref (delimiterLine exampleTable :: below.map joinCells) ∧
      ∀ (self' : Nat) (parent : NodeData) (delimiter : ParserState × Bytes) (lines : List (ParserState × Bytes)),
        (∃ tail, parent.content = joinCells header ++ tail ∧ LineEnd tail) →
        LineAt (delimiterLine exampleTable) delimiter →
        List.Forall₂ (fun line ws => LineAt (joinCells ws) line) lines below →
        ∃ table', readTable self' optTableSpans parent delimiter lines = some table' ∧
          table'.nColumns = exampleTable.nColumns ∧ table'.alignments = exampleTable.alignments ∧
          table'.nRows = exampleTable.nRows ∧
          table'.rows.map RowNode.view = cellsReadBack (fun _ => none) optTableSpans exampleVisits exampleTable.rows :=
  readTable_renderCommonmarkTable built_exampleTable itemInList_exampleItem visitOfLine_exampleContents readable_exampleContents (by decide)

end Table

end CmarkGfm
