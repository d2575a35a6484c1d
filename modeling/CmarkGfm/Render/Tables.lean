import CmarkGfm.Extensions.Table
import CmarkGfm.Render.Commonmark

/-!
# Tables in the output (table.c)

A table is rendered at the events that the iterator gives for it, its rows and its cells. What is in a cell
is given apart: an inline parse of the cell, or the calls that it makes.
-/

namespace CmarkGfm

namespace Table

/-- A node of a table. -/
inductive Part where
  | table
  | row (row : RowNode)
  | cell (cell : CellNode)

/-- What the iterator gives: a node of the table, or something in a cell. The node of a cell is told whether there
is a cell behind it, and which row it is in. -/
inductive Event (γ : Type) where
  | part (part : Part) (row : Option RowNode) (hasNext entering : Bool)
  | content (c : γ)

variable {γ : Type}

/-- The events of the cells of a row, where `i` is the number of cells before them. -/
def cellEvents (contents : Nat → List γ) (row : RowNode) : Nat → List CellNode → List (Event γ)
  | _, [] => []
  | i, cell :: rest =>
    .part (.cell cell) (some row) (!rest.isEmpty) true :: ((contents i).map .content ++
      .part (.cell cell) (some row) (!rest.isEmpty) false :: cellEvents contents row (i + 1) rest)

/-- The events of the rows of a table, where `i` is the number of rows before them. -/
def rowEvents (contents : Nat → Nat → List γ) : Nat → List RowNode → List (Event γ)
  | _, [] => []
  | i, row :: rest =>
    .part (.row row) (some row) (!rest.isEmpty) true :: (cellEvents (contents i) row 0 row.cells ++
      .part (.row row) (some row) (!rest.isEmpty) false :: rowEvents contents (i + 1) rest)

/-- The events of a table, with those of the contents of each cell. -/
def events (contents : Nat → Nat → List γ) (table : TableNode) : List (Event γ) :=
  .part .table none false true :: (rowEvents contents 0 table.rows ++ [.part .table none false false])

/-! ### HTML -/

/-- `html_table_state`, with the renderer whose `opaque` it is. -/
structure HtmlTable where
  renderer : HtmlRenderer
  needClosingTableBody : Bool
  inTableHeader : Bool

/-- `html_table_add_align` -/
def htmlTableAddAlign (align : String) (options : Options) (r : HtmlRenderer) : HtmlRenderer :=
  if options.has optTablePreferStyleAttributes then r |>.puts " style=\"text-align: " |>.puts align |>.puts "\""
  else r |>.puts " align=\"" |>.puts align |>.puts "\""

/-- `html_table_add_spans` -/
def htmlTableAddSpans (colspan rowspan : Nat) (r : HtmlRenderer) : HtmlRenderer :=
  let r := if colspan > 1 then r |>.puts " colspan=\"" |>.putNumber colspan |>.puts "\"" else r
  if rowspan > 1 then r |>.puts " rowspan=\"" |>.putNumber rowspan |>.puts "\"" else r

/-- The attribute for the alignment of a cell. -/
def htmlCellAlign (alignment : UInt8) (options : Options) (r : HtmlRenderer) : HtmlRenderer :=
  if alignment == chr 'l' then htmlTableAddAlign "left" options r
  else if alignment == chr 'c' then htmlTableAddAlign "center" options r
  else if alignment == chr 'r' then htmlTableAddAlign "right" options r
  else r

/-- A value of zero in either span means that this is a filler cell. -/
def CellNode.isFiller (cell : CellNode) : Bool := cell.colspan == 0 || cell.rowspan == 0

/-- `html_render` -/
def htmlRender (options : Options) (table : TableNode) (part : Part) (entering : Bool) (s : HtmlTable) : HtmlTable :=
  let r := s.renderer
  match part with
  | .table =>
    if entering then { s with
      renderer := r.cr |>.puts "<table" |>.sourcepos options table.data |>.puts ">"
      needClosingTableBody := false }
    else
      let r := if s.needClosingTableBody then (r.cr.puts "</tbody>").cr else r
      { s with renderer := (r.cr.puts "</table>").cr, needClosingTableBody := false }
  | .row row =>
    if entering then
      let r := r.cr
      let s := if row.isHeader then { s with renderer := (r.puts "<thead>").cr, inTableHeader := true }
        else if !s.needClosingTableBody then
          { s with renderer := (r.puts "<tbody>").cr, needClosingTableBody := true }
        else { s with renderer := r }
      { s with renderer := s.renderer |>.puts "<tr" |>.sourcepos options row.data |>.puts ">" }
    else
      let r := r.cr.puts "</tr>"
      if row.isHeader then { s with renderer := r.cr.puts "</thead>", inTableHeader := false }
      else { s with renderer := r }
  | .cell cell =>
    if cell.isFiller then s
    else if entering then
      let r := r.cr.puts (if s.inTableHeader then "<th" else "<td")
      { s with
        renderer := r |> htmlCellAlign (cell.alignment table) options |> htmlTableAddSpans cell.colspan cell.rowspan
          |>.sourcepos options cell.data |>.puts ">" }
    else { s with renderer := r.puts (if s.inTableHeader then "</th>" else "</td>") }

/-- `S_render_node`, for a node of a table or of the contents of a cell. -/
def renderHtmlEvent (H : HtmlConfig) (table : TableNode) (s : HtmlTable) :
    Event Visit → Except RenderError HtmlTable
  | .part part _ _ entering => .ok (htmlRender H.options table part entering s)
  | .content v => (fun r => { s with renderer := r }) <$> renderHtmlNode H s.renderer v

/-- The events of the inlines of a cell, which is in the row `i` of the table at `place`. -/
def cellVisits (place : Place) (table : TableNode) (contents : Nat → Nat → Forest) (i j : Nat) : List Visit :=
  match table.rows[i]? with
  | none => []
  | some row =>
    match row.cells[j]? with
    | none => []
    | some cell =>
      visitsFrom { path := j :: i :: place.path, ancestors := row.data :: table.data :: place.ancestors } cell.data []
        (contents i j)

/-- What `cmark_render_html` writes for a table. -/
def renderHtmlTable (H : HtmlConfig) (place : Place) (table : TableNode) (contents : Nat → Nat → Forest)
    (s : HtmlTable) : Except RenderError HtmlTable :=
  (events (cellVisits place table contents) table).foldlM (renderHtmlEvent H table) s

/-! ### CommonMark -/

open Call

/-- The delimiter of a column. -/
def alignmentCalls (alignment : UInt8) : List Call :=
  if alignment == 0 then [puts " --- |"]
  else if alignment == chr 'l' then [puts " :-- |"]
  else if alignment == chr 'c' then [puts " :-: |"]
  else if alignment == chr 'r' then [puts " --: |"]
  else []

/-- `commonmark_render` -/
def commonmarkRender (options : Options) (table : TableNode) (part : Part) (row : Option RowNode)
    (hasNext entering : Bool) : List Call :=
  match part with
  | .table => [.blankline]
  | .row _ => if entering then [.cr, puts "|"] else []
  | .cell cell =>
    if entering then
      if cell.colspan > 0 then
        puts " " :: (if cell.rowspan = 0 then [bytes (rowspanMarker options)] else [])
      else []
    else
      (if cell.colspan > 0 then [puts " "] else []) ++ [puts "|"] ++
        (if row.any (·.isHeader) && !hasNext then
          [.cr, puts "|"] ++ (table.alignments.take table.nColumns).flatMap alignmentCalls ++ [.cr]
        else [])

/-- `escape`, for a node that is no part of the table: a pipe gets a backslash. -/
def escapes (c : Nat) : Bool := c == 124

/-- The loop of `S_out` over the characters, for a node whose ancestor is of an extension that escapes some of
them. The backslash is not counted as a column. -/
def outCharsEscaped (escapes : Nat → Bool) (outc : Outc) (wrap : Bool) (escape : Escaping) :
    Nat → Bytes → Renderer → Renderer
  | 0, _, r => r
  | _, [], r => r
  | fuel + 1, b :: bs, r =>
    let r := r.startLine
    match utf8Iterate (b :: bs) with
    | none => r
    | some (c, len) =>
      let r := if escapes c then r.put .renderer [92] else r
      let (rest, r) := writeChar outc wrap escape c ((b :: bs).drop len) r
      outCharsEscaped escapes outc wrap escape fuel rest (if r.breaks then r.breakLine else r)

/-- A call for such a node. -/
def runEscaped (escapes : Nat → Bool) (outc : Outc) (r : Renderer) : Call → Except RenderError Renderer
  | .out origin (some source) wrap escape =>
    .ok (outCharsEscaped escapes outc (wrap && !r.noLinebreaks) escape (cstr source).length (cstr source)
      (r.startString origin))
  | call => call.run outc r

/-- What `S_render_node` does first at a node of a table. Rows and cells are not in an item themselves, and none of the
nodes is a list. -/
def adjustTightPart (place : Place) (table : TableNode) : Part → Bool → List Call
  | .table, true => adjustTight ⟨true, .mk 0 table.data [], place⟩
  | _, _ => []

/-- `S_render_node`, for a node of a table or of the contents of a cell. -/
def renderCommonmarkEvent (literalAt : NodeId → Option Bytes) (options : Options) (place : Place) (table : TableNode)
    (r : Renderer) : Event Visit → Except RenderError Renderer
  | .part part row hasNext entering =>
    (adjustTightPart place table part entering ++
      commonmarkRender options table part row hasNext entering).foldlM (Call.run commonmarkOutc) r
  | .content v => (commonmarkRenderNode literalAt options r v).foldlM (runEscaped escapes commonmarkOutc) r

/-- The events of the inlines of a cell, without the contents of autolinks. -/
def cellVisitsSkipping (place : Place) (table : TableNode) (contents : Nat → Nat → Forest) (i j : Nat) : List Visit :=
  match table.rows[i]? with
  | none => []
  | some row =>
    match row.cells[j]? with
    | none => []
    | some cell =>
      visitsSkippingFrom (fun v => isAutolink v.node)
        { path := j :: i :: place.path, ancestors := row.data :: table.data :: place.ancestors } cell.data []
        (contents i j)

/-- What `cmark_render_commonmark` writes for a table. -/
def renderCommonmarkTable (literalAt : NodeId → Option Bytes) (options : Options) (place : Place) (table : TableNode)
    (contents : Nat → Nat → Forest) (r : Renderer) : Except RenderError Renderer :=
  (events (cellVisitsSkipping place table contents) table).foldlM (renderCommonmarkEvent literalAt options place table) r

/-- Without an extension that escapes, this is the loop of every other node. -/
theorem outCharsEscaped_none (outc : Outc) (wrap : Bool) (escape : Escaping) (fuel : Nat) (s : Bytes) (r : Renderer) :
    outCharsEscaped (fun _ => false) outc wrap escape fuel s r = outChars outc wrap escape fuel s r := by
  induction fuel generalizing s r with
  | zero => rw [outCharsEscaped, outChars]
  | succ fuel ih =>
    cases s with
    | nil => rfl
    | cons b bs =>
      rw [outCharsEscaped, outChars]
      cases utf8Iterate (b :: bs) with
      | none => rfl
      | some char => exact ih _ _

theorem runEscaped_none (outc : Outc) (r : Renderer) (call : Call) :
    runEscaped (fun _ => false) outc r call = call.run outc r := by
  cases call with
  | out origin source wrap escape =>
    cases source with
    | none => rfl
    | some source =>
      rw [runEscaped, outCharsEscaped_none]
      rfl
  | _ => rfl

end Table

end CmarkGfm
