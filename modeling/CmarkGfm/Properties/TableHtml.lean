import CmarkGfm.Render.Tables
import CmarkGfm.Properties.Tables
import CmarkGfm.Properties.HtmlNesting

/-!
# Tables in HTML

The renderer of tables is a state machine over the events of the iterator: two flags say whether it is in the
header and whether a body has been opened. For a table with one header row, the first, what it writes is a
head with this row and a body with the other rows, if there are any.
-/

namespace CmarkGfm

namespace Table

variable {H : HtmlConfig} {table : TableNode}

/-! ### What is to be written -/

/-- The start tag of a cell. -/
def openCell (options : Options) (table : TableNode) (tag : String) (cell : CellNode) (r : HtmlRenderer) :
    HtmlRenderer :=
  if cell.isFiller then r
  else r.cr.puts ("<" ++ tag) |> htmlCellAlign (cell.alignment table) options
    |> htmlTableAddSpans cell.colspan cell.rowspan |>.sourcepos options cell.data |>.puts ">"

def closeCell (tag : String) (cell : CellNode) (r : HtmlRenderer) : HtmlRenderer :=
  if cell.isFiller then r else r.puts ("</" ++ tag ++ ">")

/-- The cells of a row, where `i` is the number of cells before them. -/
def writeCells (H : HtmlConfig) (table : TableNode) (tag : String) (contents : Nat → List Visit) :
    Nat → List CellNode → HtmlRenderer → Except RenderError HtmlRenderer
  | _, [], r => .ok r
  | i, cell :: rest, r => do
    let r ← (contents i).foldlM (renderHtmlNode H) (openCell H.options table tag cell r)
    writeCells H table tag contents (i + 1) rest (closeCell tag cell r)

def writeRow (H : HtmlConfig) (table : TableNode) (tag : String) (contents : Nat → List Visit) (row : RowNode)
    (r : HtmlRenderer) : Except RenderError HtmlRenderer := do
  let r ← writeCells H table tag contents 0 row.cells
    (r |>.puts "<tr" |>.sourcepos H.options row.data |>.puts ">")
  return r.cr.puts "</tr>"

/-- The rows of a body, where `i` is the number of rows before them. -/
def writeRows (H : HtmlConfig) (table : TableNode) (contents : Nat → Nat → List Visit) :
    Nat → List RowNode → HtmlRenderer → Except RenderError HtmlRenderer
  | _, [], r => .ok r
  | i, row :: rest, r => do
    let r ← writeRow H table "td" (contents i) row r.cr
    writeRows H table contents (i + 1) rest r

/-- A body, if there are rows. -/
def writeBody (H : HtmlConfig) (table : TableNode) (contents : Nat → Nat → List Visit) (rows : List RowNode)
    (r : HtmlRenderer) : Except RenderError HtmlRenderer :=
  if rows.isEmpty then .ok r
  else do
    let r ← writeRows H table contents 1 rows (r.cr.puts "<tbody>")
    return (r.cr.puts "</tbody>").cr

/-- A table with a header row and the rows of its body. -/
def writeTable (H : HtmlConfig) (table : TableNode) (contents : Nat → Nat → List Visit) (header : RowNode)
    (rows : List RowNode) (r : HtmlRenderer) : Except RenderError HtmlRenderer := do
  let r := r.cr |>.puts "<table" |>.sourcepos H.options table.data |>.puts ">"
  let r ← writeRow H table "th" (contents 0) header (r.cr.puts "<thead>").cr
  let r ← writeBody H table contents rows (r.cr.puts "</thead>")
  return (r.cr.puts "</table>").cr

/-! ### What the state machine writes -/

theorem render_bind {α β : Type} (a : α) (f : α → Except RenderError β) : (Except.ok a >>= f) = f a := rfl

theorem render_map {α β : Type} (f : α → β) (a : α) : f <$> (Except.ok a : Except RenderError α) = .ok (f a) := rfl

theorem foldlM_contents (vs : List Visit) (s : HtmlTable) :
    (vs.map Event.content).foldlM (renderHtmlEvent H table) s =
      (fun r => { s with renderer := r }) <$> vs.foldlM (renderHtmlNode H) s.renderer := by
  induction vs generalizing s with
  | nil => rfl
  | cons v vs ih =>
    rw [List.map_cons, List.foldlM_cons, List.foldlM_cons, renderHtmlEvent]
    cases renderHtmlNode H s.renderer v with
    | error e => rfl
    | ok r =>
      rw [render_map, render_bind, render_bind]
      exact ih { s with renderer := r }

/-- The tag of the cells. -/
def cellTag (s : HtmlTable) : String := if s.inTableHeader then "th" else "td"

theorem htmlRender_openCell (cell : CellNode) (s : HtmlTable) :
    htmlRender H.options table (.cell cell) true s =
      { s with renderer := openCell H.options table (cellTag s) cell s.renderer } := by
  unfold htmlRender openCell cellTag
  dsimp only
  split
  next => rfl
  next => cases s.inTableHeader <;> rfl

theorem htmlRender_closeCell (cell : CellNode) (s : HtmlTable) :
    htmlRender H.options table (.cell cell) false s =
      { s with renderer := closeCell (cellTag s) cell s.renderer } := by
  unfold htmlRender closeCell cellTag
  dsimp only
  split
  next => rfl
  next => cases s.inTableHeader <;> rfl

theorem foldlM_cellEvents (contents : Nat → List Visit) (row : RowNode) (i : Nat) (cells : List CellNode)
    (s : HtmlTable) :
    (cellEvents contents row i cells).foldlM (renderHtmlEvent H table) s =
      (fun r => { s with renderer := r }) <$> writeCells H table (cellTag s) contents i cells s.renderer := by
  induction cells generalizing i s with
  | nil => rfl
  | cons cell rest ih =>
    rw [cellEvents, writeCells, List.foldlM_cons, renderHtmlEvent, render_bind, List.foldlM_append,
      foldlM_contents, htmlRender_openCell]
    cases (contents i).foldlM (renderHtmlNode H) (openCell H.options table (cellTag s) cell s.renderer) with
    | error e => rfl
    | ok r =>
      rw [render_map, render_bind, render_bind, List.foldlM_cons, renderHtmlEvent, render_bind, htmlRender_closeCell,
        ih]
      rfl

/-- The events of one row. -/
def eventsOfRow (contents : Nat → List Visit) (row : RowNode) (hasNext : Bool) : List (Event Visit) :=
  .part (.row row) (some row) hasNext true :: (cellEvents contents row 0 row.cells ++
    [.part (.row row) (some row) hasNext false])

theorem rowEvents_cons (contents : Nat → Nat → List Visit) (i : Nat) (row : RowNode) (rest : List RowNode) :
    rowEvents contents i (row :: rest) =
      eventsOfRow (contents i) row (!rest.isEmpty) ++ rowEvents contents (i + 1) rest := by
  simp [rowEvents, eventsOfRow]

theorem foldlM_headerRow (contents : Nat → List Visit) {row : RowNode} (header : row.isHeader = true)
    (hasNext : Bool) (s : HtmlTable) :
    (eventsOfRow contents row hasNext).foldlM (renderHtmlEvent H table) s =
      (fun r : HtmlRenderer => { s with renderer := r.cr.puts "</thead>", inTableHeader := false }) <$>
        writeRow H table "th" contents row (s.renderer.cr.puts "<thead>").cr := by
  have opens : htmlRender H.options table (.row row) true s =
      { s with
        renderer := (s.renderer.cr.puts "<thead>").cr |>.puts "<tr" |>.sourcepos H.options row.data |>.puts ">"
        inTableHeader := true } := by
    simp only [htmlRender, header, if_true]
  rw [eventsOfRow, List.foldlM_cons, renderHtmlEvent, render_bind, List.foldlM_append, foldlM_cellEvents, opens,
    writeRow]
  have tag : cellTag { s with
      renderer := (s.renderer.cr.puts "<thead>").cr |>.puts "<tr" |>.sourcepos H.options row.data |>.puts ">"
      inTableHeader := true } = "th" := rfl
  rw [tag]
  cases writeCells H table "th" contents 0 row.cells
      ((s.renderer.cr.puts "<thead>").cr |>.puts "<tr" |>.sourcepos H.options row.data |>.puts ">") with
  | error e => rfl
  | ok r =>
    rw [render_map, render_bind, render_bind, List.foldlM_cons, renderHtmlEvent, render_bind]
    simp only [htmlRender, header, if_true]
    rfl

theorem foldlM_bodyRow (contents : Nat → List Visit) {row : RowNode} (body : row.isHeader = false)
    (hasNext : Bool) (s : HtmlTable) (outside : s.inTableHeader = false) :
    (eventsOfRow contents row hasNext).foldlM (renderHtmlEvent H table) s =
      (fun r : HtmlRenderer => { s with renderer := r, needClosingTableBody := true }) <$>
        writeRow H table "td" contents row
          (if s.needClosingTableBody then s.renderer.cr else (s.renderer.cr.puts "<tbody>").cr) := by
  obtain ⟨r₀, need, inHeader⟩ := s
  cases outside
  have opens : htmlRender H.options table (.row row) true ⟨r₀, need, false⟩ =
      ⟨(if need then r₀.cr else (r₀.cr.puts "<tbody>").cr) |>.puts "<tr" |>.sourcepos H.options row.data |>.puts ">",
        true, false⟩ := by
    cases need <;> simp [htmlRender, body]
  rw [eventsOfRow, List.foldlM_cons, renderHtmlEvent, render_bind, List.foldlM_append, foldlM_cellEvents, opens,
    writeRow]
  dsimp only
  generalize ((if need then r₀.cr else (r₀.cr.puts "<tbody>").cr) |>.puts "<tr"
    |>.sourcepos H.options row.data |>.puts ">") = r₁
  rw [show cellTag ⟨r₁, true, false⟩ = "td" from rfl]
  cases writeCells H table "td" contents 0 row.cells r₁ with
  | error e => rfl
  | ok r =>
    rw [render_map, render_bind, render_bind, List.foldlM_cons, renderHtmlEvent, render_bind]
    simp only [htmlRender, body]
    rfl

/-- The other rows of a body that has been opened. -/
theorem foldlM_rowEvents (contents : Nat → Nat → List Visit) {rows : List RowNode}
    (body : ∀ row ∈ rows, row.isHeader = false) (i : Nat) (r : HtmlRenderer) :
    (rowEvents contents i rows).foldlM (renderHtmlEvent H table) ⟨r, true, false⟩ =
      (fun r => ⟨r, true, false⟩) <$> writeRows H table contents i rows r := by
  induction rows generalizing i r with
  | nil => rfl
  | cons row rest ih =>
    obtain ⟨here, later⟩ := List.forall_mem_cons.mp body
    rw [rowEvents_cons, List.foldlM_append, foldlM_bodyRow _ here _ _ rfl, writeRows]
    simp only [if_true]
    cases writeRow H table "td" (contents i) row r.cr with
    | error e => rfl
    | ok r' =>
      rw [render_map, render_bind, render_bind]
      exact ih later (i + 1) r'

/-- For a table with one header row, the first, the state machine writes a head and a body, whatever its flags were
before. -/
theorem renderHtmlTable_eq (place : Place) (contents : Nat → Nat → Forest) (s : HtmlTable) {header : RowNode}
    {rows : List RowNode} (eq : table.rows = header :: rows) (isHeader : header.isHeader = true)
    (body : ∀ row ∈ rows, row.isHeader = false) :
    renderHtmlTable H place table contents s =
      (fun r => ⟨r, false, false⟩) <$> writeTable H table (cellVisits place table contents) header rows s.renderer := by
  rw [renderHtmlTable, events, eq, List.foldlM_cons, renderHtmlEvent, render_bind, List.foldlM_append, rowEvents_cons,
    List.foldlM_append, foldlM_headerRow _ isHeader, writeTable]
  generalize cellVisits place table contents = visits
  simp only [htmlRender, if_true]
  cases writeRow H table "th" (visits 0) header _ with
  | error e => rfl
  | ok r =>
    rw [render_map, render_bind, render_bind, writeBody]
    cases rows with
    | nil => rfl
    | cons row rest =>
      obtain ⟨here, later⟩ := List.forall_mem_cons.mp body
      rw [rowEvents_cons, List.foldlM_append, foldlM_bodyRow _ here _ _ rfl, if_neg (by simp), writeRows]
      dsimp only
      cases writeRow H table "td" (visits 1) row ((r.cr.puts "</thead>").cr.puts "<tbody>").cr with
      | error e => rfl
      | ok r₁ =>
        rw [render_map, render_bind, render_bind, foldlM_rowEvents visits later]
        cases writeRows H table visits 2 rest r₁ with
        | error e => rfl
        | ok r₂ => rfl

/-! ### Nesting -/

variable {r : HtmlRenderer} {tag : Bytes} {names opened : List Bytes} {ix : Nat} {options : Options}

/-- In a start tag, behind its name and these attributes. -/
def InTag (r : HtmlRenderer) (tag : Bytes) (names opened : List Bytes) (ix : Nat) : Prop :=
  ∃ s : Markup.State, Written r s none ix ∧
    (s = ⟨.name tag, opened⟩ ∧ names = [] ∨ s = ⟨.valueEnd tag names, opened⟩)

/-- A string constant that begins an attribute, and perhaps its value. -/
theorem InTag.attribute (inTag : InTag r tag names opened ix) {t : String} {name value : Bytes}
    (isName : Markup.Rules.IsName name) (eq : lit t = 32 :: name ++ [61, 34] ++ value) (plain : Plain value)
    (new : name ∉ names) : Written (r.puts t) ⟨.value tag (name :: names), opened⟩ none ix := by
  obtain ⟨s, written, state⟩ := inTag
  apply written.puts
  rw [eq, Markup.Rules.read_append, htmlRules.read_attribute state isName new]
  exact htmlRules.read_plain plain passes_value

theorem inTag_of_value (written : Written r ⟨.value tag names, opened⟩ none ix) :
    InTag (r.puts "\"") tag names opened ix :=
  ⟨_, written.puts rfl, .inr rfl⟩

theorem InTag.close (inTag : InTag r tag names opened ix) :
    Written (r.puts ">") ⟨.text, tag :: opened⟩ none ix := by
  obtain ⟨s, written, ⟨rfl, rfl⟩ | rfl⟩ := inTag
  · exact written.puts rfl
  · exact written.puts rfl

theorem isName_sourcepos : Markup.Rules.IsName (lit "data-sourcepos") := ⟨_, _, rfl, by decide, by decide⟩

theorem isName_style : Markup.Rules.IsName (lit "style") := ⟨_, _, rfl, by decide, by decide⟩

theorem isName_align : Markup.Rules.IsName (lit "align") := ⟨_, _, rfl, by decide, by decide⟩

theorem isName_colspan : Markup.Rules.IsName (lit "colspan") := ⟨_, _, rfl, by decide, by decide⟩

theorem isName_rowspan : Markup.Rules.IsName (lit "rowspan") := ⟨_, _, rfl, by decide, by decide⟩

theorem InTag.sourcepos (options : Options) (inTag : InTag r tag names opened ix) (d : NodeData)
    (new : lit "data-sourcepos" ∉ names) : ∃ names', InTag (r.sourcepos options d) tag names' opened ix := by
  unfold HtmlRenderer.sourcepos
  split
  next =>
    refine ⟨lit "data-sourcepos" :: names, inTag_of_value ?_⟩
    exact (inTag.attribute isName_sourcepos (List.append_nil _).symm (by simp [Plain]) new).markup passes_value
      (plain_sourceRange d)
  next => exact ⟨names, inTag⟩

/-- The attributes of the alignment. -/
def alignNames : List Bytes := [lit "style", lit "align"]

theorem InTag.htmlTableAddAlign (inTag : InTag r tag [] opened ix) {align : String} (plain : Plain (lit align)) :
    ∃ names ⊆ alignNames, InTag (htmlTableAddAlign align options r) tag names opened ix := by
  unfold Table.htmlTableAddAlign
  split
  next =>
    refine ⟨[lit "style"], by simp [alignNames], inTag_of_value ?_⟩
    have eq : lit " style=\"text-align: " = 32 :: lit "style" ++ [61, 34] ++ lit "text-align: " := by decide
    exact (inTag.attribute isName_style eq (by decide) (by simp)).putsPlain passes_value plain
  next =>
    refine ⟨[lit "align"], by simp [alignNames], inTag_of_value ?_⟩
    have eq : lit " align=\"" = 32 :: lit "align" ++ [61, 34] ++ [] := by decide
    exact (inTag.attribute isName_align eq (by simp [Plain]) (by simp)).putsPlain passes_value plain

theorem InTag.htmlCellAlign (options : Options) (inTag : InTag r tag [] opened ix) (alignment : UInt8) :
    ∃ names ⊆ alignNames, InTag (htmlCellAlign alignment options r) tag names opened ix := by
  unfold Table.htmlCellAlign
  split
  next => exact inTag.htmlTableAddAlign (by decide)
  next =>
    split
    next => exact inTag.htmlTableAddAlign (by decide)
    next =>
      split
      next => exact inTag.htmlTableAddAlign (by decide)
      next => exact ⟨[], List.nil_subset _, inTag⟩

theorem InTag.htmlTableAddSpans (inTag : InTag r tag names opened ix) (among : names ⊆ alignNames)
    (colspan rowspan : Nat) :
    ∃ names' ⊆ lit "rowspan" :: lit "colspan" :: alignNames,
      InTag (htmlTableAddSpans colspan rowspan r) tag names' opened ix := by
  have columns : ∃ names' ⊆ lit "colspan" :: alignNames,
      InTag (if colspan > 1 then r |>.puts " colspan=\"" |>.putNumber colspan |>.puts "\"" else r) tag names' opened
        ix := by
    split
    next =>
      refine ⟨lit "colspan" :: names, List.cons_subset_cons _ among, inTag_of_value ?_⟩
      have new : lit "colspan" ∉ names := fun member => absurd (among member) (by decide)
      have eq : lit " colspan=\"" = 32 :: lit "colspan" ++ [61, 34] ++ [] := by decide
      exact (inTag.attribute isName_colspan eq (by simp [Plain]) new).putNumber passes_value colspan
    next => exact ⟨names, List.subset_cons_of_subset _ among, inTag⟩
  obtain ⟨names', among', inTag'⟩ := columns
  unfold Table.htmlTableAddSpans
  dsimp only
  split
  next =>
    refine ⟨lit "rowspan" :: names', List.cons_subset_cons _ among', inTag_of_value ?_⟩
    have new : lit "rowspan" ∉ names' := fun member => absurd (among' member) (by decide)
    have eq : lit " rowspan=\"" = 32 :: lit "rowspan" ++ [61, 34] ++ [] := by decide
    exact (inTag'.attribute isName_rowspan eq (by simp [Plain]) new).putNumber passes_value rowspan
  next => exact ⟨names', List.subset_cons_of_subset _ among', inTag'⟩

/-- The element of a cell, if it has one. -/
def cellTags (tag : String) (cell : CellNode) : List Bytes := if cell.isFiller then [] else [lit tag]

theorem written_openCell (options : Options) (table : TableNode) {tag : String} (isCell : tag = "th" ∨ tag = "td") (cell : CellNode)
    (written : Written r ⟨.text, opened⟩ none ix) :
    Written (openCell options table tag cell r) ⟨.text, cellTags tag cell ++ opened⟩ none ix := by
  unfold openCell cellTags
  split
  next => exact written
  next =>
    have starts : InTag (r.cr.puts ("<" ++ tag)) (lit tag) [] opened ix := by
      rcases isCell with rfl | rfl
      · exact ⟨_, written.cr.puts rfl, .inl ⟨rfl, rfl⟩⟩
      · exact ⟨_, written.cr.puts rfl, .inl ⟨rfl, rfl⟩⟩
    obtain ⟨names, among, aligned⟩ := starts.htmlCellAlign options (cell.alignment table)
    obtain ⟨names', among', spanned⟩ := aligned.htmlTableAddSpans among cell.colspan cell.rowspan
    have new : lit "data-sourcepos" ∉ names' := fun member => absurd (among' member) (by decide)
    obtain ⟨names'', inTag⟩ := spanned.sourcepos options cell.data new
    exact inTag.close

theorem written_closeCell {tag : String} (isCell : tag = "th" ∨ tag = "td") (cell : CellNode)
    (written : Written r ⟨.text, cellTags tag cell ++ opened⟩ none ix) :
    Written (closeCell tag cell r) ⟨.text, opened⟩ none ix := by
  unfold cellTags at written
  unfold closeCell
  split at written
  next filler =>
    rw [if_pos filler]
    exact written
  next cell' =>
    rw [if_neg cell']
    have atEnd : Written r ⟨.text, lit tag :: opened⟩ none ix := written
    rcases isCell with rfl | rfl
    · exact atEnd.puts rfl
    · exact atEnd.puts rfl

theorem written_writeCells (table : TableNode) {tag : String} (isCell : tag = "th" ∨ tag = "td") {contents : Nat → List Visit}
    (nested : ∀ i, WritesNested H (contents i)) (i : Nat) (cells : List CellNode)
    (written : Written r ⟨.text, opened⟩ none ix) :
    ∃ r', writeCells H table tag contents i cells r = .ok r' ∧ Written r' ⟨.text, opened⟩ none ix := by
  induction cells generalizing i r with
  | nil => exact ⟨r, rfl, written⟩
  | cons cell rest ih =>
    obtain ⟨r₁, inside, written₁⟩ := nested i _ _ _ (written_openCell H.options table isCell cell written)
    obtain ⟨r₂, after, written₂⟩ := ih (i + 1) (written_closeCell isCell cell written₁)
    refine ⟨r₂, ?_, written₂⟩
    rw [writeCells, inside, render_bind]
    exact after

theorem written_writeRow (table : TableNode) {tag : String} (isCell : tag = "th" ∨ tag = "td") {contents : Nat → List Visit}
    (nested : ∀ i, WritesNested H (contents i)) (row : RowNode) (written : Written r ⟨.text, opened⟩ none ix) :
    ∃ r', writeRow H table tag contents row r = .ok r' ∧ Written r' ⟨.text, opened⟩ none ix := by
  have starts : Written (r |>.puts "<tr" |>.sourcepos H.options row.data |>.puts ">") ⟨.text, lit "tr" :: opened⟩
      none ix := written.openTag rfl rfl rfl
  obtain ⟨r', inside, written'⟩ := written_writeCells table isCell nested 0 row.cells starts
  refine ⟨r'.cr.puts "</tr>", ?_, written'.cr.puts rfl⟩
  rw [writeRow, inside]
  rfl

theorem written_writeRows (table : TableNode) {contents : Nat → Nat → List Visit} (nested : ∀ i j, WritesNested H (contents i j)) (i : Nat)
    (rows : List RowNode) (written : Written r ⟨.text, opened⟩ none ix) :
    ∃ r', writeRows H table contents i rows r = .ok r' ∧ Written r' ⟨.text, opened⟩ none ix := by
  induction rows generalizing i r with
  | nil => exact ⟨r, rfl, written⟩
  | cons row rest ih =>
    obtain ⟨r₁, first, written₁⟩ := written_writeRow table (.inr rfl) (nested i) row written.cr
    obtain ⟨r₂, after, written₂⟩ := ih (i + 1) written₁
    refine ⟨r₂, ?_, written₂⟩
    rw [writeRows, first]
    exact after

theorem written_writeTable (table : TableNode) {contents : Nat → Nat → List Visit} (nested : ∀ i j, WritesNested H (contents i j))
    (header : RowNode) (rows : List RowNode) (written : Written r ⟨.text, opened⟩ none ix) :
    ∃ r', writeTable H table contents header rows r = .ok r' ∧ Written r' ⟨.text, opened⟩ none ix := by
  have starts : Written (r.cr |>.puts "<table" |>.sourcepos H.options table.data |>.puts ">")
      ⟨.text, lit "table" :: opened⟩ none ix := written.cr.openTag rfl rfl rfl
  have head : Written ((r.cr |>.puts "<table" |>.sourcepos H.options table.data |>.puts ">").cr.puts "<thead>").cr
      ⟨.text, lit "thead" :: lit "table" :: opened⟩ none ix := (starts.cr.puts rfl).cr
  obtain ⟨r₁, first, written₁⟩ := written_writeRow table (.inl rfl) (nested 0) header head
  have body : Written (r₁.cr.puts "</thead>") ⟨.text, lit "table" :: opened⟩ none ix := written₁.cr.puts rfl
  obtain ⟨r₂, second, written₂⟩ : ∃ r', writeBody H table contents rows (r₁.cr.puts "</thead>") = .ok r' ∧
      Written r' ⟨.text, lit "table" :: opened⟩ none ix := by
    unfold writeBody
    split
    next => exact ⟨_, rfl, body⟩
    next =>
      have inBody : Written ((r₁.cr.puts "</thead>").cr.puts "<tbody>")
          ⟨.text, lit "tbody" :: lit "table" :: opened⟩ none ix := body.cr.puts rfl
      obtain ⟨r', all, written'⟩ := written_writeRows table nested 1 rows inBody
      refine ⟨(r'.cr.puts "</tbody>").cr, ?_, (written'.cr.puts rfl).cr⟩
      rw [all]
      rfl
  refine ⟨(r₂.cr.puts "</table>").cr, ?_, (written₂.cr.puts rfl).cr⟩
  unfold writeTable
  dsimp only
  rw [first, render_bind, second]
  rfl

/-! ### Tables that are built -/

variable {self : Nat} {parseOptions : Options} {bytes : Nat}

/-- Whatever the flags were before, a table that was built is written as a head with its first row and, if there
are other rows, a body with these. Afterwards both flags are clear. -/
theorem renderHtmlTable_built (built : Built self parseOptions table bytes) (place : Place)
    (contents : Nat → Nat → Forest) (s : HtmlTable) :
    ∃ header rows, table.rows = header :: rows ∧
      renderHtmlTable H place table contents s =
        (fun r => ⟨r, false, false⟩) <$>
          writeTable H table (cellVisits place table contents) header rows s.renderer := by
  obtain ⟨header, rows, eq, isHeader, body⟩ := built.grid.header
  exact ⟨header, rows, eq, renderHtmlTable_eq place contents s eq isHeader body⟩

/-- The table of the example, with no inlines. -/
theorem renderHtmlTable_built_example : ∃ header rows, exampleTable.rows = header :: rows ∧
    renderHtmlTable noFilters {} exampleTable (fun _ _ => []) ⟨{}, true, true⟩ =
      (fun r => ⟨r, false, false⟩) <$>
        writeTable noFilters exampleTable (cellVisits {} exampleTable fun _ _ => []) header rows {} :=
  renderHtmlTable_built built_exampleTable {} (fun _ _ => []) ⟨{}, true, true⟩

/-- The HTML of a table that was built is nested, with the inlines of its cells, and nothing in it that comes from
the document can be taken for markup. -/
theorem renderHtmlTable_written {P : Config} (safe : H.options.has optUnsafe = false)
    (built : Built self parseOptions table bytes) (place : Place) {contents : Nat → Nat → Forest}
    (renderable : ∀ i j, AllList (Renderable P H) (contents i j))
    (inlines : ∀ i j, ∀ n ∈ contents i j, n.type ≠ .document ∧ n.type ≠ .footnoteDefinition) (s : HtmlTable)
    (written : Written s.renderer ⟨.text, opened⟩ none ix) :
    ∃ s', renderHtmlTable H place table contents s = .ok s' ∧ Written s'.renderer ⟨.text, opened⟩ none ix := by
  have nested (i j : Nat) : WritesNested H (cellVisits place table contents i j) := by
    unfold cellVisits
    split
    next => exact fun r _ _ written => ⟨r, rfl, written⟩
    next =>
      split
      next => exact fun r _ _ written => ⟨r, rfl, written⟩
      next => exact writesNested_visitsFrom safe _ (renderable i j) (inlines i j)
  obtain ⟨header, rows, -, writes⟩ := renderHtmlTable_built (H := H) built place contents s
  obtain ⟨r', wrote, written'⟩ := written_writeTable table nested header rows written
  refine ⟨⟨r', false, false⟩, ?_, written'⟩
  rw [writes, wrote]
  rfl

/-- A cell with text, for the example. -/
def exampleText : Node := .mk 5 { type := .text, as := .literal (lit "<td>") } []

theorem all_exampleText : AllList (Renderable { tables := asciiTables, options := 0 } noFilters) [exampleText] := by
  have core : CoreNode 5 exampleText.data [] := ⟨.inr (by decide), by simp⟩
  have other : exampleText.data.type ≠ .footnoteReference := by decide
  have checked : CheckedNode { tables := asciiTables, options := 0 } 5 exampleText.data [] :=
    { toCoreNode := core, toBlockData := .other (by decide) (by decide), reference := fun type => absurd type other }
  exact ⟨⟨⟨⟨checked, by simp⟩, fun type => absurd type other⟩, trivial⟩, trivial⟩

theorem renderHtmlTable_written_example :
    ∃ s', renderHtmlTable noFilters {} exampleTable (fun _ _ => [exampleText]) ⟨{}, false, false⟩ = .ok s' ∧
      Written s'.renderer ⟨.text, []⟩ none 0 := by
  refine renderHtmlTable_written (by decide) built_exampleTable {} (fun _ _ => all_exampleText) ?_ ⟨{}, false, false⟩
    ⟨rfl, by simp, rfl, rfl⟩
  intro i j n member
  rw [List.mem_singleton.mp member]
  exact ⟨by decide, by decide⟩

end Table

end CmarkGfm
