import CmarkGfm.Properties.TableRuns

/-!
# The tables of a document

In the finished document the rows and cells of a table are where the block parser has linked them. Parsing inlines
fills the cells, resolving footnotes and merging texts change what is below the cells, and none of them writes to
`as.opaque`. So every table of a document is one that is built.
-/

namespace CmarkGfm

namespace Table

/-- What is in `as.opaque` of the node of a row and its cells. -/
def rowLayout (row : Node) : Bool × List (Option CellData) :=
  (isHeaderRow row.data, row.children.map fun cell => getCellData cell.data)

/-- What is in `as.opaque` of the node of a table and below it. -/
def tableLayout (table : Node) : TableData × List (Bool × List (Option CellData)) :=
  (getTable table.data, table.children.map rowLayout)

/-- A node of a tree that has been made of these blocks: what is part of a table is where the blocks have it. -/
structure TablePlaced (p : ParserState) (i : NodeId) (d : NodeData) (cs : Forest) : Prop where
  part : isTablePart d.type → p.typeOf i = d.type ∧ d.as = (p.dataOf i).as
  children : d.type = tableType ∨ d.type = rowType → cs.map Node.id = p.childrenOf i
  row : d.type = tableType → ∀ c ∈ cs, c.type = rowType
  cell : d.type = rowType → ∀ c ∈ cs, c.type = cellType
  definition : d.type = .footnoteDefinition → p.typeOf i = .footnoteDefinition
  text : d.type = .text → cs = []

section

variable {T : Tables} {options : Options} {p : ParserState} {i : NodeId} {d : NodeData} {cs : Forest}

/-! ### The layout in the tree -/

theorem rowLayout_of_placed {row : Node} (placed : row.All (TablePlaced p)) (isRow : row.type = rowType) :
    rowLayout row = (rowNode p row.id).layout := by
  have cells : ∀ cell ∈ row.children, getCellData cell.data = (cellNode p cell.id).opaqueData := by
    intro cell member
    have isCell := placed.here.cell isRow cell member
    have same := ((allList_iff.mp placed.below cell member).here.part (.inr (.inr isCell))).2
    change getCellData _ = getCellData _
    rw [getCellData, getCellData, same]
  have same := (placed.here.part (.inr (.inl isRow))).2
  simp only [rowLayout, RowNode.layout, rowNode, isHeaderRow, same, ← placed.here.children (.inr isRow), List.map_map]
  exact congrArg _ (List.map_congr_left cells)

theorem tableLayout_of_placed {table : Node} (placed : table.All (TablePlaced p)) (isTable : table.type = tableType) :
    tableLayout table = (tableNode p table.id).layout := by
  have rows : ∀ row ∈ table.children, rowLayout row = (rowNode p row.id).layout := fun row member =>
    rowLayout_of_placed (allList_iff.mp placed.below row member) (placed.here.row isTable row member)
  have same := (placed.here.part (.inl isTable)).2
  simp only [tableLayout, TableNode.layout, tableNode, getTable, same, ← placed.here.children (.inl isTable), List.map_map]
  exact congrArg _ (List.map_congr_left rows)

/-! ### What is done to the tree -/

theorem TablePlaced.of_inline (inline : d.type.isCoreInline) (text : d.type = .text → cs = []) : TablePlaced p i d cs := by
  have other {t : NodeType} (type : d.type = t) (differs : t.isCoreInline = false) : False := by
    rw [type, differs] at inline
    cases inline
  refine ⟨?_, ?_, fun isTable => (other isTable rfl).elim, fun isRow => (other isRow rfl).elim,
    fun definition => (other definition rfl).elim, text⟩
  · rintro (type | type | type) <;> exact (other type rfl).elim
  · rintro (type | type) <;> exact (other type rfl).elim

/-- What is below a node that is neither a table nor a row. -/
theorem TablePlaced.regraft (placed : TablePlaced p i d cs)
    (free : d.type ≠ tableType ∧ d.type ≠ rowType ∧ d.type ≠ .text) (cs' : Forest) : TablePlaced p i d cs' where
  part := placed.part
  children := fun part => (part.elim free.1 free.2.1).elim
  row := fun isTable => absurd isTable free.1
  cell := fun isRow => absurd isRow free.2.1
  definition := placed.definition
  text := fun isText => absurd isText free.2.2

/-- Children with the same addresses and data. -/
theorem TablePlaced.of_labels (placed : TablePlaced p i d cs) {cs' : Forest}
    (same : cs'.map Node.label = cs.map Node.label) : TablePlaced p i d cs' := by
  have types {t : NodeType} (all : ∀ c ∈ cs, c.type = t) : ∀ c ∈ cs', c.type = t := by
    intro c member
    obtain ⟨c', among, label⟩ := List.mem_map.mp (same ▸ List.mem_map_of_mem member)
    exact (congrArg (fun l => l.2.type) label).symm.trans (all c' among)
  have ids : cs'.map Node.id = cs.map Node.id := by
    have first := congrArg (List.map Prod.fst) same
    rwa [List.map_map, List.map_map] at first
  refine ⟨placed.part, fun part => ids.trans (placed.children part), fun isTable => types (placed.row isTable),
    fun isRow => types (placed.cell isRow), placed.definition, fun text => ?_⟩
  rw [placed.text text] at same
  exact List.map_eq_nil_iff.mp same

/-- Definitions of footnotes are no children of a part of a table, and neither are references. -/
theorem stable_tablePlaced (links : TableLinks 0 p) : Stable (TablePlaced p) where
  children {gone i d cs cs'} placed unlinked pruned := by
    -- what is gone is a definition, and no row or cell is one
    have apart {t : NodeType} (child : ∀ c ∈ p.childrenOf i, p.typeOf c = t) (differs : t ≠ .footnoteDefinition)
        (same : cs.map Node.id = p.childrenOf i) : ∀ c ∈ cs, c.id ∉ gone := by
      intro c member isGone
      obtain ⟨e, below, other, definition⟩ := unlinked c.id isGone
      exact differs ((child c.id (same ▸ List.mem_map_of_mem member)).symm.trans (other.definition definition))
    have rows (isTable : d.type = tableType) : (∀ c ∈ cs', c.type = rowType) ∧ cs'.map Node.id = cs.map Node.id := by
      have type := (placed.part (.inl isTable)).1.trans isTable
      exact pruned.of_plain (by decide) (placed.row isTable)
        (apart (fun c => links.row type) (by decide) (placed.children (.inl isTable)))
    have cells (isRow : d.type = rowType) : (∀ c ∈ cs', c.type = cellType) ∧ cs'.map Node.id = cs.map Node.id := by
      have type := (placed.part (.inr (.inl isRow))).1.trans isRow
      exact pruned.of_plain (by decide) (placed.cell isRow)
        (apart (fun c => links.cell type) (by decide) (placed.children (.inr isRow)))
    refine ⟨placed.part, ?_, fun isTable => (rows isTable).1, fun isRow => (cells isRow).1, placed.definition, ?_⟩
    · rintro (isTable | isRow)
      · exact (rows isTable).2.trans (placed.children (.inl isTable))
      · exact (cells isRow).2.trans (placed.children (.inr isRow))
    · intro isText
      rw [placed.text isText] at pruned
      refine List.eq_nil_iff_forall_not_mem.mpr fun c member => ?_
      rcases pruned.stems c member with ⟨c', impossible, _⟩ | ⟨_, c', impossible, _⟩ <;> cases impossible
  text type := .of_inline (type ▸ rfl) fun _ => rfl
  counts _ placed := ⟨placed.part, placed.children, placed.row, placed.cell, placed.definition, placed.text⟩
  reference _ _ type := .of_inline (type ▸ rfl) fun _ => rfl

/-! ### The tree of the blocks -/

theorem containsInlines_table (contains : containsInlines (tableParser T options) d = true) :
    d.type = .paragraph ∨ d.type = .heading ∨ d.type = cellType := by
  unfold containsInlines at contains
  rw [extensionOf_table] at contains
  split_ifs at contains
  · exact .inr (.inr (of_decide_eq_true contains))
  · simp only [Option.bind_none, Bool.or_eq_true, decide_eq_true_eq] at contains
    exact contains.imp_right .inl

/-- The tree has each block where it is. A block is deeper than its parent, so there is fuel enough. -/
theorem tablePlaced_toTree (links : TableLinks 0 p) (fuel : Nat) (i : NodeId) (enough : p.nextId ≤ fuel + i) :
    (toTree p fuel i).All fun i d cs =>
      TablePlaced p i d cs ∧ (containsInlines (tableParser T options) d = true → cs = []) := by
  have placed {i : NodeId} {cs : Forest} (ids : cs.map Node.id = p.childrenOf i) (types : ∀ c ∈ cs, c.type = p.typeOf c.id) :
      TablePlaced p i (p.dataOf i) cs ∧ (containsInlines (tableParser T options) (p.dataOf i) = true → cs = []) := by
    have child {c : Node} (member : c ∈ cs) : c.id ∈ p.childrenOf i := ids ▸ List.mem_map_of_mem member
    have leaf (text : holdsText (p.typeOf i)) : cs = [] := by
      rw [links.leaf text] at ids
      exact List.map_eq_nil_iff.mp ids
    refine ⟨⟨fun _ => ⟨rfl, rfl⟩, fun _ => ids, ?_, ?_, id, fun text => leaf (.inr (.inr (.inr text)))⟩,
      fun contains => leaf ((containsInlines_table contains).imp_right (.imp_right .inl))⟩
    · exact fun isTable c member => (types c member).trans (links.row isTable (child member))
    · exact fun isRow c member => (types c member).trans (links.cell isRow (child member))
  induction fuel generalizing i with
  | zero =>
    -- the addresses are used up, so there is no block here
    have none : p.childrenOf i = [] := by
      refine List.eq_nil_iff_forall_not_mem.mpr fun c member => ?_
      have inside : i < p.nextId := (links.child member).2.2.trans (links.child_lt member)
      exact absurd (enough.trans (Nat.zero_add i).le) (Nat.not_le.mpr inside)
    exact ⟨placed (by rw [none]; rfl) (List.forall_mem_nil _), trivial⟩
  | succ fuel ih =>
    have id (j : NodeId) : (toTree p fuel j).id = j := by cases fuel <;> rfl
    refine ⟨placed ?_ ?_, ?_⟩
    · rw [List.map_map]
      exact (List.map_congr_left fun j _ => id j).trans (List.map_id _)
    · refine List.forall_mem_map.mpr fun j _ => ?_
      rw [type_toTree, id]
    · rw [allList_iff, List.forall_mem_map]
      intro j member
      have deeper : fuel + (i + 1) ≤ fuel + j := Nat.add_le_add_left (links.child member).2.2 fuel
      exact ih j ((enough.trans (Nat.succ_add_eq_add_succ fuel i).le).trans deeper)

/-! ### The finished document -/

/-- Every table of a document is one that is built, unless an assertion has failed. -/
theorem documentOf_tables (T : Tables) (options : Options) (callback : Option (UInt8 → Bool)) (chunks : List Bytes)
    (holds : (finalizeBlocks (tableParser T options) (flushedParser (tableParser T options) callback chunks).state).asserts = true) :
    ∀ n ∈ (documentOf (tableParser T options) callback chunks).postorder, n.type = tableType →
      ∃ table bytes, Built 0 options table bytes ∧ tableLayout n = table.layout := by
  let p := finalizeBlocks (tableParser T options) (flushedParser (tableParser T options) callback chunks).state
  have tables : TablesBuilt 0 options p := tablesBuilt_finalizeBlocks callback chunks holds
  have eq : documentBlocks (tableParser T options) callback chunks = toTree p p.nextId p.root := by
    have state : (flushedParser (tableParser T options) callback chunks).state = _ := flushedState_eq _ callback chunks
    rw [documentBlocks_eq, ← state]
  -- definitions are linked behind the children of the document, which is no table
  have document : (documentBlocks (tableParser T options) callback chunks).type = .document := by
    rw [eq, type_toTree, tables.links.root]
  have placed : (documentOf (tableParser T options) callback chunks).All (TablePlaced p) := by
    refine documentOf_stable (P := tableParser T options) rfl ?_ (stable_tablePlaced tables.links) TablePlaced.text
      TablePlaced.of_inline ?_ And.right ?_ (eq ▸ tablePlaced_toTree tables.links p.nextId p.root (Nat.le_add_right _ _))
    · intro e member
      rw [List.mem_singleton.mp member]
      rfl
    · -- inlines are parsed in paragraphs, headings and cells only
      rintro i d cs cs' ⟨placed, -⟩ (text | same)
      · refine placed.regraft ?_ cs'
        rcases containsInlines_table text with type | type | type <;> rw [type] <;> decide
      · exact placed.of_labels same
    · intro i d cs used placed type _
      refine placed.regraft ?_ _
      rw [type, document]
      decide
  intro n member isTable
  have here := Node.All.of_mem _ placed member
  obtain ⟨table, bytes, built, same⟩ := tables.built n.id ((here.here.part (.inl isTable)).1.trans isTable)
  exact ⟨table, bytes, built, (tableLayout_of_placed here isTable).trans same⟩

end

/-- A row that lacks a cell, and one that goes on with the cell above. -/
def spanDocument : Bytes := lit "| a | b |\n| - | -: |\n| c |\n| ^ | d |\n"

theorem documentOf_tables_spanDocument :
    let P := tableParser asciiTables optTableSpans
    (∀ n ∈ (documentOf P none [spanDocument]).postorder, n.type = tableType →
        ∃ table bytes, Built 0 optTableSpans table bytes ∧ tableLayout n = table.layout) ∧
      ((documentOf P none [spanDocument]).exits tableType).map tableLayout =
        [(⟨2, [0, 114], 3, 5⟩, [(true, [some ⟨1, 1, 0⟩, some ⟨1, 1, 1⟩]), (false, [some ⟨1, 2, 0⟩, none]),
          (false, [some ⟨1, 0, 0⟩, some ⟨1, 1, 1⟩])])] :=
  ⟨documentOf_tables asciiTables optTableSpans none [spanDocument] (by decide +kernel), by decide +kernel⟩

end Table

end CmarkGfm
