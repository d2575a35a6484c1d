import CmarkGfm.Properties.TableBlocks

/-!
# Tables while a document is read

At any time, every table among the blocks is one that is built from its header and its rows. Positions and flags of
its nodes may have changed since, but not what is in `as.opaque`.
-/

namespace CmarkGfm

namespace Table

/-! ### The layout of a table -/

/-- What is in `as.opaque` of a row and its cells. -/
def RowNode.layout (row : RowNode) : Bool × List (Option CellData) := (row.isHeader, row.cells.map (·.opaqueData))

/-- What is in `as.opaque` of a table and below it. -/
def TableNode.layout (table : TableNode) : TableData × List (Bool × List (Option CellData)) :=
  (⟨table.nColumns, table.alignments, table.nRows, table.nNonemptyCells⟩, table.rows.map RowNode.layout)

section

variable {self : Nat} {options : Options} {p p' : ParserState} {table table' : TableNode} {above above' : List RowNode}

theorem rowspanAt_of_layout {row row' : RowNode} (same : row.layout = row'.layout) (i : Nat) :
    row.rowspanAt i = row'.rowspanAt i := by
  have read (row : RowNode) : row.rowspanAt i = (row.layout.2[i]?).map fun o => o.elim 1 (·.rowspan) := by
    rw [RowNode.rowspanAt, RowNode.layout, List.getElem?_map, Option.map_map]
    rfl
  rw [read, read, same]

theorem layout_extendSpan (i : Nat) (row : RowNode) : (row.extendSpan i).layout =
    (row.layout.1, row.layout.2.modify i (Option.map fun d => { d with rowspan := d.rowspan + 1 })) := by
  refine Prod.ext rfl (List.ext_getElem? fun j => ?_)
  simp only [RowNode.layout, RowNode.extendSpan, List.getElem?_map, List.getElem?_modify]
  cases row.cells[j]? with
  | none => rfl
  | some cell => split_ifs <;> rfl

theorem spanRow_layout (same : above.map RowNode.layout = above'.map RowNode.layout) (i : Nat) :
    (spanRow i above).map (List.map RowNode.layout) = (spanRow i above').map (List.map RowNode.layout) := by
  induction above generalizing above' with
  | nil =>
    rw [List.map_eq_nil_iff.mp same.symm]
  | cons row above ih =>
    cases above' with
    | nil => cases same
    | cons row' above' =>
      obtain ⟨first, rest⟩ := List.cons.inj same
      rw [spanRow, spanRow, rowspanAt_of_layout first]
      split_ifs
      · have further := ih rest
        cases found : spanRow i above <;> cases found' : spanRow i above' <;> rw [found, found'] at further
        · rfl
        · cases further
        · cases further
        · simp only [Option.map_some, List.map_cons, first, Option.some.inj further]
      · have grown : (row.extendSpan i).layout = (row'.extendSpan i).layout := by
          rw [layout_extendSpan, layout_extendSpan, first]
        exact congrArg some (congrArg₂ List.cons grown rest)

theorem spanRows_layout (cells : List RowCell) (i : Nat) (same : above.map RowNode.layout = above'.map RowNode.layout) :
    (spanRows i cells above).1 = (spanRows i cells above').1 ∧
      (spanRows i cells above).2.map RowNode.layout = (spanRows i cells above').2.map RowNode.layout := by
  induction cells generalizing i above above' with
  | nil => exact ⟨rfl, same⟩
  | cons cell rest ih =>
    have behind {rows rows' : List RowNode} {cell : RowCell} (same : rows.map RowNode.layout = rows'.map RowNode.layout) :
        cell :: (spanRows (i + 1) rest rows).1 = cell :: (spanRows (i + 1) rest rows').1 ∧
          (spanRows (i + 1) rest rows).2.map RowNode.layout = (spanRows (i + 1) rest rows').2.map RowNode.layout := by
      obtain ⟨first, second⟩ := ih (i + 1) same
      exact ⟨by rw [first], second⟩
    rw [spanRows, spanRows]
    by_cases marker : cell.rowspan = 0
    · simp only [marker, if_true]
      have grown := spanRow_layout same i
      cases found : spanRow i above <;> cases found' : spanRow i above' <;> rw [found, found'] at grown
      · exact behind same
      · cases grown
      · cases grown
      · exact behind (Option.some.inj grown)
    · simp only [marker, if_false]
      exact behind same

theorem mergedCells_layout {rows rows' : List RowNode} (same : rows.map RowNode.layout = rows'.map RowNode.layout)
    (cells : List RowCell) : mergedCells options cells rows = mergedCells options cells rows' ∧
      (spannedRows options cells rows).map RowNode.layout = (spannedRows options cells rows').map RowNode.layout := by
  have reversed : rows.reverse.map RowNode.layout = rows'.reverse.map RowNode.layout := by
    rw [List.map_reverse, List.map_reverse, same]
  obtain ⟨merged, spanned⟩ := spanRows_layout cells 0 reversed
  unfold mergedCells spannedRows
  split_ifs
  · refine ⟨merged, ?_⟩
    rw [List.map_reverse, List.map_reverse, spanned]
  · exact ⟨rfl, same⟩

theorem layout_newRow (cells : List RowCell) : (newRow self p table cells).layout =
    (false, (cells.mapIdx fun i cell => some ⟨cell.colspan, cell.rowspan, i⟩) ++
      List.replicate (table.nColumns - cells.length) none) := by
  refine Prod.ext rfl ?_
  change List.map _ (_ ++ _) = _
  rw [List.map_append, List.map_replicate]
  refine congrArg (· ++ _) (List.ext_getElem? fun i => ?_)
  rw [List.getElem?_map, List.getElem?_mapIdx, List.getElem?_mapIdx, Option.map_map]
  rfl

/-- What a row adds to the layout of a table depends on the layout alone. -/
theorem layout_addRow (same : table.layout = table'.layout) (cells : List RowCell) :
    (addRow self options p table cells).layout = (addRow self options p' table' cells).layout := by
  obtain ⟨data, rows⟩ := Prod.ext_iff.mp same
  have nColumns : table.nColumns = table'.nColumns := congrArg TableData.nColumns data
  obtain ⟨merged, spanned⟩ := mergedCells_layout rows (cells.take table.nColumns)
  rw [nColumns] at merged spanned
  refine Prod.ext ?_ ?_
  · change TableData.incrRowCount table.layout.1 (mergedCells options (cells.take table.nColumns) table.rows).length =
      TableData.incrRowCount table'.layout.1 (mergedCells options (cells.take table'.nColumns) table'.rows).length
    rw [same, nColumns, merged]
  · change List.map _ (_ ++ [newRow ..]) = List.map _ (_ ++ [newRow ..])
    rw [List.map_append, List.map_append, List.map_singleton, List.map_singleton, layout_newRow, layout_newRow, nColumns,
      merged, spanned]

/-! ### The steps of the parser -/

theorem layout_congr {t : NodeId} (as : ∀ i, InTable p t i → (p'.dataOf i).as = (p.dataOf i).as)
    (children : ∀ i, InTable p t i → p'.childrenOf i = p.childrenOf i) :
    (tableNode p' t).layout = (tableNode p t).layout := by
  have row : ∀ row ∈ p.childrenOf t, (rowNode p' row).layout = (rowNode p row).layout := by
    intro row inTable
    have cells : ∀ c ∈ p.childrenOf row, (cellNode p' c).opaqueData = (cellNode p c).opaqueData := by
      intro c inRow
      change getCellData _ = getCellData _
      rw [getCellData, getCellData, as c (.inr ⟨row, inTable, .inr inRow⟩)]
    simp only [RowNode.layout, rowNode, isHeaderRow, as row (.inr ⟨row, inTable, .inl rfl⟩),
      children row (.inr ⟨row, inTable, .inl rfl⟩), List.map_map]
    exact congrArg _ (List.map_congr_left cells)
  simp only [TableNode.layout, tableNode, getTable, as t (.inl rfl), children t (.inl rfl), List.map_map]
  exact congrArg _ (List.map_congr_left row)

/-- Every table among the blocks has the layout of one that is built. -/
structure TablesBuilt (ext : Nat) (options : Options) (p : ParserState) : Prop where
  links : TableLinks ext p
  built : ∀ t, p.typeOf t = tableType →
    ∃ table bytes, Built ext options table bytes ∧ (tableNode p t).layout = table.layout

theorem TablesBuilt.of_frame (tables : TablesBuilt self options p) (links : TableLinks self p')
    (types : ∀ t, p'.typeOf t = tableType → p.typeOf t = tableType)
    (layouts : ∀ t, p.typeOf t = tableType → (tableNode p' t).layout = (tableNode p t).layout) :
    TablesBuilt self options p' := by
  refine ⟨links, fun t isTable => ?_⟩
  obtain ⟨table, bytes, built, same⟩ := tables.built t (types t isTable)
  exact ⟨table, bytes, built, (layouts t (types t isTable)).trans same⟩

theorem TablesBuilt.of_opensTable (tables : TablesBuilt self options p) {c : NodeId} {t : TableNode}
    (opens : OpensTable self c t p p')
    (built : ∃ table bytes, Built self options table bytes ∧ t.layout = table.layout) : TablesBuilt self options p' := by
  refine ⟨opens.links, fun t' isTable => ?_⟩
  by_cases here : t' = c
  · rw [here, opens.reads]
    exact built
  · have isTable := (opens.tables t' isTable).resolve_left here
    rw [opens.others t' isTable here]
    exact tables.built t' isTable

/-- Editing data: only paragraphs get another type, and what is part of a table stays what it is. -/
theorem TablesBuilt.edit (tables : TablesBuilt self options p) {i : NodeId} {f : NodeData → NodeData}
    (types : ∀ b, p.nodes i = some b → (f b.data).type = b.data.type ∨ b.data.type = .paragraph)
    (parts : ∀ b, p.nodes i = some b → isTablePart (f b.data).type →
      (f b.data).type = b.data.type ∧ (f b.data).as = b.data.as ∧ (f b.data).extension = b.data.extension) :
    TablesBuilt self options (p.modifyData i f) := by
  have links := tables.links
  cases block : p.nodes i with
  | none =>
    have same : (p.modifyData i f).nodes = p.nodes := by
      funext j
      rw [nodes_modifyData]
      split_ifs with here
      · rw [here, block]
        rfl
      · rfl
    refine tables.of_frame (links.of_nodes same rfl rfl) (fun t isTable => ?_) fun t _ => ?_
    · rw [ParserState.typeOf, dataOf_congr (congrFun same t)] at isTable
      exact isTable
    · rw [tableNode_of_nodes same]
  | some b =>
    have here : (p.nodes i).isSome = true := by rw [block]; rfl
    have data : p.dataOf i = b.data := by rw [ParserState.dataOf, ParserState.block, block]; rfl
    have dataOf (j : NodeId) : (p.modifyData i f).dataOf j = if j = i then f b.data else p.dataOf j := by
      rw [dataOf_modifyData here]
      split_ifs with same
      · rw [same, data]
      · rfl
    -- what is part of a table has been so before
    have part {j : NodeId} (isPart : isTablePart ((p.modifyData i f).typeOf j)) :
        (p.modifyData i f).typeOf j = p.typeOf j ∧ ((p.modifyData i f).dataOf j).as = (p.dataOf j).as ∧
          ((p.modifyData i f).dataOf j).extension = (p.dataOf j).extension := by
      rw [ParserState.typeOf, dataOf] at isPart ⊢
      split_ifs at isPart ⊢ with same
      · rw [same, ParserState.typeOf, data]
        exact parts b block isPart
      · exact ⟨rfl, rfl, rfl⟩
    have type (j : NodeId) : (p.modifyData i f).typeOf j = p.typeOf j ∨ p.typeOf j = .paragraph := by
      rw [ParserState.typeOf, dataOf]
      split_ifs with same
      · rw [same, ParserState.typeOf, data]
        exact types b block
      · exact .inl rfl
    refine tables.of_frame ?_ (fun t isTable => ?_) fun t isTable => ?_
    · refine links.retype rfl rfl (fun _ => isSome_modifyData) (fun _ => childrenOf_modifyData)
        (fun _ => parentOf_modifyData) type fun j isPart => ?_
      obtain ⟨same, -, extension⟩ := part isPart
      exact extension.trans (links.own (same ▸ isPart))
    · exact ((part (.inl isTable)).1).symm.trans isTable
    · refine layout_congr (fun j inside => ?_) fun _ _ => childrenOf_modifyData
      have isPart := links.isTablePart_of_inTable isTable inside
      have kept : (p.modifyData i f).typeOf j = p.typeOf j := (type j).resolve_right fun paragraph => by
        rw [paragraph] at isPart
        exact absurd isPart (by unfold isTablePart; decide)
      exact (part (kept ▸ isPart)).2.1

/-- A callback of the extension opens a header or a row, or tries to. -/
def Opens (self : Nat) (options : Options) (p p' : ParserState) : Prop :=
  ∃ container input,
    (p.typeOf container = .paragraph ∧ p' = tryOpeningTableHeaderAt self options p container input) ∨
    (p.typeOf container = tableType ∧ p' = (tryOpeningTableRowAt self options p container input).1)

/-- A row for a table is a row for every table of the same layout. -/
theorem built_row_of_layout {input : Bytes} {table t : TableNode} {q : ParserState} {bytes : Nat}
    (built : Built self options table bytes) (same : t.layout = table.layout)
    (opened : tryOpeningTableRow self options p t input = some (q, table')) :
    ∃ table₁ bytes, Built self options table₁ bytes ∧ table'.layout = table₁.layout := by
  obtain ⟨-, notBlank, -⟩ := tryOpeningTableRow_isSome_iff.mp (by rw [opened]; rfl)
  obtain ⟨few, row, read, rfl⟩ := tryOpeningTableRow_some opened
  have few' : table.layout.1.nAutocompletedCells ≤ maxAutocompletedCells := same ▸ few
  exact ⟨_, _, .row built (tryOpeningTableRow_eq self notBlank few' read), layout_addRow same row.cells⟩

theorem TablesBuilt.opens (tables : TablesBuilt self options p) (opens : Opens self options p p') :
    TablesBuilt self options p' := by
  obtain ⟨c, input, ⟨paragraph, rfl⟩ | ⟨isTable, rfl⟩⟩ := opens
  · -- a paragraph: the table that its last line opens is the first of a run
    have spec := tryOpeningTableHeaderAt_spec tables.links paragraph options input
    cases opened : tryOpeningTableHeader self options p (p.dataOf c) (p.dataOf c).tableVisited (takesTable p c) input with
    | unchanged =>
      rw [opened] at spec
      rw [show tryOpeningTableHeaderAt self options p c input = p from spec]
      exact tables
    | visited =>
      rw [opened] at spec
      rw [show tryOpeningTableHeaderAt self options p c input = _ from spec]
      exact tables.edit (fun _ _ => .inl rfl) fun _ _ _ => ⟨rfl, rfl, rfl⟩
    | table before t q =>
      rw [opened] at spec
      exact tables.of_opensTable spec ⟨t, _, .opens opened, rfl⟩
  · -- a table: what it has been built with goes on with the new row
    have spec := tryOpeningTableRowAt_spec tables.links isTable options input
    cases opened : tryOpeningTableRow self options p (tableNode p c) input with
    | none =>
      rw [opened] at spec
      rw [spec]
      exact tables
    | some result =>
      obtain ⟨q, t⟩ := result
      rw [opened] at spec
      obtain ⟨table, bytes, built, same⟩ := tables.built c isTable
      exact tables.of_opensTable spec.2 (built_row_of_layout built same opened)

/-- A callback makes no assertion. -/
theorem Opens.asserts (opens : Opens self options p p') : p'.asserts = p.asserts := by
  obtain ⟨c, input, ⟨-, rfl⟩ | ⟨-, rfl⟩⟩ := opens
  · exact asserts_tryOpeningTableHeaderAt ..
  · exact asserts_tryOpeningTableRowAt ..

/-! ### The steps of the block parser -/

/-- Flags and positions of blocks are nothing to a table. -/
theorem TablesBuilt.quiet (tables : TablesBuilt self options p) (shape : p'.shape = p.shape) (root : p'.root = p.root)
    (nextId : p'.nextId = p.nextId) : TablesBuilt self options p' := by
  have same (i : NodeId) : (p'.nodes i).isSome = (p.nodes i).isSome ∧ p'.typeOf i = p.typeOf i ∧
      (p'.dataOf i).as = (p.dataOf i).as ∧ (p'.dataOf i).extension = (p.dataOf i).extension ∧
      p'.childrenOf i = p.childrenOf i ∧ p'.parentOf i = p.parentOf i := by
    have here := congrFun shape i
    unfold ParserState.shape at here
    unfold ParserState.typeOf ParserState.dataOf ParserState.childrenOf ParserState.parentOf ParserState.block
    cases before : p.nodes i <;> cases after : p'.nodes i <;> rw [before, after] at here
    · exact ⟨rfl, rfl, rfl, rfl, rfl, rfl⟩
    · cases here
    · cases here
    · have equal := Option.some.inj here
      exact ⟨rfl, congrArg BlockShape.type equal, congrArg BlockShape.as equal, congrArg BlockShape.extension equal,
        congrArg BlockShape.children equal, congrArg BlockShape.parent equal⟩
  refine tables.of_frame ?_ (fun t isTable => (same t).2.1 ▸ isTable) fun t _ =>
    layout_congr (fun i _ => (same i).2.2.1) fun i _ => (same i).2.2.2.2.1
  exact tables.links.retype nextId root (fun i => (same i).1) (fun i => (same i).2.2.2.2.1) (fun i => (same i).2.2.2.2.2)
    (fun i => .inl (same i).2.1) fun i part => (same i).2.2.2.1.trans (tables.links.own ((same i).2.1 ▸ part))

/-- A new block outside of tables. -/
theorem TablesBuilt.append (tables : TablesBuilt self options p) {parent : NodeId} {data : NodeData}
    (here : (p.nodes parent).isSome = true) (notPart : ¬ isTablePart (p.typeOf parent))
    (notText : ¬ holdsText (p.typeOf parent)) (newBlock : ¬ isTablePart data.type) :
    TablesBuilt self options (p.appendBlock parent data).1 := by
  have links := tables.links
  refine tables.of_frame ?_ ?_ fun t isTable => congrArg TableNode.layout (tableNode_congr ?_ ?_)
  · exact links.append here notText (fun isTable => absurd (.inl isTable) notPart)
      (fun isRow => absurd (.inr (.inl isRow)) notPart)
      fun part => absurd part newBlock
  · exact fun t isTable => tables_append (fun isTable => newBlock (.inl isTable)) isTable
  · intro i inside
    rw [dataOf_appendBlock, if_neg (lt_of_inTable links isTable inside).ne]
  · intro i inside
    rw [childrenOf_appendBlock here, if_neg (lt_of_inTable links isTable inside).ne, if_neg]
    rintro rfl
    exact notPart (links.isTablePart_of_inTable isTable inside)

theorem nodes_freeBlock_of_links (links : TableLinks self p) (i j : NodeId) : (p.freeBlock i).nodes j =
    if j = i then none else (p.nodes j).map fun b => { b with children := b.children.filter (· != i) } := by
  -- where it is no child there is nothing to be dropped
  have apart (absent : i ∉ p.childrenOf j) :
      (p.nodes j).map (fun b => { b with children := b.children.filter (· != i) }) = p.nodes j := by
    cases block : p.nodes j with
    | none => rfl
    | some b =>
      rw [ParserState.childrenOf, ParserState.block, block] at absent
      have all : b.children.filter (· != i) = b.children := List.filter_eq_self.mpr fun c member => by
        rw [bne_iff_ne]
        rintro rfl
        exact absent member
      rw [Option.map_some, all]
  unfold ParserState.freeBlock
  dsimp only
  split_ifs with here
  · rfl
  · cases up : p.parentOf i with
    | none =>
      refine (apart fun member => ?_).symm
      rw [(links.child member).2.1] at up
      cases up
    | some parent =>
      dsimp only
      rw [nodes_modify]
      split_ifs with isParent
      · rw [isParent]
      · refine (apart fun member => ?_).symm
        rw [(links.child member).2.1] at up
        exact isParent (Option.some.inj up)

section

variable (links : TableLinks self p) (i j : NodeId)

include links

theorem isSome_freeBlock : ((p.freeBlock i).nodes j).isSome = (!decide (j = i) && (p.nodes j).isSome) := by
  rw [nodes_freeBlock_of_links links]
  split_ifs with here <;> simp [here]

theorem dataOf_freeBlock : (p.freeBlock i).dataOf j = if j = i then default else p.dataOf j := by
  rw [ParserState.dataOf, ParserState.block, nodes_freeBlock_of_links links, ParserState.dataOf, ParserState.block]
  split_ifs
  · rfl
  · cases p.nodes j <;> rfl

theorem typeOf_freeBlock : (p.freeBlock i).typeOf j = if j = i then .none else p.typeOf j := by
  rw [ParserState.typeOf, dataOf_freeBlock links]
  split_ifs <;> rfl

theorem parentOf_freeBlock : (p.freeBlock i).parentOf j = if j = i then none else p.parentOf j := by
  rw [ParserState.parentOf, ParserState.block, nodes_freeBlock_of_links links, ParserState.parentOf, ParserState.block]
  split_ifs
  · rfl
  · cases p.nodes j <;> rfl

theorem childrenOf_freeBlock : (p.freeBlock i).childrenOf j = if j = i then [] else (p.childrenOf j).filter (· != i) := by
  rw [ParserState.childrenOf, ParserState.block, nodes_freeBlock_of_links links, ParserState.childrenOf, ParserState.block]
  split_ifs
  · rfl
  · cases p.nodes j <;> rfl

end

theorem frame_freeBlock (p : ParserState) (i : NodeId) :
    (p.freeBlock i).nextId = p.nextId ∧ (p.freeBlock i).root = p.root := by
  unfold ParserState.freeBlock
  dsimp only
  split <;> exact ⟨rfl, rfl⟩

theorem TableLinks.free (links : TableLinks self p) {i : NodeId} (paragraph : p.typeOf i = .paragraph) :
    TableLinks self (p.freeBlock i) := by
  obtain ⟨nextId, root⟩ := frame_freeBlock p i
  have member {j c : NodeId} (inside : c ∈ (p.freeBlock i).childrenOf j) : j ≠ i ∧ c ≠ i ∧ c ∈ p.childrenOf j := by
    rw [childrenOf_freeBlock links] at inside
    split_ifs at inside with here
    · cases inside
    · obtain ⟨before, differs⟩ := List.mem_filter.mp inside
      exact ⟨here, by simpa using differs, before⟩
  refine ⟨?_, ?_, ?_, ?_, ?_, ?_, ?_, ?_⟩
  · intro j here
    rw [nextId]
    rw [isSome_freeBlock links, Bool.and_eq_true] at here
    exact links.bound here.2
  · intro j c inside
    obtain ⟨-, differs, inside⟩ := member inside
    rw [isSome_freeBlock links, parentOf_freeBlock links, if_neg differs]
    exact ⟨by simpa [differs] using (links.child inside).1, (links.child inside).2⟩
  · intro j
    rw [childrenOf_freeBlock links]
    split_ifs
    · exact List.nodup_nil
    · exact (links.distinct j).filter _
  · intro j c isTable inside
    obtain ⟨notHere, differs, inside⟩ := member inside
    rw [typeOf_freeBlock links, if_neg notHere] at isTable
    rw [typeOf_freeBlock links, if_neg differs, links.row isTable inside]
  · intro j c isRow inside
    obtain ⟨notHere, differs, inside⟩ := member inside
    rw [typeOf_freeBlock links, if_neg notHere] at isRow
    rw [typeOf_freeBlock links, if_neg differs, links.cell isRow inside]
  · intro j isLeaf
    rw [childrenOf_freeBlock links]
    rw [typeOf_freeBlock links] at isLeaf
    split_ifs at isLeaf ⊢
    · rfl
    · rw [links.leaf isLeaf]
      rfl
  · intro j part
    rw [typeOf_freeBlock links] at part
    rw [dataOf_freeBlock links]
    split_ifs at part ⊢
    · exact absurd part (by unfold isTablePart; decide)
    · exact links.own part
  · have apart : p.root ≠ i := by
      rintro same
      rw [← same, links.root] at paragraph
      cases paragraph
    rw [typeOf_freeBlock links, root, if_neg apart, links.root]

/-- A paragraph is dropped. -/
theorem TablesBuilt.free (tables : TablesBuilt self options p) {i : NodeId} (paragraph : p.typeOf i = .paragraph) :
    TablesBuilt self options (p.freeBlock i) := by
  have links := tables.links
  refine tables.of_frame (links.free paragraph) (fun t isTable => ?_) fun t isTable => ?_
  · rw [typeOf_freeBlock links] at isTable
    split_ifs at isTable
    · exact absurd isTable (by decide)
    · exact isTable
  · have notHere {j : NodeId} (inside : InTable p t j) : j ≠ i := by
      rintro rfl
      have part := links.isTablePart_of_inTable isTable inside
      rw [paragraph] at part
      exact absurd part (by unfold isTablePart; decide)
    refine layout_congr (fun j inside => by rw [dataOf_freeBlock links, if_neg (notHere inside)]) fun j inside => ?_
    rw [childrenOf_freeBlock links, if_neg (notHere inside), List.filter_eq_self]
    intro c child
    rw [bne_iff_ne]
    rintro rfl
    -- a paragraph is no child of a part of a table
    rcases links.isTablePart_of_inTable isTable inside with type | type | type
    · exact absurd (paragraph.symm.trans (links.row type child)) (by decide)
    · exact absurd (paragraph.symm.trans (links.cell type child)) (by decide)
    · rw [links.leaf (.inr (.inr (.inl type)))] at child
      cases child

/-! ### The run -/

/-- The parser with tables and nothing else. -/
def tableParser (T : Tables) (options : Options) : Config := ⟨T, options, [extension 0]⟩

section

variable {T : Tables}

theorem extensionOf_table (d : NodeData) : (tableParser T options).extensionOf d =
    if d.extension = some 0 then some (extension 0) else none := by
  unfold Config.extensionOf
  cases d.extension with
  | none => rfl
  | some n =>
    cases n with
    | zero => rfl
    | succ n => simp [tableParser]

/-- The callbacks open headers and rows, or leave the blocks alone. -/
theorem extension_steps : ∀ e ∈ (tableParser T options).syntaxExtensions,
    e.Steps (tableParser T options) (Opens 0 options) := by
  intro e member
  obtain rfl := List.mem_singleton.mp member
  constructor
  · intro f callback p input container
    cases callback
    exact .refl p
  · intro f callback indented p container input
    cases callback
    unfold tryOpeningTableBlock
    split
    next header =>
      simp only [Bool.and_eq_true, decide_eq_true_eq] at header
      exact .callback ⟨container, input, .inl ⟨header.2, rfl⟩⟩
    next =>
      split
      next row =>
        simp only [Bool.and_eq_true, decide_eq_true_eq] at row
        exact .callback ⟨container, input, .inr ⟨row.2, rfl⟩⟩
      next => exact .refl p

theorem not_isTablePart_of_core {t : NodeType} (core : t.isCoreBlock) : ¬ isTablePart t := by
  rintro (rfl | rfl | rfl) <;> cases core

/-- The block parser makes no part of a table, and leaves those that are there alone. -/
theorem part_of_dataStep {d e : NodeData} (step : DataStep d e) :
    (e.type = d.type ∨ d.type = .paragraph) ∧
      (isTablePart e.type → e.type = d.type ∧ e.as = d.as ∧ e.extension = d.extension) := by
  cases step with
  | content type as extension _ => exact ⟨.inl type, fun _ => ⟨type, as, extension⟩⟩
  | close type extension _ kinds =>
    refine ⟨.inl type, fun part => ?_⟩
    rw [type] at part
    rcases kinds with kind | kind | kind <;> rw [kind] at part <;> exact absurd part (by unfold isTablePart; decide)
  | setext lev paragraph _ _ =>
    exact ⟨.inr paragraph, fun part => absurd part (not_isTablePart_of_core (t := .heading) rfl)⟩

/-- No part of a table takes a block of the core, and neither does a block that holds text. -/
theorem nodeCanContainType_table {d : NodeData} {t : NodeType} (core : t.isCoreBlock)
    (part : isTablePart d.type → d.extension = some 0) (accepts : (tableParser T options).nodeCanContainType d t) :
    ¬ isTablePart d.type ∧ ¬ holdsText d.type ∧ d.type ≠ .none := by
  unfold Config.nodeCanContainType at accepts
  rw [extensionOf_table] at accepts
  split at accepts
  next => cases accepts
  next =>
    split_ifs at accepts with own
    · -- the extension lets its nodes have nodes of its own, or inlines
      have refused : canContain d t = false := by
        unfold canContain
        cases t <;> cases core <;> split_ifs <;> decide
      exact absurd (show canContain d t = true from accepts) (by rw [refused]; decide)
    · -- a node of another kind, for which the core decides
      have accepts : d.type.canContainType t = true := accepts
      refine ⟨fun isPart => own (part isPart), ?_, ?_⟩
      · rintro (type | type | isCell | type)
        · rw [type, NodeType.not_canContainType_of_isLeafBlock rfl core] at accepts
          cases accepts
        · rw [type, NodeType.not_canContainType_of_isLeafBlock rfl core] at accepts
          cases accepts
        · exact own (part (.inr (.inr isCell)))
        · rw [type] at accepts
          cases t <;> cases accepts
      · intro none
        rw [none] at accepts
        cases t <;> cases accepts

/-- What the steps of the parser keep: unless an assertion fails, every table is one that is built. -/
theorem tablesBuilt_of_step (step : BlockStep (tableParser T options) (Opens 0 options) p p') :
    (p'.asserts → p.asserts) ∧ (p'.asserts → TablesBuilt 0 options p → TablesBuilt 0 options p') := by
  induction step with
  | quiet shape root nextId asserts => exact ⟨asserts, fun _ tables => tables.quiet shape root nextId⟩
  | edit i f edits =>
    refine ⟨id, fun _ tables => tables.edit (fun b block => (part_of_dataStep (edits b block)).1) fun b block => ?_⟩
    exact (part_of_dataStep (edits b block)).2
  | @append p parent data fresh accepts =>
    refine ⟨id, fun holds tables => ?_⟩
    obtain ⟨notPart, notText, known⟩ := nodeCanContainType_table fresh.core tables.links.own (accepts holds)
    exact tables.append (isSome_of_typeOf known) notPart notText (not_isTablePart_of_core fresh.core)
  | @free p i paragraph =>
    refine ⟨?_, fun _ tables => tables.free paragraph⟩
    unfold ParserState.freeBlock
    dsimp only
    split <;> exact id
  | callback opens => exact ⟨fun holds => opens.asserts ▸ holds, fun _ tables => tables.opens opens⟩
  | trans _ _ first second =>
    exact ⟨fun holds => first.1 (second.1 holds), fun holds tables => second.2 holds (first.2 (second.1 holds) tables)⟩

theorem tablesBuilt_initialState : TablesBuilt 0 options initialState := by
  have nodes (i : NodeId) : initialState.nodes i = if i = 0 then some ⟨makeBlock .document 1 1, none, []⟩ else none := rfl
  have childless (i : NodeId) : initialState.childrenOf i = [] := by
    rw [ParserState.childrenOf, ParserState.block, nodes]
    split_ifs <;> rfl
  have type (i : NodeId) : ¬ isTablePart (initialState.typeOf i) := by
    rw [ParserState.typeOf, ParserState.dataOf, ParserState.block, nodes]
    split_ifs <;> unfold isTablePart <;> decide
  have none {i c : NodeId} (inside : c ∈ initialState.childrenOf i) : False := by
    rw [childless] at inside
    cases inside
  refine ⟨⟨?_, fun inside => (none inside).elim, ?_, fun _ inside => (none inside).elim,
    fun _ inside => (none inside).elim, fun _ => childless _, fun part => absurd part (type _), rfl⟩,
    fun t isTable => absurd (.inl isTable) (type t)⟩
  · intro i here
    rw [nodes] at here
    split_ifs at here with root
    · rw [root]
      exact Nat.zero_lt_one
    · cases here
  · intro i
    rw [childless]
    exact List.nodup_nil

/-- In every state between two lines, unless an assertion has failed, every table is one that is built. -/
theorem tablesBuilt_replay (lines : List (Bytes × Bool))
    (holds : (replay (processLine (tableParser T options)) initialState lines).asserts = true) :
    TablesBuilt 0 options (replay (processLine (tableParser T options)) initialState lines) :=
  (tablesBuilt_of_step (step_replay extension_steps lines initialState)).2 holds tablesBuilt_initialState

/-- The same when the last blocks are closed. -/
theorem tablesBuilt_finalizeBlocks (callback : Option (UInt8 → Bool)) (chunks : List Bytes)
    (holds : (finalizeBlocks (tableParser T options) (flushedParser (tableParser T options) callback chunks).state).asserts = true) :
    TablesBuilt 0 options
      (finalizeBlocks (tableParser T options) (flushedParser (tableParser T options) callback chunks).state) :=
  (tablesBuilt_of_step (step_flushedParser extension_steps callback chunks)).2 holds tablesBuilt_initialState

end

end

end Table

end CmarkGfm
