import CmarkGfm.Extensions.TableBlocks
import CmarkGfm.Properties.InlineExtensions
import CmarkGfm.Properties.LinePosition
import CmarkGfm.Properties.Tables

/-!
# Tables in the blocks of a document

What the callbacks of the extension do to the blocks is what opening the header and the rows of a table does to a
table by itself. Whatever else the parser does to the blocks leaves the tables alone, so every table of a document
is one that is built.
-/

namespace CmarkGfm

/-! ### Reading blocks behind a change -/

section

variable {p : ParserState} {i j parent : NodeId} {data : NodeData} {f : NodeData → NodeData}

theorem dataOf_appendBlock : (p.appendBlock parent data).1.dataOf j = if j = p.nextId then data else p.dataOf j := by
  simp only [ParserState.dataOf, ParserState.block, nodes_appendBlock]
  split_ifs with new isParent
  · rfl
  · subst isParent
    cases p.nodes j <;> rfl
  · rfl

theorem childrenOf_appendBlock (here : (p.nodes parent).isSome = true) :
    (p.appendBlock parent data).1.childrenOf j =
      if j = p.nextId then [] else if j = parent then p.childrenOf parent ++ [p.nextId] else p.childrenOf j := by
  obtain ⟨b, block⟩ := Option.isSome_iff_exists.mp here
  simp only [ParserState.childrenOf, ParserState.block, nodes_appendBlock, block]
  split_ifs <;> rfl

theorem parentOf_appendBlock :
    (p.appendBlock parent data).1.parentOf j = if j = p.nextId then some parent else p.parentOf j := by
  simp only [ParserState.parentOf, ParserState.block, nodes_appendBlock]
  split_ifs with new isParent
  · rfl
  · subst isParent
    cases p.nodes j <;> rfl
  · rfl

theorem isSome_appendBlock :
    ((p.appendBlock parent data).1.nodes j).isSome = (decide (j = p.nextId) || (p.nodes j).isSome) := by
  rw [nodes_appendBlock]
  split_ifs with new isParent
  · simp [new]
  · simp [isParent ▸ new, isParent]
  · simp [new]

theorem dataOf_modifyData (here : (p.nodes i).isSome = true) :
    (p.modifyData i f).dataOf j = if j = i then f (p.dataOf j) else p.dataOf j := by
  obtain ⟨b, block⟩ := Option.isSome_iff_exists.mp here
  simp only [ParserState.dataOf, ParserState.block, nodes_modifyData]
  split_ifs with same
  · simp [same, block]
  · rfl

theorem childrenOf_modifyData : (p.modifyData i f).childrenOf j = p.childrenOf j := by
  simp only [ParserState.childrenOf, ParserState.block, nodes_modifyData]
  split_ifs with same
  · subst same
    cases p.nodes j <;> rfl
  · rfl

theorem parentOf_modifyData : (p.modifyData i f).parentOf j = p.parentOf j := by
  simp only [ParserState.parentOf, ParserState.block, nodes_modifyData]
  split_ifs with same
  · subst same
    cases p.nodes j <;> rfl
  · rfl

theorem isSome_modifyData : ((p.modifyData i f).nodes j).isSome = (p.nodes j).isSome :=
  nodes_isSome_modify p i _ j

end

namespace Table

/-! ### The links of the blocks -/

/-- The types of the nodes of a table. -/
def isTablePart (t : NodeType) : Prop := t = tableType ∨ t = rowType ∨ t = cellType

/-- The types of the nodes that hold text, and no blocks. -/
def holdsText (t : NodeType) : Prop := t = .paragraph ∨ t = .heading ∨ t = cellType ∨ t = .text

/-- Children are there, know their parents and come behind them; rows are in tables and cells in rows, and all of
them belong to the extension. The root is the document. -/
structure TableLinks (ext : Nat) (p : ParserState) : Prop where
  bound : ∀ {i}, (p.nodes i).isSome = true → i < p.nextId
  child : ∀ {i c}, c ∈ p.childrenOf i → (p.nodes c).isSome = true ∧ p.parentOf c = some i ∧ i < c
  distinct : ∀ i, (p.childrenOf i).Nodup
  row : ∀ {i c}, p.typeOf i = tableType → c ∈ p.childrenOf i → p.typeOf c = rowType
  cell : ∀ {i c}, p.typeOf i = rowType → c ∈ p.childrenOf i → p.typeOf c = cellType
  leaf : ∀ {i}, holdsText (p.typeOf i) → p.childrenOf i = []
  own : ∀ {i}, isTablePart (p.typeOf i) → (p.dataOf i).extension = some ext
  root : p.typeOf p.root = .document

section

variable {self : Nat} {p p' : ParserState} {i j parent : NodeId} {data : NodeData} {f : NodeData → NodeData}

theorem isSome_of_typeOf (known : p.typeOf i ≠ .none) : (p.nodes i).isSome = true := by
  rw [Option.isSome_iff_ne_none]
  intro missing
  apply known
  rw [ParserState.typeOf, ParserState.dataOf, ParserState.block, missing]
  rfl

theorem TableLinks.child_lt (links : TableLinks self p) {c : NodeId} (member : c ∈ p.childrenOf i) : c < p.nextId :=
  links.bound (links.child member).1

theorem TableLinks.root_lt (links : TableLinks self p) : p.root < p.nextId :=
  links.bound (isSome_of_typeOf (by rw [links.root]; decide))

/-- A new block behind the last child of one that may have it. -/
theorem TableLinks.append (links : TableLinks self p) (here : (p.nodes parent).isSome = true)
    (notLeaf : ¬ holdsText (p.typeOf parent))
    (row : p.typeOf parent = tableType → data.type = rowType) (cell : p.typeOf parent = rowType → data.type = cellType)
    (own : isTablePart data.type → data.extension = some self) : TableLinks self (p.appendBlock parent data).1 := by
  have old := links.bound here
  have type (j : NodeId) : (p.appendBlock parent data).1.typeOf j = if j = p.nextId then data.type else p.typeOf j := by
    rw [ParserState.typeOf, dataOf_appendBlock]
    split_ifs <;> rfl
  -- a child is the new block, or has been one
  have member {j c : NodeId} (member : c ∈ (p.appendBlock parent data).1.childrenOf j) :
      j ≠ p.nextId ∧ ((j = parent ∧ c = p.nextId) ∨ (c ≠ p.nextId ∧ c ∈ p.childrenOf j)) := by
    rw [childrenOf_appendBlock here] at member
    split_ifs at member with new isParent
    · cases member
    · refine ⟨new, ?_⟩
      rcases List.mem_append.mp member with before | new
      · exact .inr ⟨(links.child_lt before).ne, isParent ▸ before⟩
      · exact .inl ⟨isParent, List.mem_singleton.mp new⟩
    · exact ⟨new, .inr ⟨(links.child_lt member).ne, member⟩⟩
  refine ⟨?_, ?_, ?_, ?_, ?_, ?_, ?_, ?_⟩
  · intro j there
    rw [isSome_appendBlock, Bool.or_eq_true, decide_eq_true_eq] at there
    rcases there with rfl | there
    · exact Nat.lt_succ_self _
    · exact (links.bound there).trans (Nat.lt_succ_self _)
  · intro j c inside
    rw [isSome_appendBlock, parentOf_appendBlock]
    obtain ⟨new, ⟨rfl, rfl⟩ | ⟨before, inside⟩⟩ := member inside
    · simp [old]
    · simp [before, links.child inside]
  · intro j
    rw [childrenOf_appendBlock here]
    split_ifs
    · exact List.nodup_nil
    · rw [List.nodup_append]
      refine ⟨links.distinct parent, List.nodup_singleton _, ?_⟩
      intro c before d new same
      rw [List.mem_singleton.mp new] at same
      exact absurd same (links.child_lt before).ne
    · exact links.distinct j
  · intro j c isTable inside
    rw [type] at isTable ⊢
    obtain ⟨new, ⟨rfl, rfl⟩ | ⟨before, inside⟩⟩ := member inside
    · rw [if_neg new] at isTable
      rw [if_pos rfl, row isTable]
    · rw [if_neg new] at isTable
      rw [if_neg before, links.row isTable inside]
  · intro j c isRow inside
    rw [type] at isRow ⊢
    obtain ⟨new, ⟨rfl, rfl⟩ | ⟨before, inside⟩⟩ := member inside
    · rw [if_neg new] at isRow
      rw [if_pos rfl, cell isRow]
    · rw [if_neg new] at isRow
      rw [if_neg before, links.cell isRow inside]
  · intro j isLeaf
    rw [type] at isLeaf
    rw [childrenOf_appendBlock here]
    split_ifs at isLeaf ⊢ with new isParent
    · rfl
    · subst isParent
      exact absurd isLeaf notLeaf
    · exact links.leaf isLeaf
  · intro j part
    rw [type] at part
    rw [dataOf_appendBlock]
    split_ifs at part ⊢
    · exact own part
    · exact links.own part
  · rw [type]
    exact (if_neg links.root_lt.ne).trans links.root

/-- A block that is no table makes no table. -/
theorem tables_append (notTable : data.type ≠ tableType)
    (isTable : (p.appendBlock parent data).1.typeOf j = tableType) : p.typeOf j = tableType := by
  rw [ParserState.typeOf, dataOf_appendBlock] at isTable
  split_ifs at isTable
  · exact absurd isTable notTable
  · exact isTable

/-- The blocks are the same but for their data, and only paragraphs get another type. -/
theorem TableLinks.retype (links : TableLinks self p) (nextId : p'.nextId = p.nextId) (root : p'.root = p.root)
    (there : ∀ i, (p'.nodes i).isSome = (p.nodes i).isSome) (children : ∀ i, p'.childrenOf i = p.childrenOf i)
    (parents : ∀ i, p'.parentOf i = p.parentOf i) (types : ∀ i, p'.typeOf i = p.typeOf i ∨ p.typeOf i = .paragraph)
    (own : ∀ i, isTablePart (p'.typeOf i) → (p'.dataOf i).extension = some self) : TableLinks self p' := by
  -- what has another type has no children
  have same {i c : NodeId} (inside : c ∈ p.childrenOf i) : p'.typeOf i = p.typeOf i := by
    rcases types i with same | paragraph
    · exact same
    · rw [links.leaf (.inl paragraph)] at inside
      cases inside
  refine ⟨?_, ?_, ?_, ?_, ?_, ?_, own _, ?_⟩
  · intro i here
    rw [nextId]
    exact links.bound (there i ▸ here)
  · intro i c inside
    rw [there, parents]
    exact links.child (children i ▸ inside)
  · intro i
    rw [children]
    exact links.distinct i
  · intro i c isTable inside
    rw [children] at inside
    have isRow := links.row ((same inside).symm.trans isTable) inside
    rcases types c with same | paragraph
    · exact same.trans isRow
    · exact absurd (isRow.symm.trans paragraph) (by decide)
  · intro i c isRow inside
    rw [children] at inside
    have isCell := links.cell ((same inside).symm.trans isRow) inside
    rcases types c with same | paragraph
    · exact same.trans isCell
    · exact absurd (isCell.symm.trans paragraph) (by decide)
  · intro i isLeaf
    rw [children]
    rcases types i with same | paragraph
    · exact links.leaf (same ▸ isLeaf)
    · exact links.leaf (.inl paragraph)
  · rw [root]
    refine ((types p.root).resolve_right fun paragraph => ?_).trans links.root
    exact absurd (links.root.symm.trans paragraph) (by decide)

/-- Editing the data of a block that keeps its type and its extension. -/
theorem TableLinks.edit (links : TableLinks self p) (here : (p.nodes i).isSome = true)
    (type : (f (p.dataOf i)).type = p.typeOf i) (extension : (f (p.dataOf i)).extension = (p.dataOf i).extension) :
    TableLinks self (p.modifyData i f) := by
  have types (j : NodeId) : (p.modifyData i f).typeOf j = p.typeOf j := by
    rw [ParserState.typeOf, dataOf_modifyData here]
    split_ifs with same
    · rw [same, type]
    · rfl
  refine links.retype rfl rfl (fun _ => isSome_modifyData) (fun _ => childrenOf_modifyData)
    (fun _ => parentOf_modifyData) (fun j => .inl (types j)) fun j part => ?_
  rw [types] at part
  rw [dataOf_modifyData here]
  split_ifs with same
  · rw [same, extension]
    exact links.own (same ▸ part)
  · exact links.own part

/-! ### What is in a table -/

/-- The nodes of a table: its own, and those of its rows and cells. -/
def InTable (p : ParserState) (table i : NodeId) : Prop :=
  i = table ∨ ∃ row ∈ p.childrenOf table, i = row ∨ i ∈ p.childrenOf row

variable {table : NodeId}

theorem rowNode_congr {row : NodeId} (data : p'.dataOf row = p.dataOf row)
    (children : p'.childrenOf row = p.childrenOf row) (cells : ∀ c ∈ p.childrenOf row, p'.dataOf c = p.dataOf c) :
    rowNode p' row = rowNode p row := by
  have same : ∀ c ∈ p.childrenOf row, cellNode p' c = cellNode p c := by
    intro c member
    rw [cellNode, cellNode, cells c member]
  rw [rowNode, rowNode, data, children, List.map_congr_left same]

theorem tableNode_congr (data : ∀ i, InTable p table i → p'.dataOf i = p.dataOf i)
    (children : ∀ i, InTable p table i → p'.childrenOf i = p.childrenOf i) : tableNode p' table = tableNode p table := by
  have same : ∀ row ∈ p.childrenOf table, rowNode p' row = rowNode p row := fun row inTable =>
    rowNode_congr (data row (.inr ⟨row, inTable, .inl rfl⟩)) (children row (.inr ⟨row, inTable, .inl rfl⟩))
      fun c inRow => data c (.inr ⟨row, inTable, .inr inRow⟩)
  rw [tableNode, tableNode, data table (.inl rfl), children table (.inl rfl), List.map_congr_left same]

theorem dataOf_congr (same : p'.nodes i = p.nodes i) : p'.dataOf i = p.dataOf i := by
  rw [ParserState.dataOf, ParserState.block, same]
  rfl

theorem childrenOf_congr (same : p'.nodes i = p.nodes i) : p'.childrenOf i = p.childrenOf i := by
  rw [ParserState.childrenOf, ParserState.block, same]
  rfl

theorem TableLinks.isTablePart_of_inTable (links : TableLinks self p) (isTable : p.typeOf table = tableType)
    (inside : InTable p table i) : isTablePart (p.typeOf i) := by
  rcases inside with rfl | ⟨row, inTable, rfl | inRow⟩
  · exact .inl isTable
  · exact .inr (.inl (links.row isTable inTable))
  · exact .inr (.inr (links.cell (links.row isTable inTable) inRow))

/-- No two tables share a node. -/
theorem TableLinks.inTable_unique (links : TableLinks self p) {other : NodeId} (isTable : p.typeOf table = tableType)
    (isTable' : p.typeOf other = tableType) (inside : InTable p table i) (inside' : InTable p other i) : table = other := by
  have differ : tableType ≠ rowType ∧ tableType ≠ cellType ∧ rowType ≠ cellType := by decide
  have parent {row c : NodeId} (inside : c ∈ p.childrenOf row) := (links.child inside).2.1
  -- a table, a row and a cell have different types, and what is a row or a cell has one parent
  rcases inside with rfl | ⟨row, inTable, rfl | inRow⟩ <;> rcases inside' with rfl | ⟨row', inTable', rfl | inRow'⟩
  · rfl
  · exact absurd (isTable.symm.trans (links.row isTable' inTable')) differ.1
  · exact absurd (isTable.symm.trans (links.cell (links.row isTable' inTable') inRow')) differ.2.1
  · exact absurd (isTable'.symm.trans (links.row isTable inTable)) differ.1
  · exact Option.some.inj ((parent inTable).symm.trans (parent inTable'))
  · exact absurd ((links.row isTable inTable).symm.trans (links.cell (links.row isTable' inTable') inRow')) differ.2.2
  · exact absurd (isTable'.symm.trans (links.cell (links.row isTable inTable) inRow)) differ.2.1
  · exact absurd ((links.row isTable' inTable').symm.trans (links.cell (links.row isTable inTable) inRow)) differ.2.2
  · obtain rfl := Option.some.inj ((parent inRow).symm.trans (parent inRow'))
    exact Option.some.inj ((parent inTable).symm.trans (parent inTable'))

/-! ### Spans -/

/-- One element of a list without duplicates is changed behind a map. -/
theorem map_ite_eq_modify {α β : Type} [DecidableEq α] {f : α → β} (g : β → β) {l : List α} (distinct : l.Nodup) {i : Nat} {c : α}
    (here : l[i]? = some c) : (l.map fun x => if x = c then g (f x) else f x) = (l.map f).modify i g := by
  refine List.ext_getElem? fun j => ?_
  rw [List.getElem?_map, List.getElem?_modify, List.getElem?_map]
  cases there : l[j]? with
  | none => rfl
  | some x =>
    by_cases same : i = j
    · subst same
      rw [here] at there
      cases there
      simp
    · have differs : x ≠ c := by
        rintro rfl
        obtain ⟨inRange, at_i⟩ := List.getElem?_eq_some_iff.mp here
        obtain ⟨inRange', at_j⟩ := List.getElem?_eq_some_iff.mp there
        exact same ((List.Nodup.getElem_inj_iff distinct).mp (at_i.trans at_j.symm))
      simp [same, differs]

theorem cellNode_increment {c : NodeId} (here : (p.nodes c).isSome = true) (j : NodeId) :
    cellNode (p.modifyData c incrementCellRowspan) j =
      if j = c then (cellNode p j).incrementRowspan else cellNode p j := by
  rw [cellNode, dataOf_modifyData here]
  split_ifs
  · unfold incrementCellRowspan CellNode.incrementRowspan cellNode getCellData
    split
    next => simp
    next other =>
      split
      next c as => exact absurd as (other c)
      next => rfl
  · rfl

/-- A row in which the span of a cell grows, and the others. -/
theorem rowNode_increment (links : TableLinks self p) {row other c : NodeId} {i : Nat}
    (here : (p.childrenOf row)[i]? = some c) (differs : other ≠ c) :
    rowNode (p.modifyData c incrementCellRowspan) other =
      if other = row then (rowNode p other).extendSpan i else rowNode p other := by
  have inside := List.mem_of_getElem? here
  obtain ⟨there, parent, -⟩ := links.child inside
  rw [rowNode, dataOf_modifyData there, if_neg differs, childrenOf_modifyData]
  split_ifs with same
  · subst same
    rw [RowNode.extendSpan, rowNode, ← map_ite_eq_modify CellNode.incrementRowspan (links.distinct other) here]
    exact congrArg _ (List.map_congr_left fun j _ => cellNode_increment there j)
  · have apart : ∀ j ∈ p.childrenOf other, j ≠ c := by
      rintro j inOther rfl
      exact same (Option.some.inj ((links.child inOther).2.1.symm.trans parent))
    rw [rowNode]
    refine congrArg _ (List.map_congr_left fun j inOther => ?_)
    rw [cellNode_increment there, if_neg (apart j inOther)]

/-- What growing spans in the rows above leaves as it is. -/
structure SpansOnly (above : List NodeId) (p p' : ParserState) : Prop where
  line : p'.lineNumber = p.lineNumber
  nextId : p'.nextId = p.nextId
  children : ∀ i, p'.childrenOf i = p.childrenOf i
  outside : ∀ i, (∀ row ∈ above, i ∉ p.childrenOf row) → p'.nodes i = p.nodes i

theorem SpansOnly.refl (above : List NodeId) (p : ParserState) : SpansOnly above p p :=
  ⟨rfl, rfl, fun _ => rfl, fun _ _ => rfl⟩

theorem SpansOnly.trans {p'' : ParserState} {above : List NodeId} (first : SpansOnly above p p')
    (second : SpansOnly above p' p'') : SpansOnly above p p'' where
  line := second.line.trans first.line
  nextId := second.nextId.trans first.nextId
  children i := (second.children i).trans (first.children i)
  outside i apart := (second.outside i fun row member => first.children row ▸ apart row member).trans (first.outside i apart)

theorem SpansOnly.mono {above above' : List NodeId} (spans : SpansOnly above p p') (more : above ⊆ above') :
    SpansOnly above' p p' :=
  ⟨spans.line, spans.nextId, spans.children, fun i apart => spans.outside i fun row member => apart row (more member)⟩

/-- The span of one cell of a row. -/
theorem spansOnly_increment (links : TableLinks self p) {row c : NodeId} (inside : c ∈ p.childrenOf row) :
    SpansOnly [row] p (p.modifyData c incrementCellRowspan) ∧
      TableLinks self (p.modifyData c incrementCellRowspan) ∧
      ∀ j, (p.modifyData c incrementCellRowspan).typeOf j = p.typeOf j := by
  have there := (links.child inside).1
  have kept (d : NodeData) : (incrementCellRowspan d).type = d.type ∧ (incrementCellRowspan d).extension = d.extension := by
    unfold incrementCellRowspan
    split <;> exact ⟨rfl, rfl⟩
  refine ⟨⟨rfl, rfl, fun _ => childrenOf_modifyData, fun j apart => ?_⟩, links.edit there (kept _).1 (kept _).2, fun j => ?_⟩
  · have differs : j ≠ c := by
      rintro rfl
      exact apart row (List.mem_singleton_self row) inside
    rw [nodes_modifyData, if_neg differs]
  · rw [ParserState.typeOf, dataOf_modifyData there]
    split_ifs
    · exact (kept _).1
    · rfl

/-- The loop over the rows above grows the span that it grows in the table by itself. -/
theorem spanRowAt_spec (links : TableLinks self p) {above : List NodeId} (rows : ∀ row ∈ above, p.typeOf row = rowType)
    (distinct : above.Nodup) (i : Nat) :
    (spanRowAt i p above = none ∧ spanRow i (above.map (rowNode p)) = none) ∨
      ∃ p', spanRowAt i p above = some p' ∧ spanRow i (above.map (rowNode p)) = some (above.map (rowNode p')) ∧
        SpansOnly above p p' ∧ TableLinks self p' ∧ ∀ j, p'.typeOf j = p.typeOf j := by
  induction above with
  | nil => exact .inl ⟨rfl, rfl⟩
  | cons row above ih =>
    obtain ⟨isRow, rows⟩ := List.forall_mem_cons.mp rows
    obtain ⟨fresh, distinct⟩ := List.nodup_cons.mp distinct
    rw [spanRowAt, List.map_cons, spanRow]
    by_cases covered : (rowNode p row).rowspanAt i = some 0
    · rw [if_pos covered, if_pos covered]
      rcases ih rows distinct with ⟨none, none'⟩ | ⟨p', found, grown, spans, links', types⟩
      · exact .inl ⟨none, by rw [none', Option.map_none]⟩
      · refine .inr ⟨p', found, ?_, spans.mono (List.subset_cons_self row above), links', types⟩
        -- the row that is passed keeps its cells
        have notCell : ∀ row' ∈ above, row ∉ p.childrenOf row' := by
          intro row' member inside
          exact absurd (isRow.symm.trans (links.cell (rows row' member) inside)) (by decide)
        have apart : ∀ c ∈ p.childrenOf row, ∀ row' ∈ above, c ∉ p.childrenOf row' := by
          intro c inside row' member inside'
          have same := Option.some.inj ((links.child inside).2.1.symm.trans (links.child inside').2.1)
          exact fresh (same ▸ member)
        have same : rowNode p' row = rowNode p row :=
          rowNode_congr (dataOf_congr (spans.outside row notCell)) (spans.children row)
            fun c inside => dataOf_congr (spans.outside c (apart c inside))
        rw [grown, List.map_cons, same]
        rfl
    · rw [if_neg covered, if_neg covered]
      refine .inr ⟨_, rfl, ?_⟩
      cases here : (p.childrenOf row)[i]? with
      | none =>
        have missing : (rowNode p row).extendSpan i = rowNode p row := by
          have short : (rowNode p row).cells.length ≤ i := by
            rw [rowNode, List.length_map]
            exact List.getElem?_eq_none_iff.mp here
          rw [RowNode.extendSpan, List.modify_eq_self short]
        exact ⟨by rw [← RowNode.extendSpan, missing, List.map_cons]; rfl, .refl _ p, links, fun _ => rfl⟩
      | some c =>
        have inside := List.mem_of_getElem? here
        obtain ⟨spans, links', types⟩ := spansOnly_increment links inside
        refine ⟨?_, spans.mono (by simp), links', types⟩
        have isCell := links.cell isRow inside
        have notCell {r : NodeId} (isRow : p.typeOf r = rowType) : r ≠ c := by
          rintro rfl
          exact absurd (isRow.symm.trans isCell) (by decide)
        have others : ∀ r ∈ above, rowNode (p.modifyData c incrementCellRowspan) r = rowNode p r := by
          intro r member
          have differs : r ≠ row := by
            rintro rfl
            exact fresh member
          rw [rowNode_increment links here (notCell (rows r member)), if_neg differs]
        rw [← RowNode.extendSpan, Option.elim_some, List.map_cons, rowNode_increment links here (notCell isRow), if_pos rfl,
          List.map_congr_left others]

theorem spanRowsAt_spec {above : List NodeId} (distinct : above.Nodup) (cells : List RowCell) (i : Nat)
    (links : TableLinks self p) (rows : ∀ row ∈ above, p.typeOf row = rowType) :
    ∃ p', spanRowsAt above i cells p = ((spanRows i cells (above.map (rowNode p))).1, p') ∧
      (spanRows i cells (above.map (rowNode p))).2 = above.map (rowNode p') ∧
      SpansOnly above p p' ∧ TableLinks self p' ∧ ∀ j, p'.typeOf j = p.typeOf j := by
  induction cells generalizing i p with
  | nil => exact ⟨p, rfl, rfl, .refl above p, links, fun _ => rfl⟩
  | cons cell rest ih =>
    -- the marker first, then the rest of the row behind it
    have behind {q : ParserState} {cell' : RowCell} (spans : SpansOnly above p q) (links : TableLinks self q)
        (types : ∀ j, q.typeOf j = p.typeOf j) :
        ∃ p', (cell' :: (spanRowsAt above (i + 1) rest q).1, (spanRowsAt above (i + 1) rest q).2) =
            (cell' :: (spanRows (i + 1) rest (above.map (rowNode q))).1, p') ∧
          (spanRows (i + 1) rest (above.map (rowNode q))).2 = above.map (rowNode p') ∧
          SpansOnly above p p' ∧ TableLinks self p' ∧ ∀ j, p'.typeOf j = p.typeOf j := by
      obtain ⟨p', eq, rows', spans', links', types'⟩ := ih (i + 1) links fun row member => (types row).trans (rows row member)
      exact ⟨p', by rw [eq], rows', spans.trans spans', links', fun j => (types' j).trans (types j)⟩
    rw [spanRowsAt, spanRows]
    by_cases marker : cell.rowspan = 0
    · simp only [marker, if_true]
      rcases spanRowAt_spec links rows distinct i with ⟨none, none'⟩ | ⟨q, found, grown, spans, links', types⟩
      · simp only [none, none']
        exact behind (.refl above p) links fun _ => rfl
      · simp only [found, grown]
        exact behind spans links' types
    · simp only [marker, if_false]
      exact behind (.refl above p) links fun _ => rfl

/-! ### Cells -/

/-- The node of a cell that the extension makes. -/
structure CellNode.Made (ext : Nat) (cell : CellNode) : Prop where
  type : cell.data.type = cellType
  extension : cell.data.extension = some ext
  as : cell.data.as = .empty

theorem made_makeCell (line startColumn : Int) (i : Nat) (cell : RowCell) :
    (makeCell self line startColumn i cell).Made self := ⟨rfl, rfl, rfl⟩

theorem made_fillerCell (line : Int) : (fillerCell self line).Made self := ⟨rfl, rfl, rfl⟩

theorem cellNode_blockData {cell : CellNode} (made : cell.Made self) (data : p.dataOf i = cell.blockData) :
    cellNode p i = cell := by
  obtain ⟨⟨⟩, o⟩ := cell
  obtain rfl : _ = NodeAs.empty := made.as
  rw [cellNode, data]
  cases o <;> rfl

/-- The cells are behind those that the row has, and the other blocks are as before. -/
structure AddsCells (ext : Nat) (row : NodeId) (cells : List CellNode) (p p' : ParserState) : Prop where
  later : p.nextId ≤ p'.nextId
  links : TableLinks ext p'
  added : rowNode p' row = { rowNode p row with cells := (rowNode p row).cells ++ cells }
  data : ∀ i, i < p.nextId → p'.dataOf i = p.dataOf i
  tables : ∀ i, p'.typeOf i = tableType → p.typeOf i = tableType
  outside : ∀ i, i < p.nextId → i ≠ row → p'.nodes i = p.nodes i

theorem addsCells_addCells {row : NodeId} {cells : List CellNode} (made : ∀ cell ∈ cells, cell.Made self)
    (links : TableLinks self p) (isRow : p.typeOf row = rowType) : AddsCells self row cells p (addCells row cells p) := by
  induction cells generalizing p with
  | nil => exact ⟨le_rfl, links, by simp [addCells], fun _ _ => rfl, fun _ => id, fun _ _ _ => rfl⟩
  | cons cell cells ih =>
    obtain ⟨first, made⟩ := List.forall_mem_cons.mp made
    have here : (p.nodes row).isSome = true := isSome_of_typeOf (by rw [isRow]; decide)
    have old := links.bound here
    have links' : TableLinks self (p.appendBlock row cell.blockData).1 :=
      links.append here (by unfold holdsText; rw [isRow]; decide) (fun isTable => absurd (isRow.symm.trans isTable) (by decide))
        (fun _ => first.type) fun _ => first.extension
    have data {i : NodeId} (before : i < p.nextId) : (p.appendBlock row cell.blockData).1.dataOf i = p.dataOf i := by
      rw [dataOf_appendBlock, if_neg before.ne]
    have rest := ih made links' (by rw [ParserState.typeOf, data old]; exact isRow)
    have new : (p.appendBlock row cell.blockData).1.nextId = p.nextId + 1 := rfl
    have added : rowNode (p.appendBlock row cell.blockData).1 row =
        { rowNode p row with cells := (rowNode p row).cells ++ [cell] } := by
      have kept : (p.childrenOf row).map (cellNode (p.appendBlock row cell.blockData).1) =
          (p.childrenOf row).map (cellNode p) :=
        List.map_congr_left fun c inside => by rw [cellNode, cellNode, data (links.child_lt inside)]
      have last : cellNode (p.appendBlock row cell.blockData).1 p.nextId = cell :=
        cellNode_blockData first (by rw [dataOf_appendBlock, if_pos rfl])
      rw [rowNode, data old, childrenOf_appendBlock here, if_neg old.ne, if_pos rfl, List.map_append, kept,
        List.map_singleton, last]
      rfl
    refine ⟨?_, rest.links, ?_, ?_, fun i isTable => ?_, ?_⟩
    · exact (Nat.le_succ p.nextId).trans rest.later
    · refine rest.added.trans ?_
      rw [added, List.append_assoc, List.singleton_append]
    · intro i before
      exact (rest.data i (before.trans (new ▸ Nat.lt_succ_self _))).trans (data before)
    · exact tables_append (by rw [show cell.blockData.type = cellType from first.type]; decide) (rest.tables i isTable)
    · intro i before differs
      refine (rest.outside i (before.trans (new ▸ Nat.lt_succ_self _)) differs).trans ?_
      rw [nodes_appendBlock, if_neg before.ne, if_neg differs]

/-! ### A row -/

/-- The table has the row that is added to it by itself, and the other blocks are as before. -/
structure AddsRow (ext : Nat) (options : Options) (table : NodeId) (cells : List RowCell) (p p' : ParserState) : Prop where
  later : p.nextId ≤ p'.nextId
  links : TableLinks ext p'
  reads : tableNode p' table = addRow ext options p (tableNode p table) cells
  tables : ∀ i, p'.typeOf i = tableType → p.typeOf i = tableType
  outside : ∀ i, i < p.nextId → ¬ InTable p table i → p'.nodes i = p.nodes i

/-- The markers of a new row, if the option is set, are merged as in the table by itself. -/
theorem mergedRowsAt (links : TableLinks self p) {rows : List NodeId} (isRow : ∀ row ∈ rows, p.typeOf row = rowType)
    (distinct : rows.Nodup) (options : Options) (cells : List RowCell) :
    ∃ r, (if options.has optTableSpans then spanRowsAt rows.reverse 0 cells p else (cells, p)) =
        (mergedCells options cells (rows.map (rowNode p)), r) ∧
      rows.map (rowNode r) = spannedRows options cells (rows.map (rowNode p)) ∧
      SpansOnly rows.reverse p r ∧ TableLinks self r ∧ ∀ j, r.typeOf j = p.typeOf j := by
  rw [mergedCells, spannedRows]
  split_ifs with spans
  · obtain ⟨r, eq, grown, spans, linksR, types⟩ := spanRowsAt_spec (List.nodup_reverse.mpr distinct) cells 0 links
      fun row inside => isRow row (List.mem_reverse.mp inside)
    rw [List.map_reverse] at eq grown
    refine ⟨r, eq, ?_, spans, linksR, types⟩
    have back := congrArg List.reverse grown
    rw [List.map_reverse, List.reverse_reverse] at back
    exact back.symm
  · exact ⟨p, rfl, rfl, .refl _ p, links, fun _ => rfl⟩

theorem made_rowCells {nColumns : Nat} {line startColumn : Int} {cells : List RowCell} :
    ∀ cell ∈ rowCells self nColumns line startColumn cells, cell.Made self := by
  intro cell member
  rcases List.mem_append.mp member with parsed | filler
  · obtain ⟨i, inRange, rfl⟩ := List.mem_mapIdx.mp parsed
    exact made_makeCell ..
  · rw [List.eq_of_mem_replicate filler]
    exact made_fillerCell _

/-- Editing the data of a table leaves its rows alone. -/
theorem rowNode_modifyData_table (links : TableLinks self p) (isTable : p.typeOf table = tableType) {row : NodeId}
    (inside : row ∈ p.childrenOf table) : rowNode (p.modifyData table f) row = rowNode p row := by
  have isRow := links.row isTable inside
  have apart {i : NodeId} (type : p.typeOf i ≠ tableType) : (p.modifyData table f).dataOf i = p.dataOf i := by
    rw [dataOf_modifyData (isSome_of_typeOf (by rw [isTable]; decide)), if_neg]
    rintro rfl
    exact type isTable
  refine rowNode_congr (apart ?_) childrenOf_modifyData fun c inRow => apart ?_
  · rw [isRow]
    decide
  · rw [links.cell isRow inRow]
    decide

theorem addsRow_addRowAt (links : TableLinks self p) (isTable : p.typeOf table = tableType) (options : Options)
    (cells : List RowCell) : AddsRow self options table cells p (addRowAt self options p table cells).1 := by
  have here : (p.nodes table).isSome = true := isSome_of_typeOf (by rw [isTable]; decide)
  have old := links.bound here
  let data : NodeData := { makeBlock rowType p.lineNumber (p.dataOf table).startColumn with
    endColumn := (p.dataOf table).endColumn
    extension := some self
    as := .opaqueData (.tableRow false) }
  let q := (p.appendBlock table data).1
  have linksQ : TableLinks self q :=
    links.append here (by unfold holdsText; rw [isTable]; decide) (fun _ => rfl) (fun isRow => absurd (isTable.symm.trans isRow) (by decide))
      fun _ => rfl
  have dataQ {i : NodeId} (before : i < p.nextId) : q.dataOf i = p.dataOf i := by
    rw [dataOf_appendBlock, if_neg before.ne]
  have childrenQ {i : NodeId} (before : i < p.nextId) (differs : i ≠ table) : q.childrenOf i = p.childrenOf i := by
    rw [childrenOf_appendBlock here, if_neg before.ne, if_neg differs]
  have rowsQ : ∀ row ∈ p.childrenOf table, rowNode q row = rowNode p row := by
    intro row inside
    have notTable : row ≠ table := by
      rintro rfl
      exact absurd (isTable.symm.trans (links.row isTable inside)) (by decide)
    exact rowNode_congr (dataQ (links.child_lt inside)) (childrenQ (links.child_lt inside) notTable)
      fun c inRow => dataQ (links.child_lt inRow)
  -- the spans of the rows above
  have rowsOf : (p.childrenOf table).map (rowNode q) = (tableNode p table).rows := List.map_congr_left rowsQ
  have isRowQ : ∀ row ∈ p.childrenOf table, q.typeOf row = rowType := by
    intro row inside
    rw [ParserState.typeOf, dataQ (links.child_lt inside)]
    exact links.row isTable inside
  obtain ⟨r, eq, grown, spans, linksR, types⟩ := mergedRowsAt linksQ isRowQ (links.distinct table) options
    (cells.take (getTable (p.dataOf table)).nColumns)
  rw [rowsOf] at eq grown
  let merged := mergedCells options (cells.take (tableNode p table).nColumns) (tableNode p table).rows
  have line : r.lineNumber = p.lineNumber := spans.line
  have nextIdR : r.nextId = p.nextId + 1 := spans.nextId
  -- the cells of the new row
  let new := rowCells self (getTable (p.dataOf table)).nColumns r.lineNumber (p.dataOf table).startColumn merged
  have isRow : r.typeOf p.nextId = rowType := by
    rw [types, ParserState.typeOf, dataOf_appendBlock, if_pos rfl]
    rfl
  let s := addCells p.nextId new r
  have added : AddsCells self p.nextId new r s := addsCells_addCells made_rowCells linksR isRow
  have result : (addRowAt self options p table cells).1 = s.modifyData table fun d =>
      { d with as := .opaqueData (.table ((getTable (p.dataOf table)).incrRowCount merged.length)) } := by
    have read := congrArg (fun x : List RowCell × ParserState =>
      (addCells p.nextId (rowCells self (getTable (p.dataOf table)).nColumns x.2.lineNumber (p.dataOf table).startColumn x.1)
        x.2).modifyData table fun d =>
          { d with as := .opaqueData (.table ((getTable (p.dataOf table)).incrRowCount x.1.length)) }) eq
    exact read
  rw [result]
  have differs : tableType ≠ rowType ∧ tableType ≠ cellType := by decide
  have notRow {row : NodeId} (inside : row ∈ p.childrenOf table) : row ≠ table := by
    rintro rfl
    exact differs.1 (isTable.symm.trans (links.row isTable inside))
  have notNew {row : NodeId} (inside : row ∈ p.childrenOf table) : row ≠ p.nextId := (links.child_lt inside).ne
  have oldR {i : NodeId} (before : i < p.nextId) : i < r.nextId := nextIdR ▸ before.trans (Nat.lt_succ_self _)
  -- what is no cell of the rows above is as it was before the spans grew
  have nodesR {i : NodeId} (apart : ∀ row ∈ p.childrenOf table, i ∉ p.childrenOf row) : r.nodes i = q.nodes i := by
    refine spans.outside i fun row inside inRow => ?_
    have inside := List.mem_reverse.mp inside
    rw [childrenQ (links.child_lt inside) (notRow inside)] at inRow
    exact apart row inside inRow
  have tableApart : ∀ row ∈ p.childrenOf table, table ∉ p.childrenOf row := by
    intro row inside inRow
    exact differs.2 (isTable.symm.trans (links.cell (links.row isTable inside) inRow))
  have newApart : ∀ row ∈ p.childrenOf table, p.nextId ∉ p.childrenOf row := fun row _ inRow =>
    lt_irrefl _ (links.child_lt inRow)
  have dataS : s.dataOf table = p.dataOf table :=
    (added.data table (oldR old)).trans ((dataOf_congr (nodesR tableApart)).trans (dataQ old))
  have isTableS : s.typeOf table = tableType := by rw [ParserState.typeOf, dataS]; exact isTable
  have thereS : (s.nodes table).isSome = true := isSome_of_typeOf (by rw [isTableS]; decide)
  have childrenS : s.childrenOf table = p.childrenOf table ++ [p.nextId] := by
    rw [childrenOf_congr (added.outside table (oldR old) old.ne), spans.children, childrenOf_appendBlock here,
      if_neg old.ne, if_pos rfl]
  have rowsS : ∀ row ∈ p.childrenOf table, rowNode s row = rowNode r row := by
    intro row inside
    have before := oldR (links.child_lt inside)
    exact rowNode_congr (added.data row before) (childrenOf_congr (added.outside row before (notNew inside)))
      fun c inRow => added.data c (linksR.child_lt inRow)
  have newS : rowNode s p.nextId = newRow self p (tableNode p table) merged := by
    have empty : rowNode r p.nextId = { data := { data with as := .empty }, isHeader := false, cells := [] } := by
      rw [rowNode, dataOf_congr (nodesR newApart), spans.children, dataOf_appendBlock, childrenOf_appendBlock here,
        if_pos rfl, if_pos rfl]
      rfl
    rw [added.added, empty, List.nil_append, newRow]
    simp only [data, new, line]
    rfl
  refine ⟨?_, ?_, ?_, fun i isTable' => ?_, ?_⟩
  · exact (Nat.le_succ p.nextId).trans (nextIdR.ge.trans added.later)
  · exact added.links.edit thereS rfl rfl
  · rw [tableNode, childrenOf_modifyData, List.map_congr_left fun row inside => rowNode_modifyData_table added.links isTableS inside,
      dataOf_modifyData thereS,
      if_pos rfl, dataS, childrenS, List.map_append, List.map_congr_left rowsS, grown, List.map_singleton, newS]
    rfl
  · have before : s.typeOf i = tableType := by
      rw [ParserState.typeOf, dataOf_modifyData thereS] at isTable'
      split_ifs at isTable' <;> exact isTable'
    exact tables_append (show rowType ≠ tableType by decide) ((types i).symm.trans (added.tables i before))
  · intro i before apart
    have notTable : i ≠ table := fun same => apart (.inl same)
    have notCell : ∀ row ∈ p.childrenOf table, i ∉ p.childrenOf row := fun row inside inRow =>
      apart (.inr ⟨row, inside, .inr inRow⟩)
    rw [nodes_modifyData, if_neg notTable, added.outside i (oldR before) before.ne, nodesR notCell]
    change (p.appendBlock table data).1.nodes i = p.nodes i
    rw [nodes_appendBlock, if_neg before.ne, if_neg notTable]

/-! ### The header -/

/-- Put an element before another one. -/
theorem mem_insertBefore {c new x : NodeId} {l : List NodeId} :
    x ∈ (l.flatMap fun y => if y = c then [new, y] else [y]) ↔ x ∈ l ∨ (x = new ∧ c ∈ l) := by
  induction l with
  | nil => simp
  | cons y l ih =>
    rw [List.flatMap_cons, List.mem_append, ih, List.mem_cons, List.mem_cons]
    split_ifs with same
    · subst same
      simp
      tauto
    · have differs : c ≠ y := fun eq => same eq.symm
      simp [differs]
      tauto

theorem insertBefore_of_not_mem {c new : NodeId} {l : List NodeId} (absent : c ∉ l) :
    (l.flatMap fun y => if y = c then [new, y] else [y]) = l := by
  induction l with
  | nil => rfl
  | cons y l ih =>
    obtain ⟨notHere, notBehind⟩ := not_or.mp fun member => absent (List.mem_cons.mpr member)
    rw [List.flatMap_cons, if_neg (Ne.symm notHere), ih notBehind]
    rfl

theorem nodup_insertBefore {c new : NodeId} {l : List NodeId} (distinct : l.Nodup) (fresh : new ∉ l) :
    (l.flatMap fun y => if y = c then [new, y] else [y]).Nodup := by
  induction l with
  | nil => exact List.nodup_nil
  | cons y l ih =>
    obtain ⟨once, distinct⟩ := List.nodup_cons.mp distinct
    obtain ⟨notHere, notBehind⟩ := not_or.mp fun member => fresh (List.mem_cons.mpr member)
    have rest := ih distinct notBehind
    have other {x : NodeId} (absent : x ∉ l) (differs : x ≠ new) :
        x ∉ l.flatMap fun y => if y = c then [new, y] else [y] := by
      rw [mem_insertBefore]
      rintro (member | ⟨same, -⟩)
      · exact absent member
      · exact differs same
    rw [List.flatMap_cons]
    split_ifs with same
    · subst same
      refine List.nodup_cons.mpr ⟨?_, List.nodup_cons.mpr ⟨other once (Ne.symm notHere), rest⟩⟩
      change new ∉ y :: l.flatMap _
      rw [List.mem_cons, mem_insertBefore]
      rintro (same | member | ⟨-, member⟩)
      · exact notHere same
      · exact notBehind member
      · exact once member
    · exact List.nodup_cons.mpr ⟨other once (Ne.symm notHere), rest⟩

section

variable {c : NodeId} {content : Bytes}

theorem nodes_insertParagraph (above : p.parentOf c = some parent) :
    (tryInsertingTableHeaderParagraph content c p).nodes j =
      if j = p.nextId then some ⟨{ type := .paragraph, content := content }, some parent, []⟩
      else if j = parent then (p.nodes j).map fun b =>
        { b with children := b.children.flatMap fun x => if x = c then [p.nextId, x] else [x] }
      else p.nodes j := by
  simp only [tryInsertingTableHeaderParagraph, above]
  change (if j = p.nextId then _ else if j = parent then (p.nodes parent).map _ else p.nodes j) = _
  split_ifs with fresh isParent
  · rfl
  · rw [isParent]
  · rfl

theorem dataOf_insertParagraph (above : p.parentOf c = some parent) :
    (tryInsertingTableHeaderParagraph content c p).dataOf j =
      if j = p.nextId then { type := .paragraph, content := content } else p.dataOf j := by
  rw [ParserState.dataOf, ParserState.block, nodes_insertParagraph above, ParserState.dataOf, ParserState.block]
  split_ifs
  · rfl
  · cases p.nodes j <;> rfl
  · rfl

theorem parentOf_insertParagraph (above : p.parentOf c = some parent) :
    (tryInsertingTableHeaderParagraph content c p).parentOf j = if j = p.nextId then some parent else p.parentOf j := by
  rw [ParserState.parentOf, ParserState.block, nodes_insertParagraph above, ParserState.parentOf, ParserState.block]
  split_ifs
  · rfl
  · cases p.nodes j <;> rfl
  · rfl

theorem childrenOf_insertParagraph (above : p.parentOf c = some parent) :
    (tryInsertingTableHeaderParagraph content c p).childrenOf j =
      if j = p.nextId then []
      else if j = parent then (p.childrenOf j).flatMap fun x => if x = c then [p.nextId, x] else [x]
      else p.childrenOf j := by
  rw [ParserState.childrenOf, ParserState.block, nodes_insertParagraph above, ParserState.childrenOf, ParserState.block]
  split_ifs
  · rfl
  · cases p.nodes j <;> rfl
  · rfl

theorem isSome_insertParagraph (above : p.parentOf c = some parent) :
    ((tryInsertingTableHeaderParagraph content c p).nodes j).isSome = (decide (j = p.nextId) || (p.nodes j).isSome) := by
  rw [nodes_insertParagraph above]
  split_ifs with fresh <;> simp [fresh]

theorem frame_insertParagraph (above : p.parentOf c = some parent) :
    (tryInsertingTableHeaderParagraph content c p).nextId = p.nextId + 1 ∧
      (tryInsertingTableHeaderParagraph content c p).root = p.root := by
  unfold tryInsertingTableHeaderParagraph
  rw [above]
  exact ⟨rfl, rfl⟩

theorem typeOf_insertParagraph (above : p.parentOf c = some parent) :
    (tryInsertingTableHeaderParagraph content c p).typeOf j = if j = p.nextId then .paragraph else p.typeOf j := by
  rw [ParserState.typeOf, dataOf_insertParagraph above]
  split_ifs <;> rfl

theorem TableLinks.insertParagraph (links : TableLinks self p) (paragraph : p.typeOf c = .paragraph)
    (above : p.parentOf c = some parent) : TableLinks self (tryInsertingTableHeaderParagraph content c p) := by
  have old := links.bound (isSome_of_typeOf (by rw [paragraph]; decide))
  have frame := @frame_insertParagraph p parent c content above
  have notNew {i x : NodeId} (inside : x ∈ p.childrenOf i) : x ≠ p.nextId := (links.child_lt inside).ne
  -- a child is the new paragraph, before the container, or has been one
  have member {j x : NodeId} (inside : x ∈ (tryInsertingTableHeaderParagraph content c p).childrenOf j) :
      j ≠ p.nextId ∧ (x ∈ p.childrenOf j ∨ (x = p.nextId ∧ j = parent ∧ c ∈ p.childrenOf j)) := by
    rw [childrenOf_insertParagraph above] at inside
    split_ifs at inside with fresh isParent
    · cases inside
    · rcases mem_insertBefore.mp inside with before | ⟨same, beside⟩
      · exact ⟨fresh, .inl before⟩
      · exact ⟨fresh, .inr ⟨same, isParent, beside⟩⟩
    · exact ⟨fresh, .inl inside⟩
  refine ⟨?_, ?_, ?_, ?_, ?_, ?_, ?_, ?_⟩
  · intro i isThere
    rw [isSome_insertParagraph above, Bool.or_eq_true, decide_eq_true_eq] at isThere
    rw [frame.1]
    rcases isThere with rfl | isThere
    · exact Nat.lt_succ_self _
    · exact (links.bound isThere).trans (Nat.lt_succ_self _)
  · intro i x inside
    rw [isSome_insertParagraph above, parentOf_insertParagraph above]
    obtain ⟨fresh, before | ⟨rfl, rfl, beside⟩⟩ := member inside
    · rw [if_neg (notNew before), (links.child before).1, Bool.or_true]
      exact ⟨rfl, (links.child before).2⟩
    · rw [if_pos rfl]
      exact ⟨by simp, rfl, (links.child beside).2.2.trans old⟩
  · intro i
    rw [childrenOf_insertParagraph above]
    split_ifs
    · exact List.nodup_nil
    · exact nodup_insertBefore (links.distinct i) fun inside => notNew inside rfl
    · exact links.distinct i
  · intro i x isTable inside
    rw [typeOf_insertParagraph above] at isTable ⊢
    obtain ⟨fresh, before | ⟨-, -, beside⟩⟩ := member inside <;> rw [if_neg fresh] at isTable
    · rw [if_neg (notNew before), links.row isTable before]
    · exact absurd (paragraph.symm.trans (links.row isTable beside)) (by decide)
  · intro i x isRow inside
    rw [typeOf_insertParagraph above] at isRow ⊢
    obtain ⟨fresh, before | ⟨-, -, beside⟩⟩ := member inside <;> rw [if_neg fresh] at isRow
    · rw [if_neg (notNew before), links.cell isRow before]
    · exact absurd (paragraph.symm.trans (links.cell isRow beside)) (by decide)
  · intro i isLeaf
    rw [typeOf_insertParagraph above] at isLeaf
    refine List.eq_nil_iff_forall_not_mem.mpr fun x inside => ?_
    obtain ⟨fresh, before | ⟨-, -, beside⟩⟩ := member inside <;> rw [if_neg fresh] at isLeaf
    · rw [links.leaf isLeaf] at before
      cases before
    · rw [links.leaf isLeaf] at beside
      cases beside
  · intro i part
    rw [typeOf_insertParagraph above] at part
    rw [dataOf_insertParagraph above]
    split_ifs at part ⊢
    · exact absurd part (by unfold isTablePart; decide)
    · exact links.own part
  · rw [typeOf_insertParagraph above, frame.2]
    exact (if_neg links.root_lt.ne).trans links.root

/-- A paragraph is linked before another one, and the other blocks are as before. -/
structure InsertsParagraph (ext : Nat) (c : NodeId) (p p' : ParserState) : Prop where
  later : p.nextId ≤ p'.nextId
  links : TableLinks ext p'
  data : p'.dataOf c = p.dataOf c
  tables : ∀ i, p'.typeOf i = tableType → p.typeOf i = tableType
  outside : ∀ i, i < p.nextId → c ∉ p.childrenOf i → p'.nodes i = p.nodes i

theorem insertsParagraph (links : TableLinks self p) (paragraph : p.typeOf c = .paragraph) :
    InsertsParagraph self c p (tryInsertingTableHeaderParagraph content c p) := by
  have old := links.bound (isSome_of_typeOf (by rw [paragraph]; decide))
  cases above : p.parentOf c with
  | none =>
    rw [tryInsertingTableHeaderParagraph, above]
    exact ⟨le_rfl, links, rfl, fun _ => id, fun _ _ _ => rfl⟩
  | some parent =>
    refine ⟨(frame_insertParagraph above).1 ▸ Nat.le_succ _, links.insertParagraph paragraph above, ?_, ?_, ?_⟩
    · rw [dataOf_insertParagraph above, if_neg old.ne]
    · intro i isTable
      rw [typeOf_insertParagraph above] at isTable
      split_ifs at isTable
      · exact absurd isTable (by decide)
      · exact isTable
    · intro i before notParent
      rw [nodes_insertParagraph above, if_neg before.ne]
      split_ifs with isParent
      · rw [ParserState.childrenOf, ParserState.block] at notParent
        cases block : p.nodes i with
        | none => rfl
        | some b =>
          have absent : c ∉ b.children := by
            rw [block] at notParent
            exact notParent
          rw [Option.map_some, insertBefore_of_not_mem absent]
      · rfl

/-- A table stands where a paragraph was, with the rows that it has by itself, and the other blocks are as before. -/
structure WritesTable (ext : Nat) (c : NodeId) (table : TableNode) (p p' : ParserState) : Prop where
  later : p.nextId ≤ p'.nextId
  links : TableLinks ext p'
  isTable : p'.typeOf c = tableType
  reads : tableNode p' c = table
  tables : ∀ i, p'.typeOf i = tableType → i = c ∨ p.typeOf i = tableType
  outside : ∀ i, i < p.nextId → i ≠ c → c ∉ p.childrenOf i → p'.nodes i = p.nodes i

theorem writesTable (links : TableLinks self p) (paragraph : p.typeOf c = .paragraph) (before : Option Bytes)
    (header delimiter : Row) (line : Int) :
    WritesTable self c (headerTable self (p.dataOf c) line header delimiter) p
      (placeTable c before (headerTable self (p.dataOf c) line header delimiter) p) := by
  let table := headerTable self (p.dataOf c) line header delimiter
  -- the paragraph that may come before it
  let q := before.elim p fun content => tryInsertingTableHeaderParagraph content c p
  have inserted : InsertsParagraph self c p q := by
    cases before with
    | none => exact ⟨le_rfl, links, rfl, fun _ => id, fun _ _ _ => rfl⟩
    | some content => exact insertsParagraph links paragraph
  have paragraphQ : q.typeOf c = .paragraph := by rw [ParserState.typeOf, inserted.data]; exact paragraph
  have hereQ : (q.nodes c).isSome = true := isSome_of_typeOf (by rw [paragraphQ]; decide)
  have old : c < p.nextId := links.bound (isSome_of_typeOf (by rw [paragraph]; decide))
  -- the node of the table
  let r := q.modifyData c fun _ => table.blockData
  have dataR (j : NodeId) : r.dataOf j = if j = c then table.blockData else q.dataOf j := dataOf_modifyData hereQ
  have linksR : TableLinks self r := by
    refine inserted.links.retype rfl rfl (fun _ => isSome_modifyData) (fun _ => childrenOf_modifyData)
      (fun _ => parentOf_modifyData) (fun j => ?_) fun j part => ?_
    · rw [ParserState.typeOf, dataR]
      split_ifs with same
      · exact .inr (same ▸ paragraphQ)
      · exact .inl rfl
    · rw [ParserState.typeOf, dataR] at part
      rw [dataR]
      split_ifs at part ⊢
      · rfl
      · exact inserted.links.own part
  have isTableR : r.typeOf c = tableType := by rw [ParserState.typeOf, dataR, if_pos rfl]; rfl
  have hereR : (r.nodes c).isSome = true := isSome_of_typeOf (by rw [isTableR]; decide)
  have oldR : c < r.nextId := linksR.bound hereR
  have childless : r.childrenOf c = [] := childrenOf_modifyData.trans (inserted.links.leaf (.inl paragraphQ))
  -- the row of the header
  let row := headerRow self (p.dataOf c) line header
  let s := (r.appendBlock c row.blockData).1
  have linksS : TableLinks self s :=
    linksR.append hereR (by unfold holdsText; rw [isTableR]; decide) (fun _ => rfl) (fun isRow => absurd (isTableR.symm.trans isRow) (by decide))
      fun _ => rfl
  have isRow : s.typeOf r.nextId = rowType := by
    rw [ParserState.typeOf, dataOf_appendBlock, if_pos rfl]
    rfl
  have dataS : s.dataOf c = table.blockData := by rw [dataOf_appendBlock, if_neg oldR.ne, dataR, if_pos rfl]
  have nextIdS : s.nextId = r.nextId + 1 := rfl
  have oldS {i : NodeId} (earlier : i < p.nextId) : i < s.nextId :=
    nextIdS ▸ (earlier.trans_le inserted.later).trans (Nat.lt_succ_self _)
  have made : ∀ cell ∈ row.cells, cell.Made self := by
    intro cell member
    obtain ⟨i, inRange, rfl⟩ := List.mem_mapIdx.mp member
    exact made_makeCell ..
  let t := addCells r.nextId row.cells s
  have added : AddsCells self r.nextId row.cells s t := addsCells_addCells made linksS isRow
  have result : placeTable c before table p = t := rfl
  have dataT : t.dataOf c = table.blockData := (added.data c (oldS old)).trans dataS
  have childrenT : t.childrenOf c = [r.nextId] := by
    rw [childrenOf_congr (added.outside c (oldS old) oldR.ne), childrenOf_appendBlock hereR, if_neg oldR.ne, if_pos rfl,
      childless, List.nil_append]
  have rowT : rowNode t r.nextId = row := by
    have empty : rowNode s r.nextId = { row with cells := [] } := by
      rw [rowNode, dataOf_appendBlock, childrenOf_appendBlock hereR, if_pos rfl, if_pos rfl]
      rfl
    rw [added.added, empty, List.nil_append]
  rw [result]
  refine ⟨?_, added.links, ?_, ?_, fun i isTable => ?_, ?_⟩
  · exact (inserted.later.trans (Nat.le_succ _)).trans added.later
  · rw [ParserState.typeOf, dataT]
    rfl
  · rw [tableNode, dataT, childrenT, List.map_singleton, rowT]
    rfl
  · have before : r.typeOf i = tableType := tables_append (show rowType ≠ tableType by decide) (added.tables i isTable)
    rw [ParserState.typeOf, dataR] at before
    split_ifs at before with same
    · exact .inl same
    · exact .inr (inserted.tables i before)
  · intro i earlier notTable notParent
    have earlierR : i < r.nextId := earlier.trans_le inserted.later
    have nodesR : r.nodes i = q.nodes i := by rw [nodes_modifyData, if_neg notTable]
    have nodesS : s.nodes i = r.nodes i := by rw [nodes_appendBlock, if_neg earlierR.ne, if_neg notTable]
    rw [added.outside i (oldS earlier) earlierR.ne, nodesS, nodesR, inserted.outside i earlier notParent]

end

/-! ### The callbacks -/

theorem asserts_addCells (row : NodeId) (cells : List CellNode) (p : ParserState) :
    (addCells row cells p).asserts = p.asserts := by
  induction cells generalizing p with
  | nil => rfl
  | cons cell cells ih => exact (ih _).trans rfl

theorem asserts_spanRowAt {above : List NodeId} {i : Nat} (found : spanRowAt i p above = some p') :
    p'.asserts = p.asserts := by
  induction above with
  | nil => cases found
  | cons row above ih =>
    rw [spanRowAt] at found
    split_ifs at found
    · exact ih found
    · cases found
      cases (p.childrenOf row)[i]? <;> rfl

theorem asserts_spanRowsAt (above : List NodeId) (cells : List RowCell) (i : Nat) (p : ParserState) :
    (spanRowsAt above i cells p).2.asserts = p.asserts := by
  induction cells generalizing i p with
  | nil => rfl
  | cons cell rest ih =>
    rw [spanRowsAt]
    split_ifs
    · cases found : spanRowAt i p above with
      | none => exact ih ..
      | some q => exact (ih ..).trans (asserts_spanRowAt found)
    · exact ih ..

theorem asserts_tryOpeningTableRowAt (self : Nat) (options : Options) (p : ParserState) (c : NodeId) (input : Bytes) :
    (tryOpeningTableRowAt self options p c input).1.asserts = p.asserts := by
  unfold tryOpeningTableRowAt
  split_ifs
  · rfl
  · rfl
  · split
    next => rfl
    next row _ =>
      refine (quiet_advanceOffset ..).asserts.trans ?_
      unfold addRowAt
      dsimp only
      split_ifs
      · exact (asserts_addCells ..).trans (asserts_spanRowsAt ..)
      · exact asserts_addCells ..

theorem asserts_tryOpeningTableHeaderAt (self : Nat) (options : Options) (p : ParserState) (c : NodeId) (input : Bytes) :
    (tryOpeningTableHeaderAt self options p c input).asserts = p.asserts := by
  unfold tryOpeningTableHeaderAt
  dsimp only
  split
  next => rfl
  next => rfl
  next before table q opened =>
    obtain ⟨header, delimiter, -, -, -, rfl, rfl⟩ := tryOpeningTableHeader_table opened
    refine (asserts_addCells ..).trans ?_
    refine Eq.trans ?_ (quiet_advanceOffset input p ((input.length : Int) - 1 - p.offset) false).asserts
    cases before with
    | none => rfl
    | some content =>
      change (tryInsertingTableHeaderParagraph content c _).asserts = _
      unfold tryInsertingTableHeaderParagraph
      split <;> rfl

theorem TableLinks.of_nodes (links : TableLinks self p) (nodes : p'.nodes = p.nodes) (nextId : p'.nextId = p.nextId)
    (root : p'.root = p.root) : TableLinks self p' := by
  have data (i : NodeId) : p'.dataOf i = p.dataOf i := dataOf_congr (congrFun nodes i)
  refine links.retype nextId root (fun i => by rw [nodes]) (fun i => childrenOf_congr (congrFun nodes i)) (fun i => ?_)
    (fun i => .inl ?_) fun i part => ?_
  · rw [ParserState.parentOf, ParserState.block, nodes]
    rfl
  · rw [ParserState.typeOf, data]
    rfl
  · rw [ParserState.typeOf, data] at part
    rw [data]
    exact links.own part

theorem tableNode_of_nodes (nodes : p'.nodes = p.nodes) (t : NodeId) : tableNode p' t = tableNode p t :=
  tableNode_congr (fun i _ => dataOf_congr (congrFun nodes i)) fun i _ => childrenOf_congr (congrFun nodes i)

/-- A table is in the blocks at an address, and the other tables are as before. -/
structure OpensTable (ext : Nat) (c : NodeId) (table : TableNode) (p p' : ParserState) : Prop where
  links : TableLinks ext p'
  reads : tableNode p' c = table
  tables : ∀ i, p'.typeOf i = tableType → i = c ∨ p.typeOf i = tableType
  others : ∀ t, p.typeOf t = tableType → t ≠ c → tableNode p' t = tableNode p t

theorem OpensTable.of_nodes {c : NodeId} {t : TableNode} {p'' : ParserState} (opens : OpensTable self c t p p')
    (nodes : p''.nodes = p'.nodes) (nextId : p''.nextId = p'.nextId) (root : p''.root = p'.root) :
    OpensTable self c t p p'' where
  links := opens.links.of_nodes nodes nextId root
  reads := (tableNode_of_nodes nodes c).trans opens.reads
  tables i isTable := opens.tables i (by
    rw [ParserState.typeOf, dataOf_congr (congrFun nodes i)] at isTable
    exact isTable)
  others t isTable differs := (tableNode_of_nodes nodes t).trans (opens.others t isTable differs)

theorem lt_of_inTable (links : TableLinks self p) {t : NodeId} (isTable : p.typeOf t = tableType) (inside : InTable p t i) :
    i < p.nextId := by
  rcases inside with rfl | ⟨row, inTable, rfl | inRow⟩
  · exact links.bound (isSome_of_typeOf (by rw [isTable]; decide))
  · exact links.child_lt inTable
  · exact links.child_lt inRow

theorem AddsRow.opensTable {options : Options} {cells : List RowCell} (links : TableLinks self p)
    (isTable : p.typeOf table = tableType) (added : AddsRow self options table cells p p') :
    OpensTable self table (addRow self options p (tableNode p table) cells) p p' where
  links := added.links
  reads := added.reads
  tables i isTable' := .inr (added.tables i isTable')
  others t isTable' differs := by
    have same {i : NodeId} (inside : InTable p t i) : p'.nodes i = p.nodes i :=
      added.outside i (lt_of_inTable links isTable' inside) fun inside' =>
        differs (links.inTable_unique isTable' isTable inside inside')
    exact tableNode_congr (fun i inside => dataOf_congr (same inside)) fun i inside => childrenOf_congr (same inside)

theorem WritesTable.opensTable {c : NodeId} {t : TableNode} (links : TableLinks self p) (paragraph : p.typeOf c = .paragraph)
    (written : WritesTable self c t p p') : OpensTable self c t p p' where
  links := written.links
  reads := written.reads
  tables := written.tables
  others t isTable differs := by
    have apart {i : NodeId} (inside : InTable p t i) : i ≠ c ∧ c ∉ p.childrenOf i := by
      rcases inside with rfl | ⟨row, inTable, rfl | inRow⟩
      · refine ⟨differs, fun member => ?_⟩
        exact absurd (paragraph.symm.trans (links.row isTable member)) (by decide)
      · have isRow := links.row isTable inTable
        refine ⟨?_, fun member => absurd (paragraph.symm.trans (links.cell isRow member)) (by decide)⟩
        rintro rfl
        exact absurd (paragraph.symm.trans isRow) (by decide)
      · have isCell := links.cell (links.row isTable inTable) inRow
        constructor
        · rintro rfl
          exact absurd (paragraph.symm.trans isCell) (by decide)
        · rw [links.leaf (.inr (.inr (.inl isCell)))]
          exact List.not_mem_nil
    have same {i : NodeId} (inside : InTable p t i) : p'.nodes i = p.nodes i :=
      written.outside i (lt_of_inTable links isTable inside) (apart inside).1 (apart inside).2
    exact tableNode_congr (fun i inside => dataOf_congr (same inside)) fun i inside => childrenOf_congr (same inside)

/-- Opening a header over a paragraph of the blocks is opening it over its data. -/
theorem tryOpeningTableHeaderAt_spec (links : TableLinks self p) {c : NodeId} (paragraph : p.typeOf c = .paragraph)
    (options : Options) (input : Bytes) :
    match tryOpeningTableHeader self options p (p.dataOf c) (p.dataOf c).tableVisited (takesTable p c) input with
    | .unchanged => tryOpeningTableHeaderAt self options p c input = p
    | .visited => tryOpeningTableHeaderAt self options p c input =
        p.modifyData c fun d => { d with tableVisited := true }
    | .table _ t _ => OpensTable self c t p (tryOpeningTableHeaderAt self options p c input) := by
  unfold tryOpeningTableHeaderAt
  dsimp only
  cases opened : tryOpeningTableHeader self options p (p.dataOf c) (p.dataOf c).tableVisited (takesTable p c) input with
  | unchanged => rfl
  | visited => rfl
  | table before t q =>
    obtain ⟨header, delimiter, -, -, -, rfl, rfl⟩ := tryOpeningTableHeader_table opened
    have nodes := nodes_advanceOffset input ((input.length : Int) - 1 - p.offset) false p
    have moved := quiet_advanceOffset input p ((input.length : Int) - 1 - p.offset) false
    generalize advanceOffset input ((input.length : Int) - 1 - p.offset) false p = q at nodes moved ⊢
    have data : q.dataOf c = p.dataOf c := dataOf_congr (congrFun nodes c)
    have paragraphQ : q.typeOf c = .paragraph := by
      rw [ParserState.typeOf, data]
      exact paragraph
    have linksQ := links.of_nodes nodes moved.nextId moved.root
    have written := writesTable linksQ paragraphQ before header delimiter p.lineNumber
    rw [data] at written
    have opens := written.opensTable linksQ paragraphQ
    refine ⟨opens.links, opens.reads, fun i isTable => ?_, fun t isTable differs => ?_⟩
    · refine (opens.tables i isTable).imp_right fun isTable => ?_
      rw [ParserState.typeOf, dataOf_congr (congrFun nodes i)] at isTable
      exact isTable
    · refine (opens.others t ?_ differs).trans (tableNode_of_nodes nodes t)
      rw [ParserState.typeOf, dataOf_congr (congrFun nodes t)]
      exact isTable

/-- Opening a row of a table in the blocks is opening it in the table by itself. -/
theorem tryOpeningTableRowAt_spec (links : TableLinks self p) (isTable : p.typeOf table = tableType)
    (options : Options) (input : Bytes) :
    match tryOpeningTableRow self options p (tableNode p table) input with
    | none => tryOpeningTableRowAt self options p table input = (p, none)
    | some (_, t) => (tryOpeningTableRowAt self options p table input).2.isSome = true ∧
        OpensTable self table t p (tryOpeningTableRowAt self options p table input).1 := by
  unfold tryOpeningTableRowAt
  by_cases blank : p.blank = true
  · rw [tryOpeningTableRow, if_pos blank, if_pos blank]
  have same : (getTable (p.dataOf table)).nAutocompletedCells = (tableNode p table).nAutocompletedCells := rfl
  rw [if_neg blank, same]
  by_cases many : (tableNode p table).nAutocompletedCells > maxAutocompletedCells
  · rw [tryOpeningTableRow, if_neg blank, if_pos many, if_pos many]
  rw [if_neg many]
  cases read : rowFromString options (input.drop p.firstNonspace) with
  | none => rw [tryOpeningTableRow, if_neg blank, if_neg many, read]
  | some row =>
    rw [tryOpeningTableRow_eq self (by simpa using blank) (by omega) read]
    have added := addsRow_addRowAt links isTable options row.cells
    have moved := quiet_advanceOffset input (addRowAt self options p table row.cells).1
      ((input.length : Int) - 1 - (addRowAt self options p table row.cells).1.offset) false
    exact ⟨rfl, (added.opensTable links isTable).of_nodes (nodes_advanceOffset ..) moved.nextId moved.root⟩

end

end Table

end CmarkGfm
