import CmarkGfm.Properties.BlockSteps
import CmarkGfm.Properties.DocumentTrees

/-!
# The trees that the renderers get

The core parser makes headings with a level, and footnote definitions whose label is not blank. Such
a label has an entry in the map of footnotes, so `process_footnotes` leaves no definition but those
at the end of the document, and a reference that is left refers to one of them.
-/

namespace CmarkGfm

/-! ### The blocks -/

/-- What the block parser has checked about a heading or a footnote definition. -/
structure BlockData (P : Config) (d : NodeData) : Prop where
  heading : d.type = .heading → 1 ≤ d.as.getLevel ∧ d.as.getLevel ≤ 6
  definition : d.type = .footnoteDefinition → P.options.has optFootnotes ∧
    ∃ c rest, d.as.getLiteral = c :: rest ∧ c ≠ 0 ∧ isspace c = false

theorem BlockData.other {P : Config} {d : NodeData} (notHeading : d.type ≠ .heading)
    (notDefinition : d.type ≠ .footnoteDefinition) : BlockData P d :=
  ⟨fun type => absurd type notHeading, fun type => absurd type notDefinition⟩

theorem BlockData.step {P : Config} {d e : NodeData} (step : DataStep d e) (data : BlockData P d) :
    BlockData P e := by
  cases step with
  | content type as _ _ => exact ⟨by rw [type, as]; exact data.heading, by rw [type, as]; exact data.definition⟩
  | close type _ _ closed =>
    refine .other ?_ ?_ <;> rw [type] <;> rcases closed with same | same | same <;> rw [same] <;> decide
  | setext lev _ low high => exact ⟨fun _ => ⟨low, high⟩, nofun⟩

/-- When a document is finalized, every block has data that was checked. -/
theorem blockData_finalizeBlocks {P : Config} (core : P.syntaxExtensions = [])
    (callback : Option (UInt8 → Bool)) (chunks : List Bytes) :
    (finalizeBlocks P (flushedParser P callback chunks).state).EveryBlock (BlockData P) := by
  have none : ∀ e ∈ P.syntaxExtensions, e.Steps P fun _ _ => False := by
    intro e member
    rw [core] at member
    cases member
  refine @BlockStep.everyBlock P _ (BlockData P) _ _ (step_flushedParser none callback chunks)
    ?_ ?_ ?_ ?_
  · exact BlockData.step
  · exact fun fresh => ⟨fresh.heading, fresh.definition⟩
  · exact fun called => called.elim
  · intro i b block
    have document : b.data.type = .document := by
      unfold initialState at block
      dsimp only at block
      split at block
      next => cases block; rfl
      next => cases block
    refine .other ?_ ?_ <;> rw [document] <;> decide

/-! ### Labels -/

/-- Case folding replaces a character by visible ones, as `case_fold_switch.inc` does. -/
def FoldsToVisible (T : Tables) : Prop :=
  ∀ c l, T.caseFold c = some l → ∃ x rest, l = x :: rest ∧ 32 < x

/-- Neither the end of a C string nor white space. -/
def Visible (c : UInt8) : Prop := c ≠ 0 ∧ isspace c = false

theorem visible_of_lt {c : UInt8} (high : 32 < c) : Visible c := by
  constructor
  · rintro rfl
    exact absurd high (by decide)
  · cases space : isspace c with
    | false => rfl
    | true =>
      simp only [isspace, Bool.or_eq_true, beq_iff_eq] at space
      rcases space with ((rfl | rfl) | rfl) | rfl <;> exact absurd high (by decide)

/-- The encoding of a visible character starts with a visible byte. -/
theorem utf8EncodeChar_visible {x : Nat} (high : 32 < x) :
    ∃ c rest, utf8EncodeChar x = c :: rest ∧ Visible c := by
  have first {n : Nat} (low : 32 < n) (small : n < 256) (rest : Bytes) :
      ∃ c rest', UInt8.ofNat n :: rest = c :: rest' ∧ Visible c := by
    refine ⟨_, _, rfl, visible_of_lt ?_⟩
    rw [UInt8.lt_iff_toNat_lt, UInt8.toNat_ofNat_of_lt' small]
    exact low
  unfold utf8EncodeChar
  simp only [Nat.shiftRight_eq_div_pow]
  split
  next ascii => exact first high (by omega) []
  next =>
    split
    next => exact first (by omega) (by omega) _
    next =>
      split
      next => exact ⟨_, _, rfl, by decide, by decide⟩
      next =>
        split
        next => exact ⟨_, _, rfl, by decide, by decide⟩
        next =>
          split
          next => exact first (by omega) (by omega) _
          next =>
            split
            next => exact first (by omega) (by omega) _
            next => exact ⟨_, _, rfl, by decide, by decide⟩

theorem utf8Charlen_one {c : UInt8} {rest : Bytes} (one : utf8Charlen (c :: rest) = some 1) :
    c.toNat < 0x80 := by
  unfold utf8Charlen at one
  dsimp only at one
  split at one
  next => cases one
  next =>
    split at one
    next => cases one
    next =>
      split at one
      next =>
        have isOne : utf8Class c = 1 := Option.some.inj one
        unfold utf8Class at isOne
        split at isOne
        next ascii => exact ascii
        next => repeat' split at isOne <;> try cases isOne
      next => cases one

theorem utf8Iterate_visible {c : UInt8} {rest : Bytes} {uc n : Nat}
    (read : utf8Iterate (c :: rest) = some (uc, n)) : 32 < uc ∨ utf8EncodeChar uc = [c] := by
  unfold utf8Iterate at read
  dsimp only at read
  split at read
  next => cases read
  next length charlen =>
    split at read
    next =>
      obtain ⟨rfl, rfl⟩ : c.toNat = uc ∧ 1 = n := by simpa [byteAt] using read
      refine .inr ?_
      rw [utf8EncodeChar, if_pos (utf8Charlen_one charlen), UInt8.ofNat_toNat]
    next =>
      split at read
      next => cases read
      next => cases read; exact .inl (by omega)
    next =>
      split at read
      next => cases read
      next small => cases read; simp at small; exact .inl (by omega)
    next =>
      split at read
      next => cases read
      next small => cases read; simp at small; exact .inl (by omega)
    next => cases read

/-- What case folding makes of text that starts with a visible byte starts with one. -/
theorem utf8CaseFold_visible {T : Tables} (folds : FoldsToVisible T) {c : UInt8}
    (visible : Visible c) (rest : Bytes) :
    ∃ c' rest', utf8CaseFold T (c :: rest) = c' :: rest' ∧ Visible c' := by
  rw [utf8CaseFold, List.length_cons, utf8CaseFoldFuel]
  split
  next uc n read =>
    have starts : ∃ c' l, ((T.caseFold uc).getD [uc]).flatMap utf8EncodeChar = c' :: l ∧ Visible c' := by
      cases folded : T.caseFold uc with
      | none =>
        rcases utf8Iterate_visible read with high | same
        · obtain ⟨c', l, encoded, visible'⟩ := utf8EncodeChar_visible high
          exact ⟨c', l, by simpa using encoded, visible'⟩
        · exact ⟨c, [], by simpa using same, visible⟩
      | some l =>
        obtain ⟨x, xs, rfl, high⟩ := folds uc l folded
        obtain ⟨c', l, encoded, visible'⟩ := utf8EncodeChar_visible high
        exact ⟨c', l ++ xs.flatMap utf8EncodeChar, by simp [encoded], visible'⟩
    obtain ⟨c', l, same, visible'⟩ := starts
    exact ⟨c', _, by rw [same, List.cons_append], visible'⟩
  next => exact ⟨239, _, rfl, by decide, by decide⟩

/-- A label that starts with a visible character can be looked up. -/
theorem normalizeMapLabel_visible {T : Tables} (folds : FoldsToVisible T) {c : UInt8}
    (visible : Visible c) (rest : Bytes) : (normalizeMapLabel T (c :: rest)).isSome := by
  obtain ⟨c', l, folded, isVisible, notSpace⟩ := utf8CaseFold_visible folds visible rest
  obtain ⟨m, trimmed⟩ : ∃ m, strbufTrim (c' :: l) = c' :: m := by
    have left : chunkLtrim (c' :: l) = c' :: l := List.dropWhile_cons_of_neg (by simp [notSpace])
    rw [strbufTrim, chunkTrim, left, chunkRtrim]
    have kept : List.rdropWhile isspace (c' :: l) <+: c' :: l := List.rdropWhile_prefix _ _
    cases right : List.rdropWhile isspace (c' :: l) with
    | nil =>
      rw [List.rdropWhile_eq_nil_iff] at right
      exact absurd (right c' List.mem_cons_self) (by simp [notSpace])
    | cons x m =>
      rw [right, List.cons_prefix_cons] at kept
      exact ⟨m, by rw [kept.1]⟩
  have normalized : strbufNormalizeWhitespace (c' :: m) = c' :: normalizeWhitespaceFrom false m := by
    rw [strbufNormalizeWhitespace, normalizeWhitespaceFrom, if_neg (by simp [notSpace])]
  have kept : cstr (c' :: normalizeWhitespaceFrom false m) =
      c' :: cstr (normalizeWhitespaceFrom false m) :=
    List.takeWhile_cons_of_pos (by simpa using isVisible)
  rw [normalizeMapLabel, if_neg (by simp)]
  simp only [folded, trimmed, normalized, kept]
  rw [if_neg (by simp)]
  rfl

/-! ### The nodes before the footnote pass -/

/-- A node of the core types whose children may be below it, with data that was checked. -/
structure CheckedNode (P : Config) (i : NodeId) (d : NodeData) (cs : Forest) : Prop
    extends CoreNode i d cs, BlockData P d where
  reference : d.type = .footnoteReference → P.options.has optFootnotes

theorem stable_checkedNode (P : Config) : Stable (CheckedNode P) where
  children all gone pruned :=
    { toCoreNode := stable_coreNode.children all.toCoreNode (fun x member => by
        obtain ⟨d, cs, node, type⟩ := gone x member
        exact ⟨d, cs, node.toCoreNode, type⟩) pruned
      toBlockData := all.toBlockData
      reference := all.reference }
  text {i d} type :=
    { toCoreNode := stable_coreNode.text type
      toBlockData := .other (by rw [type]; decide) (by rw [type]; decide)
      reference := fun other => by rw [type] at other; cases other }
  counts n all :=
    { toCoreNode := stable_coreNode.counts n all.toCoreNode
      toBlockData := ⟨all.heading, all.definition⟩
      reference := all.reference }
  reference {i d e cs} all type type' :=
    { toCoreNode := stable_coreNode.reference all.toCoreNode type type'
      toBlockData := .other (by rw [type']; decide) (by rw [type']; decide)
      reference := fun _ => all.reference type }

section

variable {P : Config} (core : P.syntaxExtensions = []) (callback : Option (UInt8 → Bool))
  (chunks : List Bytes)

include core

theorem checkedNode_parsedDocument : (parsedDocument P callback chunks).2.All (CheckedNode P) := by
  obtain ⟨lo, _, nodes, _, _, blocks⟩ := parsedDocument_spec core callback chunks
  refine all_of_postorder _ fun m inTree => ?_
  have node := (Node.All.of_mem _ nodes inTree).here
  refine { toCoreNode := ⟨node.core, node.child⟩, toBlockData := ?_, reference := node.reference }
  by_cases old : m.id < lo
  · have label : m.label ∈ blockLabels lo [(parsedDocument P callback chunks).2] := by
      refine List.mem_map_of_mem (List.mem_filter.mpr ⟨?_, by simpa using old⟩)
      simpa [postorderList] using inTree
    obtain ⟨b, found, same⟩ := blocks _ label
    rw [show m.data = b.data from same]
    exact blockData_finalizeBlocks core callback chunks found
  · have inline := node.new (Nat.le_of_not_lt old)
    refine .other ?_ ?_ <;> intro type <;> rw [type] at inline <;> cases inline

end

/-! ### The footnotes that are left -/

/-- A node as the renderers get it: definitions of footnotes are at the top of the document. -/
structure RenderedNode (P : Config) (i : NodeId) (d : NodeData) (cs : Forest) : Prop
    extends CheckedNode P i d cs where
  top : ∀ c ∈ cs, c.type = .footnoteDefinition → d.type = .document

theorem prunable_renderedNode (P : Config) : Prunable (RenderedNode P) where
  children all gone pruned :=
    { toCheckedNode := (stable_checkedNode P).children all.toCheckedNode (fun x member => by
        obtain ⟨d, cs, node, type⟩ := gone x member
        exact ⟨d, cs, node.toCheckedNode, type⟩) pruned
      top := by
        intro c member type
        rcases pruned.stems c member with ⟨c', among, same⟩ | ⟨text, _⟩
        · exact all.top c' among (same.trans type)
        · rw [text] at type
          cases type }
  text type := { toCheckedNode := (stable_checkedNode P).text type, top := nofun }
  counts n all :=
    { toCheckedNode := (stable_checkedNode P).counts n all.toCheckedNode, top := all.top }

theorem not_definition_of_exits {f : Forest} (none : exitsList .footnoteDefinition f = [])
    {n : Node} (member : n ∈ postorderList f) : n.type ≠ .footnoteDefinition := by
  intro type
  have inExits : n ∈ exitsList .footnoteDefinition f := by
    rw [exitsList_eq_filter]
    exact List.mem_filter.mpr ⟨member, by simpa using type⟩
  rw [none] at inExits
  cases inExits

/-- Where no definition is left, the nodes are as the renderers get them. -/
theorem renderedNodes_of_exits {P : Config} {f : Forest} (all : AllList (CheckedNode P) f)
    (none : exitsList .footnoteDefinition f = []) : AllList (RenderedNode P) f := by
  refine allList_of_postorder f fun m inTree => ?_
  refine { toCheckedNode := (AllList.of_mem f all inTree).here, top := ?_ }
  intro c member type
  refine absurd type (not_definition_of_exits none ?_)
  refine postorderList_trans f inTree ?_
  rw [Node.postorder_eq]
  exact List.mem_append_left _ (mem_postorderList_of_mem member)

/-- All definitions of a document have an entry in the map of footnotes. -/
theorem normalizes_definition {P : Config} (folds : FoldsToVisible P.tables) {root : Node}
    (nodes : root.All (CheckedNode P)) :
    ∀ d ∈ root.exits .footnoteDefinition, (normalizeMapLabel P.tables d.literal).isSome := by
  intro d member
  rw [exits_eq_filter] at member
  obtain ⟨inTree, type⟩ := List.mem_filter.mp member
  have node := (Node.All.of_mem _ nodes inTree).here
  obtain ⟨_, c, rest, label, visible⟩ := node.definition (of_decide_eq_true type)
  rw [Node.literal, label]
  exact normalizeMapLabel_visible folds visible rest

/-- The footnote pass leaves definitions at the top of the document only. -/
theorem processFootnotes_rendered {P : Config} (nextId : NodeId) {root : Node}
    (labels : ∀ d ∈ root.exits .footnoteDefinition, (normalizeMapLabel P.tables d.literal).isSome)
    (nodes : root.All (CheckedNode P)) (document : root.type = .document) :
    (processFootnotes P nextId root).All (RenderedNode P) := by
  have known : ∀ d ∈ root.exits .footnoteDefinition,
      d.id ∈ (collectFootnotes P.tables root).refs.map (·.value) := by
    intro d member
    rw [mem_values_collectFootnotes, footnoteIds_eq labels]
    exact List.mem_map_of_mem member
  have inMap : Stable fun i d _ => d.type = .footnoteDefinition →
      i ∈ (collectFootnotes P.tables root).refs.map (·.value) :=
    { children := fun all _ _ => all
      text := fun type definition => by rw [type] at definition; cases definition
      counts := fun _ all => all
      reference := fun _ _ type definition => by rw [type] at definition; cases definition }
  have both : root.All fun i d cs => CheckedNode P i d cs ∧ (d.type = .footnoteDefinition →
      i ∈ (collectFootnotes P.tables root).refs.map (·.value)) := by
    refine all_of_postorder _ fun m inTree => ⟨(Node.All.of_mem _ nodes inTree).here, fun type => ?_⟩
    refine known m ?_
    rw [exits_eq_filter]
    exact List.mem_filter.mpr ⟨inTree, decide_eq_true type⟩
  obtain ⟨counted, used, kept, type, eq, isUsed⟩ :=
    processFootnotes_all ((stable_checkedNode P).and inMap) P nextId both
  have unlinked := definition_of_mem_values (T := P.tables) nodes
  generalize (collectFootnotes P.tables root).refs.map (·.value) = ids at *
  -- nothing but the definitions at the end is left
  have gone {n : Node} (inTree : n ∈ counted.postorder) :
      exitsList .footnoteDefinition (unlinkAllList ids n.children) = [] := by
    refine exitsList_unlinkAllList_eq_nil ids fun m member => ?_
    have type := type_of_mem_exitsList member
    refine (Node.All.of_mem _ kept ?_).here.2 type
    refine postorder_trans counted inTree ?_
    rw [Node.postorder_eq]
    exact List.mem_append_left _ (mem_postorderList_of_mem_exitsList member)
  have checked : counted.All (CheckedNode P) := Node.All.imp And.left _ kept
  have self : counted ∈ counted.postorder := by
    rw [Node.postorder_eq]
    simp
  obtain ⟨body, pruned⟩ := unlinkAllList_all (stable_checkedNode P).toPrunable unlinked counted.children
    checked.below
  have isDocument : counted.data.type = .document := type.trans document
  have notes : ∀ n ∈ used, n.All (RenderedNode P) ∧ n.type = .footnoteDefinition := by
    intro n member
    obtain ⟨m, inTree, definition, rfl⟩ := isUsed n member
    have note := unlinkAll_all (stable_checkedNode P).toPrunable unlinked m
      (Node.All.of_mem counted checked inTree)
    rw [Node.unlinkAll_eq] at note ⊢
    refine ⟨⟨{ toCheckedNode := note.1, top := ?_ }, renderedNodes_of_exits note.2 (gone inTree)⟩,
      definition⟩
    intro c below nested
    exact absurd nested (not_definition_of_exits (gone inTree) (mem_postorderList_of_mem below))
  rw [eq]
  refine ⟨{ toCheckedNode := ?_, top := fun _ _ _ => isDocument }, allList_append.mpr
    ⟨renderedNodes_of_exits body (gone self), allList_iff.mpr fun n member => (notes n member).1⟩⟩
  refine
    { toCoreNode := ⟨checked.here.core, fun c member => ?_⟩
      toBlockData := checked.here.toBlockData
      reference := checked.here.reference }
  rcases List.mem_append.mp member with inBody | inUsed
  · exact ((stable_checkedNode P).children checked.here unlinked pruned).child c inBody
  · rw [isDocument, (notes c inUsed).2]
    rfl

/-- Without footnotes there are no definitions. -/
theorem renderedNodes_withoutFootnotes {P : Config} (off : ¬P.options.has optFootnotes) {root : Node}
    (nodes : root.All (CheckedNode P)) : root.All (RenderedNode P) := by
  refine all_of_postorder _ fun m inTree => ?_
  have all := Node.All.of_mem _ nodes inTree
  refine { toCheckedNode := all.here, top := fun c member type => ?_ }
  exact absurd ((allList_iff.mp all.below c member).here.definition type).1 off

theorem renderedNode_of_labels {P : Config} (core : P.syntaxExtensions = [])
    (callback : Option (UInt8 → Bool)) (chunks : List Bytes)
    (labels : ∀ d ∈ (parsedDocument P callback chunks).2.exits .footnoteDefinition,
      (normalizeMapLabel P.tables d.literal).isSome) :
    (documentOf P callback chunks).All (RenderedNode P) := by
  have nodes := checkedNode_parsedDocument core callback chunks
  have document := (coreNode_parsedDocument core callback chunks).2
  rw [documentOf_core core]
  refine (consolidateTextNodes_all (t := .document) (prunable_renderedNode P) ?_ (by decide) _ ?_).1
  · exact fun all => coreNode_text all.toCoreNode
  · split
    next => exact processFootnotes_rendered _ labels nodes document
    next off => exact renderedNodes_withoutFootnotes off nodes

theorem renderedNode_documentOf {P : Config} (core : P.syntaxExtensions = [])
    (folds : FoldsToVisible P.tables) (callback : Option (UInt8 → Bool)) (chunks : List Bytes) :
    (documentOf P callback chunks).All (RenderedNode P) :=
  renderedNode_of_labels core callback chunks
    (normalizes_definition folds (checkedNode_parsedDocument core callback chunks))

/-! ### The references that are left -/

/-- The entries of the map stand for these definitions. -/
structure MapWithin (ids : List NodeId) (map : Map NodeId) : Prop where
  refs : ∀ e ∈ map.refs, e.value ∈ ids
  sorted : ∀ table, map.sorted = some table → ∀ e ∈ table, e.value ∈ ids

theorem mem_of_mem_dropDuplicates {α : Type} {last e : MapEntry α} {rest : List (MapEntry α)}
    (member : e ∈ dropDuplicates last rest) : e = last ∨ e ∈ rest := by
  induction rest generalizing last with
  | nil => exact .inl (List.mem_singleton.mp member)
  | cons r rest ih =>
    rw [dropDuplicates] at member
    split at member
    next =>
      rcases List.mem_cons.mp member with same | later
      · exact .inl same
      · rcases ih later with rfl | later
        · exact .inr List.mem_cons_self
        · exact .inr (List.mem_cons_of_mem r later)
    next => exact (ih member).imp_right (List.mem_cons_of_mem r)

theorem mem_of_mem_sortedEntries {α : Type} {refs : List (MapEntry α)} {e : MapEntry α}
    (member : e ∈ sortedEntries refs) : e ∈ refs := by
  unfold sortedEntries at member
  rw [← List.mem_insertionSort fun a b => refLe a b]
  split at member
  next => cases member
  next first rest sorted =>
    rw [sorted, List.mem_cons]
    exact mem_of_mem_dropDuplicates member

theorem MapWithin.ensureSorted {ids : List NodeId} {map : Map NodeId} (within : MapWithin ids map) :
    MapWithin ids (ensureSorted map) := by
  unfold CmarkGfm.ensureSorted
  split
  next => exact within
  next =>
    refine ⟨within.refs, fun table built e member => ?_⟩
    cases built
    exact within.refs e (mem_of_mem_sortedEntries member)

/-- A lookup finds an entry of the map. -/
theorem MapWithin.mapLookup {ids : List NodeId} {map : Map NodeId} (within : MapWithin ids map)
    (T : Tables) (label : Bytes) : MapWithin ids (mapLookup T map label).1 ∧
      ∀ e, (mapLookup T map label).2 = some e → e.value ∈ ids := by
  unfold CmarkGfm.mapLookup
  split
  next => exact ⟨within, nofun⟩
  split
  next => exact ⟨within, nofun⟩
  split
  next => exact ⟨within, nofun⟩
  next norm _ =>
    have ready := within.ensureSorted
    unfold searchSorted
    generalize CmarkGfm.ensureSorted map = map' at ready ⊢
    dsimp only
    split
    next => exact ⟨ready, nofun⟩
    next r found =>
      split
      next => exact ⟨ready, nofun⟩
      next =>
        refine ⟨⟨ready.refs, ready.sorted⟩, fun e same => ?_⟩
        cases same
        obtain ⟨member, _⟩ := Search.bsearchFrom_sound found
        cases table : map'.sorted with
        | none => rw [table] at member; cases member
        | some entries =>
          rw [table] at member
          exact ready.sorted entries table r member

/-- The node is no reference, or it refers to one of these definitions. -/
def RefersTo (used : NodeId → Prop) (_ : NodeId) (d : NodeData) (_ : Forest) : Prop :=
  d.type = .footnoteReference → ∃ f, d.parentFootnoteDef = some f ∧ used f

theorem prunable_refersTo (used : NodeId → Prop) : Prunable (RefersTo used) where
  children all _ _ := all
  text type reference := by rw [type] at reference; cases reference
  counts _ all := all

theorem RefersTo.imp {used used' : NodeId → Prop} (more : ∀ f, used f → used' f) {i : NodeId}
    {d : NodeData} {cs : Forest} (refers : RefersTo used i d cs) : RefersTo used' i d cs := by
  intro reference
  obtain ⟨f, parent, isUsed⟩ := refers reference
  exact ⟨f, parent, more f isUsed⟩

/-- The definition has a number. -/
def FootnoteState.Numbered (ids : List NodeId) (st : FootnoteState) (f : NodeId) : Prop :=
  f ∈ ids ∧ st.ix f ≠ 0

/-- What resolving references does to the state: the map stays within the definitions, and what has
a number keeps one. -/
structure FootnoteStep (ids : List NodeId) (st st' : FootnoteState) : Prop where
  within : MapWithin ids st'.map
  keeps : ∀ f, st.ix f ≠ 0 → st'.ix f ≠ 0

section

variable {P : Config} {ids : List NodeId}

theorem FootnoteStep.trans {st st' st'' : FootnoteState} (first : FootnoteStep ids st st')
    (second : FootnoteStep ids st' st'') : FootnoteStep ids st st'' :=
  ⟨second.within, fun f numbered => second.keeps f (first.keeps f numbered)⟩

theorem FootnoteStep.refers {st st' : FootnoteState} (step : FootnoteStep ids st st') {f : Forest}
    (all : AllList (RefersTo (st.Numbered ids)) f) : AllList (RefersTo (st'.Numbered ids)) f :=
  AllList.imp (RefersTo.imp fun f numbered => ⟨numbered.1, step.keeps f numbered.2⟩) f all

theorem resolveFootnote_refers {st : FootnoteState} (within : MapWithin ids st.map)
    (owner : NodeData) (i : NodeId) {cur : NodeData} (reference : cur.type = .footnoteReference) :
    FootnoteStep ids st (resolveFootnote P st owner i cur).1 ∧
      AllList (RefersTo ((resolveFootnote P st owner i cur).1.Numbered ids))
        (resolveFootnote P st owner i cur).2 ∧
      exitsList .footnoteDefinition (resolveFootnote P st owner i cur).2 = [] := by
  obtain ⟨kept, found⟩ := within.mapLookup P.tables cur.as.getLiteral
  unfold resolveFootnote
  generalize CmarkGfm.mapLookup P.tables st.map cur.as.getLiteral = r at kept found
  obtain ⟨map, entry⟩ := r
  cases entry with
  | none =>
    refine ⟨⟨kept, fun _ numbered => numbered⟩, ?_⟩
    dsimp only
    split
    next => exact ⟨⟨⟨nofun, trivial⟩, trivial⟩, rfl⟩
    next => exact ⟨trivial, rfl⟩
  | some entry =>
    have numbered {f : NodeId} (known : st.ix f ≠ 0 ∨ f = entry.value) : Function.update st.ix
        entry.value (if st.ix entry.value = 0 then st.lastIx + 1 else st.ix entry.value) f ≠ 0 := by
      by_cases same : f = entry.value
      · rw [same, Function.update_self]
        split
        next => exact Nat.succ_ne_zero _
        next already => exact already
      · rw [Function.update_of_ne same]
        exact known.resolve_right same
    refine ⟨⟨kept, fun f before => numbered (.inl before)⟩,
      ⟨⟨fun _ => ⟨entry.value, rfl, found entry rfl, numbered (.inr rfl)⟩, trivial⟩, trivial⟩, ?_⟩
    simp [exitsList, Node.exits, Node.leaf, reference]

mutual

/-- References below a node refer to definitions that have a number from then on, and no definition
is lost. -/
theorem resolveFootnotes_refers (st : FootnoteState) (within : MapWithin ids st.map) :
    (n : Node) → n.All CoreNode →
    FootnoteStep ids st (resolveFootnotes P st n).1 ∧ (resolveFootnotes P st n).2.label = n.label ∧
      AllList (RefersTo ((resolveFootnotes P st n).1.Numbered ids)) (resolveFootnotes P st n).2.children ∧
      ((resolveFootnotes P st n).2.exits .footnoteDefinition).map Node.id =
        (n.exits .footnoteDefinition).map Node.id
  | .mk i d children, all => by
    obtain ⟨step, refers, exits⟩ := resolveFootnotesList_refers st within d children all.2
    refine ⟨step, rfl, refers, ?_⟩
    rw [resolveFootnotes, Node.exits, Node.exits, List.map_append, List.map_append, exits]
    split <;> rfl

theorem resolveFootnotesList_refers (st : FootnoteState) (within : MapWithin ids st.map)
    (owner : NodeData) : (f : Forest) → AllList CoreNode f →
    FootnoteStep ids st (resolveFootnotesList P owner st f).1 ∧
      AllList (RefersTo ((resolveFootnotesList P owner st f).1.Numbered ids))
        (resolveFootnotesList P owner st f).2 ∧
      (exitsList .footnoteDefinition (resolveFootnotesList P owner st f).2).map Node.id =
        (exitsList .footnoteDefinition f).map Node.id
  | [], _ => ⟨⟨within, fun _ numbered => numbered⟩, trivial, rfl⟩
  | n :: ns, all => by
    obtain ⟨first, label, below, exits⟩ := resolveFootnotes_refers st within n all.1
    have type : (resolveFootnotes P st n).2.data = n.data := congrArg Prod.snd label
    rw [resolveFootnotesList, exitsList, List.map_append, ← exits]
    generalize resolveFootnotes P st n = r at first type below exits
    obtain ⟨st', n'⟩ := r
    dsimp only at first type below exits ⊢
    have leaf (reference : n'.type = .footnoteReference) : n.children = [] := by
      rw [List.eq_nil_iff_forall_not_mem]
      intro c member
      have allowed := all.1.here.child c member
      rw [← type, show n'.data.type = .footnoteReference from reference,
        NodeType.canContainType_leaf] at allowed
      cases allowed
    split
    next reference =>
      obtain ⟨here, refersHere, none⟩ :=
        resolveFootnote_refers (P := P) first.within owner n'.id reference
      generalize resolveFootnote P st' owner n'.id n'.data = r at here refersHere none
      obtain ⟨st'', resolved⟩ := r
      dsimp only at here refersHere none ⊢
      obtain ⟨rest, refers, exits'⟩ := resolveFootnotesList_refers st'' here.within owner ns all.2
      refine ⟨(first.trans here).trans rest,
        allList_append.mpr ⟨rest.refers refersHere, refers⟩, ?_⟩
      rw [exitsList_append, List.map_append, exits', none, exits, Node.exits_eq, leaf reference, if_neg]
      · rfl
      · rw [Node.type, ← type, show n'.data.type = .footnoteReference from reference]
        decide
    next other =>
      obtain ⟨rest, refers, exits'⟩ := resolveFootnotesList_refers st' first.within owner ns all.2
      refine ⟨first.trans rest, allList_append.mpr ⟨⟨?_, trivial⟩, refers⟩, ?_⟩
      · obtain ⟨i, d, cs⟩ := n'
        exact ⟨fun reference => absurd reference other, rest.refers below⟩
      · rw [exitsList_append, List.map_append, exits']
        simp [exitsList]

end

theorem mapWithin_collectFootnotes (T : Tables) (root : Node) :
    MapWithin ((collectFootnotes T root).refs.map (·.value)) (collectFootnotes T root) := by
  refine ⟨fun e member => List.mem_map_of_mem member, ?_⟩
  obtain ⟨_, created, _⟩ := created_insertAll T
    ((root.exits .footnoteDefinition).map fun d => footnoteDefinition (d.literal, d.id))
  intro table built
  rw [collectFootnotes_eq, created.sorted] at built
  cases built

/-- A definition that is unlinked from its place and linked at the end is there. -/
theorem mem_usedFootnotes {st : FootnoteState} {definitions : List Node} {n : Node}
    (member : n ∈ definitions) (numbered : st.ix n.id ≠ 0) : n ∈ usedFootnotes st definitions := by
  rw [usedFootnotes, List.mem_mergeSort, List.mem_filter]
  exact ⟨member, by simpa using numbered⟩

/-- After the footnote pass every reference refers to a definition in the document. -/
theorem processFootnotes_refers (nextId : NodeId) {root : Node} (nodes : root.All CoreNode)
    (document : root.type = .document) : (processFootnotes P nextId root).All (RefersTo fun f =>
      f ∈ ((processFootnotes P nextId root).exits .footnoteDefinition).map Node.id) := by
  have within := mapWithin_collectFootnotes P.tables root
  have known {f : NodeId} := @mem_values_collectFootnotes P.tables root f
  unfold processFootnotes
  extract_lets map ids
  obtain ⟨_, label, refers, exits⟩ :=
    resolveFootnotes_refers (P := P) { map := map, nextId := nextId } within root nodes
  generalize resolveFootnotes P { map := map, nextId := nextId } root = r at label refers exits
  obtain ⟨st, root'⟩ := r
  dsimp -zeta only at label refers exits ⊢
  extract_lets counted definitions used
  have type (i : NodeId) (d : NodeData) : (st.writeDefCount i d).type = d.type := by
    unfold FootnoteState.writeDefCount
    split <;> rfl
  have counts (i : NodeId) (d : NodeData) : ∃ n, st.writeDefCount i d = { d with refIx := n } := by
    unfold FootnoteState.writeDefCount
    split
    next => exact ⟨_, rfl⟩
    next => exact ⟨d.refIx, rfl⟩
  have isDocument : root'.data.type = .document :=
    (congrArg (fun l => l.2.type) label : root'.type = root.type).trans document
  have resolved : root'.All (RefersTo (st.Numbered ids)) := by
    obtain ⟨i, d, cs⟩ := root'
    refine ⟨fun reference => ?_, refers⟩
    rw [show d.type = .document from isDocument] at reference
    cases reference
  have whole : counted.All (RefersTo (st.Numbered ids)) :=
    mapData_all (prunable_refersTo _) counts root' resolved
  -- the definition that a reference refers to is among those at the end
  have isLeft (f : NodeId) (numbered : st.Numbered ids f) : f ∈ (Node.exits .footnoteDefinition
      (.mk counted.id counted.data (unlinkAllList ids counted.children ++ used))).map Node.id := by
    obtain ⟨inMap, hasNumber⟩ := numbered
    have inRoot := footnoteIds_subset (known.mp inMap)
    rw [← exits] at inRoot
    obtain ⟨n, member, rfl⟩ := List.mem_map.mp inRoot
    have inCounted : n.mapData st.writeDefCount ∈ counted.exits .footnoteDefinition := by
      rw [exits_mapData type]
      exact List.mem_map_of_mem member
    have same : (n.mapData st.writeDefCount).id = n.id := by
      rw [Node.mapData_eq, Node.id_mk]
    have isUsed : (n.mapData st.writeDefCount).unlinkAll ids ∈ used := by
      refine List.mem_map_of_mem (mem_usedFootnotes (List.mem_filter.mpr ⟨inCounted, ?_⟩) ?_)
      · rw [same]
        simpa using inMap
      · rwa [same]
    refine List.mem_map.mpr ⟨(n.mapData st.writeDefCount).unlinkAll ids, ?_, ?_⟩
    · rw [Node.exits, exitsList_append]
      refine List.mem_append_left _ (List.mem_append_right _ ?_)
      refine mem_exitsList_of_mem isUsed ?_
      rw [type_unlinkAll]
      rw [exits_eq_filter] at inCounted
      exact of_decide_eq_true (List.mem_filter.mp inCounted).2
    · rw [id_unlinkAll, same]
  have gone : ∀ x ∈ ids, ∃ d cs, RefersTo (st.Numbered ids) x d cs ∧ d.type = .footnoteDefinition :=
    fun x _ => ⟨{ type := .footnoteDefinition }, [], (fun reference => by cases reference), rfl⟩
  obtain ⟨body, _⟩ := unlinkAllList_all (prunable_refersTo _) gone counted.children whole.below
  refine Node.All.imp (RefersTo.imp isLeft) _ ⟨whole.here, allList_append.mpr ⟨body, ?_⟩⟩
  refine allList_iff.mpr fun n member => ?_
  obtain ⟨m, among, rfl⟩ := List.mem_map.mp member
  have kept : m ∈ definitions := (List.mem_filter.mp (List.mem_mergeSort.mp among)).1
  have inTree := (List.mem_filter.mp kept).1
  rw [exits_eq_filter] at inTree
  exact unlinkAll_all (prunable_refersTo _) gone m
    (Node.All.of_mem _ whole (List.mem_filter.mp inTree).1)

end

/-! ### The finished document -/

/-- Every reference of a document of the core parser refers to a definition in it. -/
theorem refersTo_documentOf {P : Config} (core : P.syntaxExtensions = [])
    (footnotes : P.options.has optFootnotes) (callback : Option (UInt8 → Bool)) (chunks : List Bytes) :
    (documentOf P callback chunks).All (RefersTo fun f =>
      f ∈ ((documentOf P callback chunks).exits .footnoteDefinition).map Node.id) := by
  obtain ⟨nodes, document⟩ := coreNode_parsedDocument core callback chunks
  have refers := processFootnotes_refers (P := P) (parsedDocument P callback chunks).1.nextId nodes
    document
  have core' := (processFootnotes_stable stable_coreNode coreNode_notes P
    (parsedDocument P callback chunks).1.nextId nodes document).1
  rw [documentOf_core core, if_pos footnotes]
  generalize processFootnotes P _ _ = root at refers core'
  -- text has no children, which is what merging text needs
  have both : root.All fun i d cs => CoreNode i d cs ∧
      RefersTo (fun f => f ∈ (root.exits .footnoteDefinition).map Node.id) i d cs :=
    all_of_postorder _ fun m inTree =>
      ⟨(Node.All.of_mem _ core' inTree).here, (Node.All.of_mem _ refers inTree).here⟩
  obtain ⟨merged, _, exits⟩ := consolidateTextNodes_all (t := .footnoteDefinition)
    (stable_coreNode.toPrunable.and (prunable_refersTo _)) (fun all => coreNode_text all.1) (by decide)
    _ both
  have ids : ((consolidateTextNodes root).exits .footnoteDefinition).map Node.id =
      (root.exits .footnoteDefinition).map Node.id := by
    have fst := congrArg (List.map Prod.fst) exits
    rwa [List.map_map, List.map_map] at fst
  rw [ids]
  exact Node.All.imp And.right _ merged

/-- What the renderers may count on. -/
structure RenderedTree (P : Config) (root : Node) : Prop where
  nodes : root.All (RenderedNode P)
  document : root.type = .document
  refers : root.All (RefersTo fun f => f ∈ (root.exits .footnoteDefinition).map Node.id)

/-- Every document of the core parser is such a tree. -/
theorem renderedTree_documentOf {P : Config} (core : P.syntaxExtensions = [])
    (folds : FoldsToVisible P.tables) (callback : Option (UInt8 → Bool)) (chunks : List Bytes) :
    RenderedTree P (documentOf P callback chunks) := by
  refine ⟨renderedNode_documentOf core folds callback chunks,
    (coreNode_documentOf core callback chunks).2, ?_⟩
  by_cases footnotes : P.options.has optFootnotes
  · exact refersTo_documentOf core footnotes callback chunks
  · refine Node.All.imp (fun node reference => ?_) _
      (renderedNode_documentOf core folds callback chunks)
    exact absurd (node.reference reference) footnotes

end CmarkGfm
