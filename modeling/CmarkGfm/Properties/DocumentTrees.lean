import CmarkGfm.Properties.BackReferences
import CmarkGfm.Properties.Expansion
import CmarkGfm.Properties.InlineTrees
import CmarkGfm.Properties.OpenBlocks

/-!
# The tree of a document

The blocks that are left when the document is finalized form a tree in which no address occurs
twice. Parsing the inlines puts new nodes below the blocks of text, and every node may be where it
is.
-/

namespace CmarkGfm

/-- A node of a document whose blocks have addresses below `lo`: its type is one of the core, its
children may be below it, and the other nodes are inlines, with references to footnotes only if
there are some. -/
structure DocumentNode (footnotes : Bool) (lo : NodeId) (i : NodeId) (d : NodeData) (cs : Forest) : Prop where
  core : d.type.isCoreBlock ∨ d.type.isCoreInline
  child : ∀ c ∈ cs, d.type.canContainType c.type
  new : lo ≤ i → d.type.isCoreInline
  reference : d.type = .footnoteReference → footnotes

/-- A block that has a place in the tree of blocks. -/
structure BlockNode (p : ParserState) (i : NodeId) (d : NodeData) (cs : Forest) : Prop where
  data : d = p.dataOf i
  linked : ∃ b, p.links i = some b ∧ b.type = d.type
  child : ∀ c ∈ cs, d.type.canContainType c.type ∧ c.type.isCoreBlock

theorem type_toTree (p : ParserState) (fuel : Nat) (i : NodeId) :
    (toTree p fuel i).type = p.typeOf i := by
  cases fuel <;> rfl

section

variable {p : ParserState} (tree : BlockTree p.links p.root p.nextId)

include tree

theorem BlockNode.isCoreBlock {i : NodeId} {d : NodeData} {children : Forest} (node : BlockNode p i d children) :
    d.type.isCoreBlock := by
  obtain ⟨b, block, type⟩ := node.linked
  exact type ▸ tree.core block

theorem all_toTree (fuel : Nat) {i : NodeId} {b : BlockLinks} (block : p.links i = some b) :
    (toTree p fuel i).All (BlockNode p) := by
  induction fuel generalizing i b with
  | zero => exact ⟨⟨rfl, ⟨b, block, (parent_of_links block).2.2.symm⟩, nofun⟩, trivial⟩
  | succ fuel ih =>
    refine ⟨⟨rfl, ⟨b, block, (parent_of_links block).2.2.symm⟩, ?_⟩, ?_⟩
    · intro c member
      obtain ⟨j, among, rfl⟩ := List.mem_map.mp member
      rw [(parent_of_links block).2.1] at among
      obtain ⟨e, child, _, _, allowed⟩ := tree.child block among
      have type : p.typeOf j = e.type := (parent_of_links child).2.2
      rw [type_toTree, type, ← show p.typeOf i = (p.dataOf i).type from rfl,
        (parent_of_links block).2.2]
      exact ⟨allowed, tree.core child⟩
    · rw [allList_iff]
      intro c member
      obtain ⟨j, among, rfl⟩ := List.mem_map.mp member
      rw [(parent_of_links block).2.1] at among
      obtain ⟨e, child, _⟩ := tree.child block among
      exact ih child

theorem above_toTree (fuel : Nat) {i : NodeId} {b : BlockLinks} (block : p.links i = some b) :
    ∀ m ∈ (toTree p fuel i).postorder, Relation.ReflTransGen (HasParent p.links) m.id i := by
  induction fuel generalizing i b with
  | zero =>
    intro m member
    obtain rfl := List.mem_singleton.mp member
    exact .refl
  | succ fuel ih =>
    intro m member
    rw [toTree, Node.postorder, List.mem_append, List.mem_singleton] at member
    rcases member with below | rfl
    · have inList : ∀ l : List NodeId, (∀ j ∈ l, j ∈ b.children) →
          m ∈ postorderList (l.map (toTree p fuel)) →
          Relation.ReflTransGen (HasParent p.links) m.id i := by
        intro l
        induction l with
        | nil => exact fun _ none => by cases none
        | cons j l ihl =>
          intro among member
          rw [List.map_cons, postorderList, List.mem_append] at member
          rcases member with first | rest
          · obtain ⟨e, child, parent, _⟩ := tree.child block (among j List.mem_cons_self)
            exact (ih child m first).tail ⟨e, child, parent⟩
          · exact ihl (fun k member => among k (List.mem_cons_of_mem j member)) rest
      rw [(parent_of_links block).2.1] at below
      exact inList b.children (fun _ member => member) below
    · exact .refl

theorem le_of_above {i j : NodeId} (above : Relation.ReflTransGen (HasParent p.links) j i) : i ≤ j := by
  induction above with
  | refl => exact le_rfl
  | tail _ step ih => exact (Nat.le_of_lt (step.lt tree)).trans ih

/-- No address occurs twice. -/
theorem nodup_toTree (fuel : Nat) {i : NodeId} {b : BlockLinks} (block : p.links i = some b) :
    ((toTree p fuel i).postorder.map Node.id).Nodup := by
  have unique : Relator.RightUnique (HasParent p.links) := by
    rintro c j k ⟨b, block, parent⟩ ⟨b', block', parent'⟩
    rw [block] at block'
    cases block'
    rw [parent] at parent'
    exact Option.some.inj parent'
  induction fuel generalizing i b with
  | zero => exact List.nodup_singleton i
  | succ fuel ih =>
    rw [toTree, Node.postorder, List.map_append, (parent_of_links block).2.1]
    have below : ∀ l : List NodeId, (∀ j ∈ l, j ∈ b.children) →
        ∀ m ∈ postorderList (l.map (toTree p fuel)),
          ∃ j ∈ l, Relation.ReflTransGen (HasParent p.links) m.id j := by
      intro l among
      induction l with
      | nil => exact fun m none => by cases none
      | cons j l ihl =>
        intro m member
        rw [List.map_cons, postorderList, List.mem_append] at member
        rcases member with first | rest
        · obtain ⟨e, child, _⟩ := tree.child block (among j List.mem_cons_self)
          exact ⟨j, List.mem_cons_self, above_toTree tree fuel child m first⟩
        · obtain ⟨k, member, above⟩ := ihl (fun k member => among k (List.mem_cons_of_mem j member)) m rest
          exact ⟨k, List.mem_cons_of_mem j member, above⟩
    have siblings : ∀ l : List NodeId, l.Nodup → (∀ j ∈ l, j ∈ b.children) →
        ((postorderList (l.map (toTree p fuel))).map Node.id).Nodup := by
      intro l nodup among
      induction l with
      | nil => exact List.nodup_nil
      | cons j l ihl =>
        rw [List.nodup_cons] at nodup
        have later : ∀ k ∈ l, k ∈ b.children := fun k member => among k (List.mem_cons_of_mem j member)
        obtain ⟨e, child, parent, _⟩ := tree.child block (among j List.mem_cons_self)
        rw [List.map_cons, postorderList, List.map_append]
        refine List.nodup_append.mpr ⟨ih child, ihl nodup.2 later, ?_⟩
        rintro x first y rest rfl
        obtain ⟨m, inFirst, rfl⟩ := List.mem_map.mp first
        obtain ⟨m', inRest, same⟩ := List.mem_map.mp rest
        have toFirst := above_toTree tree fuel child m inFirst
        obtain ⟨k, member, toOther⟩ := below l later m' inRest
        rw [same] at toOther
        obtain ⟨e', child', parent', _⟩ := tree.child block (later k member)
        -- one of the two siblings would be above the other
        have differs {j k : NodeId} (step : HasParent p.links j i) (step' : HasParent p.links k i)
            (differ : j ≠ k) : ¬Relation.ReflTransGen (HasParent p.links) j k := by
          intro above
          rcases Relation.ReflTransGen.cases_head above with same | ⟨up, first, rest⟩
          · exact differ same
          · rw [unique first step] at rest
            exact absurd (le_of_above tree rest) (Nat.not_le.mpr (step'.lt tree))
        have differ : j ≠ k := by
          rintro rfl
          exact nodup.1 member
        rcases Relation.ReflTransGen.total_of_right_unique unique toFirst toOther with above | above
        · exact differs ⟨e, child, parent⟩ ⟨e', child', parent'⟩ differ above
        · exact differs ⟨e', child', parent'⟩ ⟨e, child, parent⟩ differ.symm above
    refine List.nodup_append.mpr ⟨siblings b.children (tree.distinct block) (fun _ member => member),
      List.nodup_singleton i, ?_⟩
    rintro x inChildren y here rfl
    obtain ⟨m, member, rfl⟩ := List.mem_map.mp inChildren
    obtain ⟨j, among, above⟩ := below b.children (fun _ member => member) m member
    obtain ⟨e, child, parent, later, _⟩ := tree.child block among
    have same : m.id = i := List.mem_singleton.mp here
    rw [same] at above
    exact absurd (le_of_above tree above) (Nat.not_le.mpr later)

end

/-! ### The inlines -/

theorem NodeType.canContainType_inline {t u : NodeType} (core : t.isCoreInline)
    (notLeaf : t.isLeafInline = false) (inline : u.isCoreInline) : t.canContainType u := by
  have isInline : u.isInline ∧ u ≠ .document := by
    revert inline
    cases u <;> simp [isCoreInline, isInline]
  revert core notLeaf
  cases t <;> simp [isCoreInline, isLeafInline, canContainType, isInline]

theorem NodeType.canContainType_text {t u : NodeType} (text : t = .paragraph ∨ t = .heading)
    (inline : u.isCoreInline) : t.canContainType u := by
  have isInline : u.isInline ∧ u ≠ .document := by
    revert inline
    cases u <;> simp [isCoreInline, isInline]
  rcases text with rfl | rfl <;> simp [canContainType, isInline]

theorem containsInlines_core {P : Config} (core : P.syntaxExtensions = []) (d : NodeData) :
    containsInlines P d = true ↔ d.type = .paragraph ∨ d.type = .heading := by
  unfold containsInlines
  rw [extensionOf_core core]
  simp

mutual

/-- New inline nodes are where they may be. -/
theorem documentNode_inline {footnotes : Bool} {lo a b : NodeId} (low : lo ≤ a) : (n : Node) →
    n.All (InlineNode footnotes a b) → n.All (DocumentNode footnotes lo)
  | .mk i d cs, all => by
    have core := NodeType.isCoreInline_of_isMade all.1.core
    have reference (type : d.type = .footnoteReference) : footnotes := by
      have made := all.1.core
      rwa [type] at made
    refine ⟨⟨.inr core, ?_, fun _ => core, reference⟩, documentNodeList_inline low cs all.2⟩
    intro c member
    have notLeaf : d.type.isLeafInline = false := by
      cases leaf : d.type.isLeafInline with
      | false => rfl
      | true =>
        rw [all.1.leaf leaf] at member
        cases member
    exact NodeType.canContainType_inline core notLeaf
      (NodeType.isCoreInline_of_isMade (allList_iff.mp all.2 c member).here.core)

theorem documentNodeList_inline {footnotes : Bool} {lo a b : NodeId} (low : lo ≤ a) : (f : Forest) →
    AllList (InlineNode footnotes a b) f → AllList (DocumentNode footnotes lo) f
  | [], _ => trivial
  | n :: ns, all => ⟨documentNode_inline low n all.1, documentNodeList_inline low ns all.2⟩

end

/-- The address and the data of a node. -/
def Node.label (n : Node) : NodeId × NodeData := (n.id, n.data)

/-- The blocks of a forest in which they have the addresses below `lo`. -/
def blockLabels (lo : NodeId) (f : Forest) : List (NodeId × NodeData) :=
  ((postorderList f).filter fun m => m.id < lo).map Node.label

theorem blockLabels_cons (lo : NodeId) (n : Node) (ns : Forest) :
    blockLabels lo (n :: ns) = blockLabels lo [n] ++ blockLabels lo ns := by
  simp [blockLabels, postorderList]

theorem blockLabels_mk (lo i : NodeId) (d : NodeData) (cs : Forest) :
    blockLabels lo [.mk i d cs] = blockLabels lo cs ++ if i < lo then [(i, d)] else [] := by
  simp only [blockLabels, postorderList, Node.postorder, List.append_nil, List.filter_append,
    List.map_append]
  congr 1
  by_cases old : i < lo <;> simp [old, Node.label]

theorem blockLabels_inline {footnotes : Bool} {lo a b : NodeId} (low : lo ≤ a) {f : Forest}
    (all : AllList (InlineNode footnotes a b) f) : blockLabels lo f = [] := by
  rw [blockLabels, List.map_eq_nil_iff, List.filter_eq_nil_iff]
  intro m member
  have node := (AllList.of_mem f all member).here
  simpa using low.trans node.low

section

variable {P : Config} {chars : CharTables} {q r : NodeId → NodeData → Forest → Prop}

/-- Parsing the inlines below a node leaves the node itself alone. -/
theorem label_processInlines (st : InlineState) (n : Node) : (processInlines P chars st n).2.label = n.label := by
  obtain ⟨i, d, cs⟩ := n
  rw [processInlines]
  split <;> rfl

theorem labels_processInlinesList (st : InlineState) (f : Forest) :
    (processInlinesList P chars st f).2.map Node.label = f.map Node.label := by
  induction f generalizing st with
  | nil => rfl
  | cons n ns ih => exact congrArg₂ List.cons (label_processInlines st n) (ih _)

mutual

/-- A condition that follows for a block whatever its inlines are, and that holds of what parsing them makes. The
blocks of text have no blocks below them. -/
theorem processInlines_all (block : ∀ {i d cs cs'}, r i d cs →
      (containsInlines P d = true ∨ cs'.map Node.label = cs.map Node.label) → q i d cs')
    (text : ∀ {i d cs}, r i d cs → containsInlines P d = true → cs = []) (st : InlineState) : (n : Node) → n.All r →
      (∀ subj ∈ blockSubjects P chars st n, subj.children = [] → AllList q (parseInlines P chars subj).children) →
      (processInlines P chars st n).2.All q
  | .mk i d children, all, inlines => by
    rw [processInlines]
    rw [blockSubjects] at inlines
    split
    next isText =>
      obtain rfl := text all.1 isText
      rw [if_pos isText] at inlines
      have parsed := inlines (inlineSubject P d [] st.refmap st.nextId) List.mem_cons_self rfl
      exact ⟨block all.1 (.inl isText), parsed⟩
    next other =>
      rw [if_neg other] at inlines
      exact ⟨block all.1 (.inr (labels_processInlinesList st children)),
        processInlinesList_all block text st children all.2 inlines⟩

theorem processInlinesList_all (block : ∀ {i d cs cs'}, r i d cs →
      (containsInlines P d = true ∨ cs'.map Node.label = cs.map Node.label) → q i d cs')
    (text : ∀ {i d cs}, r i d cs → containsInlines P d = true → cs = []) (st : InlineState) : (f : Forest) →
      AllList r f →
      (∀ subj ∈ blockSubjectsList P chars st f, subj.children = [] → AllList q (parseInlines P chars subj).children) →
      AllList q (processInlinesList P chars st f).2
  | [], _, _ => trivial
  | n :: ns, all, inlines => by
    rw [blockSubjectsList, List.forall_mem_append] at inlines
    exact ⟨processInlines_all block text st n all.1 inlines.1, processInlinesList_all block text _ ns all.2 inlines.2⟩

end

mutual

/-- Inlines are parsed in blocks of text with nothing below them. -/
theorem exists_blockSubject {r : NodeId → NodeData → Forest → Prop}
    (text : ∀ i d cs, r i d cs → containsInlines P d = true → cs = []) (st : InlineState) : (n : Node) → n.All r →
      ∀ subj ∈ blockSubjects P chars st n, ∃ d refmap nextId, containsInlines P d = true ∧
        subj = inlineSubject P d [] refmap nextId
  | .mk i d children, all, subj, member => by
    rw [blockSubjects] at member
    split at member
    next isText =>
      obtain rfl := text i d children all.1 isText
      exact ⟨d, st.refmap, st.nextId, isText, List.mem_singleton.mp member⟩
    next => exact exists_blockSubjectList text st children all.2 subj member

theorem exists_blockSubjectList {r : NodeId → NodeData → Forest → Prop}
    (text : ∀ i d cs, r i d cs → containsInlines P d = true → cs = []) (st : InlineState) : (f : Forest) →
      AllList r f → ∀ subj ∈ blockSubjectsList P chars st f, ∃ d refmap nextId, containsInlines P d = true ∧
        subj = inlineSubject P d [] refmap nextId
  | [], _, _, member => by
    rw [blockSubjectsList] at member
    cases member
  | n :: ns, all, subj, member => by
    rw [blockSubjectsList] at member
    rcases List.mem_append.mp member with first | rest
    · exact exists_blockSubject text st n all.1 subj first
    · exact exists_blockSubjectList text _ ns all.2 subj rest

end

end

section

variable {P : Config} (core : P.syntaxExtensions = []) (chars : CharTables) {p : ParserState}

include core

/-- The inlines of a block of text are new. -/
theorem parseBlockInlines_spec (st : InlineState) (d : NodeData) :
    st.nextId ≤ (parseBlockInlines P chars st d []).1.nextId ∧
      AllList (InlineNode (P.options.has optFootnotes) st.nextId (parseBlockInlines P chars st d []).1.nextId)
        (parseBlockInlines P chars st d []).2 := by
  have start : InlineTrees (P.options.has optFootnotes) st.nextId
      (inlineSubject P d [] st.refmap st.nextId) := ⟨le_rfl, trivial⟩
  have parsed := InlineTrees.parseInlines (inlineSyntaxExtensions_core core) id chars start
  exact ⟨parsed.low, parsed.nodes⟩

/-- A block of text has no blocks below it. -/
theorem children_of_containsInlines {i : NodeId} {d : NodeData} {children : Forest} (node : BlockNode p i d children)
    (text : containsInlines P d = true) : children = [] := by
  have isText := (containsInlines_core core d).mp text
  rw [List.eq_nil_iff_forall_not_mem]
  intro c member
  obtain ⟨allowed, isCore⟩ := node.child c member
  have leaf : d.type.isLeafBlock := by rcases isText with text | text <;> rw [text] <;> rfl
  rw [NodeType.not_canContainType_of_isLeafBlock leaf isCore] at allowed
  cases allowed

variable (tree : BlockTree p.links p.root p.nextId)

include tree

omit core tree in
mutual

theorem processInlines_spec (core : P.syntaxExtensions = []) (chars : CharTables)
    (tree : BlockTree p.links p.root p.nextId) {st : InlineState} (low : p.nextId ≤ st.nextId) : (n : Node) →
    n.All (BlockNode p) →
    st.nextId ≤ (processInlines P chars st n).1.nextId ∧
      (processInlines P chars st n).2.label = n.label ∧
      (processInlines P chars st n).2.All (DocumentNode (P.options.has optFootnotes) p.nextId) ∧
      blockLabels p.nextId [(processInlines P chars st n).2] = blockLabels p.nextId [n]
  | .mk i d children, all => by
    obtain ⟨b, block, _⟩ := all.1.linked
    have old : i < p.nextId := tree.bound block
    have isBlock := all.1.isCoreBlock tree
    have notReference (reference : d.type = .footnoteReference) : P.options.has optFootnotes := by
      rw [reference] at isBlock
      cases isBlock
    rw [processInlines]
    split
    next text =>
      have isText := (containsInlines_core core d).mp text
      obtain rfl := children_of_containsInlines core all.1 text
      obtain ⟨grows, inlines⟩ := parseBlockInlines_spec core chars st d
      refine ⟨grows, rfl, ⟨⟨.inl isBlock, ?_, fun new => absurd old (Nat.not_lt.mpr new),
        notReference⟩, documentNodeList_inline low _ inlines⟩, ?_⟩
      · intro c member
        exact NodeType.canContainType_text isText
          (NodeType.isCoreInline_of_isMade (allList_iff.mp inlines c member).here.core)
      · show blockLabels p.nextId [.mk i d (parseBlockInlines P chars st d []).2] = _
        rw [blockLabels_mk, blockLabels_mk, blockLabels_inline low inlines]
        rfl
    next =>
      obtain ⟨grows, labels, nodes, blocks⟩ := processInlinesList_spec core chars tree low children all.2
      refine ⟨grows, rfl, ⟨⟨.inl isBlock, ?_, fun new => absurd old (Nat.not_lt.mpr new),
        notReference⟩, nodes⟩, ?_⟩
      · intro c member
        have label : c.label ∈ (processInlinesList P chars st children).2.map Node.label :=
          List.mem_map_of_mem member
        rw [labels] at label
        obtain ⟨c', among, same⟩ := List.mem_map.mp label
        have sameType : c'.type = c.type := congrArg (fun l => l.2.type) same
        rw [← sameType]
        exact (all.1.child c' among).1
      · show blockLabels p.nextId [.mk i d (processInlinesList P chars st children).2] = _
        rw [blockLabels_mk, blockLabels_mk, blocks]

theorem processInlinesList_spec (core : P.syntaxExtensions = []) (chars : CharTables)
    (tree : BlockTree p.links p.root p.nextId) {st : InlineState} (low : p.nextId ≤ st.nextId) : (f : Forest) →
    AllList (BlockNode p) f →
    st.nextId ≤ (processInlinesList P chars st f).1.nextId ∧
      (processInlinesList P chars st f).2.map Node.label = f.map Node.label ∧
      AllList (DocumentNode (P.options.has optFootnotes) p.nextId) (processInlinesList P chars st f).2 ∧
      blockLabels p.nextId (processInlinesList P chars st f).2 = blockLabels p.nextId f
  | [], _ => ⟨le_rfl, rfl, trivial, rfl⟩
  | n :: ns, all => by
    obtain ⟨grows, label, nodes, blocks⟩ := processInlines_spec core chars tree low n all.1
    have low' : p.nextId ≤ (processInlines P chars st n).1.nextId := low.trans grows
    obtain ⟨grows', labels, nodes', blocks'⟩ := processInlinesList_spec core chars tree low' ns all.2
    rw [processInlinesList]
    refine ⟨grows.trans grows', ?_, ⟨nodes, nodes'⟩, ?_⟩
    · exact congrArg₂ List.cons label labels
    · show blockLabels p.nextId ((processInlines P chars st n).2 :: _) = _
      rw [blockLabels_cons, blocks, blocks', ← blockLabels_cons]

end

end

/-! ### The document before its footnotes -/

/-- The tree that `process_footnotes` gets if footnotes are on, with the state of the inlines. -/
def parsedDocument (P : Config) (callback : Option (UInt8 → Bool)) (chunks : List Bytes) :
    InlineState × Node :=
  let parser := flushedParser P callback chunks
  let (st, root) := finalizedDocument parser
  processInlines P (manageExtensionsSpecialCharacters P true parser.chars) st root

section

variable {P : Config} (core : P.syntaxExtensions = []) (callback : Option (UInt8 → Bool))
  (chunks : List Bytes)

include core

theorem documentOf_core : documentOf P callback chunks =
    consolidateTextNodes (if P.options.has optFootnotes then
      processFootnotes P (parsedDocument P callback chunks).1.nextId (parsedDocument P callback chunks).2
    else (parsedDocument P callback chunks).2) := by
  have config : (flushedParser P callback chunks).config = P := flushedConfig_eq P callback chunks
  rw [documentOf, parserFinish]
  show postprocess (flushedParser P callback chunks).config
    (consolidateTextNodes (finalizeDocument (flushedParser P callback chunks)).2) = _
  rw [config, postprocess, core, List.foldl_nil, finalizeDocument, config]
  rfl

omit core in
/-- The callback for backslashes stays until the document is finished. -/
theorem backslashIspunct_flushedParser :
    (manageExtensionsSpecialCharacters P true (flushedParser P callback chunks).chars).backslashIspunct = callback := by
  rw [manageExtensionsSpecialCharacters, setSpecialCharacters_spec, flushedParser, parserNew, foldl_cmarkParserFeed]
  rfl

/-- When all blocks are closed they form a tree. -/
theorem blockTree_finalizeBlocks :
    let p := finalizeBlocks P (flushedParser P callback chunks).state
    BlockTree p.links p.root p.nextId := by
  have settled : Settled (flushedParser P callback chunks).state := by
    rw [flushedParser, flushedState_eq]
    exact settled_replay core _ settled_initialState
  exact (finalizeBlocks_spec settled).1

/-- Every node of a parsed document may be where it is, the blocks have different addresses and the
data with which they were closed, and the other nodes are inlines with addresses above theirs. -/
theorem parsedDocument_spec : ∃ lo ≤ (parsedDocument P callback chunks).1.nextId,
    (parsedDocument P callback chunks).2.All (DocumentNode (P.options.has optFootnotes) lo) ∧
      ((blockLabels lo [(parsedDocument P callback chunks).2]).map Prod.fst).Nodup ∧
      (parsedDocument P callback chunks).2.type = .document ∧
      ∀ l ∈ blockLabels lo [(parsedDocument P callback chunks).2], ∃ b,
        (finalizeBlocks P (flushedParser P callback chunks).state).nodes l.1 = some b ∧
          l.2 = b.data := by
  have config : (flushedParser P callback chunks).config = P := flushedConfig_eq P callback chunks
  have tree := blockTree_finalizeBlocks core callback chunks
  obtain ⟨b, block, _, document⟩ := tree.rooted
  obtain ⟨chars, refmap, parsed⟩ : ∃ chars refmap, parsedDocument P callback chunks =
      (let p := finalizeBlocks P (flushedParser P callback chunks).state
      processInlines P chars ⟨refmap, p.nextId, []⟩ (toTree p p.nextId p.root)) := by
    unfold parsedDocument finalizedDocument
    dsimp only
    rw [config]
    exact ⟨_, _, rfl⟩
  rw [parsed]
  generalize finalizeBlocks P (flushedParser P callback chunks).state = p at tree block ⊢
  obtain ⟨grows, label, nodes, blocks⟩ := processInlines_spec core chars tree
    (le_refl (⟨refmap, p.nextId, []⟩ : InlineState).nextId) (toTree p p.nextId p.root) (all_toTree tree p.nextId block)
  have linked := all_toTree tree p.nextId block
  refine ⟨p.nextId, grows, nodes, ?_, ?_, ?_⟩
  · show ((blockLabels p.nextId _).map Prod.fst).Nodup
    rw [blocks, blockLabels, List.map_map]
    refine (List.Sublist.map _ List.filter_sublist).nodup ?_
    simpa [postorderList, Function.comp_def, Node.label] using nodup_toTree tree p.nextId block
  · have type := congrArg (fun l => l.2.type) label
    have root : (toTree p p.nextId p.root).type = .document := by
      rw [type_toTree, (parent_of_links block).2.2, document]
    exact type.trans root
  · intro l member
    rw [show (blockLabels p.nextId [(processInlines P chars ⟨refmap, p.nextId, []⟩
      (toTree p p.nextId p.root)).2]) = _ from blocks] at member
    obtain ⟨m, among, rfl⟩ := List.mem_map.mp member
    have inTree : m ∈ (toTree p p.nextId p.root).postorder := by
      simpa [postorderList] using (List.mem_filter.mp among).1
    have node := (Node.All.of_mem _ linked inTree).here
    obtain ⟨b, isBlock, _⟩ := node.linked
    rw [ParserState.links, ParserState.shape, Option.map_map] at isBlock
    obtain ⟨e, found, _⟩ := Option.map_eq_some_iff.mp isBlock
    refine ⟨e, found, node.data.trans ?_⟩
    rw [ParserState.dataOf, ParserState.block, found]
    rfl

/-- The blocks of a finalized document are those of a tree. -/
theorem blockNodes_finalizedDocument : ∃ p : ParserState, BlockTree p.links p.root p.nextId ∧
    (finalizedDocument (flushedParser P callback chunks)).2.All (BlockNode p) := by
  have config : (flushedParser P callback chunks).config = P := flushedConfig_eq P callback chunks
  have tree := blockTree_finalizeBlocks core callback chunks
  obtain ⟨b, isBlock, _⟩ := tree.rooted
  refine ⟨_, tree, ?_⟩
  unfold finalizedDocument
  rw [config]
  exact all_toTree tree _ isBlock

/-- The inlines of a document are those of paragraphs and headings. -/
theorem mem_documentSubjects {chars : CharTables} {subj : Subject}
    (member : subj ∈ blockSubjects P chars (finalizedDocument (flushedParser P callback chunks)).1
      (finalizedDocument (flushedParser P callback chunks)).2) :
    ∃ d refmap nextId, (d.type = .paragraph ∨ d.type = .heading) ∧ subj = inlineSubject P d [] refmap nextId := by
  obtain ⟨p, _, nodes⟩ := blockNodes_finalizedDocument core callback chunks
  obtain ⟨d, refmap, nextId, isText, here⟩ :=
    exists_blockSubject (fun _ _ _ => children_of_containsInlines core) _ _ nodes subj member
  exact ⟨d, refmap, nextId, (containsInlines_core core d).mp isText, here⟩

/-- A condition that holds of all blocks and of what parsing inlines makes. -/
theorem parsedDocument_all {q : NodeId → NodeData → Forest → Prop} (block : ∀ {i d cs}, d.type.isCoreBlock → q i d cs)
    (inlines : ∀ subj ∈ blockSubjects P (manageExtensionsSpecialCharacters P true (flushedParser P callback chunks).chars)
      (finalizedDocument (flushedParser P callback chunks)).1 (finalizedDocument (flushedParser P callback chunks)).2,
      subj.children = [] →
        AllList q (parseInlines P (manageExtensionsSpecialCharacters P true (flushedParser P callback chunks).chars)
          subj).children) : (parsedDocument P callback chunks).2.All q := by
  obtain ⟨p, tree, nodes⟩ := blockNodes_finalizedDocument core callback chunks
  exact processInlines_all (fun node _ => block (node.isCoreBlock tree)) (children_of_containsInlines core) _ _ nodes
    inlines

omit core in
theorem NodeType.canContainType_leaf {u : NodeType} :
    NodeType.footnoteReference.canContainType u = false := by
  unfold canContainType
  split <;> rfl

omit core in
theorem NodeType.canContainType_text_of_reference {t : NodeType} (core : t.isCoreBlock ∨ t.isCoreInline)
    (reference : t.canContainType .footnoteReference) : t.canContainType .text := by
  revert core reference
  cases t <;> simp [isCoreBlock, isCoreInline, canContainType, isBlock, isInline]

/-- What is said of the tree that `process_footnotes` gets holds of every document. -/
theorem footnoteTree_parsedDocument : FootnoteTree P (parsedDocument P callback chunks).1.nextId
    (parsedDocument P callback chunks).2 := by
  obtain ⟨lo, low, nodes, nodup, document, _⟩ := parsedDocument_spec core callback chunks
  generalize (parsedDocument P callback chunks).1.nextId = nextId at low
  generalize (parsedDocument P callback chunks).2 = root at nodes nodup document ⊢
  have here {m : Node} (member : m ∈ root.postorder) := (Node.All.of_mem root nodes member).here
  have labels : blockLabels lo [root] = (root.postorder.filter fun m => m.id < lo).map Node.label := by
    simp [blockLabels, postorderList]
  rw [labels, List.map_map] at nodup
  have oldDefinition {m : Node} (member : m ∈ root.exits .footnoteDefinition) :
      m ∈ root.postorder.filter fun m => m.id < lo := by
    rw [exits_eq_filter] at member
    obtain ⟨inTree, type⟩ := List.mem_filter.mp member
    refine List.mem_filter.mpr ⟨inTree, ?_⟩
    rw [decide_eq_true_eq]
    refine Nat.lt_of_not_le fun new => ?_
    have inline := (here inTree).new new
    have isDefinition : m.type = .footnoteDefinition := by simpa using type
    rw [show m.data.type = .footnoteDefinition from isDefinition] at inline
    cases inline
  refine ⟨?_, ?_, ?_, document, ?_, ?_⟩
  · have same : root.exits .footnoteDefinition =
        (root.postorder.filter fun m => m.id < lo).filter fun m => m.type = .footnoteDefinition := by
      rw [List.filter_filter, exits_eq_filter]
      refine List.filter_congr fun m member => ?_
      by_cases type : m.type = .footnoteDefinition
      · have old := oldDefinition (m := m) (by
          rw [exits_eq_filter]
          exact List.mem_filter.mpr ⟨member, by simpa using type⟩)
        simp [type, (List.mem_filter.mp old).2]
      · simp [type]
    rw [same]
    exact (List.Sublist.map _ List.filter_sublist).nodup nodup
  · intro n member known
    obtain ⟨d, isDefinition, same⟩ := List.mem_map.mp known
    have old := oldDefinition isDefinition
    have oldHere : n ∈ root.postorder.filter fun m => m.id < lo := by
      refine List.mem_filter.mpr ⟨member, ?_⟩
      rw [← same]
      exact (List.mem_filter.mp old).2
    have equal := List.inj_on_of_nodup_map nodup oldHere old same.symm
    rw [equal]
    rw [exits_eq_filter] at isDefinition
    simpa using (List.mem_filter.mp isDefinition).2
  · intro d isDefinition
    have old := (List.mem_filter.mp (oldDefinition isDefinition)).2
    exact (of_decide_eq_true old).trans_le low
  · intro r member
    have type := type_of_mem_exitsList member
    have inTree : r ∈ root.postorder := by
      rw [Node.postorder_eq]
      exact List.mem_append_left _ (mem_postorderList_of_mem_exitsList member)
    rw [List.eq_nil_iff_forall_not_mem]
    intro c below
    have allowed := (here inTree).child c below
    rw [show r.data.type = .footnoteReference from type, NodeType.canContainType_leaf] at allowed
    cases allowed
  · intro n member r below type
    rw [nodeCanContainType_core core]
    have allowed := (here member).child r below
    rw [type] at allowed
    exact NodeType.canContainType_text_of_reference (here member).core allowed

end

/-! ### The finished document -/

/-- The child has the type of one of these nodes, or is the text that replaces a footnote reference
among them. -/
def Stems (f : Forest) (c : Node) : Prop :=
  (∃ c' ∈ f, c'.type = c.type) ∨ c.type = .text ∧ ∃ c' ∈ f, c'.type = .footnoteReference

theorem Stems.of_mem {f : Forest} {c : Node} (member : c ∈ f) : Stems f c := .inl ⟨c, member, rfl⟩

theorem Stems.mono {f g : Forest} {c : Node} (stems : Stems f c) (within : ∀ c' ∈ f, c' ∈ g) :
    Stems g c :=
  stems.imp (fun ⟨c', member, type⟩ => ⟨c', within c' member, type⟩)
    fun ⟨text, c', member, type⟩ => ⟨text, c', within c' member, type⟩

/-- Neither text nor a reference, which may become text. -/
def Node.isPlain (n : Node) : Bool := n.type != .text && n.type != .footnoteReference

theorem not_isPlain_of_reference {n : Node} (reference : n.type = .footnoteReference) : n.isPlain = false := by
  rw [Node.isPlain, reference]
  rfl

/-- The children behind a pass: they stem from those before, of which the plain ones are kept but for those that are
gone. -/
structure Pruned (gone : List NodeId) (f g : Forest) : Prop where
  stems : ∀ c ∈ g, Stems f c
  plain : (g.filter Node.isPlain).map Node.id = ((f.filter Node.isPlain).map Node.id).filter (!gone.contains ·)

theorem Pruned.nil (gone : List NodeId) : Pruned gone [] [] := ⟨nofun, rfl⟩

/-- One node in the place of one. -/
theorem Pruned.cons {gone : List NodeId} {n n' : Node} {f g : Forest} (pruned : Pruned gone f g) (type : n'.type = n.type)
    (id : n'.id = n.id) (kept : n.id ∉ gone) : Pruned gone (n :: f) (n' :: g) := by
  constructor
  · intro c member
    rcases List.mem_cons.mp member with rfl | later
    · exact .inl ⟨n, List.mem_cons_self, type.symm⟩
    · exact (pruned.stems c later).mono fun c' => List.mem_cons_of_mem n
  · have same : n'.isPlain = n.isPlain := by rw [Node.isPlain, Node.isPlain, type]
    rw [List.filter_cons, List.filter_cons, same]
    split
    next =>
      rw [List.map_cons, List.map_cons, List.filter_cons_of_pos (by simpa using kept), id, pruned.plain]
    next => exact pruned.plain

/-- Nodes that are not plain in the place of one that is not. -/
theorem Pruned.append {gone : List NodeId} {n : Node} {ns f g : Forest} (pruned : Pruned gone f g)
    (stems : ∀ c ∈ ns, Stems [n] c) (other : n.isPlain = false) (others : ∀ c ∈ ns, c.isPlain = false) :
    Pruned gone (n :: f) (ns ++ g) := by
  constructor
  · intro c member
    rcases List.mem_append.mp member with here | later
    · exact (stems c here).mono fun c' among => List.mem_singleton.mp among ▸ List.mem_cons_self
    · exact (pruned.stems c later).mono fun c' => List.mem_cons_of_mem n
  · have none : ns.filter Node.isPlain = [] := List.filter_eq_nil_iff.mpr fun c member => by simp [others c member]
    rw [List.filter_append, none, List.nil_append, List.filter_cons_of_neg (by simp [other]), pruned.plain]

/-- Plain children of one type are all there if none is gone. -/
theorem Pruned.of_plain {gone : List NodeId} {f g : Forest} (pruned : Pruned gone f g) {t : NodeType}
    (plain : t ≠ .text ∧ t ≠ .footnoteReference) (types : ∀ c ∈ f, c.type = t) (apart : ∀ c ∈ f, c.id ∉ gone) :
    (∀ c ∈ g, c.type = t) ∧ g.map Node.id = f.map Node.id := by
  have types' : ∀ c ∈ g, c.type = t := by
    intro c member
    rcases pruned.stems c member with ⟨c', among, type⟩ | ⟨-, c', among, reference⟩
    · exact type.symm.trans (types c' among)
    · exact absurd ((types c' among).symm.trans reference) plain.2
  have all {h : Forest} (types : ∀ c ∈ h, c.type = t) : h.filter Node.isPlain = h :=
    List.filter_eq_self.mpr fun c member => by simp [Node.isPlain, types c member, plain]
  have kept : (f.map Node.id).filter (!gone.contains ·) = f.map Node.id :=
    List.filter_eq_self.mpr (List.forall_mem_map.mpr fun c member => by simpa using apart c member)
  exact ⟨types', by rw [← all types', pruned.plain, all types, kept]⟩

/-- A condition on nodes that pruning a tree keeps: unlinking definitions, and turning references into text. Text meets
it, and counts of references do not matter. -/
structure Prunable (q : NodeId → NodeData → Forest → Prop) : Prop where
  children : ∀ {gone i d cs cs'}, q i d cs → (∀ x ∈ gone, ∃ d cs, q x d cs ∧ d.type = .footnoteDefinition) →
    Pruned gone cs cs' → q i d cs'
  text : ∀ {i d}, d.type = .text → q i d []
  counts : ∀ {i d cs} (n : Nat), q i d cs → q i { d with refIx := n } cs

/-- A condition that the footnote pass keeps: resolved references meet it too. -/
structure Stable (q : NodeId → NodeData → Forest → Prop) : Prop extends Prunable q where
  reference : ∀ {i d e cs}, q i d cs → d.type = .footnoteReference → e.type = .footnoteReference →
    q i e []

theorem Prunable.and {q r : NodeId → NodeData → Forest → Prop} (left : Prunable q)
    (right : Prunable r) : Prunable fun i d cs => q i d cs ∧ r i d cs where
  children both gone pruned := by
    refine ⟨left.children both.1 (fun x member => ?_) pruned, right.children both.2 (fun x member => ?_) pruned⟩
    · obtain ⟨d, cs, holds, type⟩ := gone x member
      exact ⟨d, cs, holds.1, type⟩
    · obtain ⟨d, cs, holds, type⟩ := gone x member
      exact ⟨d, cs, holds.2, type⟩
  text type := ⟨left.text type, right.text type⟩
  counts n both := ⟨left.counts n both.1, right.counts n both.2⟩

theorem Stable.and {q r : NodeId → NodeData → Forest → Prop} (left : Stable q) (right : Stable r) :
    Stable fun i d cs => q i d cs ∧ r i d cs where
  toPrunable := left.toPrunable.and right.toPrunable
  reference both type type' :=
    ⟨left.reference both.1 type type', right.reference both.2 type type'⟩

section

variable {q : NodeId → NodeData → Forest → Prop} (prunable : Prunable q)

include prunable

omit prunable in
mutual

theorem mapData_all (prunable : Prunable q) {g : NodeId → NodeData → NodeData}
    (counts : ∀ i d, ∃ n, g i d = { d with refIx := n }) : (n : Node) → n.All q → (n.mapData g).All q
  | .mk i d cs, all => by
    obtain ⟨below, pruned⟩ := mapDataList_all prunable counts cs all.2
    obtain ⟨n, same⟩ := counts i d
    rw [Node.mapData, same]
    exact ⟨prunable.counts n (prunable.children all.1 (List.forall_mem_nil _) pruned), below⟩

theorem mapDataList_all (prunable : Prunable q) {g : NodeId → NodeData → NodeData}
    (counts : ∀ i d, ∃ n, g i d = { d with refIx := n }) : (f : Forest) → AllList q f →
    AllList q (mapDataList g f) ∧ Pruned [] f (mapDataList g f)
  | [], _ => ⟨trivial, .nil []⟩
  | n :: ns, all => by
    obtain ⟨rest, pruned⟩ := mapDataList_all prunable counts ns all.2
    refine ⟨⟨mapData_all prunable counts n all.1, rest⟩, pruned.cons ?_ ?_ List.not_mem_nil⟩
    · obtain ⟨i, d, cs⟩ := n
      obtain ⟨n, same⟩ := counts i d
      show (g i d).type = d.type
      rw [same]
    · obtain ⟨i, d, cs⟩ := n
      rfl

end

omit prunable in
mutual

theorem unlinkAll_all (prunable : Prunable q) {ids : List NodeId}
    (gone : ∀ x ∈ ids, ∃ d cs, q x d cs ∧ d.type = .footnoteDefinition) : (n : Node) → n.All q → (n.unlinkAll ids).All q
  | .mk i d cs, all => by
    obtain ⟨below, pruned⟩ := unlinkAllList_all prunable gone cs all.2
    exact ⟨prunable.children all.1 gone pruned, below⟩

theorem unlinkAllList_all (prunable : Prunable q) {ids : List NodeId}
    (gone : ∀ x ∈ ids, ∃ d cs, q x d cs ∧ d.type = .footnoteDefinition) : (f : Forest) → AllList q f →
    AllList q (unlinkAllList ids f) ∧ Pruned ids f (unlinkAllList ids f)
  | [], _ => ⟨trivial, .nil ids⟩
  | n :: ns, all => by
    obtain ⟨rest, pruned⟩ := unlinkAllList_all prunable gone ns all.2
    rw [unlinkAllList]
    split
    next unlinked =>
      refine ⟨rest, fun c member => (pruned.stems c member).mono fun c' => List.mem_cons_of_mem n, ?_⟩
      rw [pruned.plain, List.filter_cons]
      split
      next => rw [List.map_cons, List.filter_cons_of_neg (by simpa using unlinked)]
      next => rfl
    next kept =>
      exact ⟨⟨unlinkAll_all prunable gone n all.1, rest⟩,
        pruned.cons (type_unlinkAll ids n) (id_unlinkAll ids n) (by simpa using kept)⟩

end

end

/-- What the map of footnotes leads to are definitions. -/
theorem definition_of_mem_values {T : Tables} {root : Node} {q : NodeId → NodeData → Forest → Prop} (all : root.All q) :
    ∀ x ∈ (collectFootnotes T root).refs.map (·.value), ∃ d cs, q x d cs ∧ d.type = .footnoteDefinition := by
  intro x member
  have inRoot := footnoteIds_subset (mem_values_collectFootnotes.mp member)
  obtain ⟨n, exit, rfl⟩ := List.mem_map.mp inRoot
  rw [exits_eq_filter] at exit
  obtain ⟨inTree, type⟩ := List.mem_filter.mp exit
  exact ⟨n.data, n.children, (Node.All.of_mem root all inTree).here, of_decide_eq_true type⟩

section

variable {q : NodeId → NodeData → Forest → Prop} (stable : Stable q)

include stable

theorem resolveFootnote_all {P : Config} (st : FootnoteState) (owner : NodeData) {n : Node}
    (all : n.All q) (reference : n.type = .footnoteReference) :
    AllList q (resolveFootnote P st owner n.id n.data).2 ∧
      ∀ c ∈ (resolveFootnote P st owner n.id n.data).2, Stems [n] c ∧ c.isPlain = false := by
  unfold resolveFootnote
  generalize mapLookup P.tables st.map n.data.as.getLiteral = r
  obtain ⟨map, found⟩ := r
  cases found with
  | some entry =>
    refine ⟨⟨⟨stable.reference all.here reference reference, trivial⟩, trivial⟩, ?_⟩
    intro c member
    rw [List.mem_singleton.mp member]
    exact ⟨.inl ⟨n, List.mem_cons_self, rfl⟩, not_isPlain_of_reference reference⟩
  | none =>
    dsimp only
    split
    next =>
      refine ⟨⟨⟨stable.text rfl, trivial⟩, trivial⟩, ?_⟩
      intro c member
      rw [List.mem_singleton.mp member]
      exact ⟨.inr ⟨rfl, n, List.mem_cons_self, reference⟩, rfl⟩
    next => exact ⟨trivial, nofun⟩

mutual

theorem resolveFootnotes_all {P : Config} (st : FootnoteState) : (n : Node) → n.All q →
    (resolveFootnotes P st n).2.All q ∧ (resolveFootnotes P st n).2.label = n.label
  | .mk i d children, all => by
    obtain ⟨below, pruned⟩ := resolveFootnotesList_all (P := P) st d children all.2
    exact ⟨⟨stable.children all.1 (List.forall_mem_nil _) pruned, below⟩, rfl⟩

theorem resolveFootnotesList_all {P : Config} (st : FootnoteState) (owner : NodeData) :
    (f : Forest) → AllList q f → AllList q (resolveFootnotesList P owner st f).2 ∧
      Pruned [] f (resolveFootnotesList P owner st f).2
  | [], _ => ⟨trivial, .nil []⟩
  | n :: ns, all => by
    obtain ⟨first, label⟩ := resolveFootnotes_all (P := P) st n all.1
    obtain ⟨sameId, sameData⟩ := Prod.ext_iff.mp label
    have sameType : (resolveFootnotes P st n).2.type = n.type := congrArg NodeData.type sameData
    rw [resolveFootnotesList]
    generalize resolveFootnotes P st n = r at first sameId sameType
    obtain ⟨st', n'⟩ := r
    dsimp only [Node.label] at first sameId sameType ⊢
    split
    next reference =>
      obtain ⟨nodes, resolved⟩ := resolveFootnote_all (P := P) stable st' owner first reference
      generalize resolveFootnote P st' owner n'.id n'.data = r at nodes resolved
      obtain ⟨st'', resolvedNodes⟩ := r
      obtain ⟨nodes', pruned⟩ := resolveFootnotesList_all (P := P) st'' owner ns all.2
      have wasReference := sameType.symm.trans reference
      refine ⟨allList_append.mpr ⟨nodes, nodes'⟩, pruned.append (fun c member => ?_)
        (not_isPlain_of_reference wasReference) fun c member => (resolved c member).2⟩
      rcases (resolved c member).1 with ⟨c', among, type⟩ | ⟨text, _⟩
      · rw [List.mem_singleton.mp among, sameType] at type
        exact .inl ⟨n, List.mem_cons_self, type⟩
      · exact .inr ⟨text, n, List.mem_cons_self, wasReference⟩
    next =>
      obtain ⟨nodes', pruned⟩ := resolveFootnotesList_all (P := P) st' owner ns all.2
      exact ⟨allList_append.mpr ⟨⟨first, trivial⟩, nodes'⟩, pruned.cons sameType sameId List.not_mem_nil⟩

end

/-- The footnote pass unlinks the definitions of the map, and links those that were referred to
behind the other children of the document. -/
theorem processFootnotes_all (P : Config) (nextId : NodeId) {root : Node} (all : root.All q) :
    ∃ (counted : Node) (used : Forest), counted.All q ∧ counted.type = root.type ∧
      processFootnotes P nextId root = .mk counted.id counted.data (unlinkAllList
        ((collectFootnotes P.tables root).refs.map (·.value)) counted.children ++ used) ∧
      ∀ n ∈ used, ∃ m ∈ counted.postorder, m.type = .footnoteDefinition ∧
        n = m.unlinkAll ((collectFootnotes P.tables root).refs.map (·.value)) := by
  unfold processFootnotes
  extract_lets map ids
  obtain ⟨resolved, label⟩ :=
    resolveFootnotes_all (P := P) stable { map := map, nextId := nextId } root all
  generalize resolveFootnotes P { map := map, nextId := nextId } root = r at resolved label
  obtain ⟨st, root'⟩ := r
  dsimp -zeta only at resolved label ⊢
  extract_lets counted definitions used
  have counts : ∀ i d, ∃ n, st.writeDefCount i d = { d with refIx := n } := by
    intro i d
    unfold FootnoteState.writeDefCount
    split
    next => exact ⟨_, rfl⟩
    next => exact ⟨d.refIx, rfl⟩
  refine ⟨counted, used, mapData_all stable.toPrunable counts root' resolved, ?_, rfl, ?_⟩
  · have type : root'.type = root.type := congrArg (fun l => l.2.type) label
    show (root'.mapData st.writeDefCount).data.type = _
    rw [Node.mapData_eq]
    obtain ⟨n, same⟩ := counts root'.id root'.data
    show (st.writeDefCount root'.id root'.data).type = _
    rw [same]
    exact type
  · intro n member
    obtain ⟨m, among, rfl⟩ := List.mem_map.mp member
    have kept : m ∈ definitions := (List.mem_filter.mp (List.mem_mergeSort.mp among)).1
    have exits := (List.mem_filter.mp kept).1
    rw [exits_eq_filter] at exits
    obtain ⟨inTree, type⟩ := List.mem_filter.mp exits
    exact ⟨m, inTree, by simpa using type, rfl⟩

end

/-! ### Merging text nodes -/

section

variable {q : NodeId → NodeData → Forest → Prop} (prunable : Prunable q)
  (text : ∀ {i d cs}, q i d cs → d.type = .text → cs = [])

include prunable text

omit prunable text in
mutual

/-- Merging text nodes keeps such a condition, and the nodes of the other types. -/
theorem consolidateTextNodes_all (prunable : Prunable q)
    (text : ∀ {i d cs}, q i d cs → d.type = .text → cs = []) {t : NodeType} (other : t ≠ .text) : (n : Node) →
    n.All q →
    (consolidateTextNodes n).All q ∧ (consolidateTextNodes n).label = n.label ∧
      ((consolidateTextNodes n).exits t).map Node.label = (n.exits t).map Node.label
  | .mk i d children, all => by
    obtain ⟨below, pruned, exits⟩ := consolidateList_all prunable text other children all.2
    refine ⟨⟨prunable.children all.1 (List.forall_mem_nil _) pruned, below⟩, rfl, ?_⟩
    rw [consolidateTextNodes, Node.exits, Node.exits, List.map_append, List.map_append, exits]
    congr 1
    split <;> rfl

theorem consolidateList_all (prunable : Prunable q)
    (text : ∀ {i d cs}, q i d cs → d.type = .text → cs = []) {t : NodeType} (other : t ≠ .text) : (f : Forest) →
    AllList q f →
    AllList q (consolidateList f) ∧ Pruned [] f (consolidateList f) ∧
      (exitsList t (consolidateList f)).map Node.label = (exitsList t f).map Node.label
  | [], _ => ⟨trivial, .nil [], rfl⟩
  | n :: ns, all => by
    obtain ⟨first, label, firstExits⟩ := consolidateTextNodes_all prunable text other n all.1
    obtain ⟨rest, pruned, restExits⟩ := consolidateList_all prunable text other ns all.2
    obtain ⟨id, data⟩ := Prod.ext_iff.mp label
    have type : (consolidateTextNodes n).type = n.type := congrArg NodeData.type data
    have behind : Pruned [] (n :: ns) (consolidateTextNodes n :: consolidateList ns) :=
      pruned.cons type id List.not_mem_nil
    rw [consolidateList, exitsList, List.map_append, ← firstExits, ← restExits]
    split
    next i cur j tmp cs after left right =>
      rw [left] at first behind
      rw [right] at rest behind
      rw [left, right]
      split
      next both =>
        obtain ⟨isText, isText'⟩ := both
        have none : cs = [] := text rest.1.1 isText'
        refine ⟨⟨⟨prunable.text isText, trivial⟩, rest.2⟩, ⟨fun c member => ?_, ?_⟩, ?_⟩
        · rcases List.mem_cons.mp member with rfl | member
          · exact behind.stems (.mk i cur []) List.mem_cons_self
          · exact behind.stems c (List.mem_cons_of_mem _ (List.mem_cons_of_mem _ member))
        · -- two texts have become one, and neither counts
          rw [← behind.plain]
          simp [Node.isPlain, Node.type, mergeText, isText, isText']
        · have notText : ¬NodeType.text = t := fun same => other same.symm
          rw [none]
          simp [exitsList, Node.exits, mergeText, isText, isText', notText]
      next => exact ⟨⟨first, rest⟩, behind, by rw [exitsList, List.map_append]⟩
    next => exact ⟨⟨first, rest⟩, behind, by rw [exitsList, List.map_append]⟩

end

end

/-! ### The types of the core -/

/-- A node of the core types whose children may be below it. -/
structure CoreNode (_ : NodeId) (d : NodeData) (cs : Forest) : Prop where
  core : d.type.isCoreBlock ∨ d.type.isCoreInline
  child : ∀ c ∈ cs, d.type.canContainType c.type

theorem stable_coreNode : Stable CoreNode where
  children all _ pruned := by
    refine ⟨all.core, fun c member => ?_⟩
    rcases pruned.stems c member with ⟨c', among, type⟩ | ⟨text, c', among, reference⟩
    · exact type ▸ all.child c' among
    · have allowed := all.child c' among
      rw [reference] at allowed
      rw [text]
      exact NodeType.canContainType_text_of_reference all.core allowed
  text type := ⟨.inr (type ▸ rfl), nofun⟩
  reference _ _ type := ⟨.inr (type ▸ rfl), nofun⟩
  counts _ all := ⟨all.core, all.child⟩

theorem coreNode_text {i : NodeId} {d : NodeData} {cs : Forest} (all : CoreNode i d cs)
    (text : d.type = .text) : cs = [] := by
  rw [List.eq_nil_iff_forall_not_mem]
  intro c member
  have allowed := all.child c member
  rw [text] at allowed
  revert allowed
  unfold NodeType.canContainType
  split <;> simp

/-- The footnote pass keeps a condition on nodes that a document with definitions behind its other children meets. -/
theorem processFootnotes_stable {q : NodeId → NodeData → Forest → Prop} (stable : Stable q) {t : NodeType}
    (notes : ∀ {i d cs} (used : Forest), q i d cs → d.type = t → (∀ n ∈ used, n.type = .footnoteDefinition) →
      q i d (cs ++ used))
    (P : Config) (nextId : NodeId) {root : Node} (before : root.All q) (document : root.type = t) :
    (processFootnotes P nextId root).All q ∧ (processFootnotes P nextId root).type = t := by
  obtain ⟨counted, used, all, type, eq, isUsed⟩ := processFootnotes_all stable P nextId before
  have gone := definition_of_mem_values (T := P.tables) before
  obtain ⟨body, pruned⟩ := unlinkAllList_all stable.toPrunable gone counted.children all.below
  have isDocument : counted.data.type = t := type.trans document
  have added : ∀ n ∈ used, n.All q ∧ n.type = .footnoteDefinition := by
    intro n member
    obtain ⟨m, inTree, definition, rfl⟩ := isUsed n member
    exact ⟨unlinkAll_all stable.toPrunable gone m (Node.All.of_mem counted all inTree),
      (type_unlinkAll _ m).trans definition⟩
  rw [eq]
  refine ⟨⟨?_, ?_⟩, isDocument⟩
  · exact notes used (stable.children all.here gone pruned) isDocument fun n member => (added n member).2
  · exact allList_append.mpr ⟨body, allList_iff.mpr fun n member => (added n member).1⟩

theorem coreNode_notes {i : NodeId} {d : NodeData} {cs : Forest} (used : Forest) (all : CoreNode i d cs)
    (document : d.type = .document) (notes : ∀ n ∈ used, n.type = .footnoteDefinition) : CoreNode i d (cs ++ used) := by
  refine ⟨all.core, List.forall_mem_append.mpr ⟨all.child, fun n member => ?_⟩⟩
  rw [document, notes n member]
  rfl

/-! ### Back-references in documents -/

theorem refIxes_eq_labels (i : NodeId) (references : List Node) : refIxes i references =
    ((references.map Node.label).filter fun l => l.2.parentFootnoteDef = some i).map fun l =>
      l.2.refIx := by
  rw [refIxes, List.filter_map, List.map_map]
  rfl

/-- The links back depend on the definitions and the references alone. -/
theorem backReferenced_congr {n n' : Node}
    (definitions : (n'.exits .footnoteDefinition).map Node.label =
      (n.exits .footnoteDefinition).map Node.label)
    (references : (n'.exits .footnoteReference).map Node.label =
      (n.exits .footnoteReference).map Node.label) : BackReferenced n' ↔ BackReferenced n := by
  have labelled (m : Node) : BackReferenced m ↔ ∀ l ∈ (m.exits .footnoteDefinition).map Node.label,
      (refIxes l.1 (m.exits .footnoteReference)).Perm (List.range' 1 l.2.refIx) := by
    rw [List.forall_mem_map]
    rfl
  rw [labelled, labelled, definitions]
  simp only [refIxes_eq_labels, references]

/-- The extensions make no footnotes: the tree before the footnotes is like one of the core parser,
and the callbacks afterwards keep the definitions and the references. -/
structure FootnotesKept (P : Config) (callback : Option (UInt8 → Bool)) (chunks : List Bytes) :
    Prop where
  tree : FootnoteTree P (parsedDocument P callback chunks).1.nextId (parsedDocument P callback chunks).2
  kept : ∀ t ∈ [NodeType.footnoteDefinition, .footnoteReference],
    ((documentOf P callback chunks).exits t).map Node.label =
      ((processFootnotes P (parsedDocument P callback chunks).1.nextId
        (parsedDocument P callback chunks).2).exits t).map Node.label

theorem coreNode_parsedDocument {P : Config} (core : P.syntaxExtensions = [])
    (callback : Option (UInt8 → Bool)) (chunks : List Bytes) :
    (parsedDocument P callback chunks).2.All CoreNode ∧
      (parsedDocument P callback chunks).2.type = .document := by
  obtain ⟨lo, _, nodes, _, document, _⟩ := parsedDocument_spec core callback chunks
  exact ⟨Node.All.imp (fun node => ⟨node.core, node.child⟩) _ nodes, document⟩

/-- The finished document meets a condition that the document without its footnotes does. -/
theorem documentOf_all {P : Config} (core : P.syntaxExtensions = []) {callback : Option (UInt8 → Bool)}
    {chunks : List Bytes} {q : NodeId → NodeData → Forest → Prop} (stable : Stable q)
    (text : ∀ {i d cs}, q i d cs → d.type = .text → cs = [])
    (notes : ∀ {i d cs} (used : Forest), q i d cs → d.type = .document → (∀ n ∈ used, n.type = .footnoteDefinition) →
      q i d (cs ++ used))
    (nodes : (parsedDocument P callback chunks).2.All q) :
    (documentOf P callback chunks).All q ∧ (documentOf P callback chunks).type = .document := by
  have document := (coreNode_parsedDocument core callback chunks).2
  have processed : ∀ nextId, (if P.options.has optFootnotes then
      processFootnotes P nextId (parsedDocument P callback chunks).2
      else (parsedDocument P callback chunks).2).All q ∧ (if P.options.has optFootnotes then
      processFootnotes P nextId (parsedDocument P callback chunks).2
      else (parsedDocument P callback chunks).2).type = .document := by
    intro nextId
    split
    next => exact processFootnotes_stable stable notes P nextId nodes document
    next => exact ⟨nodes, document⟩
  rw [documentOf_core core]
  obtain ⟨all, type⟩ := processed (parsedDocument P callback chunks).1.nextId
  obtain ⟨merged, label, _⟩ :=
    consolidateTextNodes_all stable.toPrunable text (t := .document) (by decide) _ all
  exact ⟨merged, (congrArg (fun l => l.2.type) label : _ = _).trans type⟩

/-- The finished document has nodes of the core types where they may be. -/
theorem coreNode_documentOf {P : Config} (core : P.syntaxExtensions = [])
    (callback : Option (UInt8 → Bool)) (chunks : List Bytes) :
    (documentOf P callback chunks).All CoreNode ∧
      (documentOf P callback chunks).type = .document :=
  documentOf_all core stable_coreNode coreNode_text coreNode_notes (coreNode_parsedDocument core callback chunks).1

theorem footnotesKept_core {P : Config} (core : P.syntaxExtensions = [])
    (footnotes : P.options.has optFootnotes) (callback : Option (UInt8 → Bool))
    (chunks : List Bytes) : FootnotesKept P callback chunks := by
  obtain ⟨nodes, document⟩ := coreNode_parsedDocument core callback chunks
  refine ⟨footnoteTree_parsedDocument core callback chunks, ?_⟩
  intro t member
  have other : t ≠ .text := by
    rintro rfl
    revert member
    decide
  rw [documentOf_core core, if_pos footnotes]
  exact (consolidateTextNodes_all stable_coreNode.toPrunable coreNode_text other _ (processFootnotes_stable stable_coreNode coreNode_notes P _ nodes document).1).2.2

/-- In a document with footnotes the back-references are right if and only if no reference that
resolves stands in a definition that is dropped. Extensions, if there are any, make no footnotes. -/
theorem documentOf_backReferenced_iff {P : Config} {callback : Option (UInt8 → Bool)}
    {chunks : List Bytes} (footnotes : P.options.has optFootnotes)
    (extensions : P.syntaxExtensions ≠ [] → FootnotesKept P callback chunks)
    (few : ((parsedDocument P callback chunks).2.exits .footnoteDefinition).length < 2 ^ 31) :
    BackReferenced (documentOf P callback chunks) ↔
      NoneLost P.tables (parsedDocument P callback chunks).2 := by
  have kept : FootnotesKept P callback chunks := by
    by_cases core : P.syntaxExtensions = []
    · exact footnotesKept_core core footnotes callback chunks
    · exact extensions core
  rw [← processFootnotes_backReferenced_iff kept.tree few]
  exact backReferenced_congr (kept.kept .footnoteDefinition (by decide))
    (kept.kept .footnoteReference (by decide))

/-- A reference and its definition. -/
def referenceDocument : Bytes := lit "[^a]\n\n[^a]: x\n"

/-- A definition that nothing refers to, with a reference in it. -/
def unusedDefinitionDocument : Bytes := lit "[^a]\n\n[^a]: x\n\n[^b]: [^a]\n"

def footnotesConfig : Config := { tables := asciiTables, options := optFootnotes }

theorem documentOf_backReferenced_reference :
    BackReferenced (documentOf footnotesConfig none [referenceDocument]) ↔
      NoneLost asciiTables (parsedDocument footnotesConfig none [referenceDocument]).2 :=
  documentOf_backReferenced_iff (by decide) (fun some => absurd rfl some) (by decide +kernel)

/-- The definition counts two references and the document has one. -/
theorem not_backReferenced_of_unused :
    ¬BackReferenced (documentOf footnotesConfig none [unusedDefinitionDocument]) := by
  unfold BackReferenced
  decide +kernel

end CmarkGfm
