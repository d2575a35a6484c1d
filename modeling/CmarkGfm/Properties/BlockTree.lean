import CmarkGfm.Properties.BlockFrames

/-!
# The tree of blocks

The blocks by address form a tree: children know their parents, parents come before their
children, and every block may be where it is. Closing a block and linking a new one keep that.
-/

namespace CmarkGfm

/-- The types of the blocks that the core parser makes. -/
def NodeType.isCoreBlock : NodeType → Bool
  | .document | .blockQuote | .list | .item | .codeBlock | .htmlBlock | .paragraph | .heading
  | .thematicBreak | .footnoteDefinition => true
  | _ => false

/-- The types of blocks that hold lines and no blocks. -/
def NodeType.isLeafBlock : NodeType → Bool
  | .codeBlock | .htmlBlock | .paragraph | .heading | .thematicBreak => true
  | _ => false

theorem NodeType.not_canContainType_of_isLeafBlock {t u : NodeType} (leaf : t.isLeafBlock)
    (core : u.isCoreBlock) : t.canContainType u = false := by
  unfold isLeafBlock at leaf
  unfold isCoreBlock at core
  unfold canContainType
  split at leaf <;> split at core <;> first | rfl | contradiction

theorem NodeType.canContainType_heading {t : NodeType} (paragraph : t.canContainType .paragraph) :
    t.canContainType .heading := by
  revert paragraph
  cases t <;> simp [canContainType, isBlock, isInline]

/-- The type of a block and its links. -/
structure BlockLinks where
  type : NodeType
  parent : Option NodeId
  children : List NodeId

/-- What is in a block. -/
structure BlockFace where
  type : NodeType
  isOpen : Bool
  content : Bytes
  as : NodeAs

def ParserState.links (p : ParserState) (i : NodeId) : Option BlockLinks :=
  (p.shape i).map fun s => ⟨s.type, s.parent, s.children⟩

def ParserState.face (p : ParserState) (i : NodeId) : Option BlockFace :=
  (p.shape i).map fun s => ⟨s.type, s.isOpen, s.content, s.as⟩

/-- Every block is linked with its parent and its children, and may be where it is. -/
structure BlockTree (links : NodeId → Option BlockLinks) (root nextId : NodeId) : Prop where
  bound : ∀ {i b}, links i = some b → i < nextId
  child : ∀ {i b c}, links i = some b → c ∈ b.children →
    ∃ e, links c = some e ∧ e.parent = some i ∧ i < c ∧ b.type.canContainType e.type
  parent : ∀ {i b j}, links i = some b → b.parent = some j →
    ∃ e, links j = some e ∧ i ∈ e.children
  distinct : ∀ {i b}, links i = some b → b.children.Nodup
  rooted : ∃ b, links root = some b ∧ b.parent = none ∧ b.type = .document
  orphan : ∀ {i b}, links i = some b → b.parent = none → i = root
  core : ∀ {i b}, links i = some b → b.type.isCoreBlock

/-- Unlink and free a block. -/
def removeBlock (i : NodeId) (links : NodeId → Option BlockLinks) (j : NodeId) :
    Option BlockLinks :=
  if j = i then none
  else (links j).map fun b => { b with children := b.children.filter (· != i) }

/-- Link a new block behind the last child of another. -/
def linkBlock (i parent : NodeId) (type : NodeType) (links : NodeId → Option BlockLinks)
    (j : NodeId) : Option BlockLinks :=
  if j = i then some ⟨type, some parent, []⟩
  else if j = parent then (links j).map fun b => { b with children := b.children ++ [i] }
  else links j

/-- Change the type of a block. -/
def retypeBlock (i : NodeId) (type : NodeType) (links : NodeId → Option BlockLinks) (j : NodeId) :
    Option BlockLinks :=
  if j = i then (links j).map fun b => { b with type := type } else links j

namespace BlockTree

variable {links : NodeId → Option BlockLinks} {root nextId : NodeId}

theorem childless (tree : BlockTree links root nextId) {i : NodeId} {b : BlockLinks}
    (block : links i = some b) (leaf : b.type.isLeafBlock) : b.children = [] := by
  rw [List.eq_nil_iff_forall_not_mem]
  intro c member
  obtain ⟨e, child, _, _, allowed⟩ := tree.child block member
  rw [NodeType.not_canContainType_of_isLeafBlock leaf (tree.core child)] at allowed
  cases allowed

theorem lt_of_parent (tree : BlockTree links root nextId) {i j : NodeId} {b : BlockLinks}
    (block : links i = some b) (parent : b.parent = some j) : j < i := by
  obtain ⟨e, above, member⟩ := tree.parent block parent
  obtain ⟨_, _, _, before, _⟩ := tree.child above member
  exact before

theorem remove (tree : BlockTree links root nextId) {i : NodeId} {b : BlockLinks}
    (block : links i = some b) (childless : b.children = []) (other : i ≠ root) :
    BlockTree (removeBlock i links) root nextId := by
  have kept {j : NodeId} {e' : BlockLinks} (found : removeBlock i links j = some e') :
      j ≠ i ∧ ∃ e, links j = some e ∧ e' = { e with children := e.children.filter (· != i) } := by
    unfold removeBlock at found
    split at found
    next => cases found
    next differs =>
      obtain ⟨e, before, same⟩ := Option.map_eq_some_iff.mp found
      exact ⟨differs, e, before, same.symm⟩
  have keeps {j : NodeId} {e : BlockLinks} (differs : j ≠ i) (before : links j = some e) :
      removeBlock i links j = some { e with children := e.children.filter (· != i) } := by
    rw [removeBlock, if_neg differs, before]
    rfl
  refine ⟨?bound, ?child, ?linked, ?distinct, ?rooted, ?orphan, ?core⟩
  case bound =>
    intro j e' found
    obtain ⟨_, e, before, rfl⟩ := kept found
    exact tree.bound before
  case child =>
    intro j e' c found member
    obtain ⟨_, e, before, rfl⟩ := kept found
    obtain ⟨member, differs⟩ := List.mem_filter.mp member
    obtain ⟨f, child, parent, later, allowed⟩ := tree.child before member
    exact ⟨_, keeps (by simpa using differs) child, parent, later, allowed⟩
  case linked =>
    intro j e' k found up
    obtain ⟨differs, e, before, rfl⟩ := kept found
    obtain ⟨f, above, member⟩ := tree.parent before up
    have notFreed : k ≠ i := by
      rintro rfl
      rw [above] at block
      cases block
      rw [childless] at member
      cases member
    exact ⟨_, keeps notFreed above, List.mem_filter.mpr ⟨member, by simpa using differs⟩⟩
  case distinct =>
    intro j e' found
    obtain ⟨_, e, before, rfl⟩ := kept found
    exact (tree.distinct before).filter _
  case rooted =>
    obtain ⟨e, found, orphan, document⟩ := tree.rooted
    exact ⟨_, keeps other.symm found, orphan, document⟩
  case orphan =>
    intro j e' found orphan
    obtain ⟨_, e, before, rfl⟩ := kept found
    exact tree.orphan before orphan
  case core =>
    intro j e' found
    obtain ⟨_, e, before, rfl⟩ := kept found
    exact tree.core (b := e) before

theorem link (tree : BlockTree links root nextId) {above : NodeId} {b : BlockLinks}
    {type : NodeType} (block : links above = some b) (allowed : b.type.canContainType type)
    (core : type.isCoreBlock) : BlockTree (linkBlock nextId above type links) root (nextId + 1) := by
  have old {j : NodeId} {e : BlockLinks} (before : links j = some e) : j ≠ nextId :=
    Nat.ne_of_lt (tree.bound before)
  have fresh : links nextId = none := by
    cases found : links nextId with
    | none => rfl
    | some e => exact absurd rfl (old found)
  have keeps {j : NodeId} {e : BlockLinks} (before : links j = some e) :
      ∃ e', linkBlock nextId above type links j = some e' ∧ e'.type = e.type ∧
        e'.parent = e.parent ∧
        e'.children = if j = above then e.children ++ [nextId] else e.children := by
    unfold linkBlock
    rw [if_neg (old before), before]
    split
    next => exact ⟨_, rfl, rfl, rfl, rfl⟩
    next => exact ⟨_, rfl, rfl, rfl, rfl⟩
  have kept {j : NodeId} {e' : BlockLinks} (found : linkBlock nextId above type links j = some e') :
      (j = nextId ∧ e' = ⟨type, some above, []⟩) ∨ ∃ e, links j = some e ∧ e'.type = e.type ∧
        e'.parent = e.parent ∧
        e'.children = if j = above then e.children ++ [nextId] else e.children := by
    by_cases new : j = nextId
    · rw [linkBlock, if_pos new] at found
      exact .inl ⟨new, (Option.some.inj found).symm⟩
    · cases before : links j with
      | none =>
        rw [linkBlock, if_neg new, before] at found
        split at found <;> cases found
      | some e =>
        obtain ⟨e'', found', same⟩ := keeps before
        rw [found] at found'
        cases found'
        exact .inr ⟨e, rfl, same⟩
  have new : linkBlock nextId above type links nextId = some ⟨type, some above, []⟩ := if_pos rfl
  refine ⟨?bound, ?child, ?linked, ?distinct, ?rooted, ?orphan, ?core⟩
  case bound =>
    intro j e' found
    rcases kept found with ⟨rfl, _⟩ | ⟨e, before, _⟩
    · exact Nat.lt_succ_self _
    · exact (tree.bound before).trans (Nat.lt_succ_self _)
  case child =>
    intro j e' c found member
    rcases kept found with ⟨_, rfl⟩ | ⟨e, before, sameType, _, children⟩
    · cases member
    · rw [children] at member
      by_cases isParent : j = above
      · rw [if_pos isParent, List.mem_append, List.mem_singleton] at member
        rcases member with member | rfl
        · obtain ⟨f, child, up, later, may⟩ := tree.child before member
          obtain ⟨f', found', type', up', _⟩ := keeps child
          exact ⟨f', found', up'.trans up, later, by rw [sameType, type']; exact may⟩
        · refine ⟨_, new, by rw [isParent], tree.bound before, ?_⟩
          subst isParent
          rw [before] at block
          cases block
          rw [sameType]
          exact allowed
      · rw [if_neg isParent] at member
        obtain ⟨f, child, up, later, may⟩ := tree.child before member
        obtain ⟨f', found', type', up', _⟩ := keeps child
        exact ⟨f', found', up'.trans up, later, by rw [sameType, type']; exact may⟩
  case linked =>
    intro j e' k found up
    rcases kept found with ⟨rfl, rfl⟩ | ⟨e, before, _, sameParent, _⟩
    · cases up
      obtain ⟨b', found', _, _, children⟩ := keeps block
      exact ⟨b', found', by rw [children, if_pos rfl]; simp⟩
    · obtain ⟨f, parent, member⟩ := tree.parent before (sameParent ▸ up)
      obtain ⟨f', found', _, _, children⟩ := keeps parent
      refine ⟨f', found', ?_⟩
      rw [children]
      split
      next => exact List.mem_append_left _ member
      next => exact member
  case distinct =>
    intro j e' found
    rcases kept found with ⟨_, rfl⟩ | ⟨e, before, _, _, children⟩
    · exact List.nodup_nil
    · rw [children]
      split
      next =>
        refine List.nodup_append.mpr ⟨tree.distinct before, List.nodup_singleton _, ?_⟩
        rintro c member d new rfl
        rw [List.mem_singleton] at new
        obtain ⟨f, child, _⟩ := tree.child before member
        exact old child new
      next => exact tree.distinct before
  case rooted =>
    obtain ⟨e, found, orphan, document⟩ := tree.rooted
    obtain ⟨e', found', type', up', _⟩ := keeps found
    exact ⟨e', found', up'.trans orphan, type'.trans document⟩
  case orphan =>
    intro j e' found orphan
    rcases kept found with ⟨_, rfl⟩ | ⟨e, before, _, sameParent, _⟩
    · cases orphan
    · exact tree.orphan before (sameParent ▸ orphan)
  case core =>
    intro j e' found
    rcases kept found with ⟨_, rfl⟩ | ⟨e, before, sameType, _⟩
    · exact core
    · rw [sameType]
      exact tree.core before

/-- A paragraph may be turned into a heading. -/
theorem retype (tree : BlockTree links root nextId) {i : NodeId} {b : BlockLinks}
    (block : links i = some b) (paragraph : b.type = .paragraph) :
    BlockTree (retypeBlock i .heading links) root nextId := by
  have leaf : b.children = [] := tree.childless block (by rw [paragraph]; rfl)
  have keeps {j : NodeId} {e : BlockLinks} (before : links j = some e) :
      ∃ e', retypeBlock i .heading links j = some e' ∧ e'.parent = e.parent ∧
        e'.children = e.children ∧ e'.type = if j = i then .heading else e.type := by
    unfold retypeBlock
    rw [before]
    split
    next => exact ⟨_, rfl, rfl, rfl, rfl⟩
    next => exact ⟨_, rfl, rfl, rfl, rfl⟩
  have kept {j : NodeId} {e' : BlockLinks} (found : retypeBlock i .heading links j = some e') :
      ∃ e, links j = some e ∧ e'.parent = e.parent ∧ e'.children = e.children ∧
        e'.type = if j = i then .heading else e.type := by
    cases before : links j with
    | none =>
      rw [retypeBlock, before] at found
      split at found <;> cases found
    | some e =>
      obtain ⟨e'', found', same⟩ := keeps before
      rw [found] at found'
      cases found'
      exact ⟨e, rfl, same⟩
  refine ⟨?bound, ?child, ?linked, ?distinct, ?rooted, ?orphan, ?core⟩
  case bound =>
    intro j e' found
    obtain ⟨e, before, _⟩ := kept found
    exact tree.bound before
  case child =>
    intro j e' c found member
    obtain ⟨e, before, _, children, type⟩ := kept found
    rw [children] at member
    obtain ⟨f, child, up, later, allowed⟩ := tree.child before member
    obtain ⟨f', found', up', _, type'⟩ := keeps child
    refine ⟨f', found', up'.trans up, later, ?_⟩
    have notHeading : j ≠ i := by
      rintro rfl
      rw [before] at block
      cases block
      rw [leaf] at member
      cases member
    rw [type, if_neg notHeading, type']
    split
    next isHeading =>
      subst isHeading
      rw [child] at block
      cases block
      rw [paragraph] at allowed
      exact NodeType.canContainType_heading allowed
    next => exact allowed
  case linked =>
    intro j e' k found up
    obtain ⟨e, before, sameParent, _⟩ := kept found
    obtain ⟨f, above, member⟩ := tree.parent before (sameParent ▸ up)
    obtain ⟨f', found', _, children, _⟩ := keeps above
    exact ⟨f', found', children ▸ member⟩
  case distinct =>
    intro j e' found
    obtain ⟨e, before, _, children, _⟩ := kept found
    rw [children]
    exact tree.distinct before
  case rooted =>
    obtain ⟨e, found, orphan, document⟩ := tree.rooted
    obtain ⟨e', found', up', _, type'⟩ := keeps found
    refine ⟨e', found', up'.trans orphan, type'.trans ?_⟩
    rw [if_neg ?_, document]
    rintro rfl
    rw [found] at block
    cases block
    rw [document] at paragraph
    cases paragraph
  case orphan =>
    intro j e' found orphan
    obtain ⟨e, before, sameParent, _⟩ := kept found
    exact tree.orphan before (sameParent ▸ orphan)
  case core =>
    intro j e' found
    obtain ⟨e, before, _, _, type⟩ := kept found
    rw [type]
    split
    next => rfl
    next => exact tree.core before

end BlockTree

/-! ### What the operations do -/

/-- The two states differ in what is in block `i` at most, and that is as open and of the same
type. -/
structure Alters (i : NodeId) (p p' : ParserState) : Prop where
  links : p'.links = p.links
  others : ∀ j ≠ i, p'.face j = p.face j
  self : ∀ {f}, p.face i = some f → ∃ f', p'.face i = some f' ∧ f'.type = f.type ∧
    f'.isOpen = f.isOpen
  root : p'.root = p.root
  current : p'.current = p.current
  nextId : p'.nextId = p.nextId

namespace Alters

variable {i : NodeId} {p p' p'' : ParserState}

theorem trans (first : Alters i p p') (second : Alters i p' p'') : Alters i p p'' where
  links := second.links.trans first.links
  others j differs := (second.others j differs).trans (first.others j differs)
  self block := by
    obtain ⟨f', face', type', isOpen'⟩ := first.self block
    obtain ⟨f'', face'', type'', isOpen''⟩ := second.self face'
    exact ⟨f'', face'', type''.trans type', isOpen''.trans isOpen'⟩
  root := second.root.trans first.root
  current := second.current.trans first.current
  nextId := second.nextId.trans first.nextId

theorem of_quiet (i : NodeId) (quiet : Quiet p p') : Alters i p p' where
  links := by
    funext j
    rw [ParserState.links, ParserState.links, quiet.shape]
  others j _ := by rw [ParserState.face, ParserState.face, quiet.shape]
  self block := by
    refine ⟨_, ?_, rfl, rfl⟩
    rw [ParserState.face, quiet.shape]
    exact block
  root := quiet.root
  current := quiet.current
  nextId := quiet.nextId

theorem of_assert (i : NodeId) (p : ParserState) (condition : Bool) :
    Alters i p (p.assert condition) :=
  ⟨rfl, fun _ _ => rfl, fun block => ⟨_, block, rfl, rfl⟩, rfl, rfl, rfl⟩

end Alters

section

variable (p : ParserState) (i : NodeId) (f : NodeData → NodeData)

theorem face_eq (j : NodeId) : p.face j =
    (p.nodes j).map fun b => ⟨b.data.type, b.data.isOpen, b.data.content, b.data.as⟩ := by
  rw [ParserState.face, ParserState.shape, Option.map_map]
  rfl

theorem links_eq (j : NodeId) : p.links j =
    (p.nodes j).map fun b => ⟨b.data.type, b.parent, b.children⟩ := by
  rw [ParserState.links, ParserState.shape, Option.map_map]
  rfl

theorem nodes_modifyData (j : NodeId) : (p.modifyData i f).nodes j =
    if j = i then (p.nodes i).map fun b => { b with data := f b.data } else p.nodes j := rfl

theorem face_modifyData (j : NodeId) : (p.modifyData i f).face j =
    if j = i then (p.nodes i).map fun b =>
      ⟨(f b.data).type, (f b.data).isOpen, (f b.data).content, (f b.data).as⟩ else p.face j := by
  rw [face_eq, face_eq, nodes_modifyData]
  by_cases here : j = i
  · rw [if_pos here, if_pos here, Option.map_map]
    rfl
  · rw [if_neg here, if_neg here]

theorem links_modifyData (types : ∀ d, (f d).type = d.type) :
    (p.modifyData i f).links = p.links := by
  funext j
  rw [links_eq, links_eq, nodes_modifyData]
  by_cases here : j = i
  · subst here
    rw [if_pos rfl, Option.map_map]
    congr 1
    funext b
    rw [Function.comp_apply, types]
  · rw [if_neg here]

theorem alters_modifyData (same : ∀ d, (f d).type = d.type ∧ (f d).isOpen = d.isOpen) :
    Alters i p (p.modifyData i f) where
  links := links_modifyData p i f fun d => (same d).1
  others j differs := by rw [face_modifyData, if_neg differs]
  self block := by
    rw [face_eq] at block
    obtain ⟨b, found, rfl⟩ := Option.map_eq_some_iff.mp block
    rw [face_modifyData, if_pos rfl, found]
    exact ⟨_, rfl, (same b.data).1, (same b.data).2⟩
  root := rfl
  current := rfl
  nextId := rfl

end

/-- A block that may be closed once it got `more`: the info line of a fenced code block ends, and
the type of an HTML block is one of the seven. -/
structure BlockFace.Sound (more : Bytes) (f : BlockFace) : Prop where
  fence : f.type = .codeBlock → f.as.getCode.fenced → ∃ c ∈ f.content ++ more, isLineEndChar c
  html : f.type = .htmlBlock → 1 ≤ f.as.getHtmlBlockType ∧ f.as.getHtmlBlockType ≤ 7

theorem BlockFace.Sound.of_type {f : BlockFace} {more : Bytes} (code : f.type ≠ .codeBlock)
    (html : f.type ≠ .htmlBlock) : f.Sound more :=
  ⟨fun is => absurd is code, fun is => absurd is html⟩

/-- Block `i` is closed, or freed if it is a paragraph, and nothing else happens. -/
structure Closes (i : NodeId) (p p' : ParserState) : Prop where
  others : ∀ j ≠ i, p'.face j = p.face j
  closed : ∀ {f}, p'.face i = some f → f.isOpen = false
  links : p'.links = p.links ∨ (p'.links = removeBlock i p.links ∧ p.typeOf i = .paragraph)
  root : p'.root = p.root
  current : p'.current = p.current
  nextId : p'.nextId = p.nextId

theorem data_of_face {p : ParserState} {i : NodeId} {f : BlockFace} (block : p.face i = some f) :
    (p.dataOf i).type = f.type ∧ (p.dataOf i).isOpen = f.isOpen ∧
      (p.dataOf i).content = f.content ∧ (p.dataOf i).as = f.as := by
  rw [face_eq] at block
  obtain ⟨b, found, rfl⟩ := Option.map_eq_some_iff.mp block
  have data : p.dataOf i = b.data := by
    rw [ParserState.dataOf, ParserState.block, found]
    rfl
  rw [data]
  exact ⟨rfl, rfl, rfl, rfl⟩

theorem parent_of_links {p : ParserState} {i : NodeId} {b : BlockLinks} (block : p.links i = some b) :
    p.parentOf i = b.parent ∧ p.childrenOf i = b.children ∧ p.typeOf i = b.type := by
  rw [links_eq] at block
  obtain ⟨e, found, rfl⟩ := Option.map_eq_some_iff.mp block
  have block_eq : p.block i = e := by
    rw [ParserState.block, found]
    rfl
  refine ⟨?_, ?_, ?_⟩
  · rw [ParserState.parentOf, block_eq]
  · rw [ParserState.childrenOf, block_eq]
  · rw [ParserState.typeOf, ParserState.dataOf, block_eq]

theorem nodes_modify (p : ParserState) (i j : NodeId) (f : Block → Block) :
    (p.modify i f).nodes j = if j = i then (p.nodes i).map f else p.nodes j := rfl

theorem typeOf_of_face {p : ParserState} {i : NodeId} {f : BlockFace} (block : p.face i = some f) :
    p.typeOf i = f.type := (data_of_face block).1

/-- Freeing a block unlinks it from the only block that has it as a child. -/
theorem links_freeBlock {p : ParserState} (tree : BlockTree p.links p.root p.nextId) {i : NodeId}
    {b : BlockLinks} (block : p.links i = some b) : (p.freeBlock i).links = removeBlock i p.links := by
  have apart {j : NodeId} (other : b.parent ≠ some j) :
      (p.links j).map (fun e => { e with children := e.children.filter (· != i) }) = p.links j := by
    cases above : p.links j with
    | none => rfl
    | some e =>
      have absent : ∀ c ∈ e.children, (c != i) = true := by
        intro c member
        rw [bne_iff_ne]
        rintro rfl
        obtain ⟨f, child, up, _⟩ := tree.child above member
        rw [block] at child
        cases child
        exact other up
      rw [Option.map_some, List.filter_eq_self.mpr absent]
  funext j
  rw [removeBlock, links_eq]
  unfold ParserState.freeBlock
  rw [(parent_of_links block).1]
  by_cases here : j = i
  · rw [if_pos here]
    simp only [here, if_true]
    rfl
  · rw [if_neg here]
    cases up : b.parent with
    | none =>
      simp only [here, if_false]
      rw [apart (by rw [up]; exact nofun), links_eq]
    | some above =>
      simp only [here, if_false, nodes_modify]
      by_cases isParent : j = above
      · rw [if_pos isParent, links_eq, isParent, Option.map_map, Option.map_map]
        rfl
      · rw [if_neg isParent, apart (by rw [up]; simpa using Ne.symm isParent), links_eq]

theorem face_freeBlock (p : ParserState) (i j : NodeId) :
    (p.freeBlock i).face j = if j = i then none else p.face j := by
  rw [face_eq, face_eq]
  unfold ParserState.freeBlock
  by_cases here : j = i
  · simp [here]
  · cases up : p.parentOf i with
    | none => simp [here]
    | some above =>
      simp only [here, if_false, nodes_modify]
      split
      next isParent =>
        rw [isParent, Option.map_map]
        rfl
      next => rfl

/-! ### Closing a block -/

section

variable {P : Config} {b : NodeId} {p : ParserState}

theorem alters_looseItems (b : NodeId) (items : List NodeId) (p : ParserState) :
    Alters b p (looseItems items p).1 := .of_quiet b (quiet_looseItems p items)

theorem alters_resolveReferenceLinkDefinitions (T : Tables) :
    Alters b p (resolveReferenceLinkDefinitions T b p).1 := by
  unfold resolveReferenceLinkDefinitions
  extract_lets content
  generalize resolveReferences T content.length content p.refmap = r
  obtain ⟨rest, refmap⟩ := r
  have content := alters_modifyData p b (fun d => { d with content := rest }) fun d => ⟨rfl, rfl⟩
  exact ⟨content.links, content.others, content.self, content.root, content.current,
    content.nextId⟩

theorem alters_finalizeCode (T : Tables) : Alters b p (finalizeCode T b p) := by
  unfold finalizeCode
  extract_lets d code line asserted
  split
  next =>
    have read : Alters b p asserted := .of_assert b p _
    exact read.trans (alters_modifyData asserted b _ fun _ => ⟨rfl, rfl⟩)
  next => exact alters_modifyData p b _ fun _ => ⟨rfl, rfl⟩

/-- Closing a block only changes what is in it, or frees it. -/
theorem finalizeContent_alters_or_frees (P : Config) (b : NodeId) (p : ParserState) :
    Alters b p (finalizeContent P b p) ∨
      p.typeOf b = .paragraph ∧ ∃ q, Alters b p q ∧ finalizeContent P b p = q.freeBlock b := by
  unfold finalizeContent
  split
  next paragraph =>
    have resolved : Alters b p (resolveReferenceLinkDefinitions P.tables b p).1 :=
      alters_resolveReferenceLinkDefinitions P.tables
    generalize resolveReferenceLinkDefinitions P.tables b p = r at resolved
    obtain ⟨q, hasContent⟩ := r
    dsimp only
    split
    next => exact .inr ⟨paragraph, q, resolved, rfl⟩
    next => exact .inl resolved
  next => exact .inl (alters_finalizeCode P.tables)
  next => exact .inl (alters_modifyData p b _ fun _ => ⟨rfl, rfl⟩)
  next =>
    have items : Alters b p (looseItems (p.childrenOf b) p).1 := alters_looseItems b _ p
    generalize looseItems (p.childrenOf b) p = r at items
    obtain ⟨q, loose⟩ := r
    exact .inl (items.trans (alters_modifyData q b _ fun _ => ⟨rfl, rfl⟩))
  next => exact .inl (.of_quiet b (.refl p))

/-- The info line of a fenced code block that is closed has an end. -/
theorem asserts_finalizeContent (P : Config) {f : BlockFace} (block : p.face b = some f)
    (sound : f.Sound []) : (finalizeContent P b p).asserts = p.asserts := by
  obtain ⟨type, _, content, as⟩ := data_of_face block
  unfold finalizeContent
  split
  next =>
    unfold resolveReferenceLinkDefinitions ParserState.freeBlock
    extract_lets content
    generalize resolveReferences P.tables content.length content p.refmap = r
    obtain ⟨rest, refmap⟩ := r
    dsimp only
    split
    next => split <;> rfl
    next => rfl
  next isCode =>
    unfold finalizeCode
    extract_lets d code line asserted
    split
    next fenced =>
      obtain ⟨c, member, lineEnd⟩ := sound.fence (type.symm.trans isCode) (by rw [← as]; exact fenced)
      rw [List.append_nil, ← content] at member
      have ends : line.length < d.content.length := by
        refine lt_of_le_of_ne (List.takeWhile_prefix _).length_le fun all => ?_
        have whole : line = d.content := (List.takeWhile_prefix _).eq_of_length all
        have plain := List.mem_takeWhile_imp (whole.symm ▸ member : c ∈ line)
        rw [lineEnd] at plain
        cases plain
      show (p.asserts && decide (line.length < d.content.length)) = p.asserts
      rw [decide_eq_true ends, Bool.and_true]
    next => rfl
  next => rfl
  next =>
    have items := (quiet_looseItems p (p.childrenOf b)).asserts
    generalize looseItems (p.childrenOf b) p = r at items
    obtain ⟨q, loose⟩ := r
    exact items
  next => rfl

/-- The block as it is before its content is looked at. -/
def shutBlock (b : NodeId) (p : ParserState) : ParserState :=
  setEnd b ((p.assert (p.isOpen b)).modifyData b fun d => { d with isOpen := false })

theorem finalize_eq (P : Config) (b : NodeId) (p : ParserState) :
    finalize P b p = (finalizeContent P b (shutBlock b p), p.parentOf b) := rfl

theorem face_shutBlock (b j : NodeId) (p : ParserState) : (shutBlock b p).face j =
    if j = b then (p.face b).map fun f => { f with isOpen := false } else p.face j := by
  rw [ParserState.face, shutBlock, (quiet_setEnd _ b).shape, ← ParserState.face, face_modifyData,
    face_eq p b, Option.map_map]
  rfl

theorem links_shutBlock (b : NodeId) (p : ParserState) : (shutBlock b p).links = p.links := by
  have ended : (shutBlock b p).links =
      ((p.assert (p.isOpen b)).modifyData b fun d => { d with isOpen := false }).links := by
    funext j
    rw [ParserState.links, shutBlock, (quiet_setEnd _ b).shape]
    rfl
  refine ended.trans ?_
  exact links_modifyData (p.assert (p.isOpen b)) b (fun d => { d with isOpen := false }) fun _ => rfl

theorem root_shutBlock (b : NodeId) (p : ParserState) : (shutBlock b p).root = p.root :=
  (quiet_setEnd _ b).root

theorem current_shutBlock (b : NodeId) (p : ParserState) : (shutBlock b p).current = p.current :=
  (quiet_setEnd _ b).current

theorem nextId_shutBlock (b : NodeId) (p : ParserState) : (shutBlock b p).nextId = p.nextId :=
  (quiet_setEnd _ b).nextId

/-- The assertion of `finalize` holds for an open block. -/
theorem asserts_shutBlock (b : NodeId) (p : ParserState) :
    (shutBlock b p).asserts = (p.asserts && p.isOpen b) := (quiet_setEnd _ b).asserts

theorem closes_finalize (P : Config) (tree : BlockTree p.links p.root p.nextId) {f : BlockFace}
    (block : p.face b = some f) : Closes b p (finalize P b p).1 := by
  rw [finalize_eq]
  have shut : (shutBlock b p).face b = some { f with isOpen := false } := by
    rw [face_shutBlock, if_pos rfl, block]
    rfl
  have others {q : ParserState} (alters : Alters b (shutBlock b p) q) :
      ∀ j ≠ b, q.face j = p.face j := by
    intro j differs
    rw [alters.others j differs, face_shutBlock, if_neg differs]
  rcases finalizeContent_alters_or_frees P b (shutBlock b p) with alters | ⟨paragraph, q, alters, freed⟩
  · refine ⟨others alters, ?_, .inl (alters.links.trans (links_shutBlock b p)),
      alters.root.trans (root_shutBlock b p), alters.current.trans (current_shutBlock b p),
      alters.nextId.trans (nextId_shutBlock b p)⟩
    intro f' found
    obtain ⟨f'', face, _, isOpen⟩ := alters.self shut
    rw [face] at found
    cases found
    exact isOpen
  · rw [freed]
    have links : q.links = p.links := alters.links.trans (links_shutBlock b p)
    have root : q.root = p.root := alters.root.trans (root_shutBlock b p)
    have nextId : q.nextId = p.nextId := alters.nextId.trans (nextId_shutBlock b p)
    have current : q.current = p.current := alters.current.trans (current_shutBlock b p)
    have isParagraph : p.typeOf b = .paragraph := by
      rw [typeOf_of_face block, ← paragraph, typeOf_of_face shut]
    obtain ⟨l, linked⟩ : ∃ l, p.links b = some l := by
      rw [face_eq] at block
      obtain ⟨e, found, _⟩ := Option.map_eq_some_iff.mp block
      exact ⟨_, by rw [links_eq, found]; rfl⟩
    have freedLinks : (q.freeBlock b).links = removeBlock b p.links := by
      rw [links_freeBlock (by rw [links, root, nextId]; exact tree) (links ▸ linked), links]
    refine ⟨?_, ?_, .inr ⟨freedLinks, isParagraph⟩, ?_, ?_, ?_⟩
    · intro j differs
      rw [face_freeBlock, if_neg differs, others alters j differs]
    · intro f' found
      rw [face_freeBlock, if_pos rfl] at found
      cases found
    · unfold ParserState.freeBlock
      split <;> exact root
    · unfold ParserState.freeBlock
      split <;> exact current
    · unfold ParserState.freeBlock
      split <;> exact nextId

theorem asserts_finalize (P : Config) {f : BlockFace} (block : p.face b = some f)
    (isOpen : f.isOpen) (sound : f.Sound []) : (finalize P b p).1.asserts = p.asserts := by
  have shut : (shutBlock b p).face b = some { f with isOpen := false } := by
    rw [face_shutBlock, if_pos rfl, block]
    rfl
  rw [finalize_eq]
  refine (asserts_finalizeContent P shut ⟨sound.fence, sound.html⟩).trans ?_
  rw [asserts_shutBlock, ParserState.isOpen, (data_of_face block).2.1, isOpen, Bool.and_true]

end

/-! ### Adding a block -/

section

variable (p : ParserState) (parent : NodeId) (data : NodeData)

theorem nodes_appendBlock (j : NodeId) : (p.appendBlock parent data).1.nodes j =
    if j = p.nextId then some ⟨data, some parent, []⟩
    else if j = parent then
      (p.nodes parent).map fun b => { b with children := b.children ++ [p.nextId] }
    else p.nodes j := rfl

theorem links_appendBlock :
    (p.appendBlock parent data).1.links = linkBlock p.nextId parent data.type p.links := by
  funext j
  rw [links_eq, nodes_appendBlock, linkBlock]
  by_cases new : j = p.nextId
  · rw [if_pos new, if_pos new]
    rfl
  · rw [if_neg new, if_neg new]
    by_cases isParent : j = parent
    · rw [if_pos isParent, if_pos isParent, isParent, links_eq, Option.map_map, Option.map_map]
      rfl
    · rw [if_neg isParent, if_neg isParent, links_eq]

theorem face_appendBlock (j : NodeId) : (p.appendBlock parent data).1.face j =
    if j = p.nextId then some ⟨data.type, data.isOpen, data.content, data.as⟩ else p.face j := by
  rw [face_eq, nodes_appendBlock, face_eq]
  by_cases new : j = p.nextId
  · rw [if_pos new, if_pos new]
    rfl
  · rw [if_neg new, if_neg new]
    split
    next isParent =>
      rw [isParent, Option.map_map]
      rfl
    next => rfl

end

end CmarkGfm
