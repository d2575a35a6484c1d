import CmarkGfm.Node.Own
import CmarkGfm.Properties.Addresses

/-!
# Chunks that a tree owns

`cmark_node_own` copies the chunks of four kinds of literals, of links and of custom inlines. The parser leaves the
other chunks with their nodes, but for one: the attributes in parentheses behind `^[...]` stay a slice of the content.
-/

namespace CmarkGfm

/-- The bytes at which a chunk points when the memory that is not its own has been freed and holds others. -/
def Chunk.reused (garbage : Nat → UInt8) (c : Chunk) : Bytes :=
  if c.alloc then c.data else (List.range c.data.length).map garbage

/-- The chunk is allocated, or there is nothing to allocate. -/
def Chunk.Settled (c : Chunk) : Prop := c.alloc = true ∨ c.data = []

instance (c : Chunk) : Decidable c.Settled := inferInstanceAs (Decidable (_ ∨ _))

theorem Chunk.settled_cleanUrl (T : Tables) (url : Chunk) : (cleanUrl T url).Settled := by
  unfold cleanUrl
  split
  next => exact .inr rfl
  next => exact .inl rfl

theorem Chunk.settled_cleanTitle (T : Tables) (title : Chunk) : (cleanTitle T title).Settled := by
  unfold cleanTitle
  split
  next => exact .inr rfl
  next => exact .inl rfl

@[simp] theorem Chunk.data_cleanUrl (T : Tables) (url : Chunk) :
    (cleanUrl T url).data = CmarkGfm.cleanUrl T url.data := by
  unfold cleanUrl
  split
  next empty => simp [literal, CmarkGfm.cleanUrl, empty]
  next => rfl

@[simp] theorem Chunk.data_cleanTitle (T : Tables) (title : Chunk) :
    (cleanTitle T title).data = CmarkGfm.cleanTitle T title.data := by
  unfold cleanTitle
  split
  next empty => simp [literal, CmarkGfm.cleanTitle, empty]
  next => rfl

theorem Chunk.settled_iff (c : Chunk) : c.Settled ↔ ∀ garbage, c.reused garbage = c.data := by
  constructor
  · rintro (own | empty) garbage
    · rw [reused, if_pos own]
    · simp [reused, empty]
  · intro valid
    by_cases own : c.alloc = true
    · exact .inl own
    · right
      cases data : c.data with
      | nil => rfl
      | cons b rest =>
        -- the first byte may have changed
        have lost := valid fun _ => b + 1
        rw [reused, if_neg own, data, List.length_cons, List.range_succ_eq_map] at lost
        have same : b + 1 = b := (List.cons.inj lost).1
        exact absurd same (by simp)

/-- What `cmark_node_own` is for: every chunk of the tree is settled, with the contents of its node, and stays as it
is when any other memory is freed. -/
def OwnsChunks (root : Node) (chunks : Chunks) : Prop :=
  ∀ n ∈ root.postorder, ∀ field ∈ n.type.chunkFields, (chunks n.id field).Settled ∧
    (chunks n.id field).data = n.data.as.chunkData field ∧
    ∀ garbage, (chunks n.id field).reused garbage = n.data.as.chunkData field

/-! ### The walk -/

/-- The chunks that `cmark_node_own` copies. -/
def NodeType.ownedFields : NodeType → List ChunkField
  | .text | .htmlInline | .code | .htmlBlock => [.literal]
  | .link => [.url, .title]
  | .customInline => [.onEnter, .onExit]
  | _ => []

section

variable {chunks : Chunks} {i j : NodeId} {field field' : ChunkField}

@[simp] theorem Chunk.data_toCstr (c : Chunk) : c.toCstr.data = c.data := by
  unfold toCstr
  split <;> rfl

@[simp] theorem Chunk.alloc_toCstr (c : Chunk) : c.toCstr.alloc = true := by
  unfold toCstr
  split
  · assumption
  · rfl

@[simp] theorem Chunks.data_toCstr : (chunks.toCstr i field j field').data = (chunks j field').data := by
  unfold toCstr
  split <;> simp

theorem Chunks.alloc_toCstr : (chunks.toCstr i field j field').alloc = true ↔
    (chunks j field').alloc = true ∨ j = i ∧ field' = field := by
  unfold toCstr
  split
  next here => simp [here]
  next other => simp [other]

theorem data_ownNode (cur : Node) : (ownNode cur chunks j field').data = (chunks j field').data := by
  unfold ownNode
  cases cur.type <;> simp

theorem alloc_ownNode (cur : Node) : (ownNode cur chunks j field').alloc = true ↔
    (chunks j field').alloc = true ∨ j = cur.id ∧ field' ∈ cur.type.ownedFields := by
  unfold ownNode NodeType.ownedFields
  cases cur.type <;> simp [Chunks.alloc_toCstr, or_assoc, and_or_left]

theorem data_foldl_ownNode (events : List Visit) :
    ((events.foldl (fun chunks ev => if ev.entering then ownNode ev.node chunks else chunks) chunks) j field').data =
      (chunks j field').data := by
  induction events generalizing chunks with
  | nil => rfl
  | cons ev events ih =>
    rw [List.foldl_cons, ih]
    split
    · exact data_ownNode ev.node
    · rfl

theorem alloc_foldl_ownNode (events : List Visit) :
    ((events.foldl (fun chunks ev => if ev.entering then ownNode ev.node chunks else chunks) chunks) j field').alloc = true ↔
      (chunks j field').alloc = true ∨
        ∃ ev ∈ events, ev.entering = true ∧ j = ev.node.id ∧ field' ∈ ev.node.type.ownedFields := by
  induction events generalizing chunks with
  | nil => simp
  | cons ev events ih =>
    rw [List.foldl_cons, ih]
    by_cases entering : ev.entering = true
    · rw [if_pos entering, alloc_ownNode]
      simp [entering, or_assoc]
    · rw [if_neg entering]
      simp [entering]

/-- A node that the iterator takes for a leaf has no children. -/
def LeafChildless (_ : NodeId) (d : NodeData) (children : Forest) : Prop := d.type.isLeaf = true → children = []

mutual

/-- The nodes that are entered are those of the tree. -/
theorem entered_visits (n : Node) (place : Place) : (root : Node) → root.All LeafChildless →
    ((∃ ev ∈ root.visits place, ev.entering = true ∧ ev.node = n) ↔ n ∈ root.postorder)
  | .mk i d children, all => by
    rw [Node.visits]
    by_cases leaf : d.type.isLeaf = true
    · obtain rfl := all.1 leaf
      rw [if_pos leaf, Node.postorder, postorderList, List.nil_append, List.mem_singleton]
      constructor
      · rintro ⟨ev, member, _, rfl⟩
        rw [List.mem_singleton.mp member]
      · rintro rfl
        exact ⟨_, List.mem_singleton_self _, rfl, rfl⟩
    · have below := entered_visitsFrom n place d [] children all.2
      rw [if_neg leaf]
      simp only [List.mem_cons, List.mem_append, List.not_mem_nil, or_false, or_and_right, exists_or, exists_eq_left,
        Bool.false_eq_true, false_and, below, true_and, Node.postorder]
      rw [or_comm, eq_comm]

theorem entered_visitsFrom (n : Node) (place : Place) (d : NodeData) (before : Forest) : (f : Forest) →
    AllList LeafChildless f →
    ((∃ ev ∈ visitsFrom place d before f, ev.entering = true ∧ ev.node = n) ↔ n ∈ postorderList f)
  | [], _ => by simp [visitsFrom, postorderList]
  | m :: after, all => by
    have here := entered_visits n (place.below d before after) m all.1
    have behind := entered_visitsFrom n place d (m :: before) after all.2
    rw [visitsFrom, postorderList, List.mem_append, ← here, ← behind]
    simp only [List.mem_append, or_and_right, exists_or]

end

end

/-- A chunk is allocated afterwards if it was before or is one of those that are copied. -/
theorem alloc_nodeOwn {root : Node} (all : root.All LeafChildless) (chunks : Chunks) (j : NodeId) (field : ChunkField) :
    (nodeOwn root chunks j field).alloc = true ↔
      (chunks j field).alloc = true ∨ ∃ n ∈ root.postorder, j = n.id ∧ field ∈ n.type.ownedFields := by
  rw [nodeOwn, alloc_foldl_ownNode]
  apply or_congr_right
  constructor
  · rintro ⟨ev, member, entering, here⟩
    exact ⟨ev.node, (entered_visits ev.node {} root all).mp ⟨ev, member, entering, rfl⟩, here⟩
  · rintro ⟨n, member, here⟩
    obtain ⟨ev, visited, entering, rfl⟩ := (entered_visits n {} root all).mpr member
    exact ⟨ev, visited, entering, here⟩

theorem data_nodeOwn (root : Node) (chunks : Chunks) (j : NodeId) (field : ChunkField) :
    (nodeOwn root chunks j field).data = (chunks j field).data := data_foldl_ownNode _

/-! ### The nodes that brackets make -/

/-- A condition on the data of images and of nodes for attributes. -/
structure OfBrackets (q : NodeId → NodeData → Forest → Prop) : Prop where
  other : ∀ {i d cs}, d.type ≠ .image → d.type ≠ .attribute → q i d cs
  children : ∀ {i d cs} (cs' : Forest), q i d cs → q i d cs'
  counts : ∀ {i d cs} (n : Nat), q i d cs → q i { d with refIx := n } cs

section

variable {q : NodeId → NodeData → Forest → Prop} (brackets : OfBrackets q)

include brackets

theorem OfBrackets.regraftable : Regraftable q := fun _ _ _ cs' holds _ => brackets.children cs' holds

theorem OfBrackets.stable : Stable q where
  children holds _ _ := brackets.children _ holds
  text type := brackets.other (by simp [type]) (by simp [type])
  counts n holds := brackets.counts n holds
  reference _ _ type := brackets.other (by simp [type]) (by simp [type])

/-- A document meets the condition if the inlines do where they are parsed. -/
theorem OfBrackets.documentOf {P : Config} (core : P.syntaxExtensions = []) (callback : Option (UInt8 → Bool))
    (input : List Bytes)
    (inlines : ∀ subj ∈ blockSubjects P (manageExtensionsSpecialCharacters P true (flushedParser P callback input).chars)
      (finalizedDocument (flushedParser P callback input)).1 (finalizedDocument (flushedParser P callback input)).2,
      subj.children = [] →
        AllList q (parseInlines P (manageExtensionsSpecialCharacters P true (flushedParser P callback input).chars)
          subj).children) : (documentOf P callback input).All q := by
  have nodes : (parsedDocument P callback input).2.All q := by
    refine parsedDocument_all core callback input (fun {i d cs} isBlock => ?_) inlines
    apply brackets.other
    · intro image
      rw [image] at isBlock
      cases isBlock
    · intro isAttribute
      rw [isAttribute] at isBlock
      cases isBlock
  have isCore := (coreNode_parsedDocument core callback input).1
  have both : (parsedDocument P callback input).2.All fun i d cs => CoreNode i d cs ∧ q i d cs :=
    all_of_postorder _ fun m member => ⟨(Node.All.of_mem _ isCore member).here, (Node.All.of_mem _ nodes member).here⟩
  have all := documentOf_all core (stable_coreNode.and brackets.stable) (fun both => coreNode_text both.1)
    (fun used both document notes => ⟨coreNode_notes used both.1 document notes, brackets.children _ both.2⟩) both
  exact Node.All.imp And.right _ all.1

end

/-- The image holds the bytes of the chunks that were made for it in this state, unless a text was written to it. -/
def HoldsLink (T : Tables) (subj : Subject) (as : NodeAs) : Prop :=
  ∃ url title, madeChunks T subj = some (.link url title) ∧ (as = .link url.data title.data ∨ ∃ s, as = .literal s)

/-- The same for a node for attributes. -/
def HoldsAttributes (T : Tables) (subj : Subject) (as : NodeAs) : Prop :=
  ∃ attributes, madeChunks T subj = some (.attribute attributes) ∧ (as = .attribute attributes.data ∨ ∃ s, as = .literal s)

/-- An image or a node for attributes was made in one of these states. -/
structure MadeIn (T : Tables) (states : List Subject) (i : NodeId) (d : NodeData) (_ : Forest) : Prop where
  image : d.type = .image → ∃ subj ∈ states, subj.nextId = i ∧ HoldsLink T subj d.as
  attributes : d.type = .attribute → ∃ subj ∈ states, subj.nextId = i ∧ HoldsAttributes T subj d.as

theorem MadeIn.of_other {T : Tables} {states : List Subject} {i : NodeId} {d : NodeData} {cs : Forest}
    (notImage : d.type ≠ .image) (notAttribute : d.type ≠ .attribute) : MadeIn T states i d cs :=
  ⟨fun image => absurd image notImage, fun isAttribute => absurd isAttribute notAttribute⟩

theorem ofBrackets_madeIn (T : Tables) (states : List Subject) : OfBrackets (MadeIn T states) where
  other := MadeIn.of_other
  children _ made := ⟨made.image, made.attributes⟩
  counts _ made := ⟨made.image, made.attributes⟩

theorem regraftable_madeIn (T : Tables) (states : List Subject) : Regraftable (MadeIn T states) :=
  (ofBrackets_madeIn T states).regraftable

/-- A text may be written to any node. -/
theorem MadeIn.setText {T : Tables} {states : List Subject} {i : NodeId} {d : NodeData} {cs : Forest} (s : Bytes)
    (p : Option Nat) (made : MadeIn T states i d cs) : MadeIn T states i { d with as := .literal s, chunkPos := p } cs where
  image isImage := by
    obtain ⟨subj, among, here, url, title, found, _⟩ := made.image isImage
    exact ⟨subj, among, here, url, title, found, .inr ⟨s, rfl⟩⟩
  attributes isAttribute := by
    obtain ⟨subj, among, here, attributes, found, _⟩ := made.attributes isAttribute
    exact ⟨subj, among, here, attributes, found, .inr ⟨s, rfl⟩⟩

/-- The images and nodes for attributes so far were made in these states. -/
def AllMade (T : Tables) (states : List Subject) (subj : Subject) : Prop := AllList (MadeIn T states) subj.children

section

variable {P : Config} {states : List Subject}

theorem inlineRule_allMade : InlineRule P (AllMade P.tables states) where
  stack _ all := all
  setText i s all := AllList.setText (regraftable_madeIn _ _) MadeIn.setText all i s
  insert below opener closer later all := by
    refine AllList.insertEmph (regraftable_madeIn _ _) MadeIn.setText ?_ all below opener closer later
    intro d cs type
    apply MadeIn.of_other
    · rcases type with type | type <;> rw [type] <;> decide
    · rcases type with type | type <;> rw [type] <;> decide
  plain all makes children := by
    refine allList_append.mpr ⟨children ▸ all, Node.All.imp (fun plain => ?_) _ makes.2, trivial⟩
    apply MadeIn.of_other
    · intro image
      rw [image] at plain
      cases plain
    · intro isAttribute
      rw [isAttribute] at plain
      cases plain

variable (core : P.syntaxExtensions = []) {subj : Subject}

theorem AllMade.literalCloseBracket (all : AllMade P.tables states subj) :
    AllMade P.tables states (appended (literalCloseBracket subj)) :=
  inlineRule_allMade.plain all (makes_alloc subj rfl).plain rfl

include core

theorem AllMade.matchLink (all : AllMade P.tables states subj) (opener : Bracket) (url title : Bytes)
    (made : ∃ s ∈ states, s.nextId = subj.nextId ∧ HoldsLink P.tables s (.link url title)) :
    AllMade P.tables states (matchLink P subj opener url title) := by
  unfold CmarkGfm.matchLink
  extract_lets isImage openerInl
  dsimp only [Subject.alloc]
  refine inlineRule_allMade.toEmphasisRule.processEmphasis (inlineSyntaxExtensions_core core) ?_ opener.position
  refine AllList.replaceOpener (regraftable_madeIn _ _) (fun cs => ⟨fun _ => made, fun isAttribute => ?_⟩) all
    opener.inlText _ _
  dsimp only at isAttribute
  split at isAttribute <;> cases isAttribute

theorem AllMade.matchAttribute (all : AllMade P.tables states subj) (opener : Bracket) (attributes : Bytes)
    (made : ∃ s ∈ states, s.nextId = subj.nextId ∧ HoldsAttributes P.tables s (.attribute attributes)) :
    AllMade P.tables states (matchAttribute P subj opener attributes) := by
  unfold CmarkGfm.matchAttribute
  dsimp only [Subject.alloc]
  refine inlineRule_allMade.toEmphasisRule.processEmphasis (inlineSyntaxExtensions_core core) ?_ opener.position
  refine AllList.replaceOpener (regraftable_madeIn _ _) (fun cs => ⟨fun image => ?_, fun _ => made⟩) all opener.inlText _ _
  cases image

theorem AllMade.makeFootnoteReference (all : AllMade P.tables states subj) (opener : Bracket) (next : Node) :
    AllMade P.tables states (makeFootnoteReference P subj opener next) := by
  unfold CmarkGfm.makeFootnoteReference
  dsimp -zeta only [Subject.alloc]
  extract_lets startColumn endColumn accepted insert inserted emphasized
  have inserts : AllMade P.tables states inserted := by
    refine AllList.insertBefore (regraftable_madeIn _ _) ?_ all opener.inlText accepted
    refine ⟨.of_other (fun image => ?_) fun isAttribute => ?_, trivial⟩
    · cases image
    · cases isAttribute
  have emphasizes : AllMade P.tables states emphasized :=
    inlineRule_allMade.toEmphasisRule.processEmphasis (inlineSyntaxExtensions_core core) inserts opener.position
  exact AllList.editSiblings (regraftable_madeIn _ _) (fun siblings => allList_siblingsBefore siblings) emphasizes

theorem AllMade.noMatch (all : AllMade P.tables states subj) (opener : Bracket) (initialPos : Nat) :
    AllMade P.tables states (appended (noMatch P subj opener initialPos)) := by
  have rewound : AllMade P.tables states { subj with pos := initialPos } := all
  unfold CmarkGfm.noMatch
  dsimp only
  split
  next next _ => exact rewound.makeFootnoteReference core opener next
  next =>
    have popped : AllMade P.tables states (popBracket { subj with pos := initialPos }) := all
    exact popped.literalCloseBracket

omit core in
/-- The attributes found behind a label, or else those found before. -/
theorem referenceAttributes_eq (T : Tables) (subj : Subject) (attributes : Option Bytes) :
    referenceAttributes T subj attributes =
      ((referenceAttributes T subj none).1, (referenceAttributes T subj none).2 <|> attributes) := by
  unfold referenceAttributes
  cases linkLabel subj.input subj.pos false with
  | none => rfl
  | some label =>
    obtain ⟨pos, rawLabel⟩ := label
    dsimp only
    rcases lookupReference T { subj with pos := pos } rawLabel with ⟨subj', _ | ref⟩
    · rfl
    · dsimp only
      split <;> rfl

omit core in
/-- A lookup leaves the nodes alone. -/
theorem frame_referenceAttributes (T : Tables) (subj : Subject) (attributes : Option Bytes) :
    (referenceAttributes T subj attributes).1.children = subj.children ∧
      (referenceAttributes T subj attributes).1.nextId = subj.nextId := by
  unfold referenceAttributes
  cases linkLabel subj.input subj.pos false with
  | none => exact ⟨rfl, rfl⟩
  | some label =>
    obtain ⟨pos, rawLabel⟩ := label
    have same : (lookupReference T { subj with pos := pos } rawLabel).1.children = subj.children ∧
        (lookupReference T { subj with pos := pos } rawLabel).1.nextId = subj.nextId := ⟨rfl, rfl⟩
    dsimp only
    generalize lookupReference T { subj with pos := pos } rawLabel = r at same ⊢
    obtain ⟨subj', _ | ref⟩ := r
    · exact same
    · dsimp only at same ⊢
      split
      next => exact same
      next => exact same

omit core in
/-- The node gets the bytes of the chunk. -/
theorem data_attributesChunk (T : Tables) (subj : Subject) : (attributesChunk T subj).map Chunk.data =
    (referenceAttributes T { subj with pos := attributesEnd subj }
      ((scanInlineAttributes subj.input subj.pos).map (·.2))).2 := by
  have defined : definedAttributes T subj = (referenceAttributes T { subj with pos := attributesEnd subj } none).2 := rfl
  rw [referenceAttributes_eq, ← defined, attributesChunk]
  cases definedAttributes T subj with
  | some attributes => rfl
  | none =>
    cases scanInlineAttributes subj.input subj.pos with
    | none => rfl
    | some scanned =>
      obtain ⟨pos, _ | ⟨b, attributes⟩⟩ := scanned
      · rfl
      · rfl

theorem AllMade.handleCloseBracketAttribute (all : AllMade P.tables states subj) (opener : Bracket)
    (made : ∀ attributes, attributesChunk P.tables subj = some attributes →
      ∃ s ∈ states, s.nextId = subj.nextId ∧ HoldsAttributes P.tables s (.attribute attributes.data)) :
    AllMade P.tables states (appended (handleCloseBracketAttribute P subj opener)) := by
  have data := data_attributesChunk P.tables subj
  have frame := frame_referenceAttributes P.tables { subj with pos := attributesEnd subj }
    ((scanInlineAttributes subj.input subj.pos).map (·.2))
  rw [handleCloseBracketAttribute_eq]
  generalize referenceAttributes P.tables { subj with pos := attributesEnd subj } _ = r at data frame
  obtain ⟨subj', found⟩ := r
  obtain ⟨children, nextId⟩ := frame
  have all' : AllMade P.tables states subj' := by
    unfold AllMade
    rw [children]
    exact all
  cases found with
  | none =>
    have popped : AllMade P.tables states (popBracket subj') := all'
    exact popped.literalCloseBracket
  | some found =>
    obtain ⟨chunk, isChunk, rfl⟩ := Option.map_eq_some_iff.mp data
    exact all'.matchAttribute core opener chunk.data (nextId ▸ made chunk isChunk)

/-- Both look for the same label. -/
theorem AllMade.closeReference (all : AllMade P.tables states subj) (opener : Bracket)
    (made : ∀ ref, closingReference P.tables subj opener = some ref →
      ∃ s ∈ states, s.nextId = subj.nextId ∧ HoldsLink P.tables s (.link ref.url ref.title)) :
    AllMade P.tables states (appended (closeReference P subj opener subj.pos)) := by
  unfold CmarkGfm.closeReference
  unfold closingReference at made
  generalize referenceLabel subj opener subj.pos = r at made ⊢
  obtain ⟨pos, label⟩ := r
  dsimp only at made ⊢
  cases label with
  | none =>
    have passed : AllMade P.tables states { subj with pos := pos } := all
    exact passed.noMatch core opener subj.pos
  | some label =>
    dsimp only at made ⊢
    have looked : AllMade P.tables states (lookupReference P.tables { subj with pos := pos } label).1 := all
    have same : (lookupReference P.tables { subj with pos := pos } label).1.nextId = subj.nextId := rfl
    generalize lookupReference P.tables { subj with pos := pos } label = r at made looked same ⊢
    obtain ⟨subj', found⟩ := r
    cases found with
    | none => exact looked.noMatch core opener subj.pos
    | some ref =>
      dsimp only at made same ⊢
      split
      next => exact looked.noMatch core opener subj.pos
      next isLink =>
        rw [if_neg isLink] at made
        have cloned : AllMade P.tables states
            { subj' with clones := .link (ref.url.length + ref.title.length) :: subj'.clones } := looked
        exact cloned.matchLink core opener ref.url ref.title (same ▸ made ref rfl)

omit core in
/-- The node gets the bytes of the chunks. -/
theorem data_inlineLinkChunks (T : Tables) (input : Bytes) (pos : Nat) :
    (inlineLinkChunks T input pos).map (fun chunks => ((chunks.get .url).data, (chunks.get .title).data)) =
      (scanInlineLink T input pos).map fun scanned => (scanned.2.1, scanned.2.2) := by
  unfold inlineLinkChunks scanInlineLink
  split
  next =>
    dsimp only
    cases manualScanLinkUrl input (pos + 1 + Scanners.scanAt Scanners.spacechars input (pos + 1)) with
    | none => rfl
    | some scanned =>
      dsimp only
      rw [apply_ite (Option.map _), apply_ite (Option.map _)]
      simp [InlineChunks.get, Chunk.dup]
  next => rfl

omit core in
theorem inlineLinkChunks_eq_link {T : Tables} {input : Bytes} {pos : Nat} {chunks : InlineChunks}
    (found : inlineLinkChunks T input pos = some chunks) : ∃ url title, chunks = .link url title ∧ url.Settled ∧ title.Settled := by
  unfold inlineLinkChunks at found
  rw [Option.ite_none_right_eq_some] at found
  obtain ⟨_, found⟩ := found
  dsimp only at found
  cases scanned : manualScanLinkUrl input (pos + 1 + Scanners.scanAt Scanners.spacechars input (pos + 1)) with
  | none =>
    rw [scanned] at found
    cases found
  | some r =>
    rw [scanned] at found
    dsimp only at found
    rw [Option.ite_none_right_eq_some] at found
    obtain ⟨_, found⟩ := found
    cases found
    exact ⟨_, _, rfl, Chunk.settled_cleanUrl T _, Chunk.settled_cleanTitle T _⟩

theorem AllMade.handleCloseBracket (member : subj ∈ states) (all : AllMade P.tables states subj)
    (closes : subj.peekChar = chr ']') : AllMade P.tables states (appended (handleCloseBracket P subj)) := by
  have made : madeChunks P.tables subj = closeBracketChunks P.tables (subj.advance 1) := by
    rw [madeChunks, closes]
    rfl
  have advanced : AllMade P.tables states (subj.advance 1) := all
  have popped : AllMade P.tables states (popBracket (subj.advance 1)) := all
  unfold closeBracketChunks at made
  unfold CmarkGfm.handleCloseBracket
  extract_lets after
  split
  next => exact advanced.literalCloseBracket
  next opener _ stack =>
    rw [show (subj.advance 1).brackets = _ from stack] at made
    dsimp only at made
    split
    next isAttribute =>
      rw [if_pos isAttribute] at made
      refine advanced.handleCloseBracketAttribute core opener fun attributes found => ?_
      exact ⟨subj, member, rfl, attributes, by rw [made, found]; rfl, .inl rfl⟩
    next notAttribute =>
      rw [if_neg notAttribute] at made
      split
      next => exact popped.literalCloseBracket
      next mayLink =>
        rw [if_neg mayLink] at made
        have sameLink := data_inlineLinkChunks P.tables (subj.advance 1).input (subj.advance 1).pos
        split
        next pos url title scanned =>
          rw [show scanInlineLink P.tables (subj.advance 1).input (subj.advance 1).pos = _ from scanned] at sameLink
          obtain ⟨chunks, isLink, same⟩ := Option.map_eq_some_iff.mp sameLink
          obtain ⟨urlChunk, titleChunk, rfl, _⟩ := inlineLinkChunks_eq_link isLink
          obtain ⟨rfl, rfl⟩ := Prod.mk.inj same
          rw [isLink] at made
          have passed : AllMade P.tables states { after with pos := pos } := advanced
          exact passed.matchLink core opener _ _ ⟨subj, member, rfl, urlChunk, titleChunk, made, .inl rfl⟩
        next scanned =>
          rw [show scanInlineLink P.tables (subj.advance 1).input (subj.advance 1).pos = _ from scanned] at sameLink
          have none : inlineLinkChunks P.tables (subj.advance 1).input (subj.advance 1).pos = none := by
            simpa using sameLink
          rw [none] at made
          refine advanced.closeReference core opener fun ref found => ?_
          exact ⟨subj, member, rfl, .clone ref.url, .clone ref.title, by rw [made, found]; rfl, .inl rfl⟩

end

/-! ### What the parser leaves -/

/-- The images and nodes for attributes of a document are made while the parser finishes. -/
theorem madeIn_documentOf {P : Config} (core : P.syntaxExtensions = []) (callback : Option (UInt8 → Bool))
    (input : List Bytes) :
    (documentOf P callback input).All (MadeIn P.tables (finishStates (flushedParser P callback input))) := by
  have config : (flushedParser P callback input).config = P := flushedConfig_eq P callback input
  refine (ofBrackets_madeIn _ _).documentOf core callback input fun subj among none => ?_
  have start : AllMade P.tables (finishStates (flushedParser P callback input)) subj := by
    unfold AllMade
    rw [none]
    trivial
  refine inlineRule_allMade.parseInlines (inlineSyntaxExtensions_core core) _ start id fun s member all closes => ?_
  refine all.handleCloseBracket core ?_ closes
  unfold finishStates
  rw [config]
  exact List.mem_flatMap.mpr ⟨subj, among, member⟩

/-- The chunks of a parsed document. -/
structure ParsedChunks (P : Config) (callback : Option (UInt8 → Bool)) (input : List Bytes) (chunks : Chunks) : Prop where
  data : ∀ n ∈ (documentOf P callback input).postorder, ∀ field ∈ n.type.chunkFields,
    (chunks n.id field).data = n.data.as.chunkData field
  /-- `open_new_blocks` and `finalize` -/
  codeBlock : ∀ n ∈ (documentOf P callback input).postorder, n.type = .codeBlock →
    (chunks n.id .info = .literal [] ∨ ∃ tmp, chunks n.id .info = .bufDetach tmp) ∧
      ∃ content, chunks n.id .codeLiteral = .bufDetach content
  /-- `open_new_blocks` -/
  footnoteDefinition : ∀ n ∈ (documentOf P callback input).postorder, n.type = .footnoteDefinition →
    ∃ c : Chunk, chunks n.id .literal = c.toCstr
  /-- `process_footnotes` -/
  footnoteReference : ∀ n ∈ (documentOf P callback input).postorder, n.type = .footnoteReference →
    ∃ buf, chunks n.id .literal = .bufDetach buf
  /-- `handle_close_bracket` -/
  brackets : ∀ n ∈ (documentOf P callback input).postorder, n.type = .image ∨ n.type = .attribute →
    ∀ subj ∈ finishStates (flushedParser P callback input), subj.nextId = n.id →
      ∀ made, madeChunks P.tables subj = some made → ∀ field ∈ n.type.chunkFields, chunks n.id field = made.get field

/-- Attributes are settled unless they are kept as a slice. -/
theorem settled_iff_of_madeChunks {T : Tables} {subj : Subject} {attributes : Chunk}
    (made : madeChunks T subj = some (.attribute attributes)) : attributes.Settled ↔ ¬ BorrowsAttributes T subj := by
  unfold madeChunks at made
  rw [Option.ite_none_right_eq_some, beq_iff_eq] at made
  obtain ⟨closes, made⟩ := made
  unfold closeBracketChunks at made
  cases stack : subj.brackets with
  | nil =>
    rw [show (subj.advance 1).brackets = _ from stack] at made
    cases made
  | cons opener rest =>
    rw [show (subj.advance 1).brackets = _ from stack] at made
    dsimp only at made
    split at made
    next isAttribute =>
      obtain ⟨chunk, isChunk, same⟩ := Option.map_eq_some_iff.mp made
      obtain rfl : chunk = attributes := InlineChunks.attribute.inj same
      unfold attributesChunk at isChunk
      cases defined : definedAttributes T (subj.advance 1) with
      | some _ =>
        rw [defined] at isChunk
        cases isChunk
        exact iff_of_true (.inl rfl) fun borrows => by
          rw [borrows.2.2.2] at defined
          cases defined
      | none =>
        rw [defined] at isChunk
        dsimp only at isChunk
        cases scanned : scanInlineAttributes subj.input (subj.pos + 1) with
        | none =>
          rw [show scanInlineAttributes (subj.advance 1).input (subj.advance 1).pos = _ from scanned] at isChunk
          cases isChunk
        | some r =>
          obtain ⟨pos, found⟩ := r
          rw [show scanInlineAttributes (subj.advance 1).input (subj.advance 1).pos = _ from scanned] at isChunk
          cases isChunk
          cases found with
          | nil =>
            refine iff_of_true (.inr rfl) ?_
            rintro ⟨_, _, ⟨pos', attributes, some, same⟩, _⟩
            rw [scanned] at same
            obtain ⟨_, rfl⟩ := Prod.mk.inj (Option.some.inj same)
            exact some rfl
          | cons b rest =>
            refine iff_of_false nofun fun keeps => keeps ?_
            exact ⟨closes, ⟨opener, by rw [stack]; rfl, isAttribute⟩, ⟨pos, _, List.cons_ne_nil b rest, scanned⟩, defined⟩
    next =>
      split at made
      next => cases made
      next =>
        split at made
        next chunks isLink =>
          obtain ⟨_, _, rfl, _⟩ := inlineLinkChunks_eq_link isLink
          cases made
        next =>
          obtain ⟨_, _, same⟩ := Option.map_eq_some_iff.mp made
          cases same

/-- A node for attributes is made there. -/
theorem BorrowsAttributes.made {T : Tables} {subj : Subject} (borrows : BorrowsAttributes T subj) :
    ∃ attributes, madeChunks T subj = some (.attribute attributes) := by
  obtain ⟨closes, ⟨opener, top, isAttribute⟩, ⟨pos, attributes, some, scanned⟩, defined⟩ := borrows
  refine ⟨{ data := attributes, alloc := false }, ?_⟩
  rw [madeChunks, closes, if_pos (beq_self_eq_true _), closeBracketChunks]
  cases stack : subj.brackets with
  | nil =>
    rw [stack] at top
    cases top
  | cons opener' rest =>
    rw [stack] at top
    cases top
    rw [show (subj.advance 1).brackets = _ from stack]
    dsimp only
    rw [if_pos isAttribute, attributesChunk, defined]
    dsimp only
    rw [show scanInlineAttributes (subj.advance 1).input (subj.advance 1).pos = _ from scanned]
    dsimp only
    rw [if_neg (mt List.length_eq_zero_iff.mp some)]
    rfl

/-- The urls and titles of links are settled. -/
theorem settled_of_madeChunks {T : Tables} {subj : Subject} {url title : Chunk}
    (made : madeChunks T subj = some (.link url title)) : url.Settled ∧ title.Settled := by
  unfold madeChunks at made
  rw [Option.ite_none_right_eq_some] at made
  obtain ⟨_, made⟩ := made
  unfold closeBracketChunks at made
  split at made
  next => cases made
  next opener _ _ =>
    split at made
    next =>
      obtain ⟨_, _, same⟩ := Option.map_eq_some_iff.mp made
      cases same
    next =>
      split at made
      next => cases made
      next =>
        split at made
        next chunks isLink =>
          obtain ⟨_, _, rfl, settled⟩ := inlineLinkChunks_eq_link isLink
          cases made
          exact settled
        next =>
          obtain ⟨ref, _, same⟩ := Option.map_eq_some_iff.mp made
          cases same
          exact ⟨.inl rfl, .inl rfl⟩

theorem leafChildless_of_coreNode {i : NodeId} {d : NodeData} {cs : Forest} (node : CoreNode i d cs) :
    LeafChildless i d cs := by
  intro leaf
  rw [List.eq_nil_iff_forall_not_mem]
  intro c member
  have allowed := node.child c member
  revert leaf allowed
  unfold NodeType.canContainType
  cases d.type <;> simp [NodeType.isLeaf]

section

variable {P : Config} (core : P.syntaxExtensions = []) {callback : Option (UInt8 → Bool)} {input : List Bytes}
  {chunks : Chunks} (parsed : ParsedChunks P callback input chunks) {n : Node}
  (member : n ∈ (documentOf P callback input).postorder)

include core parsed member

/-- The attributes of a node are settled unless they are kept as a slice. -/
theorem ParsedChunks.attributes_settled_iff (isAttribute : n.type = .attribute) : (chunks n.id .attributes).Settled ↔
    ∀ subj ∈ finishStates (flushedParser P callback input), subj.nextId = n.id → ¬ BorrowsAttributes P.tables subj := by
  have has : ChunkField.attributes ∈ n.type.chunkFields := by
    rw [isAttribute]
    exact List.mem_singleton_self _
  have kept := parsed.brackets n member (.inr isAttribute)
  constructor
  · intro settled subj among here borrows
    obtain ⟨attributes, made⟩ := borrows.made
    rw [kept subj among here _ made _ has] at settled
    exact (settled_iff_of_madeChunks made).mp settled borrows
  · intro keeps
    have madeIn := (Node.All.of_mem _ (madeIn_documentOf core callback input) member).here
    obtain ⟨subj, among, here, attributes, made, _⟩ := madeIn.attributes isAttribute
    rw [kept subj among here _ made _ has]
    exact (settled_iff_of_madeChunks made).mpr (keeps subj among here)

/-- A chunk that is not copied is settled, unless it is the attributes. -/
theorem ParsedChunks.settled {field : ChunkField} (has : field ∈ n.type.chunkFields)
    (other : field ∉ n.type.ownedFields) (notAttribute : n.type ≠ .attribute) : (chunks n.id field).Settled := by
  have isCore := (Node.All.of_mem _ (coreNode_documentOf core callback input).1 member).here.core
  have notCustom : n.type ≠ .customBlock ∧ n.type ≠ .customInline := by
    constructor
    · intro custom
      rw [show n.data.type = .customBlock from custom] at isCore
      rcases isCore with isCore | isCore <;> cases isCore
    · intro custom
      rw [show n.data.type = .customInline from custom] at isCore
      rcases isCore with isCore | isCore <;> cases isCore
  cases type : n.type <;> rw [type] at has other <;>
    simp only [NodeType.chunkFields, NodeType.ownedFields, List.mem_cons, List.not_mem_nil, or_false, not_or] at has other
  case customBlock => exact absurd type notCustom.1
  case customInline => exact absurd type notCustom.2
  case «attribute» => exact absurd type notAttribute
  case codeBlock =>
    obtain ⟨info, content, literal⟩ := parsed.codeBlock n member type
    rcases has with rfl | rfl
    · rcases info with none | ⟨tmp, some⟩
      · exact .inr (by rw [none]; rfl)
      · exact .inl (by rw [some]; rfl)
    · exact .inl (by rw [literal]; rfl)
  case footnoteDefinition =>
    obtain ⟨c, same⟩ := parsed.footnoteDefinition n member type
    subst has
    exact .inl (by rw [same]; simp)
  case footnoteReference =>
    obtain ⟨buf, same⟩ := parsed.footnoteReference n member type
    subst has
    exact .inl (by rw [same]; rfl)
  case image =>
    have madeIn := (Node.All.of_mem _ (madeIn_documentOf core callback input) member).here
    obtain ⟨subj, among, here, url, title, made, _⟩ := madeIn.image type
    have kept := parsed.brackets n member (.inl type) subj among here _ made
    obtain ⟨urlSettled, titleSettled⟩ := settled_of_madeChunks made
    rw [type] at kept
    rcases has with rfl | rfl
    · rw [kept .url (by decide)]
      exact urlSettled
    · rw [kept .title (by decide)]
      exact titleSettled
  all_goals tauto

end

/-! ### Images hold no text -/

/-- An image or a node for attributes holds what was put into it, and no text was written there. -/
def HoldsNoText (_ : NodeId) (d : NodeData) (_ : Forest) : Prop :=
  d.type = .image ∨ d.type = .attribute → ∀ s, d.as ≠ .literal s

theorem holdsNoText_of_other {i : NodeId} {d : NodeData} {cs : Forest} (notImage : d.type ≠ .image)
    (notAttribute : d.type ≠ .attribute) : HoldsNoText i d cs :=
  fun either => either.elim (absurd · notImage) (absurd · notAttribute)

theorem ofBrackets_holdsNoText : OfBrackets HoldsNoText where
  other := holdsNoText_of_other
  children _ holds := holds
  counts _ holds := holds

theorem allList_shorten {n : Node} (k : Nat) (text : n.type = .text) (leaf : n.children = []) :
    AllList HoldsNoText (shorten k n) := by
  unfold shorten
  split
  next => trivial
  next =>
    obtain ⟨i, d, children⟩ := n
    obtain rfl : children = [] := leaf
    have type : (truncateLiteral ((Node.mk i d []).literal.length - k) d).type = .text := text
    exact ⟨⟨holdsNoText_of_other (by simp [type]) (by simp [type]), trivial⟩, trivial⟩

/-- Matching runs writes to text nodes only. -/
theorem holdsNoText_of_change {runs : List NodeId} {f f' : Forest} (change : EmphasisChange runs f f')
    (all : AllList HoldsNoText f) : AllList HoldsNoText f' := by
  cases change with
  | @wrap l m r o c i d k x opener closer uses _ _ =>
    obtain ⟨left, _, rest⟩ := allList_append.mp all
    obtain ⟨between, _, right⟩ := allList_append.mp rest
    have wrapped : HoldsNoText i d m := by
      rcases uses with ⟨_, type⟩ | ⟨_, type⟩
      · exact holdsNoText_of_other (by simp [type]) (by simp [type])
      · exact holdsNoText_of_other (by simp [type]) (by simp [type])
    have closing := allList_append.mpr ⟨allList_shorten k closer.text closer.leaf, right⟩
    exact allList_append.mpr ⟨left, allList_append.mpr
      ⟨allList_shorten k opener.text opener.leaf, ⟨wrapped, between⟩, closing⟩⟩
  | @quote l r n s _ text _ =>
    obtain ⟨left, here, right⟩ := allList_append.mp all
    obtain ⟨i, d, children⟩ := n
    have type : (setLiteral s d).type = .text := text
    exact allList_append.mpr ⟨left, ⟨holdsNoText_of_other (by simp [type]) (by simp [type]), here.2⟩, right⟩
  | @strikethrough l m r o c d x _ _ _ type _ =>
    obtain ⟨left, _, rest⟩ := allList_append.mp all
    obtain ⟨between, _, right⟩ := allList_append.mp rest
    have other : HoldsNoText o.id d m :=
      holdsNoText_of_other (by simp [type, strikethroughType]) (by simp [type, strikethroughType])
    exact allList_append.mpr ⟨left, ⟨other, between⟩, right⟩

theorem holdsNoText_of_changes {runs : List NodeId} {f f' : Forest}
    (changes : Relation.ReflTransGen (EmphasisChange runs) f f') (all : AllList HoldsNoText f) :
    AllList HoldsNoText f' := by
  induction changes with
  | refl => exact all
  | tail _ change ih => exact holdsNoText_of_change change ih

section

variable {P : Config} (core : P.syntaxExtensions = []) {chars : CharTables}
  (notNul : chars.backslashIspunct.getD ispunct 0 = false)

include core notNul

theorem holdsNoText_parseInline {subj next : Subject} {marks : List Mark} (layout : Layout P subj marks)
    (inside : subj.pos < subj.input.length) (parsed : parseInline P chars subj = some next)
    (all : AllList HoldsNoText subj.children) : AllList HoldsNoText next.children := by
  cases inlineStep_parseInline core layout inside notNul parsed with
  | @node r makes children _ _ _ =>
    refine allList_append.mpr ⟨children ▸ all, Node.All.imp (fun {i d cs} plain => ?_) _ makes.plain, trivial⟩
    apply holdsNoText_of_other
    · intro image
      simp [image, NodeType.isPlainInline] at plain
    · intro isAttribute
      simp [isAttribute, NodeType.isPlainInline] at plain
  | push _ => exact allList_append.mpr ⟨all, ⟨holdsNoText_of_other nofun nofun, trivial⟩, trivial⟩
  | @close _ opener l r n d c _ closes _ =>
    rw [closes.before] at all
    obtain ⟨left, _, right⟩ := allList_append.mp all
    have below : AllList HoldsNoText c := by
      rcases closes.content with rfl | ⟨_, changes⟩
      · trivial
      · exact holdsNoText_of_changes changes right
    have here : HoldsNoText subj.nextId d c := by
      intro type s text
      rcases closes.data with reference | ⟨url, title, link⟩ | ⟨attributes, found⟩
      · simp [reference] at type
      · rw [link] at text
        cases text
      · rw [found] at text
        cases text
    rw [closes.after]
    exact allList_append.mpr ⟨left, ⟨here, below⟩, trivial⟩

theorem holdsNoText_parseInlines {d : NodeData} (block : d.type = .paragraph ∨ d.type = .heading)
    (refmap : Map Reference) (nextId : NodeId) :
    AllList HoldsNoText (parseInlines P chars (inlineSubject P d [] refmap nextId)).children := by
  generalize isStart : inlineSubject P d [] refmap nextId = start
  have begin : ∃ marks, Layout P start marks :=
    ⟨[], isStart ▸ Layout.start _ refmap nextId (accepts_block block (extensionOf_core core d))⟩
  have every {subj : Subject} (reached : Reaches P chars start subj) : AllList HoldsNoText subj.children := by
    induction reached with
    | start =>
      -- nothing is parsed yet
      rw [← isStart]
      trivial
    | step reached inside parsed ih =>
      obtain ⟨_, layout⟩ := reached.laidOut (sound_of_core core) notNul begin
      exact holdsNoText_parseInline core notNul layout inside parsed ih
  obtain ⟨_, _, last, changes, _⟩ := changes_parseInlines core notNul begin
  exact holdsNoText_of_changes changes (every last)

end

/-! ### The whole tree -/

section

variable {P : Config} (core : P.syntaxExtensions = []) {callback : Option (UInt8 → Bool)} {input : List Bytes}
  {chunks : Chunks}

include core

/-- In every tree below a node of a parsed document the call does what the header says if and only if no attributes
of the tree are a slice of the content. -/
theorem nodeOwn_owns_iff (parsed : ParsedChunks P callback input chunks) {root : Node}
    (member : root ∈ (documentOf P callback input).postorder) :
    OwnsChunks root (nodeOwn root chunks) ↔ ∀ n ∈ root.postorder, n.type = .attribute →
      ∀ subj ∈ finishStates (flushedParser P callback input), subj.nextId = n.id → ¬ BorrowsAttributes P.tables subj := by
  have inDocument {n : Node} (inside : n ∈ root.postorder) : n ∈ (documentOf P callback input).postorder :=
    postorder_trans _ member inside
  have leaves : root.All LeafChildless := by
    refine Node.All.imp leafChildless_of_coreNode _ ?_
    exact Node.All.of_mem _ (coreNode_documentOf core callback input).1 member
  have settles {n : Node} (field : ChunkField) (settled : (chunks n.id field).Settled) :
      (nodeOwn root chunks n.id field).Settled := by
    rcases settled with own | empty
    · exact .inl ((alloc_nodeOwn leaves chunks n.id field).mpr (.inl own))
    · exact .inr ((data_nodeOwn root chunks n.id field).trans empty)
  constructor
  · intro owns n inside isAttribute
    refine (parsed.attributes_settled_iff core (inDocument inside) isAttribute).mp ?_
    have has : ChunkField.attributes ∈ n.type.chunkFields := by
      rw [isAttribute]
      exact List.mem_singleton_self _
    rcases (owns n inside .attributes has).1 with own | empty
    · rcases (alloc_nodeOwn leaves chunks n.id .attributes).mp own with own | ⟨m, _, _, copied⟩
      · exact .inl own
      · -- no attributes are copied
        revert copied
        unfold NodeType.ownedFields
        cases m.type <;> simp
    · exact .inr ((data_nodeOwn root chunks n.id .attributes).symm.trans empty)
  · intro keeps n inside field has
    have settled : (nodeOwn root chunks n.id field).Settled := by
      by_cases copied : field ∈ n.type.ownedFields
      · exact .inl ((alloc_nodeOwn leaves chunks n.id field).mpr (.inr ⟨n, inside, rfl, copied⟩))
      · apply settles
        by_cases isAttribute : n.type = .attribute
        · rw [isAttribute] at has
          rw [List.mem_singleton.mp has]
          exact (parsed.attributes_settled_iff core (inDocument inside) isAttribute).mpr (keeps n inside isAttribute)
        · exact parsed.settled core (inDocument inside) has copied isAttribute
    have data := (data_nodeOwn root chunks n.id field).trans (parsed.data n (inDocument inside) field has)
    exact ⟨settled, data, fun garbage => ((Chunk.settled_iff _).mp settled garbage).trans data⟩

end

/-! ### The chunks of the parser -/

/-- The chunk that a field of a node gets when the parser is done. -/
def parserChunk (T : Tables) (states : List Subject) (n : Node) (field : ChunkField) : Chunk :=
  let data := n.data.as.chunkData field
  match n.type with
  | .codeBlock => if field = .info ∧ data = [] then .literal [] else .bufDetach data
  | .footnoteDefinition | .footnoteReference => .bufDetach data
  | .image | .attribute =>
    ((states.filter fun subj => subj.nextId = n.id).findSome? (madeChunks T)).elim (.literal []) fun made => made.get field
  | _ => .literal data

/-- The chunks of a parsed document. -/
def parserChunks (P : Config) (callback : Option (UInt8 → Bool)) (input : List Bytes) : Chunks := fun i field =>
  ((documentOf P callback input).postorder.find? (·.id = i)).elim (.literal []) fun n =>
    parserChunk P.tables (finishStates (flushedParser P callback input)) n field

section

variable {P : Config} (core : P.syntaxExtensions = []) {callback : Option (UInt8 → Bool)}
  (notNul : callback.getD ispunct 0 = false) {input : List Bytes}

include core notNul

/-- A node has the chunks that are looked up with its address. -/
theorem parserChunks_id {n : Node} (member : n ∈ (documentOf P callback input).postorder) :
    parserChunks P callback input n.id = parserChunk P.tables (finishStates (flushedParser P callback input)) n := by
  have distinct := distinct_documentOf core callback input notNul
  rw [addresses, postorderList, postorderList, List.append_nil] at distinct
  have found : (documentOf P callback input).postorder.find? (·.id = n.id) = some n := by
    cases found : (documentOf P callback input).postorder.find? (·.id = n.id) with
    | none =>
      have absent := List.find?_eq_none.mp found n member
      simp at absent
    | some m =>
      have same : m.id = n.id := by simpa using List.find?_some found
      rw [List.inj_on_of_nodup_map distinct (List.mem_of_find?_eq_some found) member same]
  funext field
  rw [parserChunks, found]
  rfl

omit core notNul in
/-- At a closing bracket something is read. -/
theorem peekChar_of_madeChunks {T : Tables} {subj : Subject} {made : InlineChunks} (found : madeChunks T subj = some made) :
    subj.peekChar ≠ 0 := by
  unfold madeChunks at found
  obtain ⟨closes, _⟩ := Option.ite_none_right_eq_some.mp found
  rw [beq_iff_eq.mp closes]
  decide

/-- What is made when an address comes next is made once. -/
theorem findSome?_madeChunks {subj : Subject} (among : subj ∈ finishStates (flushedParser P callback input))
    {made : InlineChunks} (found : madeChunks P.tables subj = some made) :
    ((finishStates (flushedParser P callback input)).filter fun s => s.nextId = subj.nextId).findSome?
      (madeChunks P.tables) = some made := by
  have inside : subj ∈ (finishStates (flushedParser P callback input)).filter fun s => s.nextId = subj.nextId :=
    List.mem_filter.mpr ⟨among, by simp⟩
  cases first : ((finishStates (flushedParser P callback input)).filter fun s => s.nextId = subj.nextId).findSome?
      (madeChunks P.tables) with
  | none =>
    have nothing := List.findSome?_eq_none_iff.mp first subj inside
    rw [found] at nothing
    cases nothing
  | some made' =>
    obtain ⟨s, member, found'⟩ := List.exists_of_findSome?_eq_some first
    obtain ⟨among', same⟩ := List.mem_filter.mp member
    have read := peekChar_of_madeChunks found
    have read' := peekChar_of_madeChunks found'
    obtain rfl : s = subj := eq_of_nextId core callback input notNul among' among read' read (by simpa using same)
    rw [← found', found]

theorem holdsNoText_documentOf : (documentOf P callback input).All HoldsNoText := by
  refine ofBrackets_holdsNoText.documentOf core callback input fun subj among _ => ?_
  obtain ⟨d, refmap, nextId, block, rfl⟩ := mem_documentSubjects core callback input among
  have kept := backslashIspunct_flushedParser (P := P) callback input
  exact holdsNoText_parseInlines core (kept.symm ▸ notNul) block refmap nextId

/-- Images and nodes for attributes have the chunks that were made for them. -/
theorem madeChunks_documentOf {n : Node} (member : n ∈ (documentOf P callback input).postorder)
    (brackets : n.type = .image ∨ n.type = .attribute) :
    ∃ subj ∈ finishStates (flushedParser P callback input), subj.nextId = n.id ∧
      ∃ made, madeChunks P.tables subj = some made ∧
        ∀ field ∈ n.type.chunkFields, (made.get field).data = n.data.as.chunkData field := by
  have madeIn := (Node.All.of_mem _ (madeIn_documentOf core callback input) member).here
  have noText := (Node.All.of_mem _ (holdsNoText_documentOf core notNul) member).here brackets
  rcases brackets with type | type
  · obtain ⟨subj, among, here, url, title, made, holds⟩ := madeIn.image type
    refine ⟨subj, among, here, .link url title, made, fun field has => ?_⟩
    rcases holds with holds | ⟨s, holds⟩
    · rw [type] at has
      rw [holds]
      simp only [NodeType.chunkFields, List.mem_cons, List.not_mem_nil, or_false] at has
      rcases has with rfl | rfl <;> rfl
    · exact absurd holds (noText s)
  · obtain ⟨subj, among, here, attributes, made, holds⟩ := madeIn.attributes type
    refine ⟨subj, among, here, .attribute attributes, made, fun field has => ?_⟩
    rcases holds with holds | ⟨s, holds⟩
    · rw [type] at has
      rw [holds, List.mem_singleton.mp has]
      rfl
    · exact absurd holds (noText s)

theorem parserChunk_of_madeChunks {n : Node} (brackets : n.type = .image ∨ n.type = .attribute) {subj : Subject}
    (among : subj ∈ finishStates (flushedParser P callback input)) (here : subj.nextId = n.id) {made : InlineChunks}
    (found : madeChunks P.tables subj = some made) (field : ChunkField) :
    parserChunk P.tables (finishStates (flushedParser P callback input)) n field = made.get field := by
  have first := findSome?_madeChunks core notNul among found
  rw [here] at first
  unfold parserChunk
  rcases brackets with type | type
  · rw [type]
    dsimp only
    rw [first]
    rfl
  · rw [type]
    dsimp only
    rw [first]
    rfl

/-- Every document has such chunks. -/
theorem parsedChunks_parserChunks : ParsedChunks P callback input (parserChunks P callback input) where
  data n member field has := by
    rw [parserChunks_id core notNul member]
    by_cases brackets : n.type = .image ∨ n.type = .attribute
    · obtain ⟨subj, among, here, made, found, data⟩ := madeChunks_documentOf core notNul member brackets
      rw [parserChunk_of_madeChunks core notNul brackets among here found]
      exact data field has
    · rw [not_or] at brackets
      unfold parserChunk
      split
      next =>
        dsimp only
        split
        next empty => exact empty.2.symm
        next => rfl
      next => rfl
      next => rfl
      next type => exact absurd type brackets.1
      next type => exact absurd type brackets.2
      next => rfl
  codeBlock n member type := by
    rw [parserChunks_id core notNul member]
    unfold parserChunk
    rw [type]
    dsimp only
    refine ⟨?_, _, if_neg nofun⟩
    split
    next => exact .inl rfl
    next => exact .inr ⟨_, rfl⟩
  footnoteDefinition n member type := by
    rw [parserChunks_id core notNul member]
    unfold parserChunk
    rw [type]
    exact ⟨.literal _, rfl⟩
  footnoteReference n member type := by
    rw [parserChunks_id core notNul member]
    unfold parserChunk
    rw [type]
    exact ⟨_, rfl⟩
  brackets n member brackets subj among here made found field _ := by
    rw [parserChunks_id core notNul member]
    exact parserChunk_of_madeChunks core notNul brackets among here found field

end

/-- Attributes in parentheses. -/
def attributesDocument : Bytes := lit "^[a](b)\n"

/-- The attributes stay a slice of the content. -/
theorem not_owns_of_attributes : ∃ chunks, ParsedChunks footnotesConfig none [attributesDocument] chunks ∧
    ¬ OwnsChunks (documentOf footnotesConfig none [attributesDocument])
      (nodeOwn (documentOf footnotesConfig none [attributesDocument]) chunks) := by
  refine ⟨_, parsedChunks_parserChunks rfl rfl, fun owns => ?_⟩
  have settled : ∀ n ∈ (documentOf footnotesConfig none [attributesDocument]).postorder,
      ∀ field ∈ n.type.chunkFields,
        (nodeOwn (documentOf footnotesConfig none [attributesDocument])
          (parserChunks footnotesConfig none [attributesDocument]) n.id field).Settled :=
    fun n member field has => (owns n member field has).1
  revert settled
  decide +kernel

/-- An image, a footnote, a code block, and attributes that a definition has. -/
def definedDocument : Bytes := lit "![i](u \"t\") [^n] ^[a][k]\n\n```x\ny\n```\n\n[^n]: z\n\n^[k]: v\n"

/-- Attributes that come from a definition are copied, and then the whole tree owns its chunks. -/
theorem nodeOwn_owns_defined : OwnsChunks (documentOf footnotesConfig none [definedDocument])
    (nodeOwn (documentOf footnotesConfig none [definedDocument]) (parserChunks footnotesConfig none [definedDocument])) := by
  refine (nodeOwn_owns_iff rfl (parsedChunks_parserChunks rfl rfl) (Node.mem_postorder _)).mpr ?_
  have settled : ∀ subj ∈ finishStates (flushedParser footnotesConfig none [definedDocument]),
      ∀ made ∈ madeChunks asciiTables subj, (made.get .attributes).Settled := by decide +kernel
  intro n _ _ subj among _ borrows
  obtain ⟨attributes, made⟩ := borrows.made
  exact (settled_iff_of_madeChunks made).mp (settled subj among _ made) borrows

end CmarkGfm
