import CmarkGfm.Properties.EmphasisSteps
import CmarkGfm.Properties.InlineTrees
import CmarkGfm.Properties.Progress

/-!
# The stacks of the inline parser and the nodes they point to

Between two calls of `parse_inline` the text nodes of all delimiters and brackets are among the
children of the block, in the order in which they were pushed. What a call pushes comes last; what
a closing bracket takes from the end leaves the marks before the opener as they are.
-/

namespace CmarkGfm

/-! ### Marks -/

/-- A delimiter or a bracket on its stack. -/
inductive Mark where
  | delimiter (d : Delimiter)
  | bracket (position : Nat) (inlText : NodeId)

namespace Mark

def position : Mark → Nat
  | delimiter d => d.position
  | bracket p _ => p

def inlText : Mark → NodeId
  | delimiter d => d.inlText
  | bracket _ i => i

def delimiter? : Mark → Option Delimiter
  | delimiter d => some d
  | bracket _ _ => none

def bracket? : Mark → Option (Nat × NodeId)
  | delimiter _ => none
  | bracket p i => some (p, i)

theorem mem_delimiters {l : List Mark} {d : Delimiter} :
    d ∈ l.filterMap delimiter? ↔ .delimiter d ∈ l := by
  rw [List.mem_filterMap]
  refine ⟨fun ⟨m, inside, same⟩ => ?_, fun member => ⟨_, member, rfl⟩⟩
  cases m with
  | delimiter d' => exact Option.some.inj same ▸ inside
  | bracket p i => cases same

end Mark

/-- The marks in the order of the text, with the nodes they point to. -/
structure Layout (P : Config) (subj : Subject) (marks : List Mark) : Prop where
  delims : subj.delims = (marks.filterMap Mark.delimiter?).reverse
  brackets : subj.brackets.map (fun b => (b.position, b.inlText)) =
    (marks.filterMap Mark.bracket?).reverse
  order : (marks.map Mark.inlText).Sublist (subj.children.map Node.id)
  sorted : marks.Pairwise fun a b => a.position < b.position
  within : ∀ m ∈ marks, m.position ≤ subj.pos
  texts : ∀ d, .delimiter d ∈ marks → ∀ n ∈ subj.children, n.id = d.inlText → DelimiterText d n
  openers : ∀ p i, .bracket p i ∈ marks → ∀ n ∈ subj.children, n.id = i →
    n.type = .text ∧ n.children = []
  distinct : (addresses subj.children).Nodup
  fresh : ∀ i ∈ addresses subj.children, i < subj.nextId
  inline : ∀ n ∈ subj.children, n.type.isInline = true
  accepts : ∀ t : NodeType, t.isInline → P.nodeCanContainType subj.parent t

/-! ### The calls of process_emphasis -/

/-- The state in which `matchLink` calls `process_emphasis`. -/
def linkSpliced (P : Config) (subj : Subject) (opener : Bracket) (url title : Bytes) : Subject :=
  let openerInl := dataOf opener.inlText subj.children
  let (subj, inl) := subj.alloc
    { type := if opener.type = .image then .image else .link
      as := .link url title
      startLine := openerInl.startLine
      startColumn := openerInl.startColumn
      endLine := subj.line
      endColumn := (subj.pos : Int) + subj.columnOffset + subj.blockOffset }
  let accepted := canInsertBeside P subj.parent opener.inlText inl.type subj.children
  { subj with children := replaceOpener opener.inlText accepted inl (fun _ => true) subj.children }

/-- The state in which `matchAttribute` calls `process_emphasis`. -/
def attributeSpliced (P : Config) (subj : Subject) (opener : Bracket) (attributes : Bytes) :
    Subject :=
  let (subj, inl) := subj.alloc
    { type := .attribute
      as := .attribute attributes
      startLine := subj.line
      endLine := subj.line
      startColumn := (dataOf opener.inlText subj.children).startColumn
      endColumn := (subj.pos : Int) + subj.columnOffset + subj.blockOffset }
  let accepted := canInsertBeside P subj.parent opener.inlText inl.type subj.children
  { subj with
    children := replaceOpener opener.inlText accepted inl
      (fun n => P.nodeCanContainType inl.data n.type) subj.children }

/-- The state in which `makeFootnoteReference` calls `process_emphasis`. -/
def footnoteSpliced (P : Config) (subj : Subject) (opener : Bracket) (next : Node) : Subject :=
  let startColumn := (dataOf opener.inlText subj.children).startColumn
  let endColumn := (subj.pos : Int) + subj.columnOffset + subj.blockOffset
  let (subj, fnref) := subj.alloc
    { type := .footnoteReference
      as := .literal (footnoteLiteral P subj next (endColumn - startColumn - 2).toNat)
      startLine := subj.line
      endLine := subj.line
      startColumn := startColumn
      endColumn := endColumn }
  let accepted := canInsertBeside P subj.parent opener.inlText fnref.type subj.children
  let insert := fun siblings => siblingsBefore opener.inlText siblings ++
    (if accepted then [fnref] else []) ++ siblingsFrom opener.inlText siblings
  { subj with children := editSiblings opener.inlText insert subj.children }

section

variable (P : Config) (subj : Subject) (opener : Bracket)

theorem matchLink_eq (url title : Bytes) :
    matchLink P subj opener url title =
      let after := popBracket (processEmphasis P (linkSpliced P subj opener url title) opener.position)
      { after with noLinkOpeners := if opener.type = .image then after.noLinkOpeners else true } :=
  rfl

theorem matchAttribute_eq (attributes : Bytes) :
    matchAttribute P subj opener attributes =
      popBracket (processEmphasis P (attributeSpliced P subj opener attributes) opener.position) :=
  rfl

theorem makeFootnoteReference_eq (next : Node) :
    makeFootnoteReference P subj opener next =
      let after := processEmphasis P (footnoteSpliced P subj opener next) opener.position
      popBracket { after with
        children := editSiblings opener.inlText (siblingsBefore opener.inlText) after.children } :=
  rfl

end

/-- Only nodes and the delimiter stack differ. -/
def NodesEdited (subj subj' : Subject) : Prop :=
  ∃ children nextId delims,
    subj' = { subj with children := children, nextId := nextId, delims := delims }

/-- The callback of an extension for delimiters edits nodes. -/
def Extension.EditsNodes (e : Extension) : Prop :=
  ∀ f, e.insertInlineFromDelim = some f → ∀ options subj below opener between closer later,
    NodesEdited subj (f options subj below opener between closer later).subj

theorem emphasisFrame_edits {P : Config} (edits : ∀ e ∈ P.syntaxExtensions, e.EditsNodes) :
    EmphasisFrame P NodesEdited where
  trans first second := by
    obtain ⟨_, _, _, rfl⟩ := first
    obtain ⟨children, nextId, delims, rfl⟩ := second
    exact ⟨children, nextId, delims, rfl⟩
  nodes subj children nextId delims := ⟨children, nextId, delims, rfl⟩
  insert e member := edits e member

/-! ### New nodes -/

/-- A node with addresses that were not used before. -/
structure NewNode (subj : Subject) (r : Subject × Node) : Prop where
  grows : subj.nextId ≤ r.1.nextId
  distinct : (addresses [r.2]).Nodup
  new : ∀ i ∈ addresses [r.2], subj.nextId ≤ i ∧ i < r.1.nextId
  inline : r.2.type.isInline = true

theorem NewNode.of_nextId {subj subj' : Subject} {r : Subject × Node}
    (same : subj'.nextId = subj.nextId) (new : NewNode subj' r) : NewNode subj r :=
  ⟨same ▸ new.grows, new.distinct, same ▸ new.new, new.inline⟩

theorem NewNode.of_leaf {subj : Subject} {r : Subject × Node} (leaf : MakesLeaf subj r) : NewNode subj r := by
  have children := leaf.children
  obtain ⟨subj', i, d, cs⟩ := r
  obtain rfl : cs = [] := children
  obtain ⟨⟨grows, node, _⟩, _⟩ := leaf
  refine ⟨grows, List.nodup_singleton i, fun j inside => ?_, ?_⟩
  · obtain rfl := List.mem_singleton.mp inside
    exact ⟨node.low, node.high⟩
  · have core := node.core
    show d.type.isInline = true
    cases type : d.type <;> simp [type, NodeType.isMade, NodeType.isCoreInline, NodeType.isInline] at core ⊢

section

variable (subj : Subject)

/-- An autolink and its text have two new addresses. -/
theorem newNode_makeAutolink (T : Tables) (a b : Int) (url : Bytes) (isEmail : Bool) :
    NewNode subj (subj.makeAutolink T a b url isEmail) where
  grows := Nat.le_add_right _ 2
  distinct := by
    show [subj.nextId + 1, subj.nextId].Nodup
    simp
  new i inside := by
    change i ∈ [subj.nextId + 1, subj.nextId] at inside
    show subj.nextId ≤ i ∧ i < subj.nextId + 2
    simp only [List.mem_cons, List.not_mem_nil, or_false] at inside
    rcases inside with rfl | rfl
    · exact ⟨Nat.le_succ _, Nat.lt_succ_self _⟩
    · exact ⟨Nat.le_refl _, Nat.lt_add_of_pos_right Nat.two_pos⟩
  inline := rfl

theorem newNode_handlePointyBrace (P : Config) : NewNode subj (handlePointyBrace P subj) := by
  unfold handlePointyBrace
  extract_lets advanced autolink uri email
  have link : ∀ n isEmail, NewNode subj (autolink n isEmail) := fun n isEmail =>
    @NewNode.of_nextId _ (advanced.advance n) _ rfl (newNode_makeAutolink ..)
  split
  next => exact link uri false
  next =>
    split
    next => exact link email true
    next =>
      have scanned := nextId_scanHtml advanced
      generalize scanHtml advanced = r at scanned ⊢
      obtain ⟨subj', matchlen⟩ := r
      dsimp only at scanned ⊢
      generalize (if P.options.has optLiberalHtmlTag then
        Scanners.scanAt Scanners.liberalHtmlTag subj'.input subj'.pos else 0) = liberal
      split
      next => exact .of_leaf (makes_makeRawHtml subj scanned _ _)
      next =>
        split
        next => exact .of_leaf (makes_makeRawHtml subj scanned _ _)
        next => exact .of_leaf (.of_nextId scanned (makes_alloc subj' rfl))

end

/-- What makes a node may push a delimiter for it. -/
structure Produces (subj : Subject) (r : Subject × Node) : Prop where
  new : NewNode subj r
  children : r.1.children = subj.children
  parent : r.1.parent = subj.parent
  brackets : r.1.brackets = subj.brackets
  delims : r.1.delims = subj.delims ∨ ∃ d, r.1.delims = d :: subj.delims ∧ d.inlText = r.2.id ∧
    d.position = r.1.pos ∧ DelimiterText d r.2

theorem Produces.of_sameStacks {subj : Subject} {r : Subject × Node} (new : NewNode subj r)
    (same : SameStacks subj r.1) : Produces subj r :=
  ⟨new, same.children, same.parent, same.brackets, .inl same.delims⟩

/-- The run of bytes from a position on. -/
theorem chunkDup_run {input : Bytes} {pos : Nat} {c : UInt8} :
    chunkDup input pos (skipWhile (· == c) input pos - pos) =
      List.replicate (skipWhile (· == c) input pos - pos) c := by
  unfold skipWhile chunkDup
  rw [Nat.add_sub_cancel_left]
  have run : (input.drop pos).takeWhile (· == c) =
      List.replicate ((input.drop pos).takeWhile (· == c)).length c := by
    rw [List.eq_replicate_iff]
    exact ⟨rfl, fun b member => by simpa using List.mem_takeWhile_imp member⟩
  conv_rhs => rw [← run]
  exact (List.prefix_iff_eq_take.mp (List.takeWhile_prefix _)).symm

/-- A run of delimiters. -/
theorem produces_handleDelim (chars : CharTables) (smart : Bool) {subj : Subject}
    (inside : subj.pos < subj.input.length) :
    Produces subj (handleDelim chars smart subj subj.peekChar) := by
  have new := NewNode.of_leaf (makes_handleDelim subj chars smart subj.peekChar)
  have length := scanDelims_fst chars subj.input subj.pos subj.peekChar
  have run : subj.pos < skipWhile (· == subj.peekChar) subj.input subj.pos :=
    lt_skipWhile inside (beq_self_eq_true _)
  generalize handled : handleDelim chars smart subj subj.peekChar = result at new ⊢
  unfold handleDelim at handled
  generalize scanDelims chars subj.input subj.pos subj.peekChar = scanned at length handled
  obtain ⟨numdelims, canOpen, canClose⟩ := scanned
  dsimp -zeta only at length handled
  extract_lets start subj' stop at handled
  have same : SameStacks subj subj' := ⟨rfl, rfl, rfl, rfl, rfl, rfl, rfl, rfl⟩
  have shape : ∀ r, (if subj.peekChar == chr '\'' && smart then subj'.makeStr start stop rightSingleQuote
        else if subj.peekChar == chr '"' && smart then
          subj'.makeStr start stop (if canClose then rightDoubleQuote else leftDoubleQuote)
        else subj'.makeStrAt start stop start (chunkDup subj'.input start numdelims)) = r →
      SameStacks subj r.1 ∧ r.2.type = .text ∧ r.2.children = [] ∧
        ((isQuote subj.peekChar && smart) = true → r.2.literal.length = 3) ∧
        (isQuote subj.peekChar = false →
          r.2.literal = List.replicate (skipWhile (· == subj.peekChar) subj.input subj.pos - subj.pos)
            subj.peekChar) := by
    rintro r rfl
    split
    next single =>
      refine ⟨same.trans ⟨rfl, rfl, rfl, rfl, rfl, rfl, rfl, rfl⟩, rfl, rfl, fun _ => rfl, fun notQuote => ?_⟩
      simp only [Bool.and_eq_true] at single
      simp [isQuote, single.1] at notQuote
    next notSingle =>
      split
      next double =>
        refine ⟨same.trans ⟨rfl, rfl, rfl, rfl, rfl, rfl, rfl, rfl⟩, rfl, rfl, fun _ => ?_,
          fun notQuote => ?_⟩
        · cases canClose <;> rfl
        · simp only [Bool.and_eq_true] at double
          simp [isQuote, double.1] at notQuote
      next notDouble =>
        refine ⟨same.trans ⟨rfl, rfl, rfl, rfl, rfl, rfl, rfl, rfl⟩, rfl, rfl, fun quote => ?_,
          fun notQuote => ?_⟩
        · simp only [isQuote, Bool.and_eq_true, Bool.or_eq_true] at quote notSingle notDouble
          rcases quote with ⟨quote | quote, isSmart⟩
          · exact absurd ⟨quote, isSmart⟩ notSingle
          · exact absurd ⟨quote, isSmart⟩ notDouble
        · rw [notQuote, if_neg Bool.false_ne_true] at length
          rw [length]
          exact chunkDup_run
  generalize made : (if subj.peekChar == chr '\'' && smart then _ else _) = r at handled
  obtain ⟨kept, type, leaf, quoted, unquoted⟩ := shape r made
  split at handled
  next pushes =>
    subst handled
    have length_three : isQuote subj.peekChar = true → r.2.literal.length = 3 := by
      intro quote
      simp only [quote, Bool.not_true, Bool.false_or, Bool.and_eq_true] at pushes
      exact quoted (by simp [quote, pushes.2])
    refine ⟨new, kept.children, kept.parent, kept.brackets,
      .inr ⟨_, congrArg (_ :: ·) kept.delims, rfl, rfl, type, leaf, ?_, le_rfl, ?_, ?_⟩⟩
    · cases quote : isQuote subj.peekChar with
      | true =>
        intro none
        have three := length_three quote
        rw [none] at three
        cases three
      | false =>
        rw [unquoted quote, ne_eq, List.replicate_eq_nil_iff]
        omega
    · intro notQuote
      show r.2.literal = List.replicate r.2.literal.length subj.peekChar
      rw [unquoted notQuote, List.length_replicate]
    · exact length_three
  next =>
    subst handled
    exact ⟨new, kept.children, kept.parent, kept.brackets, .inl kept.delims⟩

/-- If a node is made, it is new. -/
def MakesNew (subj : Subject) (r : Subject × Option Node) : Prop :=
  ∀ node, r.2 = some node → NewNode subj (r.1, node)

theorem NewNode.makesNew {subj : Subject} {r : Subject × Node} (new : NewNode subj r) :
    MakesNew subj (made r) := by
  intro node same
  obtain rfl := Option.some.inj same
  exact new

theorem newNode_openBracket (subj : Subject) (type : BracketType) (s : Bytes) :
    NewNode subj (openBracket subj type s) :=
  .of_leaf (makes_alloc subj rfl)

/-- The nodes of the `switch` other than those of closing brackets are new. -/
theorem makesNew_dispatchInline (P : Config) (chars : CharTables) (subj : Subject) {c : UInt8}
    (other : c ≠ chr ']') : MakesNew subj (dispatchInline P chars subj c) := by
  refine dispatchInline_leaf (motive := MakesNew subj) P chars c ?_ nofun ?_ ?_
  · exact fun closes => absurd closes other
  · exact fun r leaf _ => (NewNode.of_leaf leaf).makesNew
  · exact fun _ => (newNode_handlePointyBrace subj P).makesNew

/-- What the callbacks of an extension promise about nodes and stacks. -/
structure Extension.Sound (P : Config) (e : Extension) : Prop where
  reads : e.Reads
  turns : e.TakesTurns P
  edits : e.EditsNodes
  produces : ∀ f, e.matchInline = some f → ∀ options subj, subj.pos < subj.input.length →
    ∀ subj' node, f options subj subj.peekChar = (subj', some node) → Produces subj (subj', node)

namespace Layout

variable {P : Config} {subj : Subject} {marks : List Mark}

/-- Another child, and perhaps a mark for it. -/
theorem extend {subj' : Subject} {node : Node} (layout : Layout P subj marks) (extra : List Mark)
    (forward : subj.pos ≤ subj'.pos) (beyond : ∀ m ∈ extra, subj.pos < m.position)
    (new : NewNode subj (subj', node)) (children : subj'.children = subj.children) (parent : subj'.parent = subj.parent)
    (delims : subj'.delims = ((marks ++ extra).filterMap Mark.delimiter?).reverse)
    (brackets : subj'.brackets.map (fun b => (b.position, b.inlText)) =
      ((marks ++ extra).filterMap Mark.bracket?).reverse)
    (single : extra.Pairwise fun a b => a.position < b.position)
    (here : (extra.map Mark.inlText).Sublist [node.id])
    (now : ∀ m ∈ extra, m.position = subj'.pos)
    (texts : ∀ d, .delimiter d ∈ extra → DelimiterText d node)
    (openers : ∀ p i, .bracket p i ∈ extra → node.type = .text ∧ node.children = []) :
    Layout P (subj'.appendChild node) (marks ++ extra) := by
  have atNew : ∀ m ∈ extra, m.inlText = node.id := fun m member =>
    List.mem_singleton.mp (here.subset (List.mem_map_of_mem member))
  have old : ∀ m ∈ marks, m.inlText < subj.nextId := fun m member =>
    layout.fresh _ ((ids_sublist_addresses _).subset
      (layout.order.subset (List.mem_map_of_mem member)))
  have added : subj.nextId ≤ node.id := (new.new node.id (by rw [addresses_cons]; simp)).1
  have siblings : (subj'.appendChild node).children = subj.children ++ [node] := by
    rw [← children]
    rfl
  refine ⟨delims, brackets, ?order, ?sorted, ?within, ?texts, ?openers, ?distinct, ?fresh, ?inline,
    fun t isInline => ?accepts⟩
  case order =>
    rw [siblings, List.map_append, List.map_append]
    exact layout.order.append here
  case sorted =>
    refine List.pairwise_append.mpr ⟨layout.sorted, single, fun a before b after => ?_⟩
    exact (layout.within a before).trans_lt (beyond b after)
  case within =>
    intro m member
    rcases List.mem_append.mp member with before | after
    · exact (layout.within m before).trans forward
    · exact (now m after).le
  case texts =>
    intro d member n among at'
    rw [siblings, List.mem_append, List.mem_singleton] at among
    rcases List.mem_append.mp member with before | after
    · rcases among with among | rfl
      · exact layout.texts d before n among at'
      · exact absurd added (not_le.mpr (at'.trans_lt (old _ before)))
    · rcases among with among | rfl
      · have inside := layout.fresh n.id (mem_addresses_of_mem among)
        rw [at', show d.inlText = node.id from atNew _ after] at inside
        exact absurd added (not_le.mpr inside)
      · exact texts d after
  case openers =>
    intro p i member n among at'
    rw [siblings, List.mem_append, List.mem_singleton] at among
    rcases List.mem_append.mp member with before | after
    · rcases among with among | rfl
      · exact layout.openers p i before n among at'
      · exact absurd added (not_le.mpr (at'.trans_lt (old _ before)))
    · rcases among with among | rfl
      · have inside := layout.fresh n.id (mem_addresses_of_mem among)
        rw [at', show i = node.id from atNew _ after] at inside
        exact absurd added (not_le.mpr inside)
      · exact openers p i after
  case distinct =>
    rw [siblings, addresses_append, List.nodup_append]
    refine ⟨layout.distinct, new.distinct, fun i before j after same => ?_⟩
    exact absurd (layout.fresh i before) (not_lt.mpr (same ▸ (new.new j after).1))
  case fresh =>
    intro i inside
    rw [siblings, addresses_append, List.mem_append] at inside
    rcases inside with before | after
    · exact (layout.fresh i before).trans_le new.grows
    · exact (new.new i after).2
  case inline =>
    intro n among
    rw [siblings, List.mem_append, List.mem_singleton] at among
    rcases among with among | rfl
    · exact layout.inline n among
    · exact new.inline
  case accepts =>
    show P.nodeCanContainType subj'.parent t = true
    rw [parent]
    exact layout.accepts t isInline

/-- The node that a call of `parse_inline` makes becomes the last child. -/
theorem appendChild {r : Subject × Node} (layout : Layout P subj marks)
    (advances : Advances subj r.1) (produces : Produces subj r) :
    ∃ marks', Layout P (r.1.appendChild r.2) marks' := by
  have brackets : r.1.brackets.map (fun b => (b.position, b.inlText)) =
      (marks.filterMap Mark.bracket?).reverse := produces.brackets ▸ layout.brackets
  rcases produces.delims with same | ⟨d, pushed, here, now, text⟩
  · refine ⟨marks ++ [], layout.extend [] advances.beyond.le nofun produces.new produces.children
      produces.parent ?_ ?_ .nil (List.nil_sublist _) nofun nofun nofun⟩
    · rw [same, List.append_nil, layout.delims]
    · rw [List.append_nil, brackets]
  · have beyond : ∀ m ∈ [Mark.delimiter d], subj.pos < m.position := by
      intro m member
      obtain rfl := List.mem_singleton.mp member
      exact advances.beyond.trans_eq now.symm
    refine ⟨marks ++ [.delimiter d], layout.extend [.delimiter d] advances.beyond.le beyond
      produces.new produces.children produces.parent ?_ ?_ (List.pairwise_singleton _ _) ?_ ?_ ?_ ?_⟩
    · rw [pushed, layout.delims, List.filterMap_append]
      simp [Mark.delimiter?]
    · rw [brackets, List.filterMap_append]
      simp [Mark.bracket?]
    · exact (by simp [Mark.inlText, here])
    · intro m member
      obtain rfl := List.mem_singleton.mp member
      exact now
    · intro d' member
      obtain rfl := Mark.delimiter.inj (List.mem_singleton.mp member)
      exact text
    · intro p i member
      cases List.mem_singleton.mp member

/-- Marks may be given up, and the position may advance. -/
theorem fewer {subj' : Subject} {marks' : List Mark} (layout : Layout P subj marks)
    (sublist : marks'.Sublist marks) (same : subj'.children = subj.children)
    (parent : subj'.parent = subj.parent) (nextId : subj.nextId ≤ subj'.nextId)
    (forward : subj.pos ≤ subj'.pos)
    (delims : subj'.delims = (marks'.filterMap Mark.delimiter?).reverse)
    (brackets : subj'.brackets.map (fun b => (b.position, b.inlText)) =
      (marks'.filterMap Mark.bracket?).reverse) : Layout P subj' marks' where
  delims := delims
  brackets := brackets
  order := by
    rw [same]
    exact (sublist.map _).trans layout.order
  sorted := layout.sorted.sublist sublist
  within m member := (layout.within m (sublist.subset member)).trans forward
  texts d member := by
    rw [same]
    exact layout.texts d (sublist.subset member)
  openers p i member := by
    rw [same]
    exact layout.openers p i (sublist.subset member)
  distinct := same ▸ layout.distinct
  fresh i inside := (layout.fresh i (same ▸ inside)).trans_le nextId
  inline := same ▸ layout.inline
  accepts := parent ▸ layout.accepts

/-! ### The opener of a closing bracket -/

/-- The marks on the two sides of the last bracket. -/
theorem exists_opener {opener : Bracket} (layout : Layout P subj marks)
    (top : opener ∈ subj.brackets.head?) :
    ∃ before after, marks = before ++ .bracket opener.position opener.inlText :: after ∧
      after.filterMap Mark.bracket? = [] ∧
      subj.brackets.tail.map (fun b => (b.position, b.inlText)) =
        (before.filterMap Mark.bracket?).reverse := by
  obtain ⟨below, stack⟩ : ∃ below, subj.brackets = opener :: below := by
    cases stack : subj.brackets with
    | nil => simp [stack] at top
    | cons b below =>
      rw [stack] at top
      exact ⟨below, by rw [Option.some.inj top]⟩
  have brackets := layout.brackets
  rw [stack, List.map_cons, eq_comm, List.reverse_eq_cons_iff] at brackets
  obtain ⟨first, last, rfl, firstBrackets, lastBrackets⟩ := List.filterMap_eq_append_iff.mp brackets
  obtain ⟨between, m, after, rfl, skipped, isOpener, rest⟩ := List.filterMap_eq_cons_iff.mp lastBrackets
  have opens : m = .bracket opener.position opener.inlText := by
    cases m with
    | delimiter d => cases isOpener
    | bracket p i =>
      obtain ⟨rfl, rfl⟩ := Prod.mk.inj (Option.some.inj isOpener)
      rfl
  refine ⟨first ++ between, after, ?_, rest, ?_⟩
  · rw [opens, List.append_assoc]
  · have none : between.filterMap Mark.bracket? = [] :=
      List.filterMap_eq_nil_iff.mpr skipped
    rw [stack, List.tail_cons, List.filterMap_append, firstBrackets, none, List.append_nil,
      List.reverse_reverse]

theorem filterMap_opener (before after : List Mark) (position : Nat) (i : NodeId) :
    (before ++ .bracket position i :: after).filterMap Mark.delimiter? =
      (before ++ after).filterMap Mark.delimiter? := by
  simp [List.filterMap_append, List.filterMap_cons, Mark.delimiter?]

/-- The opener may be given up. -/
theorem popBracket (layout : Layout P subj marks) : ∃ marks', Layout P (popBracket subj) marks' := by
  cases stack : subj.brackets with
  | nil =>
    refine ⟨marks, layout.fewer (.refl _) rfl rfl le_rfl le_rfl layout.delims ?_⟩
    rw [← layout.brackets, CmarkGfm.popBracket, stack]
    rfl
  | cons opener rest =>
  have top : opener ∈ subj.brackets.head? := by
    rw [stack]
    rfl
  obtain ⟨before, after, rfl, noBrackets, below⟩ := layout.exists_opener top
  refine ⟨before ++ after, layout.fewer (List.Sublist.append_left (List.sublist_cons_self _ _) _)
    rfl rfl le_rfl le_rfl ?_ ?_⟩
  · rw [← filterMap_opener before after opener.position opener.inlText]
    exact layout.delims
  · rw [List.filterMap_append, noBrackets, List.append_nil]
    exact below

theorem delimiters_sublist (l : List Mark) :
    ((l.filterMap Mark.delimiter?).map Delimiter.inlText).Sublist (l.map Mark.inlText) := by
  induction l with
  | nil => exact .slnil
  | cons m l ih =>
    cases m with
    | delimiter d => exact ih.cons_cons _
    | bracket p i => exact ih.cons _

/-! ### Splicing a node in for the opener -/

/-- The children on the two sides of the text node of the opener, with the marks there. -/
theorem split_children {opener : Bracket} {before after : List Mark}
    (layout : Layout P subj (before ++ .bracket opener.position opener.inlText :: after)) :
    ∃ l n r, subj.children = l ++ n :: r ∧ n.id = opener.inlText ∧ n.type = .text ∧ n.children = [] ∧
      opener.inlText ∉ l.map Node.id ∧
      (before.map Mark.inlText).Sublist (l.map Node.id) ∧
      (after.map Mark.inlText).Sublist (r.map Node.id) := by
  have order := layout.order
  rw [List.map_append, List.map_cons] at order
  obtain ⟨l, n, r, children, here, left, right⟩ := exists_split_of_sublist order
  have ids := (ids_sublist_addresses _).nodup layout.distinct
  have text := layout.openers opener.position opener.inlText (by simp) n (by simp [children]) here
  refine ⟨l, n, r, children, here, text.1, text.2, fun inside => ?_, left, right⟩
  rw [children, List.map_append, List.map_cons, List.nodup_append] at ids
  exact ids.2.2 _ inside n.id List.mem_cons_self here.symm

theorem canInsertBeside_children {i : NodeId} {t : NodeType} (layout : Layout P subj marks)
    (member : i ∈ subj.children.map Node.id) (isInline : t.isInline = true) :
    canInsertBeside P subj.parent i t subj.children = true := by
  rw [canInsertBeside, familyOf?, if_pos (hasSibling_iff.mpr member)]
  exact layout.accepts t isInline

/-- A node that takes all siblings after the opener. -/
theorem replaceOpener_eq {l r : Forest} {n inl : Node} {i : NodeId} {takes : Node → Bool}
    (here : n.id = i) (before : i ∉ l.map Node.id) (all : ∀ m ∈ r, takes m = true) :
    replaceOpener i true inl takes (l ++ n :: r) = l ++ [.mk inl.id inl.data r] := by
  have refused : r.filter (fun m => !takes m) = [] := by
    rw [List.filter_eq_nil_iff]
    intro m member
    simp [all m member]
  rw [replaceOpener, editSiblings, if_pos (hasSibling_iff.mpr (by simp [here])),
    siblingsBefore_split here before, siblingsAfter_split here before]
  dsimp only
  rw [List.filter_eq_self.mpr all, refused]
  simp

/-- The delimiters below an opener and those above it. -/
theorem delims_split {opener : Bracket} {before after : List Mark}
    (layout : Layout P subj (before ++ .bracket opener.position opener.inlText :: after)) :
    subj.delims = (after.filterMap Mark.delimiter?).reverse ++ (before.filterMap Mark.delimiter?).reverse ∧
      (∀ d ∈ (before.filterMap Mark.delimiter?).reverse, d.position < opener.position) ∧
      ∀ d ∈ after.filterMap Mark.delimiter?, opener.position ≤ d.position := by
  have sorted := layout.sorted
  rw [List.pairwise_append, List.pairwise_cons] at sorted
  obtain ⟨_, ⟨above, _⟩, below⟩ := sorted
  refine ⟨?_, fun d member => ?_, fun d member => ?_⟩
  · rw [layout.delims, filterMap_opener, List.filterMap_append, List.reverse_append]
  · exact below _ (Mark.mem_delimiters.mp (List.mem_reverse.mp member)) _ List.mem_cons_self
  · exact (above _ (Mark.mem_delimiters.mp member)).le

/-- After the splice the delimiters above the opener are those of a zone. -/
theorem zone {opener : Bracket} {before after : List Mark} {z : Zone} {l r : Forest} {n : Node}
    {spliced : Subject}
    (layout : Layout P subj (before ++ .bracket opener.position opener.inlText :: after))
    (children : subj.children = l ++ n :: r)
    (right : (after.map Mark.inlText).Sublist (r.map Node.id))
    (siblings : spliced.children = z.fill r) (distinct : (addresses (z.fill r)).Nodup)
    (fresh : ∀ i ∈ addresses (z.fill r), i < spliced.nextId)
    (accepts : ∀ t : NodeType, t.isInline → P.nodeCanContainType (z.owner spliced.parent) t) :
    EmphasisZone P z opener.position (before.filterMap Mark.delimiter?).reverse
      ⟨spliced, (before.filterMap Mark.delimiter?).reverse, (after.filterMap Mark.delimiter?).reverse.reverse⟩
      [] r := by
  have stack : Emphasis.stack ⟨spliced, (before.filterMap Mark.delimiter?).reverse,
      (after.filterMap Mark.delimiter?).reverse.reverse⟩ [] = after.filterMap Mark.delimiter? := by
    simp [Emphasis.stack]
  refine ⟨siblings, rfl, distinct, fresh, accepts, fun m member => ?_, ?_, ?_, ?_⟩
  · exact layout.inline m (by simp [children, member])
  · rw [stack]
    exact (delimiters_sublist after).trans right
  · intro d member m among
    rw [stack] at member
    have inside := Mark.mem_delimiters.mp member
    exact layout.texts d (by simp [inside]) m (by simp [children, among])
  · rw [stack]
    exact layout.delims_split.2.2

/-- The addresses with a new node around some siblings. -/
theorem nodup_new {l m r : Forest} {i : NodeId} (d : NodeData)
    (distinct : (addresses (l ++ (m ++ r))).Nodup) (fresh : ∀ j ∈ addresses (l ++ (m ++ r)), j < i) :
    (addresses (l ++ .mk i d m :: r)).Nodup ∧ ∀ j ∈ addresses (l ++ .mk i d m :: r), j < i + 1 := by
  have perm := addresses_wrap (l := l) (m := m) (r := r) i d
  refine ⟨perm.nodup_iff.mpr (List.nodup_cons.mpr ⟨fun inside => ?_, distinct⟩), fun j inside => ?_⟩
  · exact Nat.lt_irrefl i (fresh i inside)
  · rcases List.mem_cons.mp (perm.mem_iff.mp inside) with rfl | old
    · exact Nat.lt_succ_self _
    · exact (fresh j old).trans (Nat.lt_succ_self _)

/-- The addresses when a new node takes the place of the opener. -/
theorem nodup_replace {l r : Forest} {n : Node} {i : NodeId} (d : NodeData)
    (distinct : (addresses (l ++ n :: r)).Nodup) (fresh : ∀ j ∈ addresses (l ++ n :: r), j < i) :
    (addresses (l ++ [.mk i d r])).Nodup ∧ ∀ j ∈ addresses (l ++ [.mk i d r]), j < i + 1 := by
  have fewer : (addresses (l ++ (r ++ []))).Sublist (addresses (l ++ n :: r)) := by
    rw [List.append_nil]
    exact addresses_remove
  exact nodup_new d (fewer.nodup distinct) fun j inside => fresh j (fewer.subset inside)

/-- A node without extension takes all inlines, if its type does. -/
theorem accepts_of_plain {d : NodeData} (plain : d.extension = none)
    (contains : ∀ t : NodeType, t.isInline → d.type.canContainType t) (t : NodeType)
    (isInline : t.isInline = true) : P.nodeCanContainType d t = true := by
  unfold Config.nodeCanContainType
  rw [if_neg (by rintro rfl; cases isInline)]
  have none : P.extensionOf d = none := by rw [Config.extensionOf, plain, Option.bind_none]
  rw [none]
  exact contains t isInline

theorem containsInline {type : NodeType}
    (holds : type = .link ∨ type = .image ∨ type = .attribute ∨ type = .paragraph ∨ type = .heading)
    (t : NodeType) (isInline : t.isInline = true) : type.canContainType t = true := by
  have other : t ≠ .document := by
    rintro rfl
    cases isInline
  rcases holds with rfl | rfl | rfl | rfl | rfl <;>
    simp [NodeType.canContainType, other, isInline]

section

variable {opener : Bracket} {before after : List Mark}
  (layout : Layout P subj (before ++ .bracket opener.position opener.inlText :: after))

include layout

theorem zone_link (url title : Bytes) :
    ∃ l r n d, subj.children = l ++ n :: r ∧ n.id = opener.inlText ∧
      (before.map Mark.inlText).Sublist (l.map Node.id) ∧
      d.type = (if opener.type = .image then .image else .link) ∧ d.as = .link url title ∧
      EmphasisZone P ⟨l, some (subj.nextId, d)⟩ opener.position
        (before.filterMap Mark.delimiter?).reverse
        ⟨linkSpliced P subj opener url title, (before.filterMap Mark.delimiter?).reverse,
          (after.filterMap Mark.delimiter?).reverse.reverse⟩ [] r := by
  obtain ⟨l, n, r, children, here, _, _, apart, left, right⟩ := layout.split_children
  have inside : opener.inlText ∈ subj.children.map Node.id := by simp [children, here]
  have distinct := layout.distinct
  have fresh := layout.fresh
  rw [children] at distinct fresh
  let d : NodeData :=
    { type := if opener.type = .image then .image else .link
      as := .link url title
      startLine := (dataOf opener.inlText subj.children).startLine
      startColumn := (dataOf opener.inlText subj.children).startColumn
      endLine := subj.line
      endColumn := (subj.pos : Int) + subj.columnOffset + subj.blockOffset }
  have type : d.type = (if opener.type = .image then .image else .link) := rfl
  have accepted : canInsertBeside P subj.parent opener.inlText d.type subj.children = true := by
    refine layout.canInsertBeside_children inside ?_
    rw [type]
    split <;> rfl
  have spliced : (linkSpliced P subj opener url title).children = l ++ [.mk subj.nextId d r] := by
    show replaceOpener opener.inlText (canInsertBeside P subj.parent opener.inlText d.type subj.children)
      (.leaf subj.nextId d) (fun _ => true) subj.children = _
    rw [accepted, children, replaceOpener_eq here apart fun _ _ => rfl]
    rfl
  obtain ⟨distinct', fresh'⟩ := nodup_replace d distinct fresh
  have contains : d.type = .link ∨ d.type = .image := by
    rw [type]
    split
    next => exact .inr rfl
    next => exact .inl rfl
  exact ⟨l, r, n, d, children, here, left, type, rfl, layout.zone children right spliced distinct' fresh'
    (accepts_of_plain (d := d) rfl (containsInline (contains.imp_right .inl)))⟩

theorem zone_attribute (attributes : Bytes) :
    ∃ l r n d, subj.children = l ++ n :: r ∧ n.id = opener.inlText ∧
      (before.map Mark.inlText).Sublist (l.map Node.id) ∧ d.type = .attribute ∧ d.as = .attribute attributes ∧
      EmphasisZone P ⟨l, some (subj.nextId, d)⟩ opener.position
        (before.filterMap Mark.delimiter?).reverse
        ⟨attributeSpliced P subj opener attributes, (before.filterMap Mark.delimiter?).reverse,
          (after.filterMap Mark.delimiter?).reverse.reverse⟩ [] r := by
  obtain ⟨l, n, r, children, here, _, _, apart, left, right⟩ := layout.split_children
  have inside : opener.inlText ∈ subj.children.map Node.id := by simp [children, here]
  have distinct := layout.distinct
  have fresh := layout.fresh
  rw [children] at distinct fresh
  let d : NodeData :=
    { type := .attribute
      as := .attribute attributes
      startLine := subj.line
      endLine := subj.line
      startColumn := (dataOf opener.inlText subj.children).startColumn
      endColumn := (subj.pos : Int) + subj.columnOffset + subj.blockOffset }
  have contains : ∀ t : NodeType, t.isInline → P.nodeCanContainType d t :=
    accepts_of_plain rfl (containsInline (.inr (.inr (.inl rfl))))
  have accepted : canInsertBeside P subj.parent opener.inlText d.type subj.children = true :=
    layout.canInsertBeside_children inside rfl
  have spliced : (attributeSpliced P subj opener attributes).children =
      l ++ [.mk subj.nextId d r] := by
    show replaceOpener opener.inlText (canInsertBeside P subj.parent opener.inlText d.type subj.children)
      (.leaf subj.nextId d) (fun n => P.nodeCanContainType d n.type) subj.children = _
    rw [accepted, children, replaceOpener_eq here apart fun m member => ?_]
    · rfl
    · exact contains m.type (layout.inline m (by simp [children, member]))
  obtain ⟨distinct', fresh'⟩ := nodup_replace d distinct fresh
  exact ⟨l, r, n, d, children, here, left, rfl, rfl,
    layout.zone children right spliced distinct' fresh' contains⟩

theorem zone_footnote (next : Node) :
    ∃ l r n d, subj.children = l ++ n :: r ∧ n.id = opener.inlText ∧
      (before.map Mark.inlText).Sublist (l.map Node.id) ∧ d.type = .footnoteReference ∧
      d.as = .literal (footnoteLiteral P subj next ((subj.pos : Int) + subj.columnOffset + subj.blockOffset -
        (dataOf opener.inlText subj.children).startColumn - 2).toNat) ∧
      EmphasisZone P ⟨l ++ [.leaf subj.nextId d, n], none⟩ opener.position
        (before.filterMap Mark.delimiter?).reverse
        ⟨footnoteSpliced P subj opener next, (before.filterMap Mark.delimiter?).reverse,
          (after.filterMap Mark.delimiter?).reverse.reverse⟩ [] r := by
  obtain ⟨l, n, r, children, here, _, _, apart, left, right⟩ := layout.split_children
  have inside : opener.inlText ∈ subj.children.map Node.id := by simp [children, here]
  have distinct := layout.distinct
  have fresh := layout.fresh
  rw [children] at distinct fresh
  let startColumn := (dataOf opener.inlText subj.children).startColumn
  let endColumn := (subj.pos : Int) + subj.columnOffset + subj.blockOffset
  let d : NodeData :=
    { type := .footnoteReference
      as := .literal (footnoteLiteral P { subj with nextId := subj.nextId + 1 } next
        (endColumn - startColumn - 2).toNat)
      startLine := subj.line
      endLine := subj.line
      startColumn := startColumn
      endColumn := endColumn }
  have accepted : canInsertBeside P subj.parent opener.inlText d.type subj.children = true :=
    layout.canInsertBeside_children inside rfl
  have spliced : (footnoteSpliced P subj opener next).children =
      (l ++ [.leaf subj.nextId d, n]) ++ r := by
    show editSiblings opener.inlText (fun siblings => siblingsBefore opener.inlText siblings ++
      (if canInsertBeside P subj.parent opener.inlText d.type subj.children then
        [.leaf subj.nextId d] else []) ++ siblingsFrom opener.inlText siblings) subj.children = _
    rw [accepted, children, editSiblings, if_pos (hasSibling_iff.mpr (by simp [here])),
      siblingsBefore_split here apart, siblingsFrom_split here apart]
    simp
  have regrouped : (l ++ [.leaf subj.nextId d, n]) ++ r = l ++ .mk subj.nextId d [] :: (n :: r) := by
    simp [Node.leaf]
  obtain ⟨distinct', fresh'⟩ := nodup_new (m := []) d distinct fresh
  rw [← regrouped] at distinct' fresh'
  exact ⟨l, r, n, d, children, here, left, rfl, rfl,
    layout.zone children right spliced distinct' fresh' layout.accepts⟩

/-- What closes the bracket leaves the children before the opener, and the marks there. -/
theorem closed {subj' : Subject} {l r r' : Forest} {n : Node}
    (children : subj.children = l ++ n :: r)
    (left : (before.map Mark.inlText).Sublist (l.map Node.id))
    (children' : subj'.children = l ++ r') (new : ∀ m ∈ r', subj.nextId ≤ m.id)
    (inline : ∀ m ∈ r', m.type.isInline = true) (distinct : (addresses subj'.children).Nodup)
    (fresh : ∀ i ∈ addresses subj'.children, i < subj'.nextId)
    (parent : subj'.parent = subj.parent) (forward : subj.pos ≤ subj'.pos)
    (delims : subj'.delims = (before.filterMap Mark.delimiter?).reverse)
    (brackets : subj'.brackets.map (fun b => (b.position, b.inlText)) =
      (before.filterMap Mark.bracket?).reverse) : Layout P subj' before := by
  have sublist : before.Sublist (before ++ .bracket opener.position opener.inlText :: after) :=
    List.sublist_append_left _ _
  have old : ∀ m ∈ before, m.inlText < subj.nextId := fun m member =>
    layout.fresh _ ((ids_sublist_addresses _).subset
      (layout.order.subset (List.mem_map_of_mem (sublist.subset member))))
  have among : ∀ {i}, i < subj.nextId → ∀ m ∈ subj'.children, m.id = i → m ∈ subj.children := by
    intro i low m member here
    rw [children', List.mem_append] at member
    rcases member with first | later
    · simp [children, first]
    · exact absurd (here ▸ new m later) (not_le.mpr low)
  refine ⟨delims, brackets, ?_, layout.sorted.sublist sublist, fun m member => ?_,
    fun d member m inside here => ?_, fun p i member m inside here => ?_, distinct, fresh,
    fun m member => ?_, fun t isInline => ?_⟩
  · rw [children', List.map_append]
    exact left.trans (List.sublist_append_left _ _)
  · exact (layout.within m (sublist.subset member)).trans forward
  · exact layout.texts d (sublist.subset member) m (among (old _ member) m inside here) here
  · exact layout.openers p i (sublist.subset member) m (among (old _ member) m inside here) here
  · rw [children', List.mem_append] at member
    rcases member with first | later
    · exact layout.inline m (by simp [children, first])
    · exact inline m later
  · rw [parent]
    exact layout.accepts t isInline

end

/-! ### Closing a bracket -/

section

variable (sound : ∀ e ∈ P.syntaxExtensions, e.Sound P)

include sound

/-- The call of `process_emphasis` for the opener works on the siblings of its zone. -/
theorem processEmphasis_zone {opener : Bracket} {before after : List Mark} {z : Zone} {spliced : Subject} {r : Forest}
    (layout : Layout P subj (before ++ .bracket opener.position opener.inlText :: after))
    (zone : EmphasisZone P z opener.position (before.filterMap Mark.delimiter?).reverse
      ⟨spliced, (before.filterMap Mark.delimiter?).reverse,
        (after.filterMap Mark.delimiter?).reverse.reverse⟩ [] r)
    (delims : spliced.delims = subj.delims) :
    ∃ i f', processEmphasis P spliced opener.position =
        { spliced with
          children := z.fill f', nextId := i, delims := (before.filterMap Mark.delimiter?).reverse } ∧
      (∃ runs, Relation.ReflTransGen (EmphasisChange runs) r f') ∧
      (addresses (z.fill f')).Nodup ∧ ∀ j ∈ addresses (z.fill f'), j < i := by
  obtain ⟨split, low, _⟩ := layout.delims_split
  obtain ⟨f', children, changes, distinct, fresh, left, _⟩ := processEmphasisWith_spec
    (fun e member => (sound e member).turns) OpenersBottom.get (delims.trans split) low zone
  obtain ⟨c, i, ds, edited⟩ := (emphasisFrame_edits fun e member => (sound e member).edits).processEmphasis
    spliced opener.position
  have same : processEmphasisWith P OpenersBottom.get spliced opener.position =
      { spliced with children := c, nextId := i, delims := ds } := edited
  rw [same] at children fresh left
  refine ⟨i, f', ?_, ⟨_, changes⟩, distinct, fresh⟩
  rw [edited, show c = z.fill f' from children, show ds = _ from left]

/-- The opener and what is after it is cut off. -/
theorem makeFootnoteReference_children {opener : Bracket} {before after : List Mark}
    (layout : Layout P subj (before ++ .bracket opener.position opener.inlText :: after)) (next : Node) :
    ∃ l r n d i, subj.children = l ++ n :: r ∧ n.id = opener.inlText ∧
      (before.map Mark.inlText).Sublist (l.map Node.id) ∧ d.type = .footnoteReference ∧
      d.as = .literal (footnoteLiteral P subj next ((subj.pos : Int) + subj.columnOffset + subj.blockOffset -
        (dataOf opener.inlText subj.children).startColumn - 2).toNat) ∧
      makeFootnoteReference P subj opener next = CmarkGfm.popBracket { footnoteSpliced P subj opener next with
        children := l ++ [.leaf subj.nextId d], nextId := i, delims := (before.filterMap Mark.delimiter?).reverse } ∧
      (addresses (l ++ [Node.leaf subj.nextId d])).Nodup ∧
      ∀ j ∈ addresses (l ++ [Node.leaf subj.nextId d]), j < i := by
  obtain ⟨l, r, n, d, children, here, left, type, literal, zone⟩ := layout.zone_footnote next
  obtain ⟨i, f', emphasized, _, distinct, fresh⟩ := processEmphasis_zone sound layout zone rfl
  have regrouped : (l ++ [.leaf subj.nextId d, n]) ++ f' = (l ++ [.leaf subj.nextId d]) ++ n :: f' := by
    simp
  change (addresses ((l ++ [.leaf subj.nextId d, n]) ++ f')).Nodup at distinct
  change ∀ j ∈ addresses ((l ++ [.leaf subj.nextId d, n]) ++ f'), j < i at fresh
  rw [regrouped] at distinct fresh
  have apart : opener.inlText ∉ (l ++ [Node.leaf subj.nextId d]).map Node.id :=
    (not_mem_sides (z := ⟨[], none⟩) distinct here).1
  have cut : editSiblings opener.inlText (siblingsBefore opener.inlText)
      ((l ++ [.leaf subj.nextId d, n]) ++ f') = l ++ [.leaf subj.nextId d] := by
    rw [regrouped, editSiblings, if_pos (hasSibling_iff.mpr (by simp [here])),
      siblingsBefore_split here apart]
  have fewer := addresses_prefix (l ++ [.leaf subj.nextId d]) (n :: f')
  refine ⟨l, r, n, d, i, children, here, left, type, literal, ?_, fewer.nodup distinct, fun j inside => fresh j (fewer.subset inside)⟩
  rw [makeFootnoteReference_eq, emphasized]
  dsimp only [Zone.fill]
  rw [cut]

variable {opener : Bracket} (layout : Layout P subj marks) (top : opener ∈ subj.brackets.head?)

include layout top

theorem matchLink (url title : Bytes) :
    ∃ marks', Layout P (matchLink P subj opener url title) marks' := by
  obtain ⟨before, after, rfl, noBrackets, below⟩ := layout.exists_opener top
  obtain ⟨l, r, n, d, children, here, left, type, _, zone⟩ := layout.zone_link url title
  obtain ⟨i, f', emphasized, _, distinct, fresh⟩ := processEmphasis_zone sound layout zone rfl
  rw [matchLink_eq, emphasized]
  refine ⟨before, @Layout.closed _ _ _ _ _ layout _ _ _ [.mk subj.nextId d f'] _ children left rfl (fun m member => ?_)
    (fun m member => ?_) distinct fresh rfl le_rfl rfl below⟩
  · obtain rfl := List.mem_singleton.mp member
    exact le_rfl
  · obtain rfl := List.mem_singleton.mp member
    rw [Node.type, Node.data_mk, type]
    split <;> rfl

theorem matchAttribute (attributes : Bytes) :
    ∃ marks', Layout P (matchAttribute P subj opener attributes) marks' := by
  obtain ⟨before, after, rfl, noBrackets, below⟩ := layout.exists_opener top
  obtain ⟨l, r, n, d, children, here, left, type, _, zone⟩ := layout.zone_attribute attributes
  obtain ⟨i, f', emphasized, _, distinct, fresh⟩ := processEmphasis_zone sound layout zone rfl
  rw [matchAttribute_eq, emphasized]
  refine ⟨before, @Layout.closed _ _ _ _ _ layout _ _ _ [.mk subj.nextId d f'] _ children left rfl (fun m member => ?_)
    (fun m member => ?_) distinct fresh rfl le_rfl rfl below⟩
  · obtain rfl := List.mem_singleton.mp member
    exact le_rfl
  · obtain rfl := List.mem_singleton.mp member
    rw [Node.type, Node.data_mk, type]
    rfl

theorem makeFootnoteReference (next : Node) :
    ∃ marks', Layout P (makeFootnoteReference P subj opener next) marks' := by
  obtain ⟨before, after, rfl, noBrackets, below⟩ := layout.exists_opener top
  obtain ⟨l, r, n, d, i, children, _, left, type, _, made, distinct, fresh⟩ :=
    makeFootnoteReference_children sound layout next
  rw [made]
  refine ⟨before, @Layout.closed _ _ _ _ _ layout _ _ _ [.leaf subj.nextId d] _ children left rfl (fun m member => ?_)
    (fun m member => ?_) distinct fresh rfl le_rfl rfl below⟩
  · obtain rfl := List.mem_singleton.mp member
    exact le_rfl
  · obtain rfl := List.mem_singleton.mp member
    rw [Node.type, Node.data_leaf, type]
    rfl

end

/-! ### One inline -/

/-- After a node that was made is appended the stacks are laid out again. -/
def Lays (P : Config) (r : Subject × Option Node) : Prop :=
  ∃ marks, Layout P (r.2.elim r.1 r.1.appendChild) marks

/-- Reading ahead changes nothing here. -/
theorem lookAhead (layout : Layout P subj marks) {pos : Nat} {refmap : Map Reference}
    {clones : List Clone} (forward : subj.pos ≤ pos) :
    Layout P (subj.lookAhead pos refmap clones) marks :=
  layout.fewer (.refl _) rfl rfl le_rfl forward layout.delims layout.brackets

/-- A closing bracket as text. -/
theorem literalCloseBracket (layout : Layout P subj marks) : Lays P (literalCloseBracket subj) := by
  refine ⟨marks ++ [], layout.extend [] le_rfl nofun (.of_leaf (makes_alloc subj rfl))
    rfl rfl ?_ ?_ .nil (List.nil_sublist _) nofun nofun nofun⟩
  · rw [List.append_nil]
    exact layout.delims
  · rw [List.append_nil]
    exact layout.brackets

/-- The bracket stack after a push, as the marks see it. -/
theorem brackets_pushBracket (subj : Subject) (type : BracketType) (node : Node) :
    (pushBracket subj type node).brackets.map (fun b => (b.position, b.inlText)) =
      (subj.pos, node.id) :: subj.brackets.map fun b => (b.position, b.inlText) := by
  unfold pushBracket
  dsimp only
  cases subj.brackets <;> rfl

/-- An opening bracket. -/
theorem openBracket (layout : Layout P subj marks) (type : BracketType) {s : Bytes} (some : s ≠ []) :
    Lays P (made (openBracket subj type s)) := by
  have beyond : subj.pos < subj.pos + s.length :=
    Nat.lt_add_of_pos_right (List.length_pos_of_ne_nil some)
  have pushed : (CmarkGfm.openBracket subj type s).1.brackets.map (fun b => (b.position, b.inlText)) =
      (subj.pos + s.length, subj.nextId) :: subj.brackets.map fun b => (b.position, b.inlText) :=
    brackets_pushBracket ..
  refine ⟨marks ++ [Mark.bracket (subj.pos + s.length) subj.nextId], @Layout.extend _ _ _
    (CmarkGfm.openBracket subj type s).1 (CmarkGfm.openBracket subj type s).2 layout
    [.bracket (subj.pos + s.length) subj.nextId] beyond.le ?_ (newNode_openBracket subj type s) rfl rfl
    ?_ ?_ (List.pairwise_singleton _ _) (.refl _) ?_ ?_ ?_⟩
  · intro m member
    obtain rfl := List.mem_singleton.mp member
    exact beyond
  · have none : [Mark.bracket (subj.pos + s.length) subj.nextId].filterMap Mark.delimiter? = [] := rfl
    rw [List.filterMap_append, none, List.append_nil]
    exact layout.delims
  · rw [pushed, layout.brackets, List.filterMap_append]
    simp [Mark.bracket?]
  · intro m member
    obtain rfl := List.mem_singleton.mp member
    rfl
  · intro d member
    cases List.mem_singleton.mp member
  · exact fun _ _ _ => ⟨rfl, rfl⟩

section

variable (sound : ∀ e ∈ P.syntaxExtensions, e.Sound P) (layout : Layout P subj marks)
  (inside : subj.pos < subj.input.length)

include sound layout inside

theorem handleCloseBracket : Lays P (handleCloseBracket P subj) := by
  have ahead : ∀ pos refmap clones, subj.Ahead pos → Layout P (subj.lookAhead pos refmap clones) marks :=
    fun _ _ _ ahead => layout.lookAhead ahead.1.le
  have here : subj.Ahead (subj.pos + 1) := ⟨Nat.lt_succ_self _, inside⟩
  refine handleCloseBracket_cases P ?literal ?popped ?link ?footnote ?«attribute» inside
  case literal =>
    exact fun _ => (ahead _ subj.refmap subj.clones here).literalCloseBracket
  case popped =>
    intro pos refmap clones after
    obtain ⟨marks', popped⟩ := (ahead pos refmap clones after).popBracket
    exact popped.literalCloseBracket
  case link =>
    intro pos refmap clones opener url title after top _
    exact (ahead pos refmap clones after).matchLink sound top url title
  case footnote =>
    intro refmap clones opener next top _ _
    exact (ahead _ refmap clones here).makeFootnoteReference sound top next
  case «attribute» =>
    intro pos refmap clones opener attributes after top _
    exact (ahead pos refmap clones after).matchAttribute sound top attributes

variable {chars : CharTables} (notNul : chars.backslashIspunct.getD ispunct 0 = false)

include notNul

/-- The `switch` of `parse_inline`. -/
theorem dispatchInline : Lays P (dispatchInline P chars subj subj.peekChar) := by
  have reads : ∀ e ∈ P.syntaxExtensions, e.Reads := fun e member => (sound e member).reads
  by_cases closes : subj.peekChar = chr ']'
  · rw [closes]
    exact layout.handleCloseBracket sound inside
  · have new := makesNew_dispatchInline P chars subj closes
    have passes := proceeds_dispatchInline reads inside notNul
    refine dispatchInline_cases (motive := fun r => MakesNew subj r → Proceeds subj r → Lays P r) subj P
      chars subj.peekChar ?simple ?delim ?openBracket ?closeBracket ?nothing new passes
    case simple =>
      intro r same new passes
      obtain nothing | advances := passes
      · cases nothing
      · exact layout.appendChild advances (.of_sameStacks (new r.2 rfl) same)
    case delim =>
      intro _ _ passes
      obtain nothing | advances := passes
      · cases (Prod.mk.inj nothing).2
      · exact layout.appendChild advances (produces_handleDelim chars (P.options.has optSmart) inside)
    case openBracket =>
      intro type s _ _ passes
      obtain nothing | advances := passes
      · cases (Prod.mk.inj nothing).2
      · refine layout.openBracket type ?_
        rintro rfl
        exact Nat.lt_irrefl _ advances.beyond
    case closeBracket => exact fun isClose => absurd isClose closes
    case nothing => exact fun _ _ => ⟨marks, layout⟩

omit layout notNul in
/-- An inline of an extension. -/
theorem produces_tryExtensions {l : List Extension} (attached : ∀ e ∈ l, e ∈ P.syntaxExtensions)
    {subj' : Subject} {node : Node}
    (found : tryExtensions P.options subj.peekChar l subj = (subj', some node)) :
    Produces subj (subj', node) := by
  induction l with
  | nil => cases found
  | cons e rest ih =>
    have later := ih fun e' member => attached e' (List.mem_cons_of_mem e member)
    rw [CmarkGfm.tryExtensions] at found
    split at found
    next => exact later found
    next f callback =>
      have here := sound e (attached e List.mem_cons_self)
      split at found
      next subj'' node' result =>
        obtain ⟨rfl, same⟩ := Prod.mk.inj found
        obtain rfl := Option.some.inj same
        exact here.produces f callback P.options subj inside _ _ result
      next subj'' result =>
        rcases here.reads.inline f callback P.options subj inside with same | ⟨isSome, _⟩
        · rw [same] at result
          obtain rfl := (Prod.mk.inj result).1
          exact later found
        · rw [result] at isSome
          cases isSome

theorem nextInline : Lays P (nextInline P chars subj subj.peekChar) := by
  have reads : ∀ e ∈ P.syntaxExtensions, e.Reads := fun e member => (sound e member).reads
  have dispatched := layout.dispatchInline sound inside notNul
  have passes := proceeds_dispatchInline reads inside notNul
  have tried := advances_tryExtensions reads inside fun e member => mem_syntaxExtensions member
  unfold CmarkGfm.nextInline
  extract_lets initpos
  generalize CmarkGfm.dispatchInline P chars subj subj.peekChar = r at dispatched passes ⊢
  obtain ⟨subj', newInl⟩ := r
  cases newInl with
  | some node => exact dispatched
  | none =>
    dsimp only
    split
    next stays =>
      obtain same | advances := passes
      · obtain rfl : subj' = subj := (Prod.mk.inj same).1
        split
        next subj'' node found =>
          have made := produces_tryExtensions sound inside (fun e member => mem_syntaxExtensions member)
            found
          rw [found] at tried
          rcases tried with nothing | ⟨_, advances⟩
          · cases nothing
          · exact layout.appendChild advances made
        next subj'' found =>
          rw [found] at tried
          rcases tried with same | ⟨isSome, _⟩
          · obtain rfl := (Prod.mk.inj same).1
            exact layout.appendChild (advances_makeText inside P chars)
              (.of_sameStacks (.of_leaf (makes_makeText subj'' P chars)) (sameStacks_makeText subj'' P chars))
          · cases isSome
      · exact absurd stays advances.beyond.ne'
    next => exact dispatched

/-- `parse_inline`. -/
theorem parseInline {subj' : Subject} (parsed : parseInline P chars subj = some subj') :
    ∃ marks', Layout P subj' marks' := by
  have lays := layout.nextInline sound inside notNul
  unfold CmarkGfm.parseInline at parsed
  dsimp only at parsed
  split at parsed
  next => cases parsed
  next =>
    obtain rfl := Option.some.inj parsed
    exact lays

end

end Layout

end CmarkGfm
