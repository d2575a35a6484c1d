import CmarkGfm.Blocks.Process

/-!
# What parsing a line leaves alone

Most of the functions that read a line or set flags keep the blocks as they are, but for flags
and positions. `Quiet` says so once, and what depends on the blocks alone follows from it.
-/

namespace CmarkGfm

/-- The fields of a block on which the structure of the document depends. -/
structure BlockShape where
  type : NodeType
  isOpen : Bool
  content : Bytes
  as : NodeAs
  extension : Option Nat
  parent : Option NodeId
  children : List NodeId

def Block.shape (b : Block) : BlockShape :=
  ⟨b.data.type, b.data.isOpen, b.data.content, b.data.as, b.data.extension, b.parent, b.children⟩

def ParserState.shape (p : ParserState) (i : NodeId) : Option BlockShape :=
  (p.nodes i).map Block.shape

/-- The two states have the same blocks, but for flags and positions. -/
structure Quiet (p p' : ParserState) : Prop where
  shape : p'.shape = p.shape
  root : p'.root = p.root
  current : p'.current = p.current
  nextId : p'.nextId = p.nextId
  asserts : p'.asserts = p.asserts
  refmap : p'.refmap = p.refmap

namespace Quiet

theorem refl (p : ParserState) : Quiet p p := ⟨rfl, rfl, rfl, rfl, rfl, rfl⟩

theorem trans {p p' p'' : ParserState} (first : Quiet p p') (second : Quiet p' p'') :
    Quiet p p'' where
  shape := second.shape.trans first.shape
  root := second.root.trans first.root
  current := second.current.trans first.current
  nextId := second.nextId.trans first.nextId
  asserts := second.asserts.trans first.asserts
  refmap := second.refmap.trans first.refmap

theorem modifyData (p : ParserState) (i : NodeId) (f : NodeData → NodeData)
    (same : ∀ d, (f d).type = d.type ∧ (f d).isOpen = d.isOpen ∧ (f d).content = d.content ∧
      (f d).as = d.as ∧ (f d).extension = d.extension) : Quiet p (p.modifyData i f) := by
  refine ⟨?_, rfl, rfl, rfl, rfl, rfl⟩
  funext j
  by_cases here : j = i
  · subst here
    cases block : p.nodes j with
    | none => simp [ParserState.shape, ParserState.modifyData, ParserState.modify, block]
    | some b =>
      obtain ⟨type, isOpen, content, as, extension⟩ := same b.data
      simp [ParserState.shape, ParserState.modifyData, ParserState.modify, block, Block.shape,
        type, isOpen, content, as, extension]
  · simp [ParserState.shape, ParserState.modifyData, ParserState.modify, here]

end Quiet

/-! ### Reading the line -/

section

variable (input : Bytes) (p : ParserState)

theorem quiet_startLine : Quiet p (startLine input p) := ⟨rfl, rfl, rfl, rfl, rfl, rfl⟩

theorem quiet_findFirstNonspace : Quiet p (findFirstNonspace input p) :=
  ⟨rfl, rfl, rfl, rfl, rfl, rfl⟩

theorem quiet_advanceLoop (columns : Bool) (fuel count : Nat) :
    Quiet p (advanceLoop input columns fuel count p) := by
  induction fuel generalizing count p with
  | zero => exact .refl p
  | succ fuel ih =>
    unfold advanceLoop
    simp only
    split
    next => exact .refl p
    next =>
      split
      next =>
        split
        next =>
          refine .trans ?_ (ih _ _)
          exact ⟨rfl, rfl, rfl, rfl, rfl, rfl⟩
        next =>
          refine .trans ?_ (ih _ _)
          exact ⟨rfl, rfl, rfl, rfl, rfl, rfl⟩
      next =>
        refine .trans ?_ (ih _ _)
        exact ⟨rfl, rfl, rfl, rfl, rfl, rfl⟩

theorem quiet_advanceOffset (count : Int) (columns : Bool) :
    Quiet p (advanceOffset input count columns p) := quiet_advanceLoop input p columns _ _

theorem quiet_advanceTo (pos : Nat) : Quiet p (advanceTo input pos p) :=
  quiet_advanceOffset input p _ _

theorem quiet_advanceOptionalSpace : Quiet p (advanceOptionalSpace input p) := by
  unfold advanceOptionalSpace
  split
  next => exact quiet_advanceOffset input p _ _
  next => exact .refl p

theorem quiet_skipIndentation (P : Config) : Quiet p (skipIndentation P input p) := by
  unfold skipIndentation
  split
  next => exact .refl p
  next => exact quiet_advanceTo input p _

theorem quiet_skipFenceOffset (n : Nat) : Quiet p (skipFenceOffset input n p) := by
  induction n generalizing p with
  | zero => exact .refl p
  | succ n ih =>
    unfold skipFenceOffset
    split
    next => exact (quiet_advanceOffset input p _ _).trans (ih _)
    next => exact .refl p

theorem quiet_skipMarkerSpaces (saveColumn fuel : Nat) :
    Quiet p (skipMarkerSpaces input saveColumn fuel p) := by
  induction fuel generalizing p with
  | zero => exact .refl p
  | succ fuel ih =>
    unfold skipMarkerSpaces
    split
    next => exact (quiet_advanceOffset input p _ _).trans (ih _)
    next => exact .refl p

theorem quiet_markerPadding (matched : Nat) : Quiet p (markerPadding input matched p).1 := by
  unfold markerPadding
  simp only
  split
  next =>
    simp only
    split
    next => exact quiet_advanceOffset input p _ _
    next => exact .refl p
  next => exact quiet_skipMarkerSpaces input p _ _

/-- A scan for a thematic break records at most where it failed. -/
theorem scanThematicBreak_fst :
    ∃ killPos, (scanThematicBreak input p).1 = { p with thematicBreakKillPos := killPos } := by
  unfold scanThematicBreak
  extract_lets offset c
  split
  next => exact ⟨_, rfl⟩
  next =>
    generalize thematicBreakLoop c _ 0 1 = r
    obtain ⟨n, count, nextc⟩ := r
    dsimp only
    split
    next => exact ⟨p.thematicBreakKillPos, rfl⟩
    next => exact ⟨_, rfl⟩

/-- What a block start that was found says about the line. -/
def BlockStart.Found (P : Config) (input : Bytes) (maybeLazy : Bool) (container : NodeId)
    (p : ParserState) : BlockStart → Prop
  | .blockQuote => p.indent < codeIndent ∧ byteAt input p.firstNonspace = chr '>'
  | .atxHeading matched => p.indent < codeIndent ∧
    Scanners.scanAt Scanners.atxHeadingStart input p.firstNonspace = matched ∧ 0 < matched
  | .fencedCode matched => p.indent < codeIndent ∧
    Scanners.scanAt Scanners.openCodeFence input p.firstNonspace = matched ∧ 0 < matched
  | .htmlBlock matched => p.indent < codeIndent ∧
    scanHtmlBlock input p.firstNonspace (p.typeOf container) = matched ∧ 0 < matched
  | .setextHeading lev => p.indent < codeIndent ∧ p.typeOf container = .paragraph ∧
    Scanners.scanAt Scanners.setextHeadingLine input p.firstNonspace = lev ∧ 0 < lev
  | .thematicBreak => p.indent < codeIndent ∧ 0 < (scanThematicBreak input p).2
  | .footnoteDefinition matched => P.options.has optFootnotes ∧
    Scanners.scanAt Scanners.footnoteDefinition input p.firstNonspace = matched ∧ 0 < matched
  | .listItem matched data => p.indent < codeIndent ∧
    parseListMarker input p.firstNonspace (p.typeOf container = .paragraph) = some (matched, data)
  | .indentedCode => codeIndent ≤ p.indent ∧ maybeLazy = false ∧ p.blank = false

/-- Looking for a block start does nothing but perhaps scan for a thematic break, and what is found
is there. -/
theorem findBlockStart_found (P : Config) (allMatched maybeLazy : Bool) (depth : Nat)
    (container : NodeId) :
    ((findBlockStart P input allMatched maybeLazy depth container p).1 = p ∨
      (findBlockStart P input allMatched maybeLazy depth container p).1 =
        (scanThematicBreak input p).1) ∧
    ∀ start, (findBlockStart P input allMatched maybeLazy depth container p).2 = some start →
      start.Found P input maybeLazy container p := by
  have scanned (guard : Bool) :
      ((if guard then scanThematicBreak input p else (p, 0)).1 = p ∨
        (if guard then scanThematicBreak input p else (p, 0)).1 = (scanThematicBreak input p).1) ∧
      (0 < (if guard then scanThematicBreak input p else (p, 0)).2 →
        guard = true ∧ 0 < (scanThematicBreak input p).2) := by
    cases guard with
    | false => exact ⟨.inl rfl, fun none => absurd none (lt_irrefl 0)⟩
    | true => exact ⟨.inr rfl, fun found => ⟨rfl, found⟩⟩
  unfold findBlockStart
  extract_lets indented contType pos atx fence html lev footnote
  have notIndented : !indented → p.indent < codeIndent := by
    intro outside
    simpa [indented] using outside
  split
  next found =>
    refine ⟨.inl rfl, ?_⟩
    rintro start ⟨⟩
    obtain ⟨outside, quote⟩ := Bool.and_eq_true_iff.mp found
    exact ⟨notIndented outside, by simpa using quote⟩
  split
  next found =>
    refine ⟨.inl rfl, ?_⟩
    rintro start ⟨⟩
    obtain ⟨outside, hashes⟩ := Bool.and_eq_true_iff.mp found
    exact ⟨notIndented outside, rfl, by simpa using hashes⟩
  split
  next found =>
    refine ⟨.inl rfl, ?_⟩
    rintro start ⟨⟩
    obtain ⟨outside, opener⟩ := Bool.and_eq_true_iff.mp found
    exact ⟨notIndented outside, rfl, by simpa using opener⟩
  split
  next found =>
    refine ⟨.inl rfl, ?_⟩
    rintro start ⟨⟩
    obtain ⟨outside, tag⟩ := Bool.and_eq_true_iff.mp found
    exact ⟨notIndented outside, rfl, by simpa using tag⟩
  split
  next found =>
    refine ⟨.inl rfl, ?_⟩
    rintro start ⟨⟩
    simp only [Bool.and_eq_true, decide_eq_true_eq] at found
    exact ⟨notIndented found.1.1, found.1.2, rfl, found.2⟩
  obtain ⟨moved, thematicFound⟩ := scanned (!indented &&
    !(decide (contType = .paragraph) && !allMatched) && decide (p.thematicBreakKillPos ≤ pos))
  generalize (if (!indented && !(decide (contType = .paragraph) && !allMatched) &&
    decide (p.thematicBreakKillPos ≤ pos)) = true then scanThematicBreak input p else (p, 0)) = r
    at moved thematicFound ⊢
  obtain ⟨q, thematic⟩ := r
  dsimp -zeta only at moved thematicFound ⊢
  have same : ∃ killPos, q = { p with thematicBreakKillPos := killPos } := by
    rcases moved with rfl | rfl
    · exact ⟨q.thematicBreakKillPos, rfl⟩
    · exact scanThematicBreak_fst input p
  obtain ⟨killPos, rfl⟩ := same
  split
  next found =>
    refine ⟨moved, ?_⟩
    rintro start ⟨⟩
    obtain ⟨guard, here⟩ := thematicFound found
    simp only [Bool.and_eq_true] at guard
    exact ⟨notIndented guard.1.1, here⟩
  split
  next found =>
    refine ⟨moved, ?_⟩
    rintro start ⟨⟩
    simp only [Bool.and_eq_true, decide_eq_true_eq] at found
    exact ⟨found.1.1.2, rfl, found.2⟩
  extract_lets marker
  cases here : marker with
  | some found =>
    refine ⟨moved, ?_⟩
    rintro start ⟨⟩
    simp only [marker] at here
    split at here
    next guard =>
      simp only [Bool.and_eq_true, decide_eq_true_eq] at guard
      exact ⟨guard.1.2, here⟩
    next => cases here
  | none =>
    dsimp only
    split
    next found =>
      refine ⟨moved, ?_⟩
      rintro start ⟨⟩
      simp only [Bool.and_eq_true, Bool.not_eq_true', indented, decide_eq_true_eq] at found
      exact ⟨found.1.1, found.1.2, found.2⟩
    next => exact ⟨moved, nofun⟩

theorem findBlockStart_fst (P : Config) (allMatched maybeLazy : Bool) (depth : Nat)
    (container : NodeId) :
    ∃ killPos, (findBlockStart P input allMatched maybeLazy depth container p).1 =
      { p with thematicBreakKillPos := killPos } := by
  rcases (findBlockStart_found input p P allMatched maybeLazy depth container).1 with same | scanned
  · exact ⟨p.thematicBreakKillPos, same⟩
  · rw [scanned]
    exact scanThematicBreak_fst input p

theorem quiet_findBlockStart (P : Config) (allMatched maybeLazy : Bool) (depth : Nat)
    (container : NodeId) :
    Quiet p (findBlockStart P input allMatched maybeLazy depth container p).1 := by
  obtain ⟨killPos, same⟩ := findBlockStart_fst input p P allMatched maybeLazy depth container
  rw [same]
  exact ⟨rfl, rfl, rfl, rfl, rfl, rfl⟩

end

/-! ### Prefixes of open blocks -/

section

variable (input : Bytes) (container : NodeId) (p : ParserState)

theorem quiet_parseBlockQuotePrefix : Quiet p (parseBlockQuotePrefix input p).1 := by
  unfold parseBlockQuotePrefix
  split
  next => exact (quiet_advanceOffset input p _ _).trans (quiet_advanceOptionalSpace input _)
  next => exact .refl p

theorem quiet_parseFootnoteDefinitionBlockPrefix :
    Quiet p (parseFootnoteDefinitionBlockPrefix input p).1 := by
  unfold parseFootnoteDefinitionBlockPrefix
  split
  next => exact quiet_advanceOffset input p _ _
  next => exact .refl p

theorem quiet_parseNodeItemPrefix : Quiet p (parseNodeItemPrefix input container p).1 := by
  unfold parseNodeItemPrefix
  simp only
  split
  next => exact quiet_advanceOffset input p _ _
  next =>
    split
    next => exact quiet_advanceTo input p _
    next => exact .refl p

end

/-! ### Flags and positions -/

section

variable (p : ParserState)

theorem quiet_setEnd (b : NodeId) : Quiet p (setEnd b p) := by
  unfold setEnd
  apply Quiet.modifyData
  intro d
  exact ⟨rfl, rfl, rfl, rfl, rfl⟩

theorem quiet_endsWithBlankLineFrom (fuel : Nat) (node : NodeId) :
    Quiet p (endsWithBlankLineFrom fuel node p).1 := by
  induction fuel generalizing node p with
  | zero => exact .refl p
  | succ fuel ih =>
    have checked : Quiet p (p.modifyData node fun d => { d with lastLineChecked := true }) := by
      apply Quiet.modifyData
      intro d
      exact ⟨rfl, rfl, rfl, rfl, rfl⟩
    unfold endsWithBlankLineFrom
    split
    next => exact .refl p
    next =>
      simp only
      split
      next =>
        split
        next => exact checked.trans (ih _ _)
        next => exact checked
      next => exact checked

theorem quiet_endsWithBlankLine (node : NodeId) : Quiet p (endsWithBlankLine node p).1 :=
  quiet_endsWithBlankLineFrom p _ node

theorem quiet_looseSubitems (itemHasNext : Bool) (subitems : List NodeId) :
    Quiet p (looseSubitems itemHasNext subitems p).1 := by
  induction subitems generalizing p with
  | nil => exact .refl p
  | cons subitem rest ih =>
    have blank := quiet_endsWithBlankLine p subitem
    unfold looseSubitems
    split
    next =>
      match endsWithBlankLine subitem p, blank with
      | (p', true), blank => exact blank
      | (p', false), blank => exact blank.trans (ih p')
    next => exact ih p

theorem quiet_looseItems (items : List NodeId) : Quiet p (looseItems items p).1 := by
  induction items generalizing p with
  | nil => exact .refl p
  | cons item rest ih =>
    have subitems := quiet_looseSubitems p (!rest.isEmpty) (p.childrenOf item)
    unfold looseItems
    split
    next => exact .refl p
    next =>
      match looseSubitems (!rest.isEmpty) (p.childrenOf item) p, subitems with
      | (p', true), subitems => exact subitems
      | (p', false), subitems => exact subitems.trans (ih p')

theorem quiet_clearAncestorsBlank (fuel : Nat) (tmp : NodeId) :
    Quiet p (clearAncestorsBlank fuel tmp p) := by
  induction fuel generalizing tmp p with
  | zero => exact .refl p
  | succ fuel ih =>
    unfold clearAncestorsBlank
    split
    next => exact .refl p
    next parent _ =>
      refine .trans ?_ (ih _ _)
      apply Quiet.modifyData
      intro d
      exact ⟨rfl, rfl, rfl, rfl, rfl⟩

theorem quiet_setLastLineBlank (container : NodeId) : Quiet p (setLastLineBlank container p) := by
  unfold setLastLineBlank
  extract_lets flags d lastLineBlank set
  have flagged : Quiet p flags := by
    unfold flags
    split
    next child _ =>
      split
      next =>
        apply Quiet.modifyData
        intro d
        exact ⟨rfl, rfl, rfl, rfl, rfl⟩
      next => exact .refl p
    next => exact .refl p
  have isSet : Quiet flags set := by
    apply Quiet.modifyData
    intro d
    exact ⟨rfl, rfl, rfl, rfl, rfl⟩
  exact (flagged.trans isSet).trans (quiet_clearAncestorsBlank _ _ _)

end

end CmarkGfm
