import CmarkGfm.Properties.BlockFrames
import CmarkGfm.Properties.ReferenceMap
import CmarkGfm.Parser.Document

/-!
# What the block phase does with the reference map

Parsing the blocks changes the map only by adding definitions, with `cmark_reference_create`
and `cmark_reference_create_attributes`.
-/

namespace CmarkGfm

/-- The second map is the first one with definitions added. -/
def Defined (T : Tables) (map map' : Map Reference) : Prop :=
  ∃ defs : List ReferenceDefinition, map' = defs.foldl (createReference T) map

namespace Defined

variable {T : Tables} {map map' map'' : Map Reference}

theorem refl (map : Map Reference) : Defined T map map := ⟨[], rfl⟩

theorem trans (first : Defined T map map') (second : Defined T map' map'') :
    Defined T map map'' := by
  obtain ⟨defs, rfl⟩ := first
  obtain ⟨defs', rfl⟩ := second
  exact ⟨defs ++ defs', by rw [List.foldl_append]⟩

theorem one (map : Map Reference) (d : ReferenceDefinition) :
    Defined T map (createReference T map d) := ⟨[d], rfl⟩

theorem of_eq (same : map' = map) : Defined T map map' := by
  rw [same]
  exact refl map

end Defined

theorem Quiet.defined {T : Tables} {p p' : ParserState} (quiet : Quiet p p') :
    Defined T p.refmap p'.refmap := .of_eq quiet.refmap

/-- The callbacks that extensions have for blocks add definitions at most. -/
structure Extension.AddsDefinitions (T : Tables) (e : Extension) : Prop where
  lastBlockMatches : ∀ f, e.lastBlockMatches = some f → ∀ options p input container,
    Defined T p.refmap (f options p input container).1.refmap
  tryOpeningBlock : ∀ f, e.tryOpeningBlock = some f → ∀ options indented p container input,
    Defined T p.refmap (f options indented p container input).1.refmap

/-! ### Closing blocks -/

section

variable (T : Tables)

theorem defined_parseReferenceInline {input : Bytes} {map map' : Map Reference} {pos : Nat}
    (parsed : parseReferenceInline T input map = some (pos, map')) : Defined T map map' := by
  unfold parseReferenceInline at parsed
  split at parsed
  next => cases parsed
  next pos lab _ =>
    split at parsed
    next => cases parsed
    next =>
      simp only at parsed
      split at parsed
      next => cases parsed
      next matchlen url _ =>
        split at parsed
        next =>
          obtain ⟨_, rfl⟩ := Prod.mk.inj (Option.some.inj parsed)
          exact .one map (.link lab url _)
        next =>
          obtain ⟨_, parsed⟩ := Option.ite_none_right_eq_some.mp parsed
          obtain ⟨_, _, rest⟩ := Option.map_eq_some_iff.mp parsed
          obtain ⟨_, rfl⟩ := Prod.mk.inj rest
          exact .one map (.link lab url _)

theorem defined_parseReferenceAttributesInline {input : Bytes} {map map' : Map Reference}
    {pos : Nat} (parsed : parseReferenceAttributesInline T input map = some (pos, map')) :
    Defined T map map' := by
  unfold parseReferenceAttributesInline at parsed
  split at parsed
  next => cases parsed
  next pos lab _ =>
    split at parsed
    next => cases parsed
    next =>
      simp only at parsed
      split at parsed
      next => cases parsed
      next =>
        obtain ⟨_, _, rest⟩ := Option.map_eq_some_iff.mp parsed
        obtain ⟨_, rfl⟩ := Prod.mk.inj rest
        exact .one map (.attributes lab _)

theorem defined_resolveReferences (fuel : Nat) (chunk : Bytes) (map : Map Reference) :
    Defined T map (resolveReferences T fuel chunk map).2 := by
  induction fuel generalizing chunk map with
  | zero => exact .refl map
  | succ fuel ih =>
    unfold resolveReferences
    simp only
    split
    next pos map' parsed =>
      have step : Defined T map map' := by
        split at parsed
        next => exact defined_parseReferenceInline T parsed
        next =>
          split at parsed
          next => exact defined_parseReferenceAttributesInline T parsed
          next => cases parsed
      exact step.trans (ih _ map')
    next => exact .refl map

theorem defined_resolveReferenceLinkDefinitions (b : NodeId) (p : ParserState) :
    Defined T p.refmap (resolveReferenceLinkDefinitions T b p).1.refmap :=
  defined_resolveReferences T _ _ p.refmap

theorem refmap_finalizeCode (b : NodeId) (p : ParserState) :
    (finalizeCode T b p).refmap = p.refmap := by
  unfold finalizeCode
  simp only
  split <;> rfl

theorem refmap_freeBlock (b : NodeId) (p : ParserState) : (p.freeBlock b).refmap = p.refmap := by
  unfold ParserState.freeBlock
  simp only
  split <;> rfl

end

section

variable (P : Config)

theorem defined_finalizeContent (b : NodeId) (p : ParserState) :
    Defined P.tables p.refmap (finalizeContent P b p).refmap := by
  unfold finalizeContent
  split
  next =>
    have resolved := defined_resolveReferenceLinkDefinitions P.tables b p
    generalize resolveReferenceLinkDefinitions P.tables b p = r at resolved ⊢
    obtain ⟨p', hasContent⟩ := r
    simp only at resolved ⊢
    split
    next => rwa [refmap_freeBlock]
    next => exact resolved
  next => exact .of_eq (refmap_finalizeCode P.tables b p)
  next => exact .refl _
  next =>
    have loose := quiet_looseItems p (p.childrenOf b)
    generalize looseItems (p.childrenOf b) p = r at loose ⊢
    obtain ⟨p', isLoose⟩ := r
    exact .of_eq loose.refmap
  next => exact .refl _

theorem defined_finalize (b : NodeId) (p : ParserState) :
    Defined P.tables p.refmap (finalize P b p).1.refmap :=
  (quiet_setEnd _ b).defined.trans (defined_finalizeContent P b _)

theorem defined_acceptingParent (blockType : NodeType) (fuel : Nat) (parent : NodeId)
    (p : ParserState) :
    Defined P.tables p.refmap (acceptingParent P blockType fuel parent p).1.refmap := by
  induction fuel generalizing parent p with
  | zero => exact .refl _
  | succ fuel ih =>
    unfold acceptingParent
    split
    next => exact .refl _
    next =>
      have closed := defined_finalize P parent p
      generalize finalize P parent p = r at closed ⊢
      obtain ⟨p', grandparent⟩ := r
      cases grandparent with
      | some grandparent => exact closed.trans (ih grandparent p')
      | none => exact closed

theorem defined_addChild (parent : NodeId) (blockType : NodeType) (startColumn : Int)
    (p : ParserState) :
    Defined P.tables p.refmap (addChild P parent blockType startColumn p).1.refmap := by
  have accepting := defined_acceptingParent P blockType (p.nextId + 1) parent p
  unfold addChild
  generalize acceptingParent P blockType (p.nextId + 1) parent p = r at accepting ⊢
  exact accepting

theorem refmap_addLine (node : NodeId) (ch : Bytes) (p : ParserState) :
    (addLine node ch p).refmap = p.refmap := by
  unfold addLine
  simp only
  split <;> rfl

theorem defined_closeUnmatched (lastMatched : NodeId) (fuel : Nat) (p : ParserState) :
    Defined P.tables p.refmap (closeUnmatched P lastMatched fuel p).refmap := by
  induction fuel generalizing p with
  | zero => exact .refl _
  | succ fuel ih =>
    unfold closeUnmatched
    split
    next => exact .refl _
    next =>
      have closed := defined_finalize P p.current p
      generalize finalize P p.current p = r at closed ⊢
      obtain ⟨p', parent⟩ := r
      cases parent with
      | some parent => exact closed.trans (ih { p' with current := parent })
      | none => exact closed

theorem defined_closeToRoot (fuel : Nat) (p : ParserState) :
    Defined P.tables p.refmap (closeToRoot P fuel p).refmap := by
  induction fuel generalizing p with
  | zero => exact .refl _
  | succ fuel ih =>
    unfold closeToRoot
    split
    next => exact .refl _
    next =>
      have closed := defined_finalize P p.current p
      generalize finalize P p.current p = r at closed ⊢
      obtain ⟨p', parent⟩ := r
      cases parent with
      | some parent => exact closed.trans (ih { p' with current := parent })
      | none => exact closed

theorem defined_finalizeBlocks (p : ParserState) :
    Defined P.tables p.refmap (finalizeBlocks P p).refmap :=
  (defined_closeToRoot P _ p).trans (defined_finalize P _ _)

end

/-! ### One line -/

section

variable (P : Config) (extensions : ∀ e ∈ P.syntaxExtensions, e.AddsDefinitions P.tables)
  (input : Bytes)

theorem defined_parseCodeBlockPrefix (container : NodeId) (p : ParserState) :
    Defined P.tables p.refmap (parseCodeBlockPrefix P input container p).1.refmap := by
  unfold parseCodeBlockPrefix
  extract_lets code matched
  split
  next =>
    split
    next => exact (quiet_advanceOffset input p _ _).defined
    next =>
      split
      next => exact (quiet_advanceTo input p _).defined
      next => exact .refl _
  next =>
    split
    next =>
      have read := quiet_advanceOffset input p matched false
      exact read.defined.trans (defined_finalize P container _)
    next => exact (quiet_skipFenceOffset input p _).defined

include extensions in
theorem defined_parseBlockPrefix (container : NodeId) (p : ParserState) :
    Defined P.tables p.refmap (parseBlockPrefix P input container p).1.refmap := by
  unfold parseBlockPrefix
  split
  next ext found =>
    have member : ext ∈ P.syntaxExtensions := by
      obtain ⟨i, _, at_i⟩ := Option.bind_eq_some_iff.mp found
      exact List.mem_of_getElem? at_i
    unfold prefixResult parseExtensionBlock
    simp only
    split
    next f callback => exact (extensions ext member).lastBlockMatches f callback _ _ _ _
    next => exact .refl _
  next =>
    split
    next => exact (quiet_parseBlockQuotePrefix input p).defined
    next => exact (quiet_parseNodeItemPrefix input container p).defined
    next => exact defined_parseCodeBlockPrefix P input container p
    next => exact .refl _
    next => exact .refl _
    next => exact .refl _
    next => exact (quiet_parseFootnoteDefinitionBlockPrefix input p).defined
    next => exact .refl _

include extensions in
theorem defined_checkOpenBlocksFrom (fuel : Nat) (container : NodeId) (p : ParserState) :
    Defined P.tables p.refmap (checkOpenBlocksFrom P input fuel container p).1.refmap := by
  induction fuel generalizing container p with
  | zero => exact .refl _
  | succ fuel ih =>
    unfold checkOpenBlocksFrom
    split
    next => exact .refl _
    next child _ =>
      have read := quiet_findFirstNonspace input p
      have step := read.defined.trans
        (defined_parseBlockPrefix P extensions input child (findFirstNonspace input p))
      generalize parseBlockPrefix P input child (findFirstNonspace input p) = r at step ⊢
      obtain ⟨p', result⟩ := r
      cases result with
      | matched => exact step.trans (ih child p')
      | unmatched => exact step
      | closed => exact step

theorem defined_setextHeading (lev : Nat) (container : NodeId) (p : ParserState) :
    Defined P.tables p.refmap (setextHeading P input lev container p).refmap := by
  have resolved := defined_resolveReferenceLinkDefinitions P.tables container p
  unfold setextHeading
  generalize resolveReferenceLinkDefinitions P.tables container p = r at resolved ⊢
  obtain ⟨p', hasContent⟩ := r
  cases hasContent with
  | true =>
    refine resolved.trans ?_
    exact (Quiet.defined (quiet_advanceTo input _ _) :)
  | false => exact resolved

theorem defined_openListItem (matched : Nat) (data : ListData) (container : NodeId)
    (p : ParserState) :
    Defined P.tables p.refmap (openListItem P input matched data container p).1.refmap := by
  unfold openListItem
  extract_lets contType startColumn
  have padded := (quiet_advanceTo input p (p.firstNonspace + matched)).trans
    (quiet_markerPadding input (advanceTo input (p.firstNonspace + matched) p) matched)
  generalize markerPadding input matched (advanceTo input (p.firstNonspace + matched) p) = r
    at padded ⊢
  obtain ⟨p', padding⟩ := r
  refine padded.defined.trans ?_
  simp only
  split
  next =>
    exact (defined_addChild P container .list startColumn p').trans
      (defined_addChild P _ .item startColumn _)
  next => exact defined_addChild P container .item startColumn p'

theorem defined_openBlock (container : NodeId) (p : ParserState) (start : BlockStart) :
    Defined P.tables p.refmap (openBlock P input container p start).1.refmap := by
  cases start with
  | blockQuote =>
    have read := (quiet_advanceTo input p (p.firstNonspace + 1)).trans
      (quiet_advanceOptionalSpace input _)
    exact read.defined.trans (defined_addChild P container .blockQuote (p.firstNonspace + 1) _)
  | atxHeading matched =>
    have read := quiet_advanceTo input p (p.firstNonspace + matched)
    exact read.defined.trans (defined_addChild P container .heading (p.firstNonspace + 1) _)
  | fencedCode matched =>
    refine (defined_addChild P container .codeBlock (p.firstNonspace + 1) p).trans ?_
    exact (Quiet.defined (quiet_advanceTo input _ _) :)
  | htmlBlock matched => exact defined_addChild P container .htmlBlock (p.firstNonspace + 1) p
  | setextHeading lev => exact defined_setextHeading P input lev container p
  | thematicBreak =>
    refine (defined_addChild P container .thematicBreak (p.firstNonspace + 1) p).trans ?_
    exact (Quiet.defined (quiet_advanceTo input _ _) :)
  | footnoteDefinition matched =>
    have read := quiet_advanceTo input p (p.firstNonspace + matched)
    have added := defined_addChild P container .footnoteDefinition
      ((p.firstNonspace + matched : Nat) + 1) (advanceTo input (p.firstNonspace + matched) p)
    exact read.defined.trans added
  | listItem matched data => exact defined_openListItem P input matched data container p
  | indentedCode =>
    have read := quiet_advanceOffset input p codeIndent true
    have added := defined_addChild P container .codeBlock
      ((advanceOffset input codeIndent true p).offset + 1) (advanceOffset input codeIndent true p)
    exact read.defined.trans added

theorem defined_tryOpeningBlocks (indented : Bool) (container : NodeId) (exts : List Extension)
    (adds : ∀ e ∈ exts, e.AddsDefinitions P.tables) (p : ParserState) :
    Defined P.tables p.refmap (tryOpeningBlocks P indented input container exts p).1.refmap := by
  induction exts generalizing p with
  | nil => exact .refl _
  | cons ext rest ih =>
    have later := ih fun e member => adds e (List.mem_cons_of_mem ext member)
    unfold tryOpeningBlocks
    split
    next => exact later p
    next f callback =>
      have step := (adds ext (List.mem_cons_self ..)).tryOpeningBlock f callback P.options indented p
        container input
      generalize f P.options indented p container input = r at step ⊢
      obtain ⟨p', newContainer⟩ := r
      cases newContainer with
      | some newContainer => exact step
      | none => exact step.trans (later p')

include extensions in
theorem defined_openNewBlock (allMatched maybeLazy : Bool) (depth : Nat) (container : NodeId)
    (p : ParserState) :
    Defined P.tables p.refmap
      (openNewBlock P input allMatched maybeLazy depth container p).1.refmap := by
  have found := (quiet_findFirstNonspace input p).trans
    (quiet_findBlockStart input (findFirstNonspace input p) P allMatched maybeLazy depth container)
  unfold openNewBlock
  simp only
  generalize findBlockStart P input allMatched maybeLazy depth container
    (findFirstNonspace input p) = r at found ⊢
  obtain ⟨p', start⟩ := r
  cases start with
  | some start => exact found.defined.trans (defined_openBlock P input container p' start)
  | none =>
    exact found.defined.trans (defined_tryOpeningBlocks P input _ container _ extensions p')

include extensions in
theorem defined_openNewBlocksFrom (allMatched : Bool) (fuel : Nat) (maybeLazy : Bool) (depth : Nat)
    (container : NodeId) (p : ParserState) :
    Defined P.tables p.refmap
      (openNewBlocksFrom P input allMatched fuel maybeLazy depth container p).1.refmap := by
  induction fuel generalizing maybeLazy depth container p with
  | zero => exact .refl _
  | succ fuel ih =>
    unfold openNewBlocksFrom
    split
    next => exact .refl _
    next =>
      have step := defined_openNewBlock P extensions input allMatched maybeLazy (depth + 1)
        container p
      generalize openNewBlock P input allMatched maybeLazy (depth + 1) container p = r at step ⊢
      obtain ⟨p', newContainer⟩ := r
      cases newContainer with
      | none => exact step
      | some newContainer =>
        simp only
        split
        next => exact step
        next => exact step.trans (ih _ _ _ p')

theorem defined_addParagraph (container : NodeId) (p : ParserState) :
    Defined P.tables p.refmap (addParagraph P input container p).1.refmap := by
  unfold addParagraph
  extract_lets startColumn
  have added := defined_addChild P container .paragraph startColumn p
  generalize addChild P container .paragraph startColumn p = r at added ⊢
  obtain ⟨p', paragraph⟩ := r
  refine added.trans ((quiet_skipIndentation input p' P).defined.trans (.of_eq ?_))
  exact refmap_addLine paragraph input _

theorem defined_addContainerLine (container : NodeId) (p : ParserState) :
    Defined P.tables p.refmap (addContainerLine P input container p).1.refmap := by
  unfold addContainerLine
  simp only
  split
  next => exact .of_eq (refmap_addLine container input p)
  next =>
    split
    next =>
      have added : Defined P.tables p.refmap (addLine container input p).refmap :=
        .of_eq (refmap_addLine container input p)
      unfold addHtmlLine
      simp only
      split
      next =>
        have closed := added.trans (defined_finalize P container (addLine container input p))
        generalize finalize P container (addLine container input p) = r at closed ⊢
        obtain ⟨p', parent⟩ := r
        cases parent <;> exact closed
      next => exact added
    next =>
      split
      next => exact .refl _
      next =>
        split
        next =>
          refine (quiet_skipIndentation input p P).defined.trans (.of_eq ?_)
          exact refmap_addLine container _ _
        next =>
          exact defined_addParagraph P input container p

theorem defined_addTextToContainer (container lastMatched : NodeId) (p : ParserState) :
    Defined P.tables p.refmap
      (addTextToContainer P input container lastMatched p).1.refmap := by
  have flagged := (quiet_findFirstNonspace input p).trans
    (quiet_setLastLineBlank (findFirstNonspace input p) container)
  unfold addTextToContainer
  simp only
  generalize setLastLineBlank container (findFirstNonspace input p) = p' at flagged ⊢
  refine flagged.defined.trans ?_
  split
  next => exact .of_eq (refmap_addLine _ input p')
  next =>
    exact (defined_closeUnmatched P lastMatched _ p').trans (defined_addContainerLine P input _ _)

end

/-- A line adds definitions at most. -/
theorem defined_processLine (P : Config)
    (extensions : ∀ e ∈ P.syntaxExtensions, e.AddsDefinitions P.tables) (p : ParserState)
    (buffer : Bytes) (ensureEndsInNewline : Bool) :
    Defined P.tables p.refmap (processLine P p buffer ensureEndsInNewline).refmap := by
  unfold processLine
  extract_lets input
  have checked := (quiet_startLine input p).defined.trans
    (defined_checkOpenBlocksFrom P extensions input (startLine input p).nextId
      (startLine input p).root (startLine input p))
  rw [show checkOpenBlocksFrom P input (startLine input p).nextId (startLine input p).root
    (startLine input p) = checkOpenBlocks P input (startLine input p) from rfl] at checked
  generalize checkOpenBlocks P input (startLine input p) = r at checked ⊢
  obtain ⟨p', lastMatched, allMatched⟩ := r
  refine checked.trans ?_
  simp only
  cases lastMatched with
  | none => exact .refl _
  | some lastMatched =>
    simp only
    have opened : Defined P.tables p'.refmap
        (if P.options.has optInlineOnly then (p', lastMatched)
          else openNewBlocks P input allMatched lastMatched p').1.refmap := by
      split
      next => exact .refl _
      next => exact defined_openNewBlocksFrom P extensions input allMatched _ _ _ _ p'
    generalize (if P.options.has optInlineOnly then (p', lastMatched)
      else openNewBlocks P input allMatched lastMatched p') = r at opened ⊢
    obtain ⟨p'', container⟩ := r
    simp only at opened ⊢
    split
    next => exact opened.trans (defined_addTextToContainer P input container lastMatched p'')
    next => exact opened

end CmarkGfm
