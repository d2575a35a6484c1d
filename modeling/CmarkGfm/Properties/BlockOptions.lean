import CmarkGfm.Blocks.Process

/-!
# The options that the block parser reads

Without extensions, processing a line reads four options: those that check the encoding, preserve white
space, parse inlines only, and recognise footnotes.
-/

namespace CmarkGfm

/-- Two sets of options are the same to the block parser. -/
structure SameBlockOptions (options options' : Options) : Prop where
  validateUtf8 : options'.has optValidateUtf8 = options.has optValidateUtf8
  preserveWhitespace : options'.has optPreserveWhitespace = options.has optPreserveWhitespace
  inlineOnly : options'.has optInlineOnly = options.has optInlineOnly
  footnotes : options'.has optFootnotes = options.has optFootnotes

namespace SameBlockOptions

variable {T : Tables} {options options' : Options} (same : SameBlockOptions options options')

include same

/-! ### Closing and adding blocks -/

theorem finalize : finalize ⟨T, options', []⟩ = finalize ⟨T, options, []⟩ := by
  have content : finalizeContent ⟨T, options', []⟩ = finalizeContent ⟨T, options, []⟩ := by
    funext b p
    simp only [finalizeContent, same.preserveWhitespace]
  funext b p
  simp only [CmarkGfm.finalize, content]

theorem acceptingParent (blockType : NodeType) (fuel : Nat) (parent : NodeId) (p : ParserState) :
    acceptingParent ⟨T, options', []⟩ blockType fuel parent p =
      acceptingParent ⟨T, options, []⟩ blockType fuel parent p := by
  induction fuel generalizing parent p with
  | zero => rfl
  | succ fuel ih =>
    have contains : (Config.mk T options' []).nodeCanContainType =
        (Config.mk T options []).nodeCanContainType := rfl
    simp only [CmarkGfm.acceptingParent, contains, same.finalize, ih]

theorem addChild : addChild ⟨T, options', []⟩ = addChild ⟨T, options, []⟩ := by
  funext parent blockType startColumn p
  simp only [CmarkGfm.addChild, same.acceptingParent]

/-! ### Open blocks -/

theorem parseBlockPrefix : parseBlockPrefix ⟨T, options', []⟩ = parseBlockPrefix ⟨T, options, []⟩ := by
  have code : parseCodeBlockPrefix ⟨T, options', []⟩ = parseCodeBlockPrefix ⟨T, options, []⟩ := by
    funext input container p
    simp only [parseCodeBlockPrefix, same.finalize]
  funext input container p
  simp only [CmarkGfm.parseBlockPrefix, extensionOf_core, code]

theorem checkOpenBlocks : checkOpenBlocks ⟨T, options', []⟩ = checkOpenBlocks ⟨T, options, []⟩ := by
  have loop : ∀ (input : Bytes) (fuel : Nat) (container : NodeId) (p : ParserState),
      checkOpenBlocksFrom ⟨T, options', []⟩ input fuel container p =
        checkOpenBlocksFrom ⟨T, options, []⟩ input fuel container p := by
    intro input fuel
    induction fuel with
    | zero => exact fun _ _ => rfl
    | succ fuel ih =>
      intro container p
      simp only [checkOpenBlocksFrom, same.parseBlockPrefix, ih]
  funext input p
  simp only [CmarkGfm.checkOpenBlocks, loop]

/-! ### New blocks -/

theorem openBlock : openBlock ⟨T, options', []⟩ = openBlock ⟨T, options, []⟩ := by
  funext input container p start
  cases start <;>
    simp only [CmarkGfm.openBlock, openBlockQuote, openAtxHeading, openFencedCode, openHtmlBlock,
      setextHeading, openThematicBreak, openFootnoteDefinition, openListItem, openIndentedCode,
      same.addChild]

theorem openNewBlocks : openNewBlocks ⟨T, options', []⟩ = openNewBlocks ⟨T, options, []⟩ := by
  have start : findBlockStart ⟨T, options', []⟩ = findBlockStart ⟨T, options, []⟩ := by
    funext input allMatched maybeLazy depth container p
    simp only [findBlockStart, same.footnotes]
  have single : openNewBlock ⟨T, options', []⟩ = openNewBlock ⟨T, options, []⟩ := by
    funext input allMatched maybeLazy depth container p
    simp only [openNewBlock, start, same.openBlock, tryOpeningBlocks]
  have loop : ∀ (input : Bytes) (allMatched : Bool) (fuel : Nat) (maybeLazy : Bool) (depth : Nat)
      (container : NodeId) (p : ParserState),
      openNewBlocksFrom ⟨T, options', []⟩ input allMatched fuel maybeLazy depth container p =
        openNewBlocksFrom ⟨T, options, []⟩ input allMatched fuel maybeLazy depth container p := by
    intro input allMatched fuel
    induction fuel with
    | zero => exact fun _ _ _ _ => rfl
    | succ fuel ih =>
      intro maybeLazy depth container p
      simp only [openNewBlocksFrom, single, ih]
  funext input allMatched container p
  simp only [CmarkGfm.openNewBlocks, loop]

/-! ### One line -/

theorem addTextToContainer :
    addTextToContainer ⟨T, options', []⟩ = addTextToContainer ⟨T, options, []⟩ := by
  have close : ∀ (lastMatched : NodeId) (fuel : Nat) (p : ParserState),
      closeUnmatched ⟨T, options', []⟩ lastMatched fuel p =
        closeUnmatched ⟨T, options, []⟩ lastMatched fuel p := by
    intro lastMatched fuel
    induction fuel with
    | zero => exact fun _ => rfl
    | succ fuel ih =>
      intro p
      simp only [closeUnmatched, same.finalize, ih]
  funext input container lastMatched p
  simp only [CmarkGfm.addTextToContainer, addContainerLine, addHtmlLine, addParagraph, skipIndentation,
    same.preserveWhitespace, same.finalize, same.addChild, close]

/-- A line is processed in the same way. -/
theorem processLine : processLine ⟨T, options', []⟩ = processLine ⟨T, options, []⟩ := by
  funext p buffer ensureEndsInNewline
  simp only [CmarkGfm.processLine, prepareLine, same.validateUtf8, same.inlineOnly, same.checkOpenBlocks,
    same.openNewBlocks, same.addTextToContainer]

end SameBlockOptions

end CmarkGfm
