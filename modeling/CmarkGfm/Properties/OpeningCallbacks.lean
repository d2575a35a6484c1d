import CmarkGfm.Properties.Chunking

/-!
# Two lists of extensions

Blocks are added in the same way if the two lists agree on what blocks may contain, and opened in the same
way if the callbacks also do the same on the line. Closing the blocks does not ask the extensions.
-/

namespace CmarkGfm

/-! ### What blocks may contain -/

section

variable {T : Tables} {options : Options} {exts exts' : List Extension}
  (contains : (Config.mk T options exts').nodeCanContainType = (Config.mk T options exts).nodeCanContainType)

include contains

theorem addChild_congr : addChild ⟨T, options, exts'⟩ = addChild ⟨T, options, exts⟩ := by
  have loop : ∀ (blockType : NodeType) (fuel : Nat) (parent : NodeId) (p : ParserState),
      acceptingParent ⟨T, options, exts'⟩ blockType fuel parent p =
        acceptingParent ⟨T, options, exts⟩ blockType fuel parent p := by
    intro blockType fuel
    induction fuel with
    | zero => exact fun _ _ => rfl
    | succ fuel ih =>
      intro parent p
      have finalize : finalize ⟨T, options, exts'⟩ = finalize ⟨T, options, exts⟩ := rfl
      simp only [acceptingParent, contains, finalize, ih]
  funext parent blockType startColumn p
  simp only [CmarkGfm.addChild, loop]

theorem openBlock_congr : openBlock ⟨T, options, exts'⟩ = openBlock ⟨T, options, exts⟩ := by
  funext input container p start
  cases start <;>
    simp only [CmarkGfm.openBlock, openBlockQuote, openAtxHeading, openFencedCode, openHtmlBlock,
      setextHeading, openThematicBreak, openFootnoteDefinition, openListItem, openIndentedCode,
      addChild_congr contains]

/-- On one line the callbacks open the same blocks. -/
theorem openNewBlocks_congr {input : Bytes}
    (opens : ∀ indented container p, tryOpeningBlocks ⟨T, options, exts'⟩ indented input container exts' p =
      tryOpeningBlocks ⟨T, options, exts⟩ indented input container exts p) :
    openNewBlocks ⟨T, options, exts'⟩ input = openNewBlocks ⟨T, options, exts⟩ input := by
  have start : findBlockStart ⟨T, options, exts'⟩ = findBlockStart ⟨T, options, exts⟩ := rfl
  have single : openNewBlock ⟨T, options, exts'⟩ input = openNewBlock ⟨T, options, exts⟩ input := by
    funext allMatched maybeLazy depth container p
    simp only [openNewBlock, start, openBlock_congr contains, opens]
  have loop : ∀ (allMatched : Bool) (fuel : Nat) (maybeLazy : Bool) (depth : Nat)
      (container : NodeId) (p : ParserState),
      openNewBlocksFrom ⟨T, options, exts'⟩ input allMatched fuel maybeLazy depth container p =
        openNewBlocksFrom ⟨T, options, exts⟩ input allMatched fuel maybeLazy depth container p := by
    intro allMatched fuel
    induction fuel with
    | zero => exact fun _ _ _ _ => rfl
    | succ fuel ih =>
      intro maybeLazy depth container p
      simp only [openNewBlocksFrom, single, ih]
  funext allMatched container p
  simp only [CmarkGfm.openNewBlocks, loop]

theorem addTextToContainer_congr :
    addTextToContainer ⟨T, options, exts'⟩ = addTextToContainer ⟨T, options, exts⟩ := by
  have finalize : finalize ⟨T, options, exts'⟩ = finalize ⟨T, options, exts⟩ := rfl
  have close : ∀ (lastMatched : NodeId) (fuel : Nat) (p : ParserState),
      closeUnmatched ⟨T, options, exts'⟩ lastMatched fuel p =
        closeUnmatched ⟨T, options, exts⟩ lastMatched fuel p := by
    intro lastMatched fuel
    induction fuel with
    | zero => exact fun _ => rfl
    | succ fuel ih =>
      intro p
      simp only [closeUnmatched, finalize, ih]
  funext input container lastMatched p
  simp only [CmarkGfm.addTextToContainer, addContainerLine, addHtmlLine, addParagraph, skipIndentation,
    finalize, addChild_congr contains, close]

end

/-- Closing the blocks does not ask the extensions. -/
theorem finalizeBlocks_extensions (T : Tables) (options : Options) (exts exts' : List Extension) :
    finalizeBlocks ⟨T, options, exts'⟩ = finalizeBlocks ⟨T, options, exts⟩ := by
  have finalize : finalize ⟨T, options, exts'⟩ = finalize ⟨T, options, exts⟩ := rfl
  have close : ∀ (fuel : Nat) (p : ParserState),
      closeToRoot ⟨T, options, exts'⟩ fuel p = closeToRoot ⟨T, options, exts⟩ fuel p := by
    intro fuel
    induction fuel with
    | zero => exact fun _ => rfl
    | succ fuel ih =>
      intro p
      simp only [closeToRoot, finalize, ih]
  funext p
  simp only [finalizeBlocks, finalize, close]

end CmarkGfm
