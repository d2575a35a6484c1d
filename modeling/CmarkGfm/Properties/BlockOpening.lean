import CmarkGfm.Properties.BlockSteps
import CmarkGfm.Properties.ThematicBreaks

/-!
# Opening blocks comes to an end

Every turn of the loop that opens blocks takes something of the line, or opens a block that holds
none. So the loop ends for every line, and the fuel of the model never decides its result.
-/

namespace CmarkGfm

/-! ### How far advancing gets -/

section

variable {input : Bytes} {p q : ParserState}

/-- Advancing never goes back, and it stays within the line. -/
theorem ReadsOn.offset (moved : ReadsOn input p q) :
    p.offset ≤ q.offset ∧ q.offset ≤ max p.offset input.length := by
  refine moved.keeps (I := fun q => p.offset ≤ q.offset ∧ q.offset ≤ max p.offset input.length)
    ?_ ?_ ?_ ⟨le_rfl, le_max_left _ _⟩
  · intro q q' place kept
    have same : q'.offset = q.offset := congrArg LinePlace.offset place
    rw [same]
    exact kept
  · intro q kept
    rw [advanceColumn_eq]
    split
    next => exact kept
    next some =>
      have inside := lt_length_of_byteAt some
      split
      next =>
        dsimp only
        split <;> omega
      next =>
        dsimp only
        omega
  · intro q kept
    rw [advanceByte_eq]
    split
    next => exact kept
    next some =>
      have inside := lt_length_of_byteAt some
      dsimp only
      omega

variable (clean : (0 : UInt8) ∉ input)

include clean

/-- A line without NUL ends at its length only. -/
theorem byteAt_ne_zero {i : Nat} (inside : i < input.length) : byteAt input i ≠ 0 := by
  intro nul
  rw [byteAt_eq_getElem inside] at nul
  exact clean (nul ▸ List.getElem_mem inside)

/-- Advancing to a position further on passes at least one byte of the line. -/
theorem offset_lt_advanceTo (pos : Nat) (ahead : p.offset < pos) (inside : p.offset < input.length) :
    p.offset < (advanceTo input pos p).offset := by
  obtain ⟨k, count⟩ : ∃ k, ((pos : Int) - p.offset).toNat = k + 1 :=
    ⟨pos - p.offset - 1, by omega⟩
  have passed : (advanceByte input p).offset = p.offset + 1 := by
    rw [advanceByte_eq, if_neg (byteAt_ne_zero clean inside)]
  have rest : ReadsOn input (advanceByte input p) (advanceTo input pos p) := by
    unfold advanceTo
    rw [advanceOffset_bytes, count, Function.iterate_succ_apply]
    have more : ReadsOn input (advanceByte input p)
        (advanceOffset input k false (advanceByte input p)) := .advance k false _
    rw [advanceOffset_bytes] at more
    exact more
  have further := rest.offset.1
  omega

end

/-! ### What a turn opens -/

section

variable {P : Config} {input : Bytes} {p : ParserState}

/-- A new block has its type, whatever else is filled in. -/
theorem typeOf_addChild (container : NodeId) (t : NodeType) (startColumn : Int)
    (f : NodeData → NodeData) (type : ∀ d, (f d).type = d.type) :
    ((addChild P container t startColumn p).1.modifyData
      (addChild P container t startColumn p).2 f).typeOf
        (addChild P container t startColumn p).2 = t := by
  unfold addChild
  generalize acceptingParent P t (p.nextId + 1) container p = r
  obtain ⟨q, parent⟩ := r
  dsimp only
  rw [show (q.appendBlock parent _).2 = q.nextId from rfl, modifyData_appendBlock]
  rw [ParserState.typeOf, ParserState.dataOf, ParserState.block, nodes_appendBlock, if_pos rfl]
  exact type _

/-- After this block the loop is left: the block takes lines, or holds no blocks. -/
def LeavesLoop (p : ParserState) (container : NodeId) : Prop :=
  acceptsLines (p.typeOf container) = true ∨ p.typeOf container = .htmlBlock

theorem leavesLoop_of_codeBlock {q : ParserState} {c : NodeId} (code : q.typeOf c = .codeBlock) :
    LeavesLoop q c := .inl (by rw [code]; rfl)

/-- A setext heading line leaves a heading, or a paragraph as it was. -/
theorem acceptsLines_setextHeading (lev : Nat) {container : NodeId}
    (paragraph : p.typeOf container = .paragraph) :
    acceptsLines ((setextHeading P input lev container p).typeOf container) = true := by
  have resolved : (resolveReferenceLinkDefinitions P.tables container p).1.typeOf container =
      .paragraph := by
    obtain ⟨l, block, _⟩ := typeOf_paragraph_links paragraph
    obtain ⟨f, face⟩ := (face_isSome_iff p container).mpr ⟨l, block⟩
    obtain ⟨f', face', type, _⟩ := (alters_resolveReferenceLinkDefinitions P.tables
      (b := container) (p := p)).self face
    rw [typeOf_of_face face', type, ← typeOf_of_face face, paragraph]
  unfold setextHeading
  generalize resolveReferenceLinkDefinitions P.tables container p = r at resolved ⊢
  obtain ⟨q, hasContent⟩ := r
  dsimp only at resolved
  cases hasContent with
  | false =>
    dsimp only
    rw [resolved]
    rfl
  | true =>
    dsimp only
    rw [(quiet_advanceTo input _ _).typeOf]
    obtain ⟨l, block, _⟩ := typeOf_paragraph_links resolved
    obtain ⟨f, face⟩ := (face_isSome_iff q container).mpr ⟨l, block⟩
    rw [face_eq] at face
    obtain ⟨b, found, _⟩ := Option.map_eq_some_iff.mp face
    rw [ParserState.typeOf, ParserState.dataOf, ParserState.block, nodes_modifyData, if_pos rfl,
      found]
    rfl

theorem pos_of_parseListMarker {pos matched : Nat} {interrupts : Bool} {data : ListData}
    (found : parseListMarker input pos interrupts = some (matched, data)) :
    0 < matched ∧ byteAt input pos ≠ 0 := by
  have notNul (nul : byteAt input pos = 0) : False := by
    have bullet : ((0 : UInt8) == chr '*' || (0 : UInt8) == chr '-' || (0 : UInt8) == chr '+') = false := by
      decide
    have digit : isdigit 0 = false := by decide
    simp [parseListMarker, nul, bullet, digit] at found
  refine ⟨?_, notNul⟩
  unfold parseListMarker at found
  extract_lets c next after at found
  split at found
  next =>
    split at found
    next => cases found
    next =>
      split at found
      next => cases found
      next =>
        cases found
        decide
  next =>
    split at found
    next =>
      generalize scanListNumber 9 _ 0 0 = r at found
      obtain ⟨start, digits⟩ := r
      dsimp only at found
      split at found
      next => cases found
      next =>
        split at found
        next =>
          split at found
          next => cases found
          next =>
            split at found
            next => cases found
            next =>
              cases found
              exact Nat.succ_pos digits
        next => cases found
    next => cases found

/-- A thematic break has two more bytes behind its first one. -/
theorem length_of_scanThematicBreak (found : 0 < (scanThematicBreak input p).2) :
    p.firstNonspace + 1 < input.length - 1 := by
  by_cases marker : byteAt input p.firstNonspace = chr '*' ∨
      byteAt input p.firstNonspace = chr '_' ∨ byteAt input p.firstNonspace = chr '-'
  · rw [scanThematicBreak_marker rfl marker] at found
    extract_lets passed stop at found
    split at found
    next complete =>
      obtain ⟨three, lineEnd⟩ := complete
      have some : byteAt input stop ≠ 0 := by
        intro nul
        rw [nul] at lineEnd
        cases lineEnd
      have inside := lt_length_of_byteAt some
      have counted := List.count_le_length (a := byteAt input p.firstNonspace) (l := passed)
      dsimp only [stop] at inside
      omega
    next => exact absurd found (lt_irrefl 0)
  · simp only [not_or] at marker
    unfold scanThematicBreak at found
    simp [marker] at found

/-- A block start that was found lies in the line. -/
theorem BlockStart.Found.inside {maybeLazy : Bool} {container : NodeId} {matched : Nat}
    (found : (BlockStart.footnoteDefinition matched).Found P input maybeLazy container p) :
    p.firstNonspace < input.length ∧ 0 < matched := by
  obtain ⟨_, scanned, some⟩ := found
  refine ⟨?_, some⟩
  rw [← scanned] at some
  have bound := (Scanners.scan_sound some).1
  rw [List.length_drop] at bound
  have : 0 < input.length - p.firstNonspace := some.trans_le bound
  omega

/-- What is found does not depend on where a thematic break failed. -/
theorem BlockStart.Found.of_killPos {maybeLazy : Bool} {container : NodeId} {start : BlockStart}
    (found : start.Found P input maybeLazy container p) (killPos : Nat) :
    start.Found P input maybeLazy container { p with thematicBreakKillPos := killPos } := by
  cases start with
  | thematicBreak =>
    refine ⟨found.1, ?_⟩
    have scanned := found.2
    unfold scanThematicBreak at scanned ⊢
    dsimp only at scanned ⊢
    split at scanned
    next => exact absurd scanned (lt_irrefl 0)
    next marker =>
      rw [if_neg marker]
      split at scanned
      next complete => rwa [if_pos complete]
      next => exact absurd scanned (lt_irrefl 0)
  | _ => exact found

/-- Opening a block that was found leaves the loop, or passes something of the line. -/
theorem openBlock_progress (clean : (0 : UInt8) ∉ input) {maybeLazy : Bool} {container : NodeId}
    (aligned : p.offset ≤ p.firstNonspace) {start : BlockStart}
    (found : start.Found P input maybeLazy container p) :
    LeavesLoop (openBlock P input container p start).1 (openBlock P input container p start).2 ∨
      p.offset < (openBlock P input container p start).1.offset := by
  cases start with
  | blockQuote =>
    right
    have inside : p.firstNonspace < input.length :=
      lt_length_of_byteAt_eq found.2 (by decide)
    have passed := offset_lt_advanceTo clean (p := p) (p.firstNonspace + 1) (by omega) (by omega)
    have rest := (readsOn_advanceOptionalSpace input (advanceTo input (p.firstNonspace + 1) p)).trans
      (.still (place_addChild P _ container .blockQuote (p.firstNonspace + 1)))
    exact passed.trans_le rest.offset.1
  | atxHeading matched =>
    left
    left
    have heading : (openAtxHeading P input matched container p).1.typeOf
        (openAtxHeading P input matched container p).2 = .heading := by
      unfold openAtxHeading
      dsimp only
      apply typeOf_addChild
      exact fun _ => rfl
    exact (congrArg acceptsLines heading).trans rfl
  | fencedCode matched =>
    left
    apply leavesLoop_of_codeBlock
    show ParserState.typeOf (openFencedCode P input matched container p).1 _ = _
    unfold openFencedCode
    dsimp only
    rw [(quiet_advanceTo input _ _).typeOf]
    apply typeOf_addChild
    exact fun _ => rfl
  | htmlBlock matched =>
    left
    right
    show ParserState.typeOf (openHtmlBlock P matched container p).1 _ = _
    unfold openHtmlBlock
    dsimp only
    apply typeOf_addChild
    exact fun _ => rfl
  | setextHeading lev => exact .inl (.inl (acceptsLines_setextHeading lev found.2.1))
  | thematicBreak =>
    right
    have long := length_of_scanThematicBreak found.2
    have same : (addChild P container .thematicBreak (p.firstNonspace + 1) p).1.offset = p.offset :=
      congrArg LinePlace.offset (place_addChild P p container .thematicBreak (p.firstNonspace + 1))
    have passed := offset_lt_advanceTo clean
      (p := (addChild P container .thematicBreak (p.firstNonspace + 1) p).1) (input.length - 1)
      (by omega) (by omega)
    rw [same] at passed
    exact passed
  | footnoteDefinition matched =>
    right
    have inside := BlockStart.Found.inside found
    have passed := offset_lt_advanceTo clean (p := p) (p.firstNonspace + matched) (by omega)
      (by omega)
    have rest : ReadsOn input (advanceTo input (p.firstNonspace + matched) p)
        (addChild P container .footnoteDefinition (p.firstNonspace + matched + 1)
          (advanceTo input (p.firstNonspace + matched) p)).1 :=
      .still (place_addChild P _ container .footnoteDefinition (p.firstNonspace + matched + 1))
    exact passed.trans_le rest.offset.1
  | listItem matched data =>
    right
    obtain ⟨some, notNul⟩ := pos_of_parseListMarker found.2
    have inside := lt_length_of_byteAt notNul
    have passed := offset_lt_advanceTo clean (p := p) (p.firstNonspace + matched) (by omega)
      (by omega)
    exact passed.trans_le (readsOn_openListItem input p container matched data).offset.1
  | indentedCode =>
    left
    apply leavesLoop_of_codeBlock
    show ParserState.typeOf (openIndentedCode P input container p).1 _ = _
    unfold openIndentedCode
    dsimp only
    apply typeOf_addChild
    exact fun _ => rfl

/-- One turn of the loop: it opens nothing, it opens the last block, or it passes something of the
line; and it stays within the line. -/
theorem openNewBlock_progress (core : P.syntaxExtensions = []) (clean : (0 : UInt8) ∉ input)
    (allMatched maybeLazy : Bool) (depth : Nat) (container : NodeId) (p : ParserState) :
    (∀ q c, openNewBlock P input allMatched maybeLazy depth container p = (q, some c) →
      LeavesLoop q c ∨ p.offset < q.offset) ∧
    (openNewBlock P input allMatched maybeLazy depth container p).1.offset ≤
      max p.offset input.length := by
  unfold openNewBlock
  extract_lets p' indented
  have aligned : p'.offset ≤ p'.firstNonspace := offset_le_firstNonspace input p
  have same : p'.offset = p.offset := rfl
  obtain ⟨killPos, searched⟩ := findBlockStart_fst input p' P allMatched maybeLazy depth container
  have fits := (findBlockStart_found input p' P allMatched maybeLazy depth container).2
  generalize findBlockStart P input allMatched maybeLazy depth container p' = r at searched fits ⊢
  obtain ⟨q, start⟩ := r
  dsimp only at searched fits
  rw [← same]
  cases start with
  | some start =>
    have found := fits start rfl
    rw [searched]
    have reads := readsOn_openBlock (P := P) input { p' with thematicBreakKillPos := killPos }
      container start
    have progress := openBlock_progress (P := P) (p := { p' with thematicBreakKillPos := killPos })
      clean aligned (found.of_killPos killPos)
    refine ⟨?_, reads.offset.2⟩
    rintro q c ⟨⟩
    exact progress
  | none =>
    rw [core, searched]
    refine ⟨?_, le_max_left _ _⟩
    rintro q c ⟨⟩

/-! ### The loop without fuel -/

/-- The loop of `open_new_blocks`, from the block and the state it starts with to those that it
leaves. -/
inductive OpensBlocks (P : Config) (input : Bytes) (allMatched : Bool) :
    Bool → Nat → NodeId → ParserState → ParserState × NodeId → Prop
  | leaf {maybeLazy : Bool} {depth : Nat} {container : NodeId} {p : ParserState} :
      p.typeOf container = .codeBlock ∨ p.typeOf container = .htmlBlock →
      OpensBlocks P input allMatched maybeLazy depth container p (p, container)
  | none {maybeLazy : Bool} {depth : Nat} {container : NodeId} {p q : ParserState} :
      ¬ (p.typeOf container = .codeBlock ∨ p.typeOf container = .htmlBlock) →
      openNewBlock P input allMatched maybeLazy (depth + 1) container p = (q, none) →
      OpensBlocks P input allMatched maybeLazy depth container p (q, container)
  | lines {maybeLazy : Bool} {depth : Nat} {container c : NodeId} {p q : ParserState} :
      ¬ (p.typeOf container = .codeBlock ∨ p.typeOf container = .htmlBlock) →
      openNewBlock P input allMatched maybeLazy (depth + 1) container p = (q, some c) →
      acceptsLines (q.typeOf c) = true →
      OpensBlocks P input allMatched maybeLazy depth container p (q, c)
  | next {maybeLazy : Bool} {depth : Nat} {container c : NodeId} {p q : ParserState}
      {r : ParserState × NodeId} :
      ¬ (p.typeOf container = .codeBlock ∨ p.typeOf container = .htmlBlock) →
      openNewBlock P input allMatched maybeLazy (depth + 1) container p = (q, some c) →
      acceptsLines (q.typeOf c) = false →
      OpensBlocks P input allMatched false (depth + 1) c q r →
      OpensBlocks P input allMatched maybeLazy depth container p r

/-- Fuel for the rest of the line is enough. -/
theorem opensBlocks_openNewBlocksFrom (core : P.syntaxExtensions = [])
    (clean : (0 : UInt8) ∉ input) (allMatched : Bool) (fuel : Nat) (maybeLazy : Bool) (depth : Nat)
    (container : NodeId) (p : ParserState) (enough : input.length - p.offset + 2 ≤ fuel) :
    OpensBlocks P input allMatched maybeLazy depth container p
      (openNewBlocksFrom P input allMatched fuel maybeLazy depth container p) := by
  induction fuel generalizing maybeLazy depth container p with
  | zero => exact absurd enough (Nat.not_succ_le_zero _)
  | succ fuel ih =>
    obtain ⟨progress, within⟩ := openNewBlock_progress core clean allMatched maybeLazy (depth + 1)
      container p
    unfold openNewBlocksFrom
    split
    next leaf => exact .leaf (by simpa using leaf)
    next going =>
      have notLeaf : ¬ (p.typeOf container = .codeBlock ∨ p.typeOf container = .htmlBlock) := by
        simpa using going
      cases turn : openNewBlock P input allMatched maybeLazy (depth + 1) container p with
      | mk q opened =>
        cases opened with
        | none => exact .none notLeaf turn
        | some c =>
          dsimp only
          split
          next lines => exact .lines notLeaf turn lines
          next noLines =>
            have noLines' : acceptsLines (q.typeOf c) = false := by simpa using noLines
            apply OpensBlocks.next notLeaf turn noLines'
            rcases progress q c turn with (lines | html) | passed
            · exact absurd lines noLines
            · -- the next turn ends with the HTML block
              cases fuel with
              | zero => omega
              | succ fuel =>
                unfold openNewBlocksFrom
                rw [if_pos (by simp [html])]
                exact .leaf (.inr html)
            · apply ih
              rw [turn] at within
              dsimp only at within
              omega

/-- For every state and line, each turn of the loop leaves it or passes something of the line, no
turn passes the end of the line, and the loop ends. -/
theorem openNewBlocks_ends (core : P.syntaxExtensions = []) (clean : (0 : UInt8) ∉ input)
    (p : ParserState) :
    (∀ allMatched maybeLazy depth container q c,
      openNewBlock P input allMatched maybeLazy depth container p = (q, some c) →
      LeavesLoop q c ∨ p.offset < q.offset) ∧
    (∀ allMatched maybeLazy depth container, p.offset ≤ input.length →
      (openNewBlock P input allMatched maybeLazy depth container p).1.offset ≤ input.length) ∧
    ∀ allMatched container,
      OpensBlocks P input allMatched (p.typeOf p.current = .paragraph) 0 container p
        (openNewBlocks P input allMatched container p) := by
  refine ⟨?_, ?_, ?_⟩
  · intro allMatched maybeLazy depth container
    exact (openNewBlock_progress core clean allMatched maybeLazy depth container p).1
  · intro allMatched maybeLazy depth container inside
    have within := (openNewBlock_progress core clean allMatched maybeLazy depth container p).2
    rwa [max_eq_right inside] at within
  · intro allMatched container
    apply opensBlocks_openNewBlocksFrom core clean
    omega

/-- A line that opens a block quote with a list in it. -/
theorem openNewBlocks_ends_quote :
    (∀ allMatched maybeLazy depth container q c,
      openNewBlock ⟨asciiTables, 0, []⟩ (lit "> - a\n") allMatched maybeLazy depth container
        (startLine (lit "> - a\n") initialState) = (q, some c) →
      LeavesLoop q c ∨ (startLine (lit "> - a\n") initialState).offset < q.offset) ∧
    (∀ allMatched maybeLazy depth container,
      (startLine (lit "> - a\n") initialState).offset ≤ (lit "> - a\n").length →
      (openNewBlock ⟨asciiTables, 0, []⟩ (lit "> - a\n") allMatched maybeLazy depth container
        (startLine (lit "> - a\n") initialState)).1.offset ≤ (lit "> - a\n").length) ∧
    ∀ allMatched container,
      OpensBlocks ⟨asciiTables, 0, []⟩ (lit "> - a\n") allMatched
        ((startLine (lit "> - a\n") initialState).typeOf
          (startLine (lit "> - a\n") initialState).current = .paragraph)
        0 container (startLine (lit "> - a\n") initialState)
        (openNewBlocks ⟨asciiTables, 0, []⟩ (lit "> - a\n") allMatched container
          (startLine (lit "> - a\n") initialState)) :=
  openNewBlocks_ends rfl (by decide) (startLine (lit "> - a\n") initialState)

end

end CmarkGfm
