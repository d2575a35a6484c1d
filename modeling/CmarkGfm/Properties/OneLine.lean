import CmarkGfm.Properties.FirstInline
import CmarkGfm.Properties.PreservedText

/-!
# A document of one line

A line that starts with text opens a paragraph and goes into it as it is. Closing the paragraph,
parsing its inlines and merging text nodes are then all that is left to do.
-/

namespace CmarkGfm

open Regex

/-! ### The options -/

/-- Options with which the parser opens blocks, and neither repairs bytes nor looks for footnotes. -/
structure PlainOptions (options : Options) : Prop where
  preserveWhitespace : options.has optPreserveWhitespace = false
  inlineOnly : options.has optInlineOnly = false
  validateUtf8 : options.has optValidateUtf8 = false
  footnotes : options.has optFootnotes = false

/-- A parser without extensions. -/
def bareParser (T : Tables) (options : Options) : Config := ⟨T, options, []⟩

/-! ### The line -/

/-- A line feed ends the only line. -/
theorem processedLines_line {line : Bytes} (preserve : Bool) (plain : ∀ c ∈ line, c ≠ 0 ∧ isLineEndChar c = false) :
    processedLines preserve [line ++ [10]] = [(line, true)] := by
  have kept : ∀ (line : Bytes) (feed : Feed), (∀ c ∈ line, c ≠ 0 ∧ isLineEndChar c = false) →
      feed.lastBufferEndedWithCr = false → line.foldl (readByte recordLine) (feed, []) =
        ({ feed with linebuf := feed.linebuf ++ line }, []) := by
    intro line
    induction line with
    | nil => simp
    | cons c line ih =>
      intro feed plain cr
      obtain ⟨notNul, notEnd⟩ := plain c List.mem_cons_self
      have notLf : c ≠ 10 := by
        rintro rfl
        cases notEnd
      have step : readByte recordLine (feed, []) c =
          ({ feed with linebuf := feed.linebuf ++ [c], lastBufferEndedWithCr := false }, []) := by
        simp [readByte, notLf, notEnd, notNul]
      rw [List.foldl_cons, step, ih _ (fun d member => plain d (.tail c member)) rfl]
      simp [cr]
  rw [processedLines_single, List.foldl_append, kept line {} plain rfl]
  simp [readByte, isLineEndChar, recordLine, lastLine]

theorem prepareLine_line {T : Tables} {options : Options} (plain : PlainOptions options) {line : Bytes}
    (unbroken : ∀ c ∈ line, isLineEndChar c = false) :
    prepareLine (bareParser T options) line true = line ++ [10] := by
  have last : (line.getLast?.elim false isLineEndChar) = false := by
    cases found : line.getLast? with
    | none => rfl
    | some c => exact unbroken c (List.mem_of_getLast? found)
  have validates : (bareParser T options).options.has optValidateUtf8 = false := plain.validateUtf8
  simp [prepareLine, validates, last]

/-! ### The paragraph -/

/-- Setting the flags for blank lines changes nodes only. -/
theorem setLastLineBlank_eq (i : NodeId) (p : ParserState) :
    ∃ nodes, setLastLineBlank i p = { p with nodes := nodes } := by
  have cleared : ∀ (fuel : Nat) (tmp : NodeId) (q : ParserState),
      ∃ nodes, clearAncestorsBlank fuel tmp q = { q with nodes := nodes } := by
    intro fuel
    induction fuel with
    | zero => exact fun _ q => ⟨q.nodes, rfl⟩
    | succ fuel ih =>
      intro tmp q
      unfold clearAncestorsBlank
      split
      next => exact ⟨q.nodes, rfl⟩
      next => exact ih _ _
  unfold setLastLineBlank
  extract_lets flags d lastLineBlank set
  have flagged : ∃ nodes, flags = { p with nodes := nodes } := by
    unfold flags
    split
    next => split <;> exact ⟨_, rfl⟩
    next => exact ⟨_, rfl⟩
  obtain ⟨nodes, same⟩ := flagged
  have set' : ∃ nodes, set = { p with nodes := nodes } := by
    unfold set
    rw [same]
    exact ⟨_, rfl⟩
  obtain ⟨nodes', same'⟩ := set'
  rw [same']
  exact cleared _ i _

/-- The byte is in ASCII and begins neither an indentation nor a line end. -/
def isInk (c : UInt8) : Bool := c < 0x80 && !isSpaceOrTab c && !isLineEndChar c

/-- Nothing has been read of a line that does not start with white space. -/
structure AtText (input : Bytes) (p : ParserState) : Prop where
  offset : p.offset = 0
  column : p.column = 0
  firstNonspace : p.firstNonspace = 0
  tab : p.partiallyConsumedTab = false
  started : p.lineNumber ≠ 0
  text : input.head?.any isInk = true

section

variable {T : Tables} {options : Options} {input : Bytes} {p : ParserState}

theorem AtText.withNodes (start : AtText input p) (nodes : NodeId → Option Block) :
    AtText input { p with nodes := nodes } :=
  ⟨start.offset, start.column, start.firstNonspace, start.tab, start.started, start.text⟩

/-- There is no indentation to find. -/
theorem AtText.findFirstNonspace (start : AtText input p) :
    AtText input (findFirstNonspace input p) ∧ (findFirstNonspace input p).indent = 0 ∧
      (findFirstNonspace input p).blank = false := by
  have text := start.text
  cases input with
  | nil => cases text
  | cons c rest =>
    have ink : isSpaceOrTab c = false ∧ isLineEndChar c = false := by
      simp only [List.head?_cons, Option.any_some, isInk, Bool.and_eq_true, Bool.not_eq_true'] at text
      exact ⟨text.1.2, text.2⟩
    have here : skipIndent (c :: rest) 0 0 (tabStop - 0 % tabStop) = (0, 0) := by
      simp only [isSpaceOrTab, Bool.or_eq_false_iff] at ink
      simp [skipIndent, ink.1]
    have found : CmarkGfm.findFirstNonspace (c :: rest) p =
        { p with firstNonspace := 0, firstNonspaceColumn := 0, indent := 0, blank := false } := by
      unfold CmarkGfm.findFirstNonspace
      rw [start.firstNonspace, start.offset, start.column, if_pos le_rfl, List.drop_zero, here]
      simp [byteAt, ink.2]
    rw [found]
    exact ⟨⟨start.offset, start.column, rfl, start.tab, start.started, text⟩, rfl, rfl⟩

/-- At the first byte of the line no block starts. -/
def StartsNoBlock (P : Config) (input : Bytes) : Prop :=
  ∀ (q : ParserState) (start : BlockStart), q.typeOf 0 = .document → q.firstNonspace = 0 → q.indent = 0 →
    ¬ start.Found P input false 0 q

theorem openNewBlocks_document (no : NoParagraph p) (start : AtText input p)
    (noStart : StartsNoBlock (bareParser T options) input) :
    ∃ q, openNewBlocks (bareParser T options) input true 0 p = (q, 0) ∧ NoParagraph q ∧ AtText input q := by
  have document : p.typeOf 0 = .document := typeOf_of_face no.documentFace
  obtain ⟨found, indent, _⟩ := start.findFirstNonspace
  have next := no.of_quiet (quiet_findFirstNonspace input p)
  unfold openNewBlocks openNewBlocksFrom openNewBlock
  have lazy : decide (NodeType.document = NodeType.paragraph) = false := rfl
  rw [no.current, document, lazy, if_neg (by decide)]
  dsimp only
  generalize CmarkGfm.findFirstNonspace input p = q at found indent next ⊢
  have scanned := findBlockStart_found input q (bareParser T options) true false 1 0
  obtain ⟨killPos, moved⟩ := findBlockStart_fst input q (bareParser T options) true false 1 0
  generalize findBlockStart (bareParser T options) input true false 1 0 q = r at scanned moved ⊢
  obtain ⟨q', blockStart⟩ := r
  cases blockStart with
  | some blockStart =>
    exact absurd (scanned.2 blockStart rfl)
      (noStart q blockStart (typeOf_of_face next.documentFace) found.firstNonspace indent)
  | none =>
    have moved : q' = { q with thematicBreakKillPos := killPos } := moved
    refine ⟨q', rfl, ?_, ?_⟩
    · rw [moved]
      exact ⟨next.root, next.current, next.nextId, next.documentLinks, next.documentFace⟩
    · rw [moved]
      exact ⟨found.offset, found.column, found.firstNonspace, found.tab, found.started, found.text⟩

/-- The line goes into a new paragraph. -/
theorem addTextToContainer_document (plain : PlainOptions options) (no : NoParagraph p)
    (start : AtText input p) :
    OneParagraph (addTextToContainer (bareParser T options) input 0 0 p).1 input := by
  have preserve : (bareParser T options).options.has optPreserveWhitespace = false := plain.preserveWhitespace
  have quiet := (quiet_findFirstNonspace input p).trans
    (quiet_setLastLineBlank (findFirstNonspace input p) 0)
  have next := no.of_quiet quiet
  obtain ⟨found, _, notBlank⟩ := start.findFirstNonspace
  obtain ⟨nodes, flags⟩ := setLastLineBlank_eq 0 (findFirstNonspace input p)
  have start' : AtText input (setLastLineBlank 0 (findFirstNonspace input p)) ∧
      (setLastLineBlank 0 (findFirstNonspace input p)).blank = false := by
    rw [flags]
    exact ⟨found.withNodes nodes, notBlank⟩
  unfold addTextToContainer
  dsimp only
  generalize setLastLineBlank 0 (findFirstNonspace input p) = q at next start'
  obtain ⟨start', notBlank'⟩ := start'
  have closed : closeUnmatched (bareParser T options) 0 (q.nextId + 1) q = q := by
    unfold closeUnmatched
    rw [if_pos next.current]
  obtain ⟨type, _⟩ := data_of_face next.documentFace
  have child : addChild (bareParser T options) 0 .paragraph (q.firstNonspace + 1 : Nat) q =
      q.appendBlock 0 (makeBlock .paragraph q.lineNumber (q.firstNonspace + 1 : Nat)) := by
    have contains : (bareParser T options).nodeCanContainType (q.dataOf 0) .paragraph = true := by
      rw [nodeCanContainType_core rfl, type]
      rfl
    unfold addChild acceptingParent
    rw [if_pos contains]
  have opened := next.appendBlock q.lineNumber (q.firstNonspace + 1 : Nat)
  have child' : (q.appendBlock 0 (makeBlock .paragraph q.lineNumber (q.firstNonspace + 1 : Nat))).2 = 1 :=
    next.nextId
  have skipped : ∀ r : ParserState, r.firstNonspace = 0 → r.offset = 0 →
      skipIndentation (bareParser T options) input r = r := by
    intro r first offset
    unfold skipIndentation advanceTo
    rw [preserve, first, offset]
    rfl
  have paragraph : addParagraph (bareParser T options) input 0 q =
      (addLine 1 input (q.appendBlock 0 (makeBlock .paragraph q.lineNumber (q.firstNonspace + 1 : Nat))).1, 1) := by
    unfold addParagraph
    rw [preserve, if_neg (by decide)]
    dsimp only
    rw [child, child', skipped (q.appendBlock 0 _).1 start'.firstNonspace start'.offset]
  have added : addContainerLine (bareParser T options) input 0 q =
      (addLine 1 input (q.appendBlock 0 (makeBlock .paragraph q.lineNumber (q.firstNonspace + 1 : Nat))).1, 1,
        input) := by
    unfold addContainerLine
    rw [notBlank', paragraph]
    simp [type, acceptsLines]
  rw [if_neg (by simp [next.current]), closed, added]
  have last := opened.addLine ⟨start'.offset, start'.tab, start'.started⟩ input
  rwa [addLine_current] at last

theorem atText_startLine (text : input.head?.any isInk = true) : AtText input (startLine input p) := by
  refine ⟨if_neg ?_, rfl, rfl, rfl, Nat.succ_ne_zero _, text⟩
  cases input with
  | nil => simp
  | cons c rest =>
    -- a byte order mark does not start with a byte in ASCII
    have notBom : c ≠ 0xef := by
      rintro rfl
      simp [isInk] at text
    simp [notBom]

/-- The only line of the input becomes the content of a paragraph. -/
theorem oneParagraph_line (plain : PlainOptions options) {line : Bytes}
    (bytes : ∀ c ∈ line, c ≠ 0 ∧ isLineEndChar c = false) (text : line.head?.any isInk = true)
    (noStart : StartsNoBlock (bareParser T options) (line ++ [10])) :
    OneParagraph (replay (processLine (bareParser T options)) initialState
      (processedLines ((bareParser T options).options.has optPreserveWhitespace) [line ++ [10]]))
      (line ++ [10]) := by
  have inlineOnly : (bareParser T options).options.has optInlineOnly = false := plain.inlineOnly
  have prepared := prepareLine_line (T := T) plain fun c member => (bytes c member).2
  have text' : (line ++ [10]).head?.any isInk = true := by
    cases line with
    | nil => cases text
    | cons c rest => exact text
  rw [processedLines_line _ bytes]
  show OneParagraph (processLine (bareParser T options) initialState line true) (line ++ [10])
  unfold processLine
  rw [prepared, inlineOnly]
  generalize line ++ [10] = input at noStart text' ⊢
  have next := noParagraph_initialState.of_quiet (quiet_startLine input initialState)
  have start := atText_startLine (p := initialState) text'
  obtain ⟨q, opened, none', start'⟩ := openNewBlocks_document (T := T) next start noStart
  have same : q.current = (startLine input initialState).current := none'.current.trans next.current.symm
  have added := addTextToContainer_document (T := T) plain none' start'
  dsimp only
  rw [checkOpenBlocks_noParagraph next]
  dsimp only
  rw [if_neg Bool.false_ne_true, opened]
  dsimp only
  rw [if_pos same]
  exact ⟨added.root, added.current, added.nextId, added.documentLinks, added.paragraphLinks,
    added.documentFace, added.paragraphFace⟩

end

end CmarkGfm
