import CmarkGfm.Properties.Chunking
import CmarkGfm.Properties.OpenBlocks
import CmarkGfm.Properties.Progress

/-!
# Preserved white space

With `CMARK_OPT_PRESERVE_WHITESPACE` the parser opens no blocks but one paragraph, into which every
line goes as it is. Its inlines are text alone where no byte of the content is special.
-/

namespace CmarkGfm

/-! ### The lines -/

/-- The bytes of the lines, with the line feeds that were cut off. -/
def linesBytes (lines : List (Bytes × Bool)) : Bytes :=
  lines.flatMap fun line => if line.2 then line.1 ++ [10] else line.1

/-- A line feed ends every line but the last one. -/
structure WholeLines (lines : List (Bytes × Bool)) (bytes : Bytes) : Prop where
  bytes : linesBytes lines = bytes
  unbroken : ∀ line ∈ lines, ∀ c ∈ line.1, isLineEndChar c = false
  nonempty : ∀ line ∈ lines, line.2 = false → line.1 ≠ []

theorem WholeLines.recordLine {lines : List (Bytes × Bool)} {bytes line : Bytes} {e : Bool}
    (whole : WholeLines lines bytes) (unbroken : ∀ c ∈ line, isLineEndChar c = false)
    (nonempty : e = false → line ≠ []) :
    WholeLines (recordLine lines line e) (bytes ++ if e then line ++ [10] else line) where
  bytes := by simp [CmarkGfm.recordLine, linesBytes, ← whole.bytes]
  unbroken := by
    intro l member
    rcases List.mem_append.mp member with old | new
    · exact whole.unbroken l old
    · rw [List.mem_singleton.mp new]
      exact unbroken
  nonempty := by
    intro l member last
    rcases List.mem_append.mp member with old | new
    · exact whole.nonempty l old last
    · rw [List.mem_singleton.mp new] at last ⊢
      exact nonempty last

theorem foldl_readByte_lines (bytes : Bytes) (plain : ∀ c ∈ bytes, c ≠ 0 ∧ c ≠ 13) (feed : Feed)
    (lines : List (Bytes × Bool)) (before : Bytes) (cr : feed.lastBufferEndedWithCr = false)
    (unbroken : ∀ c ∈ feed.linebuf, isLineEndChar c = false) (whole : WholeLines lines before) :
    ∃ rest, (∀ c ∈ (bytes.foldl (readByte recordLine) (feed, lines)).1.linebuf,
        isLineEndChar c = false) ∧
      WholeLines (bytes.foldl (readByte recordLine) (feed, lines)).2 rest ∧
      rest ++ (bytes.foldl (readByte recordLine) (feed, lines)).1.linebuf =
        before ++ feed.linebuf ++ bytes := by
  induction bytes generalizing feed lines before with
  | nil => exact ⟨before, unbroken, whole, by simp⟩
  | cons c bytes ih =>
    obtain ⟨notNul, notCr⟩ := plain c List.mem_cons_self
    have later := fun d member => plain d (List.mem_cons_of_mem c member)
    rw [List.foldl_cons]
    by_cases ends : c = 10
    · have step : readByte recordLine (feed, lines) c =
          ({ feed with linebuf := [], lastBufferEndedWithCr := false },
            recordLine lines feed.linebuf true) := by
        simp [readByte, ends, cr, isLineEndChar]
      rw [step]
      have next := whole.recordLine (e := true) unbroken (by simp)
      obtain ⟨rest, unbroken', whole', bytes'⟩ :=
        ih later ⟨[], false, feed.totalSize⟩ _ _ rfl (by simp) next
      refine ⟨rest, unbroken', whole', ?_⟩
      rw [bytes', ends]
      simp
    · have plainByte : isLineEndChar c = false := by simp [isLineEndChar, ends, notCr]
      have step : readByte recordLine (feed, lines) c =
          ({ feed with linebuf := feed.linebuf ++ [c], lastBufferEndedWithCr := false }, lines) := by
        simp [readByte, ends, plainByte, notNul]
      rw [step]
      have longer : ∀ d ∈ feed.linebuf ++ [c], isLineEndChar d = false := by
        intro d member
        rcases List.mem_append.mp member with old | new
        · exact unbroken d old
        · rw [List.mem_singleton.mp new]
          exact plainByte
      obtain ⟨rest, unbroken', whole', bytes'⟩ :=
        ih later ⟨feed.linebuf ++ [c], false, feed.totalSize⟩ _ _ rfl longer whole
      refine ⟨rest, unbroken', whole', ?_⟩
      rw [bytes']
      simp

/-- The lines are those of the input. -/
theorem wholeLines_processedLines (bytes : Bytes) (plain : ∀ c ∈ bytes, c ≠ 0 ∧ c ≠ 13) :
    WholeLines (processedLines true [bytes]) bytes := by
  have none : WholeLines ([] : List (Bytes × Bool)) [] := ⟨rfl, nofun, nofun⟩
  obtain ⟨rest, unbroken, whole, all⟩ := foldl_readByte_lines bytes plain {} [] [] rfl nofun none
  rw [processedLines_single, lastLine]
  rw [List.nil_append] at all
  split
  next some =>
    have last := whole.recordLine (e := false) unbroken fun _ => List.ne_nil_of_length_pos some
    rw [if_neg Bool.false_ne_true, all] at last
    exact last
  next empty =>
    have nothing := List.eq_nil_of_length_eq_zero (Nat.eq_zero_of_not_pos empty)
    rw [nothing, List.append_nil] at all
    rw [List.append_nil]
    have same : rest = bytes := by simpa using all
    exact same ▸ whole

/-! ### One paragraph -/

/-- The document holds one open paragraph with this content, to which lines are added. -/
structure OneParagraph (p : ParserState) (content : Bytes) : Prop where
  root : p.root = 0
  current : p.current = 1
  nextId : p.nextId = 2
  documentLinks : p.links 0 = some ⟨.document, none, [1]⟩
  paragraphLinks : p.links 1 = some ⟨.paragraph, some 0, []⟩
  documentFace : p.face 0 = some ⟨.document, true, [], .empty⟩
  paragraphFace : p.face 1 = some ⟨.paragraph, true, content, .empty⟩

/-- The document holds nothing yet. -/
structure NoParagraph (p : ParserState) : Prop where
  root : p.root = 0
  current : p.current = 0
  nextId : p.nextId = 1
  documentLinks : p.links 0 = some ⟨.document, none, []⟩
  documentFace : p.face 0 = some ⟨.document, true, [], .empty⟩

theorem noParagraph_initialState : NoParagraph initialState := ⟨rfl, rfl, rfl, rfl, rfl⟩

theorem face_of_quiet {p q : ParserState} (quiet : Quiet p q) (i : NodeId) : q.face i = p.face i := by
  rw [ParserState.face, ParserState.face, quiet.shape]

theorem links_of_quiet {p q : ParserState} (quiet : Quiet p q) (i : NodeId) : q.links i = p.links i := by
  rw [ParserState.links, ParserState.links, quiet.shape]

theorem OneParagraph.of_quiet {p q : ParserState} {content : Bytes} (one : OneParagraph p content)
    (quiet : Quiet p q) : OneParagraph q content where
  root := quiet.root.trans one.root
  current := quiet.current.trans one.current
  nextId := quiet.nextId.trans one.nextId
  documentLinks := (links_of_quiet quiet 0).trans one.documentLinks
  paragraphLinks := (links_of_quiet quiet 1).trans one.paragraphLinks
  documentFace := (face_of_quiet quiet 0).trans one.documentFace
  paragraphFace := (face_of_quiet quiet 1).trans one.paragraphFace

theorem NoParagraph.of_quiet {p q : ParserState} (no : NoParagraph p) (quiet : Quiet p q) :
    NoParagraph q where
  root := quiet.root.trans no.root
  current := quiet.current.trans no.current
  nextId := quiet.nextId.trans no.nextId
  documentLinks := (links_of_quiet quiet 0).trans no.documentLinks
  documentFace := (face_of_quiet quiet 0).trans no.documentFace

/-- Where the rest of a line begins that nothing has been read of. -/
structure AtStart (p : ParserState) : Prop where
  offset : p.offset = 0
  tab : p.partiallyConsumedTab = false
  started : p.lineNumber ≠ 0

theorem AtStart.setLastLineBlank {p : ParserState} (start : AtStart p) (i : NodeId) :
    AtStart (setLastLineBlank i p) := by
  have cleared : ∀ (fuel : Nat) (tmp : NodeId) (q : ParserState), AtStart q →
      AtStart (clearAncestorsBlank fuel tmp q) := by
    intro fuel
    induction fuel with
    | zero => exact fun _ _ start => start
    | succ fuel ih =>
      intro tmp q start
      unfold clearAncestorsBlank
      split
      next => exact start
      next => exact ih _ _ ⟨start.offset, start.tab, start.started⟩
  unfold CmarkGfm.setLastLineBlank
  extract_lets flags d lastLineBlank set
  have flagged : AtStart flags := by
    unfold flags
    split
    next => split <;> exact ⟨start.offset, start.tab, start.started⟩
    next => exact start
  exact cleared _ _ _ ⟨flagged.offset, flagged.tab, flagged.started⟩

theorem AtStart.addLine_started {p : ParserState} (start : AtStart p) (i : NodeId) (ch : Bytes) :
    (CmarkGfm.addLine i ch p).lineNumber ≠ 0 := by
  unfold CmarkGfm.addLine
  dsimp only [ParserState.assert]
  rw [start.tab]
  exact start.started

/-- The whole line goes into the paragraph. -/
theorem OneParagraph.addLine {p : ParserState} {content : Bytes} (one : OneParagraph p content)
    (start : AtStart p) (input : Bytes) : OneParagraph (addLine 1 input p) (content ++ input) := by
  have alters := alters_addLine input 1 p
  refine ⟨alters.root.trans one.root, alters.current.trans one.current, alters.nextId.trans one.nextId,
    (congrFun alters.links 0).trans one.documentLinks, (congrFun alters.links 1).trans one.paragraphLinks,
    (alters.others 0 (by decide)).trans one.documentFace, ?_⟩
  have added : CmarkGfm.addLine 1 input p = (p.assert (p.isOpen 1)).modifyData 1 fun d =>
      { d with content := d.content ++ [] ++ input.drop p.offset } := by
    have tab : (p.assert (p.isOpen 1)).partiallyConsumedTab = false := start.tab
    unfold CmarkGfm.addLine
    simp only [tab]
    rfl
  have here := one.paragraphFace
  rw [face_eq] at here
  obtain ⟨b, block, shape⟩ := Option.map_eq_some_iff.mp here
  have same : (p.assert (p.isOpen 1)).nodes 1 = some b := block
  rw [added, face_modifyData, if_pos rfl, same, start.offset]
  simp only [BlockFace.mk.injEq] at shape
  obtain ⟨type, isOpen, text, as⟩ := shape
  simp [type, isOpen, text, as]

/-- The parser with `CMARK_OPT_PRESERVE_WHITESPACE` and no other option. -/
def preserving (T : Tables) : Config := ⟨T, optPreserveWhitespace, []⟩

/-- What its options are. -/
structure PreservingOptions (options : Options) : Prop where
  preserveWhitespace : options.has optPreserveWhitespace = true
  inlineOnly : options.has optInlineOnly = true
  validateUtf8 : options.has optValidateUtf8 = false
  smart : options.has optSmart = false
  footnotes : options.has optFootnotes = false

theorem preserving_options (T : Tables) : PreservingOptions (preserving T).options := by
  show PreservingOptions optPreserveWhitespace
  constructor <;> decide

section

variable {T : Tables} {p : ParserState} {content : Bytes}

theorem openLastChild_document (one : OneParagraph p content) : openLastChild p 0 = some 1 := by
  have isOpen : p.isOpen 1 = true := (data_of_face one.paragraphFace).2.1
  unfold openLastChild ParserState.lastChild
  rw [(parent_of_links one.documentLinks).2.1]
  simp [isOpen]

theorem openLastChild_paragraph (one : OneParagraph p content) : openLastChild p 1 = none := by
  unfold openLastChild ParserState.lastChild
  rw [(parent_of_links one.paragraphLinks).2.1]
  rfl

/-- A blank line does not match the paragraph. -/
theorem checkOpenBlocks_oneParagraph (one : OneParagraph p content) (input : Bytes) :
    checkOpenBlocks (preserving T) input p =
      (findFirstNonspace input p, some (if (findFirstNonspace input p).blank then 0 else 1),
        !(findFirstNonspace input p).blank) := by
  have next := one.of_quiet (quiet_findFirstNonspace input p)
  have matched : parseBlockPrefix (preserving T) input 1 (findFirstNonspace input p) =
      (findFirstNonspace input p, if (findFirstNonspace input p).blank then .unmatched else .matched) := by
    unfold parseBlockPrefix
    rw [extensionOf_core rfl, typeOf_of_face next.paragraphFace]
  unfold checkOpenBlocks
  rw [one.nextId, one.root]
  unfold checkOpenBlocksFrom
  rw [openLastChild_document one]
  dsimp only
  rw [matched]
  cases blank : (findFirstNonspace input p).blank with
  | true =>
    simp only [if_true]
    rw [(parent_of_links next.paragraphLinks).1]
    simp
  | false =>
    simp only [Bool.false_eq_true, if_false]
    unfold checkOpenBlocksFrom
    rw [openLastChild_paragraph next]
    simp

/-- The line continues the paragraph, lazily if it did not match. -/
theorem addTextToContainer_oneParagraph (one : OneParagraph p content) (start : AtStart p)
    (input : Bytes) {container : NodeId} (here : container = 0 ∨ container = 1) :
    OneParagraph (addTextToContainer (preserving T) input container container p).1 (content ++ input) ∧
      (addTextToContainer (preserving T) input container container p).1.lineNumber ≠ 0 := by
  have quiet := (quiet_findFirstNonspace input p).trans
    (quiet_setLastLineBlank (findFirstNonspace input p) container)
  have next := one.of_quiet quiet
  have found : AtStart (findFirstNonspace input p) := ⟨start.offset, start.tab, start.started⟩
  have start' := found.setLastLineBlank container
  have preserves := (preserving_options T).preserveWhitespace
  unfold addTextToContainer
  dsimp only
  generalize setLastLineBlank container (findFirstNonspace input p) = q at next start'
  have type := typeOf_of_face next.paragraphFace
  rw [preserves, next.current]
  rcases here with rfl | rfl
  · rw [if_pos (by simp [type])]
    exact ⟨next.addLine start' input, start'.addLine_started 1 input⟩
  · have closed : closeUnmatched (preserving T) 1 (q.nextId + 1) q = q := by
      unfold closeUnmatched
      rw [if_pos next.current]
    obtain ⟨type, _⟩ := data_of_face next.paragraphFace
    have added : addContainerLine (preserving T) input 1 q = (addLine 1 input q, 1, input) := by
      unfold addContainerLine skipIndentation
      rw [preserves]
      simp [type, acceptsLines]
    simp only [closed, added]
    have last := next.addLine start' input
    exact ⟨{ last with current := rfl }, start'.addLine_started 1 input⟩

theorem NoParagraph.appendBlock (no : NoParagraph p) (startLine startColumn : Int) :
    OneParagraph { (p.appendBlock 0 (makeBlock .paragraph startLine startColumn)).1 with current := 1 }
      [] := by
  have links := links_appendBlock p 0 (makeBlock .paragraph startLine startColumn)
  have faces := face_appendBlock p 0 (makeBlock .paragraph startLine startColumn)
  rw [no.nextId] at links faces
  have document : linkBlock 1 0 .paragraph p.links 0 = some ⟨.document, none, [1]⟩ := by
    unfold linkBlock
    rw [if_neg (by decide), if_pos rfl, no.documentLinks]
    rfl
  exact ⟨no.root, rfl, congrArg (· + 1) no.nextId, (congrFun links 0).trans document,
    congrFun links 1, (faces 0).trans no.documentFace, faces 1⟩

theorem addLine_current (i : NodeId) (ch : Bytes) (p : ParserState) (c : NodeId) :
    CmarkGfm.addLine i ch { p with current := c } = { CmarkGfm.addLine i ch p with current := c } := by
  unfold CmarkGfm.addLine
  dsimp only [ParserState.assert]
  cases p.partiallyConsumedTab <;> rfl

/-- The first line opens the paragraph. -/
theorem addTextToContainer_noParagraph (no : NoParagraph p) (start : AtStart p) (input : Bytes) :
    OneParagraph (addTextToContainer (preserving T) input 0 0 p).1 input ∧
      (addTextToContainer (preserving T) input 0 0 p).1.lineNumber ≠ 0 := by
  have quiet := (quiet_findFirstNonspace input p).trans
    (quiet_setLastLineBlank (findFirstNonspace input p) 0)
  have next := no.of_quiet quiet
  have found : AtStart (findFirstNonspace input p) := ⟨start.offset, start.tab, start.started⟩
  have start' := found.setLastLineBlank 0
  have preserves := (preserving_options T).preserveWhitespace
  unfold addTextToContainer
  dsimp only
  generalize setLastLineBlank 0 (findFirstNonspace input p) = q at next start'
  have closed : closeUnmatched (preserving T) 0 (q.nextId + 1) q = q := by
    unfold closeUnmatched
    rw [if_pos next.current]
  obtain ⟨type, _⟩ := data_of_face next.documentFace
  have child : addChild (preserving T) 0 .paragraph (q.offset + 1 : Nat) q =
      q.appendBlock 0 (makeBlock .paragraph q.lineNumber (q.offset + 1 : Nat)) := by
    have contains : (preserving T).nodeCanContainType (q.dataOf 0) .paragraph = true := by
      rw [nodeCanContainType_core rfl, type]
      rfl
    unfold addChild acceptingParent
    rw [if_pos contains]
  have opened := next.appendBlock q.lineNumber (q.offset + 1 : Nat)
  have paragraph : addParagraph (preserving T) input 0 q =
      (addLine 1 input (q.appendBlock 0 (makeBlock .paragraph q.lineNumber (q.offset + 1 : Nat))).1, 1) := by
    have child' : (q.appendBlock 0 (makeBlock .paragraph q.lineNumber (q.offset + 1 : Nat))).2 = 1 := next.nextId
    unfold addParagraph skipIndentation
    rw [preserves, if_pos rfl]
    dsimp only
    rw [child, child']
    rfl
  have added : addContainerLine (preserving T) input 0 q =
      (addLine 1 input (q.appendBlock 0 (makeBlock .paragraph q.lineNumber (q.offset + 1 : Nat))).1, 1, input) := by
    unfold addContainerLine
    rw [preserves, paragraph]
    simp [type, acceptsLines]
  rw [if_neg (by simp [next.current]), closed, added]
  have child' : AtStart (q.appendBlock 0 (makeBlock .paragraph q.lineNumber (q.offset + 1 : Nat))).1 :=
    ⟨start'.offset, start'.tab, start'.started⟩
  have last := opened.addLine ⟨start'.offset, start'.tab, start'.started⟩ input
  rw [addLine_current] at last
  exact ⟨last, child'.addLine_started 1 input⟩

/-- No byte order mark is cut off a line. -/
theorem atStart_startLine {input : Bytes}
    (noBom : p.lineNumber = 0 → input.take 3 ≠ [0xef, 0xbb, 0xbf]) : AtStart (startLine input p) := by
  refine ⟨if_neg ?_, rfl, Nat.succ_ne_zero _⟩
  simpa using noBom

theorem prepareLine_preserving {line : Bytes} (unbroken : ∀ c ∈ line, isLineEndChar c = false)
    (ensure : Bool) :
    prepareLine (preserving T) line ensure = if ensure then line ++ [10] else line := by
  have last : (line.getLast?.elim false isLineEndChar) = false := by
    cases found : line.getLast? with
    | none => rfl
    | some c => exact unbroken c (List.mem_of_getLast? found)
  unfold prepareLine
  rw [(preserving_options T).validateUtf8]
  simp [last]

/-- A line goes into the last block that it matches. -/
theorem processLine_preserving {q : ParserState} {line input : Bytes} {ensure allMatched : Bool}
    {container : NodeId} (prepared : prepareLine (preserving T) line ensure = input)
    (checked : checkOpenBlocks (preserving T) input (startLine input p) = (q, some container, allMatched)) :
    processLine (preserving T) p line ensure =
      { (addTextToContainer (preserving T) input container container q).1 with
        lastLineLength := lineLength (addTextToContainer (preserving T) input container container q).2
        curline := [] } := by
  unfold processLine
  rw [prepared, (preserving_options T).inlineOnly]
  dsimp only
  rw [checked]
  simp

/-- A line is added to the paragraph. -/
theorem OneParagraph.processLine (one : OneParagraph p content) (started : p.lineNumber ≠ 0) {line : Bytes}
    (unbroken : ∀ c ∈ line, isLineEndChar c = false) (ensure : Bool) :
    OneParagraph (processLine (preserving T) p line ensure)
        (content ++ if ensure then line ++ [10] else line) ∧
      (processLine (preserving T) p line ensure).lineNumber ≠ 0 := by
  have prepared := prepareLine_preserving (T := T) unbroken ensure
  generalize (if ensure then line ++ [10] else line) = input at prepared
  have start := @atStart_startLine p input fun first => absurd first started
  have next := one.of_quiet (quiet_startLine input p)
  rw [processLine_preserving prepared (checkOpenBlocks_oneParagraph next input)]
  have found := next.of_quiet (quiet_findFirstNonspace input _)
  have here : (if (findFirstNonspace input (startLine input p)).blank then 0 else 1 : NodeId) = 0 ∨
      (if (findFirstNonspace input (startLine input p)).blank then 0 else 1 : NodeId) = 1 := by
    split
    next => exact .inl rfl
    next => exact .inr rfl
  obtain ⟨added, later⟩ := addTextToContainer_oneParagraph (T := T) found
    ⟨start.offset, start.tab, start.started⟩ input here
  exact ⟨⟨added.root, added.current, added.nextId, added.documentLinks, added.paragraphLinks,
    added.documentFace, added.paragraphFace⟩, later⟩

/-- Only the document is open. -/
theorem checkOpenBlocks_noParagraph (no : NoParagraph p) (P : Config) (input : Bytes) :
    checkOpenBlocks P input p = (p, some 0, true) := by
  unfold checkOpenBlocks
  rw [no.nextId, no.root]
  unfold checkOpenBlocksFrom openLastChild ParserState.lastChild
  rw [(parent_of_links no.documentLinks).2.1]
  rfl

/-- The first line opens the paragraph with its bytes. -/
theorem NoParagraph.processLine (no : NoParagraph p) {line : Bytes}
    (unbroken : ∀ c ∈ line, isLineEndChar c = false) (ensure : Bool)
    (noBom : (if ensure then line ++ [10] else line).take 3 ≠ [0xef, 0xbb, 0xbf]) :
    OneParagraph (processLine (preserving T) p line ensure) (if ensure then line ++ [10] else line) ∧
      (processLine (preserving T) p line ensure).lineNumber ≠ 0 := by
  have prepared := prepareLine_preserving (T := T) unbroken ensure
  generalize (if ensure then line ++ [10] else line) = input at prepared noBom
  have start := atStart_startLine (p := p) fun _ => noBom
  have next := no.of_quiet (quiet_startLine input p)
  rw [processLine_preserving prepared (checkOpenBlocks_noParagraph next (preserving T) input)]
  obtain ⟨added, later⟩ := addTextToContainer_noParagraph (T := T) next start input
  exact ⟨⟨added.root, added.current, added.nextId, added.documentLinks, added.paragraphLinks,
    added.documentFace, added.paragraphFace⟩, later⟩

/-- All lines go into the paragraph. -/
theorem OneParagraph.replay {lines : List (Bytes × Bool)} {bytes : Bytes} (one : OneParagraph p content)
    (started : p.lineNumber ≠ 0) (unbroken : ∀ line ∈ lines, ∀ c ∈ line.1, isLineEndChar c = false)
    (whole : linesBytes lines = bytes) :
    OneParagraph (replay (CmarkGfm.processLine (preserving T)) p lines) (content ++ bytes) := by
  induction lines generalizing p content bytes with
  | nil =>
    rw [← whole]
    simpa [CmarkGfm.replay, linesBytes] using one
  | cons line lines ih =>
    obtain ⟨next, later⟩ := one.processLine (T := T) started (unbroken line List.mem_cons_self) line.2
    have last := ih next later (fun l member => unbroken l (List.mem_cons_of_mem _ member)) rfl
    rw [← whole]
    rw [List.append_assoc] at last
    exact last

/-- The document holds one paragraph with all of the input. -/
theorem oneParagraph_replay {bytes : Bytes} (nonempty : bytes ≠ []) (plain : ∀ c ∈ bytes, c ≠ 0 ∧ c ≠ 13)
    (noBom : bytes.take 3 ≠ [0xef, 0xbb, 0xbf]) :
    OneParagraph (replay (processLine (preserving T)) initialState (processedLines true [bytes])) bytes := by
  obtain ⟨whole, unbroken, last⟩ := wholeLines_processedLines bytes plain
  cases lines : processedLines true [bytes] with
  | nil =>
    rw [lines] at whole
    exact absurd whole.symm nonempty
  | cons line rest =>
    rw [lines] at whole unbroken last
    have first : bytes = (if line.2 then line.1 ++ [10] else line.1) ++ linesBytes rest := whole.symm
    have noBom' : (if line.2 then line.1 ++ [10] else line.1).take 3 ≠ [0xef, 0xbb, 0xbf] := by
      intro bom
      have long : 3 ≤ (if line.2 then line.1 ++ [10] else line.1).length := by
        have three := congrArg List.length bom
        rw [List.length_take] at three
        simp only [List.length_cons, List.length_nil] at three
        omega
      rw [first, List.take_append_of_le_length long] at noBom
      exact noBom bom
    obtain ⟨one, started⟩ := noParagraph_initialState.processLine (T := T)
      (unbroken line List.mem_cons_self) line.2 noBom'
    rw [first]
    exact one.replay started (fun l member => unbroken l (List.mem_cons_of_mem _ member)) rfl

/-! ### The end of the blocks -/

/-- The document holds one closed paragraph with this content. -/
structure ClosedParagraph (p : ParserState) (content : Bytes) : Prop where
  root : p.root = 0
  nextId : p.nextId = 2
  documentLinks : p.links 0 = some ⟨.document, none, [1]⟩
  paragraphLinks : p.links 1 = some ⟨.paragraph, some 0, []⟩
  paragraphFace : p.face 1 = some ⟨.paragraph, false, content, .empty⟩

/-- A byte that is not in the content is not met. -/
theorem byteAt_ne {bytes : Bytes} {c : UInt8} (notNul : c ≠ 0) (absent : ∀ d ∈ bytes, d ≠ c) (i : Nat) :
    byteAt bytes i ≠ c := by
  unfold byteAt
  rw [List.getD_eq_getElem?_getD]
  cases found : bytes[i]? with
  | none => exact notNul.symm
  | some d => exact absent d (List.mem_of_getElem? found)

/-- Without brackets the content defines no references. -/
theorem resolveReferences_plain (T : Tables) (fuel : Nat) (refmap : Map Reference)
    (plain : ∀ c ∈ content, c ≠ chr '[') :
    resolveReferences T fuel content refmap = (content, refmap) := by
  have byte : ∀ i, byteAt content i ≠ chr '[' := byteAt_ne (by decide) plain
  cases fuel with
  | zero => rfl
  | succ fuel =>
    unfold resolveReferences
    simp [byte 0, byte 1]

/-- Closing a paragraph with this content keeps all of it. -/
structure KeepsContent (P : Config) (content : Bytes) : Prop where
  defines : ∀ refmap, resolveReferences P.tables content.length content refmap = (content, refmap)
  notFreed : isBlank content = true → P.options.has optPreserveWhitespace = true

theorem keepsContent_preserving (plain : ∀ c ∈ content, c ≠ chr '[') : KeepsContent (preserving T) content where
  defines refmap := resolveReferences_plain _ _ refmap plain
  notFreed _ := (preserving_options T).preserveWhitespace

variable {P : Config}

theorem finalize_paragraph (one : OneParagraph p content) (keeps : KeepsContent P content) :
    ClosedParagraph (finalize P 1 p).1 content ∧ (finalize P 1 p).2 = some 0 := by
  have face : (shutBlock 1 p).face 1 = some ⟨.paragraph, false, content, .empty⟩ := by
    rw [face_shutBlock, if_pos rfl, one.paragraphFace]
    rfl
  have alters : Alters 1 (shutBlock 1 p) ((shutBlock 1 p).modifyData 1 fun d => { d with content := content }) :=
    alters_modifyData _ 1 _ fun _ => ⟨rfl, rfl⟩
  have text : ((shutBlock 1 p).dataOf 1).content = content := (data_of_face face).2.2.1
  have references : resolveReferenceLinkDefinitions P.tables 1 (shutBlock 1 p) =
      ((shutBlock 1 p).modifyData 1 fun d => { d with content := content }, !isBlank content) := by
    unfold resolveReferenceLinkDefinitions
    dsimp only
    rw [text, keeps.defines]
    rfl
  have resolved : finalizeContent P 1 (shutBlock 1 p) =
      (shutBlock 1 p).modifyData 1 fun d => { d with content := content } := by
    have notFreed : ¬ (!(!isBlank content) && !P.options.has optPreserveWhitespace) = true := by
      simpa using keeps.notFreed
    unfold finalizeContent
    rw [typeOf_of_face face]
    dsimp only
    rw [references]
    exact if_neg notFreed
  have closed : ((shutBlock 1 p).modifyData 1 fun d => { d with content := content }).face 1 =
      some ⟨.paragraph, false, content, .empty⟩ := by
    rw [face_eq] at face
    obtain ⟨b, block, shape⟩ := Option.map_eq_some_iff.mp face
    rw [face_modifyData, if_pos rfl, block]
    simp only [BlockFace.mk.injEq] at shape
    simp [shape]
  have links : ∀ i, ((shutBlock 1 p).modifyData 1 fun d => { d with content := content }).links i = p.links i :=
    fun i => (congrFun alters.links i).trans (congrFun (links_shutBlock 1 p) i)
  rw [finalize_eq, resolved]
  exact ⟨⟨(root_shutBlock 1 p).trans one.root, (nextId_shutBlock 1 p).trans one.nextId,
    (links 0).trans one.documentLinks, (links 1).trans one.paragraphLinks, closed⟩,
    (parent_of_links one.paragraphLinks).1⟩

theorem finalizeBlocks_oneParagraph (one : OneParagraph p content) (keeps : KeepsContent P content) :
    ClosedParagraph (finalizeBlocks P p) content := by
  obtain ⟨closed, parent⟩ := finalize_paragraph one keeps
  have loop : closeToRoot P (p.nextId + 1) p = { (finalize P 1 p).1 with current := 0 } := by
    rw [one.nextId]
    unfold closeToRoot
    rw [one.current, one.root, if_neg (by decide)]
    generalize finalize P 1 p = r at closed parent
    obtain ⟨q, parent'⟩ := r
    obtain rfl : parent' = some 0 := parent
    have there : ({ q with current := 0 } : ParserState).current = ({ q with current := 0 } : ParserState).root :=
      closed.root.symm
    dsimp only
    unfold closeToRoot
    rw [if_pos there]
  unfold finalizeBlocks
  dsimp only
  rw [loop]
  generalize (finalize P 1 p).1 = q at closed
  have atRoot : ClosedParagraph { q with current := 0 } content :=
    ⟨closed.root, closed.nextId, closed.documentLinks, closed.paragraphLinks, closed.paragraphFace⟩
  rw [closed.root]
  generalize ({ q with current := 0 } : ParserState) = q at atRoot
  have links : ∀ i, (shutBlock 0 q).links i = q.links i := congrFun (links_shutBlock 0 q)
  have kept : finalizeContent P 0 (shutBlock 0 q) = shutBlock 0 q := by
    unfold finalizeContent
    rw [(parent_of_links ((links 0).trans atRoot.documentLinks)).2.2]
  have face : (shutBlock 0 q).face 1 = q.face 1 := by
    rw [face_shutBlock, if_neg (by decide)]
  rw [finalize_eq, kept]
  exact ⟨(root_shutBlock 0 q).trans atRoot.root, (nextId_shutBlock 0 q).trans atRoot.nextId,
    (links 0).trans atRoot.documentLinks, (links 1).trans atRoot.paragraphLinks,
    face.trans atRoot.paragraphFace⟩

/-- The tree in which the inlines are parsed. -/
theorem toTree_closedParagraph (closed : ClosedParagraph p content) :
    ∃ d e, toTree p p.nextId p.root = .mk 0 d [.mk 1 e []] ∧ d.type = .document ∧ e.type = .paragraph ∧
      e.content = content := by
  obtain ⟨_, documentChildren, document⟩ := parent_of_links closed.documentLinks
  obtain ⟨_, paragraphChildren, _⟩ := parent_of_links closed.paragraphLinks
  obtain ⟨paragraph, _, text, _⟩ := data_of_face closed.paragraphFace
  refine ⟨p.dataOf 0, p.dataOf 1, ?_, document, paragraph, text⟩
  rw [closed.nextId, closed.root, toTree, documentChildren]
  simp [toTree, paragraphChildren]

end

/-! ### The inlines -/

/-- Nothing but text begins with this byte. -/
def isOrdinary (c : UInt8) : Bool := c != 0 && c != 13 && !(lit "`\\&_*[]<").contains c

/-- All of the content goes into text nodes as it is. -/
structure Verbatim (P : Config) (s : Bytes) : Prop where
  smart : P.options.has optSmart = false
  ordinary : ∀ c ∈ s, isOrdinary c = true
  lineFeed : P.options.has optPreserveWhitespace = true ∨ ∀ c ∈ s, c ≠ 10

theorem verbatim_preserving {T : Tables} {s : Bytes} (ordinary : ∀ c ∈ s, isOrdinary c = true) :
    Verbatim (preserving T) s :=
  ⟨(preserving_options T).smart, ordinary, .inl (preserving_options T).preserveWhitespace⟩

/-- Without preserved white space there are no line ends. -/
theorem Verbatim.isLineEndChar {P : Config} {s : Bytes} (verbatim : Verbatim P s)
    (strips : P.options.has optPreserveWhitespace = false) (i : Nat) : isLineEndChar (byteAt s i) = false := by
  have oneLine := verbatim.lineFeed.resolve_left (by simp [strips])
  have noLf := byteAt_ne (c := 10) (by decide) oneLine i
  have noCr : byteAt s i ≠ 13 := by
    refine byteAt_ne (by decide) (fun d member same => ?_) i
    have here := verbatim.ordinary d member
    rw [same] at here
    cases here
  simp [CmarkGfm.isLineEndChar, noLf, noCr]

/-- Text nodes that hold the bytes in order. -/
inductive PlainTexts : Forest → Bytes → Prop
  | nil : PlainTexts [] []
  | cons {i : NodeId} {d : NodeData} {s : Bytes} {f : Forest} {rest : Bytes} (type : d.type = .text)
      (literal : d.as = .literal s) (later : PlainTexts f rest) :
      PlainTexts (.leaf i d :: f) (s ++ rest)

theorem PlainTexts.append {f g : Forest} {s t : Bytes} (first : PlainTexts f s) (second : PlainTexts g t) :
    PlainTexts (f ++ g) (s ++ t) := by
  induction first with
  | nil => exact second
  | cons type literal later ih =>
    rw [List.append_assoc]
    exact .cons type literal ih

/-- The bytes that were passed became the text of a new node. -/
structure ReadsText (subj : Subject) (r : Subject × Node) : Prop where
  advances : Advances subj r.1
  children : r.1.children = subj.children
  delims : r.1.delims = subj.delims
  text : PlainTexts [r.2] (chunkDup subj.input subj.pos (r.1.pos - subj.pos))

theorem PlainTexts.single {i : NodeId} {d : NodeData} {s : Bytes} (type : d.type = .text)
    (literal : d.as = .literal s) : PlainTexts [.leaf i d] s := by
  have one := PlainTexts.cons (i := i) type literal .nil
  rwa [List.append_nil] at one

section

variable {subj : Subject} (inside : subj.pos < subj.input.length)

include inside

/-- One byte becomes a text node. -/
theorem readsText_one (d : NodeData) (type : d.type = .text)
    (literal : d.as = .literal (chunkDup subj.input subj.pos 1)) :
    ReadsText subj ((subj.advance 1).alloc d) := by
  refine ⟨(advances_one inside).same rfl rfl, rfl, rfl, .single type ?_⟩
  show d.as = .literal (chunkDup subj.input subj.pos (subj.pos + 1 - subj.pos))
  rw [literal, Nat.add_sub_cancel_left]

theorem readsText_handleDelim (chars : CharTables) (quote : isQuote subj.peekChar = true) :
    ReadsText subj (handleDelim chars false subj subj.peekChar) := by
  have length := scanDelims_fst chars subj.input subj.pos subj.peekChar
  rw [if_pos quote] at length
  unfold handleDelim
  generalize scanDelims chars subj.input subj.pos subj.peekChar = run at length ⊢
  obtain ⟨numdelims, canOpen, canClose⟩ := run
  obtain rfl : numdelims = 1 := length
  simp only [Bool.and_false, Bool.false_eq_true, if_false, quote, Bool.not_true, Bool.or_self]
  exact readsText_one inside _ rfl rfl

/-- The byte at the current position. -/
theorem chunkDup_peekChar : chunkDup subj.input subj.pos 1 = [subj.peekChar] := by
  unfold chunkDup Subject.peekChar Subject.peekCharN byteAt
  rw [List.take_one_drop_eq_of_lt_length inside, List.getD_eq_getElem?_getD]
  simp [inside]

theorem readsText_handleHyphen (hyphen : subj.peekChar = chr '-') :
    ReadsText subj (handleHyphen false subj) := by
  refine readsText_one inside _ rfl ?_
  rw [chunkDup_peekChar inside, hyphen]
  rfl

theorem readsText_handlePeriod (period : subj.peekChar = chr '.') :
    ReadsText subj (handlePeriod false subj) := by
  refine readsText_one inside _ rfl ?_
  rw [chunkDup_peekChar inside, period]
  rfl

theorem readsText_makeText {P : Config} (verbatim : Verbatim P subj.input) (chars : CharTables) :
    ReadsText subj (makeText P chars subj) := by
  have advances := advances_makeText inside P chars
  have forward : subj.pos + 1 ≤ findSpecialChar P chars subj := le_skipWhile _ _ _
  have stops : findSpecialChar P chars subj ≠ subj.pos := by omega
  -- no spaces are stripped
  have keeps : (!P.options.has optPreserveWhitespace &&
      isLineEndChar (Subject.peekChar { subj with pos := findSpecialChar P chars subj })) = false := by
    cases preserves : P.options.has optPreserveWhitespace with
    | true => rfl
    | false => exact verbatim.isLineEndChar preserves _
  unfold makeText at advances ⊢
  dsimp only at advances ⊢
  rw [if_neg stops, keeps] at advances ⊢
  exact ⟨advances, rfl, rfl, .single rfl rfl⟩

end

section

variable {P : Config} {subj : Subject} (verbatim : Verbatim P subj.input) (chars : CharTables)

include verbatim

/-- A byte of the content, or NUL behind it, is none of those that begin something else. -/
theorem peekCharN_ne {c : UInt8} (special : isOrdinary c = false) (notNul : c ≠ 0) (n : Nat) :
    (subj.peekCharN n == c) = false := by
  refine beq_false_of_ne (byteAt_ne notNul (fun d member same => ?_) (subj.pos + n))
  have here := verbatim.ordinary d member
  rw [same, special] at here
  cases here

/-- The `switch` makes text of a line feed, a quote, a hyphen or a period, and nothing else. -/
theorem dispatchInline_ordinary (inside : subj.pos < subj.input.length) :
    dispatchInline P chars subj subj.peekChar = (subj, none) ∨
      ∃ r, dispatchInline P chars subj subj.peekChar = made r ∧ ReadsText subj r := by
  have other : ∀ {c : UInt8}, isOrdinary c = false → c ≠ 0 → (subj.peekChar == c) = false :=
    fun special notNul => peekCharN_ne verbatim special notNul 0
  have bracket := peekCharN_ne verbatim (c := chr '[') (by decide) (by decide) 1
  have emphasis : isEmphasisChar subj.peekChar = false := by
    unfold isEmphasisChar
    rw [other (c := chr '*') (by decide) (by decide), other (c := chr '_') (by decide) (by decide)]
    rfl
  unfold dispatchInline
  rw [verbatim.smart, emphasis, bracket,
    other (c := 13) (by decide) (by decide), other (c := chr '`') (by decide) (by decide),
    other (c := chr '\\') (by decide) (by decide), other (c := chr '&') (by decide) (by decide),
    other (c := chr '<') (by decide) (by decide), other (c := chr '[') (by decide) (by decide),
    other (c := chr ']') (by decide) (by decide)]
  simp only [Bool.false_or, Bool.false_eq_true, if_false, Bool.and_false, Bool.false_and]
  split_ifs with lineFeed preserves quote hyphen period
  · exact .inr ⟨_, rfl, readsText_one inside _ rfl rfl⟩
  · have lineEnd := verbatim.isLineEndChar (Bool.eq_false_iff.mpr preserves) (subj.pos + 0)
    have here : byteAt subj.input (subj.pos + 0) = 10 := beq_iff_eq.mp lineFeed
    rw [here] at lineEnd
    cases lineEnd
  · exact .inr ⟨_, rfl, readsText_handleDelim inside chars quote⟩
  · exact .inr ⟨_, rfl, readsText_handleHyphen inside (by simpa using hyphen)⟩
  · exact .inr ⟨_, rfl, readsText_handlePeriod inside (by simpa using period)⟩
  · exact .inl rfl

/-- Every inline is text, or what an extension makes of it. -/
theorem parseInline_ordinary (inside : subj.pos < subj.input.length)
    (passes : ∀ subj', tryExtensions P.options subj.peekChar P.inlineSyntaxExtensions subj = (subj', none) →
      subj' = subj) :
    ∃ r, parseInline P chars subj = some (r.1.appendChild r.2) ∧
      (ReadsText subj r ∨
        tryExtensions P.options subj.peekChar P.inlineSyntaxExtensions subj = made r) := by
  have notNul : (subj.peekChar == 0) = false := by
    have member : subj.peekChar ∈ subj.input := by
      have one := chunkDup_peekChar inside
      have inChunk : subj.peekChar ∈ chunkDup subj.input subj.pos 1 := by simp [one]
      exact List.mem_of_mem_drop (List.mem_of_mem_take inChunk)
    refine beq_false_of_ne fun nul => ?_
    have here := verbatim.ordinary _ member
    rw [nul] at here
    cases here
  unfold parseInline
  dsimp only
  rw [notNul, if_neg Bool.false_ne_true]
  unfold nextInline
  rcases dispatchInline_ordinary verbatim chars inside with other | ⟨r, dispatched, reads⟩
  · rw [other]
    dsimp only
    rw [if_pos rfl]
    generalize tried : tryExtensions P.options subj.peekChar P.inlineSyntaxExtensions subj = t
    obtain ⟨subj', node⟩ := t
    cases node with
    | some node => exact ⟨(subj', node), rfl, .inr rfl⟩
    | none =>
      obtain rfl := passes subj' tried
      exact ⟨makeText P chars subj', rfl, .inl (readsText_makeText inside verbatim chars)⟩
  · rw [dispatched]
    exact ⟨r, rfl, .inl reads⟩

end

/-- What was read of the content is text. -/
structure ReadText (s : Bytes) (subj : Subject) : Prop where
  input : subj.input = s
  delims : subj.delims = []
  inside : subj.pos ≤ s.length
  children : PlainTexts subj.children (s.take subj.pos)

section

variable {P : Config} {s : Bytes} {subj : Subject} (bare : P.syntaxExtensions = []) (verbatim : Verbatim P s)
  (chars : CharTables) (read : ReadText s subj)

include bare verbatim read

theorem ReadText.parseInline (more : subj.pos < s.length) :
    ∃ next, parseInline P chars subj = some next ∧ ReadText s next ∧ subj.pos < next.pos := by
  obtain ⟨rfl, delims, inside, children⟩ := read
  have none : tryExtensions P.options subj.peekChar P.inlineSyntaxExtensions subj = (subj, .none) := by
    rw [Config.inlineSyntaxExtensions, bare]
    rfl
  have passes (subj' : Subject)
      (tried : tryExtensions P.options subj.peekChar P.inlineSyntaxExtensions subj = (subj', .none)) : subj' = subj :=
    (Prod.mk.inj (tried.symm.trans none)).1
  obtain ⟨r, step, reads | extended⟩ := parseInline_ordinary verbatim chars more passes
  · obtain ⟨⟨sameInput, forward, within⟩, kept, stack, text⟩ := reads
    refine ⟨r.1.appendChild r.2, step, ⟨sameInput, stack.trans delims, within, ?_⟩, forward⟩
    have all := children.append text
    have joined : subj.input.take subj.pos ++ chunkDup subj.input subj.pos (r.1.pos - subj.pos) =
        subj.input.take r.1.pos := by
      rw [chunkDup, ← List.take_add, Nat.add_sub_cancel' forward.le]
    rw [joined, ← kept] at all
    exact all
  · rw [none] at extended
    cases (Prod.mk.inj extended).2

/-- All of the content becomes text. -/
theorem ReadText.parseInlinesLoop {fuel : Nat} (enough : s.length - subj.pos ≤ fuel) :
    ReadText s (parseInlinesLoop P chars fuel subj) ∧ (parseInlinesLoop P chars fuel subj).pos = s.length := by
  induction fuel generalizing subj with
  | zero =>
    refine ⟨read, Nat.le_antisymm read.inside ?_⟩
    show s.length ≤ subj.pos
    omega
  | succ fuel ih =>
    unfold CmarkGfm.parseInlinesLoop
    by_cases eof : subj.isEof
    · rw [if_pos eof]
      have done : subj.input.length ≤ subj.pos := of_decide_eq_true eof
      rw [read.input] at done
      exact ⟨read, Nat.le_antisymm read.inside done⟩
    · have more : subj.pos < s.length := by
        unfold Subject.isEof at eof
        rw [read.input] at eof
        simpa using eof
      obtain ⟨next, step, readNext, forward⟩ := read.parseInline bare verbatim chars more
      rw [if_neg eof, step]
      exact ih readNext (by omega)

end

/-- Without delimiters there is no emphasis. -/
theorem children_processEmphasis (P : Config) {subj : Subject} (none : subj.delims = []) :
    (processEmphasis P subj 0).children = subj.children := by
  unfold processEmphasis processEmphasisWith
  have after : (emphasisStart subj 0).after = [] := by simp [emphasisStart, none]
  have fuel : emphasisFuel (emphasisStart subj 0) = 0 := by
    unfold emphasisFuel
    rw [after]
    rfl
  dsimp only
  rw [fuel]
  rfl

/-- The inlines of the paragraph are its content, as text. -/
theorem parseInlines_ordinary {P : Config} (bare : P.syntaxExtensions = []) (chars : CharTables) {subj : Subject}
    {s : Bytes} (verbatim : Verbatim P s) (start : ReadText s subj) :
    PlainTexts (parseInlines P chars subj).children s := by
  obtain ⟨read, consumed⟩ := start.parseInlinesLoop bare verbatim chars
    (show s.length - subj.pos ≤ subj.input.length by rw [start.input]; omega)
  have children := read.children
  rw [consumed, List.take_length] at children
  unfold parseInlines
  dsimp only
  rw [children_processEmphasis _ read.delims]
  exact children

/-! ### The document -/

/-- Merging adjacent text nodes gives one with all of the text. -/
theorem consolidateList_plainTexts {f : Forest} {s : Bytes} (texts : PlainTexts f s) :
    (consolidateList f = [] ∧ s = []) ∨
      ∃ i d, consolidateList f = [.leaf i d] ∧ d.type = .text ∧ d.as = .literal s := by
  induction texts with
  | nil => exact .inl ⟨rfl, rfl⟩
  | @cons i d s f rest type literal later ih =>
    have alone : consolidateTextNodes (.leaf i d) = .mk i d [] := rfl
    rw [consolidateList, alone]
    rcases ih with ⟨nothing, rfl⟩ | ⟨j, e, merged, type', literal'⟩
    · rw [nothing]
      exact .inr ⟨i, d, rfl, type, by rw [literal, List.append_nil]⟩
    · rw [merged]
      dsimp only [Node.leaf]
      rw [if_pos ⟨type, type'⟩]
      refine .inr ⟨i, mergeText d e, rfl, type, ?_⟩
      rw [mergeText, literal, literal']
      rfl

/-- The document holds a paragraph with this text and nothing else. -/
def HoldsText (document : Node) (s : Bytes) : Prop :=
  ∃ i d j e k t, document = .mk i d [.mk j e [.leaf k t]] ∧ d.type = .document ∧ e.type = .paragraph ∧
    t.type = .text ∧ t.as = .literal s

/-- The content of which the inlines are parsed. -/
def inlineContent (P : Config) (content : Bytes) : Bytes :=
  if P.options.has optPreserveWhitespace then content else chunkRtrim content

theorem parseBlockInlines_ordinary {P : Config} (bare : P.syntaxExtensions = []) (chars : CharTables)
    (st : InlineState) {d : NodeData} (verbatim : Verbatim P (inlineContent P d.content)) :
    PlainTexts (parseBlockInlines P chars st d []).2 (inlineContent P d.content) := by
  have start : ReadText (inlineContent P d.content) (inlineSubject P d [] st.refmap st.nextId) :=
    ⟨rfl, rfl, Nat.zero_le _, .nil⟩
  unfold parseBlockInlines
  dsimp only
  exact parseInlines_ordinary bare chars verbatim start

/-- The document that the parser makes of one paragraph. -/
theorem documentTree_oneParagraph {P : Config} (bare : P.syntaxExtensions = [])
    (footnotes : P.options.has optFootnotes = false) (chars : CharTables) (totalSize : Nat) {p : ParserState}
    {s : Bytes} (one : OneParagraph p s) (keeps : KeepsContent P s) :
    ∃ d e st, documentTree P chars totalSize p =
        .mk 0 d [.mk 1 e (consolidateList (parseBlockInlines P
          (manageExtensionsSpecialCharacters P true chars) st e []).2)] ∧
      d.type = .document ∧ e.type = .paragraph ∧ e.content = s := by
  obtain ⟨d, e, tree, document, paragraph, content⟩ :=
    toTree_closedParagraph (finalizeBlocks_oneParagraph one keeps)
  have documentInlines : containsInlines P d = false := by
    unfold containsInlines
    rw [extensionOf_core bare, document]
    rfl
  have paragraphInlines : containsInlines P e = true := by
    unfold containsInlines
    rw [extensionOf_core bare, paragraph]
    rfl
  have parsed : ∀ chars st, (processInlines P chars st (.mk 0 d [.mk 1 e []])).2 =
      .mk 0 d [.mk 1 e (parseBlockInlines P chars st e []).2] := by
    intro chars st
    rw [processInlines, documentInlines, if_neg Bool.false_ne_true, processInlinesList, processInlines,
      paragraphInlines, if_pos rfl]
    rfl
  have consolidated : ∀ f, consolidateTextNodes (.mk 0 d [.mk 1 e f]) =
      .mk 0 d [.mk 1 e (consolidateList f)] := by
    intro f
    rw [consolidateTextNodes, consolidateList, consolidateTextNodes]
    cases consolidateList f <;> rfl
  let st := (finalizedDocument ⟨P, chars, { totalSize := totalSize }, p⟩).1
  refine ⟨d, e, st, ?_, document, paragraph, content⟩
  unfold documentTree finalizeDocument finalizedDocument postprocess
  dsimp only
  rw [footnotes, tree, if_neg Bool.false_ne_true, parsed, bare, consolidated]
  rfl

theorem holdsText_documentTree (T : Tables) (chars : CharTables) (totalSize : Nat) {p : ParserState}
    {s : Bytes} (one : OneParagraph p s) (nonempty : s ≠ []) (ordinary : ∀ c ∈ s, isOrdinary c = true) :
    HoldsText (documentTree (preserving T) chars totalSize p) s := by
  have noBracket : ∀ c ∈ s, c ≠ chr '[' := by
    intro c member same
    have here := ordinary c member
    rw [same] at here
    revert here
    decide
  obtain ⟨d, e, st, tree, document, paragraph, rfl⟩ := documentTree_oneParagraph rfl
    (preserving_options T).footnotes chars totalSize one (keepsContent_preserving noBracket)
  have content : inlineContent (preserving T) e.content = e.content := if_pos (preserving_options T).preserveWhitespace
  have texts := parseBlockInlines_ordinary (P := preserving T) rfl
    (manageExtensionsSpecialCharacters (preserving T) true chars) st (d := e)
    (by rw [content]; exact verbatim_preserving ordinary)
  rw [content] at texts
  rcases consolidateList_plainTexts texts with ⟨_, empty⟩ | ⟨k, t, merged, type, literal⟩
  · exact absurd empty nonempty
  · rw [merged] at tree
    exact ⟨0, d, 1, e, k, t, tree, document, paragraph, type, literal⟩

/-- Without CR no CR is parted from its LF. -/
theorem not_emptyChunkSplitsCrLf {chunks : List Bytes} (noCr : ∀ c ∈ chunks.flatten, c ≠ 13) :
    ¬ EmptyChunkSplitsCrLf chunks := by
  rintro ⟨before, cr, empties, lf, after, rfl, _, _, last, _⟩
  refine noCr 13 (List.mem_flatten.mpr ⟨cr, ?_, List.mem_of_getLast? last⟩) rfl
  exact List.mem_append_left _ (List.mem_append_right _ List.mem_cons_self)

/-- With `CMARK_OPT_PRESERVE_WHITESPACE` a document without special bytes is one paragraph with one
text, the input itself, whether it is given as a whole or in chunks. -/
theorem preserveWhitespace_holdsText (T : Tables) {s : Bytes} (nonempty : s ≠ [])
    (ordinary : ∀ c ∈ s, isOrdinary c = true) (noBom : s.take 3 ≠ [0xef, 0xbb, 0xbf]) :
    HoldsText (cmarkParseDocument (preserving T) s) s ∧
      ∀ callback chunks, chunks.flatten = s → HoldsText (documentOf (preserving T) callback chunks) s := by
  have bytes : ∀ c ∈ s, c ≠ 0 ∧ c ≠ 13 := by
    intro c member
    have here := ordinary c member
    unfold isOrdinary at here
    simp only [Bool.and_eq_true, bne_iff_ne] at here
    exact here.1
  have whole : ∀ callback, HoldsText (documentOf (preserving T) callback [s]) s := by
    intro callback
    rw [documentOf_eq, (preserving_options T).preserveWhitespace]
    exact holdsText_documentTree T _ _ (oneParagraph_replay nonempty bytes noBom) nonempty ordinary
  refine ⟨?_, fun callback chunks same => ?_⟩
  · rw [cmarkParseDocument_eq]
    exact whole none
  · have noCr : ∀ c ∈ chunks.flatten, c ≠ 13 := fun c member => (bytes c (same ▸ member)).2
    have result := (sameResult_iff (preserving T) callback chunks).mpr (not_emptyChunkSplitsCrLf noCr)
    rw [result.2.2, same]
    exact whole callback

/-- Blank lines, indentation, quotes and what would be a heading, a list and a thematic break. -/
theorem preserveWhitespace_holdsText_lines :
    HoldsText (cmarkParseDocument (preserving asciiTables) (lit "\n \t# 'a'\n- b\n\n---  \n ")) (lit "\n \t# 'a'\n- b\n\n---  \n ") ∧
      ∀ callback chunks, chunks.flatten = lit "\n \t# 'a'\n- b\n\n---  \n " →
        HoldsText (documentOf (preserving asciiTables) callback chunks) (lit "\n \t# 'a'\n- b\n\n---  \n ") :=
  preserveWhitespace_holdsText asciiTables (by decide +kernel) (by decide +kernel) (by decide +kernel)

end CmarkGfm
