import CmarkGfm.Properties.Chunking

/-!
# Using a parser again

`cmark_parser_finish` leaves the parser as a fresh one, but without the callback that says
which characters a backslash escapes. The second document is what a fresh parser without
callback makes of it.
-/

namespace CmarkGfm

/-- Feed a document and finish: the parser afterwards, and the tree. -/
def Parser.parseDocument (parser : Parser) (document : Bytes) : Parser × Node :=
  parserFinish (cmarkParserFeed parser document)

/-- The tree for the second of two documents given to one parser. -/
def reusedTree (P : Config) (callback : Option (UInt8 → Bool)) (first second : Bytes) : Node :=
  (((parserNew P callback).parseDocument first).1.parseDocument second).2

/-- The tree for a document given to a fresh parser. -/
def freshTree (P : Config) (callback : Option (UInt8 → Bool)) (document : Bytes) : Node :=
  ((parserNew P callback).parseDocument document).2

/-! ### The states in which inlines are parsed -/

/-- The states in which the loop of `cmark_parse_inlines` calls `parse_inline`. -/
def inlineStates (P : Config) (chars : CharTables) : Nat → Subject → List Subject
  | 0, _ => []
  | fuel + 1, subj =>
    if subj.isEof then []
    else subj :: match parseInline P chars subj with
      | none => []
      | some subj => inlineStates P chars fuel subj

mutual

/-- The subjects with which `process_inlines` calls `cmark_parse_inlines`. -/
def blockSubjects (P : Config) (chars : CharTables) (st : InlineState) : Node → List Subject
  | .mk _ d children =>
    if containsInlines P d then [inlineSubject P d children st.refmap st.nextId]
    else blockSubjectsList P chars st children

def blockSubjectsList (P : Config) (chars : CharTables) (st : InlineState) : Forest → List Subject
  | [] => []
  | n :: ns =>
    blockSubjects P chars st n ++ blockSubjectsList P chars (processInlines P chars st n).1 ns

end

/-- The states in which inlines are parsed while a parser finishes. -/
def finishStates (parser : Parser) : List Subject :=
  let P := parser.config
  let (st, root) := finalizedDocument parser
  let chars := manageExtensionsSpecialCharacters P true parser.chars
  (blockSubjects P chars st root).flatMap fun subj =>
    inlineStates P chars subj.input.length subj

/-- Whether the callback and `cmark_ispunct` say the same of the byte after a backslash. -/
def BackslashAgrees (callback : Option (UInt8 → Bool)) (subj : Subject) : Prop :=
  subj.peekChar = chr '\\' → callback.getD ispunct (subj.peekCharN 1) = ispunct (subj.peekCharN 1)

instance (callback : Option (UInt8 → Bool)) (subj : Subject) :
    Decidable (BackslashAgrees callback subj) := inferInstanceAs (Decidable (_ → _))

/-- They do so wherever a fresh parser with the callback meets a backslash in the document. -/
def CallbackAgrees (P : Config) (callback : Option (UInt8 → Bool)) (document : Bytes) : Prop :=
  ∀ subj ∈ finishStates (flushParser (cmarkParserFeed (parserNew P callback) document)),
    BackslashAgrees callback subj

instance (P : Config) (callback : Option (UInt8 → Bool)) (document : Bytes) :
    Decidable (CallbackAgrees P callback document) := inferInstanceAs (Decidable (∀ s ∈ _, _))

/-! ### The character tables -/

theorem setSpecialCharacters_spec (add : Bool) (l : List (UInt8 × Bool)) (chars : CharTables) :
    l.foldl (CharTables.setSpecialCharacter add) chars =
      { specialChars := fun c => if ∃ s, (c, s) ∈ l then add else chars.specialChars c
        skipChars := fun c => if (c, true) ∈ l then add else chars.skipChars c
        backslashIspunct := chars.backslashIspunct } := by
  induction l generalizing chars with
  | nil => simp
  | cons e l ih =>
    rw [List.foldl_cons, ih]
    obtain ⟨c, skip⟩ := e
    simp only [CharTables.setSpecialCharacter, CharTables.mk.injEq, and_true]
    constructor
    · funext d
      by_cases same : d = c
      · subst same
        simp
      · simp [same]
    · funext d
      by_cases same : d = c
      · cases skip <;> simp [same]
      · cases skip <;> simp [same]

/-- Putting the characters of the extensions in and out has no effect once they are in again. -/
theorem manageExtensionsSpecialCharacters_again (P : Config) (chars : CharTables) :
    manageExtensionsSpecialCharacters P true (manageExtensionsSpecialCharacters P false
        (manageExtensionsSpecialCharacters P true chars)) =
      manageExtensionsSpecialCharacters P true chars := by
  unfold manageExtensionsSpecialCharacters
  rw [setSpecialCharacters_spec true _ chars, setSpecialCharacters_spec false,
    setSpecialCharacters_spec true]
  simp only [CharTables.mk.injEq, and_true]
  constructor
  · funext c
    split <;> simp_all
  · funext c
    split <;> simp_all

/-- Setting the callback commutes with putting characters in and out. -/
theorem manageExtensionsSpecialCharacters_callback (P : Config) (add : Bool) (chars : CharTables)
    (callback : Option (UInt8 → Bool)) :
    manageExtensionsSpecialCharacters P add { chars with backslashIspunct := callback } =
      { manageExtensionsSpecialCharacters P add chars with backslashIspunct := callback } := by
  unfold manageExtensionsSpecialCharacters
  rw [setSpecialCharacters_spec, setSpecialCharacters_spec]

theorem documentTree_congr (P : Config) {chars chars' : CharTables} (totalSize : Nat)
    (state : ParserState)
    (same : manageExtensionsSpecialCharacters P true chars =
      manageExtensionsSpecialCharacters P true chars') :
    documentTree P chars totalSize state = documentTree P chars' totalSize state := by
  unfold documentTree finalizeDocument finalizedDocument
  simp only [same]

/-! ### The second document -/

/-- What `cmark_parser_finish` leaves behind. -/
theorem parser_parserFinish (parser : Parser) :
    (parserFinish parser).1 =
      { config := parser.config
        chars := { manageExtensionsSpecialCharacters parser.config false
            (manageExtensionsSpecialCharacters parser.config true parser.chars) with
          backslashIspunct := none }
        feed := {}
        state := initialState } := rfl

theorem parseDocument_tree (P : Config) (chars : CharTables) (document : Bytes) :
    ((⟨P, chars, {}, initialState⟩ : Parser).parseDocument document).2 =
      documentTree P chars (totalSizeOf (P.options.has optPreserveWhitespace) [document])
        (replay (processLine P) initialState
          (processedLines (P.options.has optPreserveWhitespace) [document])) := by
  have run := foldl_cmarkParserFeed P chars [document] {} initialState
  rw [List.foldl_cons, List.foldl_nil] at run
  rw [Parser.parseDocument, run, parserFinish_eq, feedChunks_replay, flushLine_replay]
  rfl

/-- A used parser does what a fresh one without callback does. -/
theorem reusedTree_eq (P : Config) (callback : Option (UInt8 → Bool)) (first second : Bytes) :
    reusedTree P callback first second = freshTree P none second := by
  unfold reusedTree freshTree
  rw [Parser.parseDocument.eq_def (parserNew P callback), parser_parserFinish]
  unfold parserNew
  rw [parseDocument_tree, parseDocument_tree]
  refine documentTree_congr P _ _ ?_
  show manageExtensionsSpecialCharacters P true
      { manageExtensionsSpecialCharacters P false (manageExtensionsSpecialCharacters P true
        { defaultCharTables with backslashIspunct := callback }) with backslashIspunct := none } = _
  rw [manageExtensionsSpecialCharacters_callback, manageExtensionsSpecialCharacters_again,
    manageExtensionsSpecialCharacters_callback]
  rw [manageExtensionsSpecialCharacters_callback P true _ none]

/-! ### Without the callback -/

section

variable (P : Config) {chars : CharTables}

/-- The tables of a parser that has lost its callback. -/
def CharTables.withoutCallback (chars : CharTables) : CharTables :=
  { chars with backslashIspunct := none }

theorem handleBackslash_withoutCallback {subj : Subject} (backslash : subj.peekChar = chr '\\')
    (agrees : BackslashAgrees chars.backslashIspunct subj) :
    handleBackslash chars.withoutCallback subj = handleBackslash chars subj := by
  have next : (subj.advance 1).peekChar = subj.peekCharN 1 := rfl
  have same := agrees backslash
  unfold handleBackslash
  simp only [next, same, CharTables.withoutCallback, Option.getD_none]

theorem dispatchInline_withoutCallback {subj : Subject}
    (agrees : BackslashAgrees chars.backslashIspunct subj) :
    dispatchInline P chars.withoutCallback subj subj.peekChar =
      dispatchInline P chars subj subj.peekChar := by
  have delim : handleDelim chars.withoutCallback = handleDelim chars := rfl
  unfold dispatchInline
  simp only [delim]
  by_cases backslash : subj.peekChar = chr '\\'
  · rw [handleBackslash_withoutCallback backslash agrees]
  · have other : (subj.peekChar == chr '\\') = false := by simpa using backslash
    simp [other]

theorem parseInline_withoutCallback {subj : Subject}
    (agrees : BackslashAgrees chars.backslashIspunct subj) :
    parseInline P chars.withoutCallback subj = parseInline P chars subj := by
  have text : makeText P chars.withoutCallback = makeText P chars := rfl
  unfold parseInline nextInline
  simp only [dispatchInline_withoutCallback P agrees, text]

theorem parseInlinesLoop_withoutCallback (fuel : Nat) {subj : Subject}
    (agree : ∀ s ∈ inlineStates P chars fuel subj, BackslashAgrees chars.backslashIspunct s) :
    parseInlinesLoop P chars.withoutCallback fuel subj = parseInlinesLoop P chars fuel subj := by
  induction fuel generalizing subj with
  | zero => rfl
  | succ fuel ih =>
    rw [parseInlinesLoop, parseInlinesLoop]
    rw [inlineStates] at agree
    by_cases eof : subj.isEof
    · rw [if_pos eof, if_pos eof]
    · rw [if_neg eof] at agree ⊢
      rw [if_neg eof, parseInline_withoutCallback P (agree subj (List.mem_cons_self ..))]
      match next : parseInline P chars subj with
      | none => rfl
      | some subj' =>
        refine ih fun s inside => agree s (List.mem_cons_of_mem subj ?_)
        rw [next]
        exact inside

mutual

theorem processInlines_withoutCallback (st : InlineState) (n : Node)
    (agree : ∀ subj ∈ blockSubjects P chars st n, ∀ s ∈ inlineStates P chars subj.input.length subj,
      BackslashAgrees chars.backslashIspunct s) :
    processInlines P chars.withoutCallback st n = processInlines P chars st n := by
  match n with
  | .mk i d children =>
    rw [processInlines, processInlines]
    rw [blockSubjects] at agree
    by_cases inlines : containsInlines P d
    · rw [if_pos inlines] at agree ⊢
      rw [if_pos inlines, parseBlockInlines, parseBlockInlines, parseInlines, parseInlines,
        parseInlinesLoop_withoutCallback P _ (agree _ (List.mem_singleton.mpr rfl))]
    · rw [if_neg inlines] at agree ⊢
      rw [if_neg inlines, processInlinesList_withoutCallback st children agree]

theorem processInlinesList_withoutCallback (st : InlineState) (ns : Forest)
    (agree : ∀ subj ∈ blockSubjectsList P chars st ns,
      ∀ s ∈ inlineStates P chars subj.input.length subj, BackslashAgrees chars.backslashIspunct s) :
    processInlinesList P chars.withoutCallback st ns = processInlinesList P chars st ns := by
  match ns with
  | [] => rfl
  | n :: ns =>
    rw [processInlinesList, processInlinesList]
    rw [blockSubjectsList] at agree
    rw [processInlines_withoutCallback st n fun subj inside =>
        agree subj (List.mem_append_left _ inside)]
    have rest := processInlinesList_withoutCallback (processInlines P chars st n).1 ns
      fun subj inside => agree subj (List.mem_append_right _ inside)
    generalize processInlines P chars st n = first at rest ⊢
    obtain ⟨st', n'⟩ := first
    simp only at rest
    simp only [rest]

end

end

theorem finalizeDocument_withoutCallback (parser : Parser)
    (agree : ∀ s ∈ finishStates parser, BackslashAgrees parser.chars.backslashIspunct s) :
    finalizeDocument { parser with chars := parser.chars.withoutCallback } =
      finalizeDocument parser := by
  have callback : (manageExtensionsSpecialCharacters parser.config true
      parser.chars).backslashIspunct = parser.chars.backslashIspunct := by
    rw [manageExtensionsSpecialCharacters, setSpecialCharacters_spec]
  have start : finalizedDocument { parser with chars := parser.chars.withoutCallback } =
      finalizedDocument parser := rfl
  have inlines := processInlines_withoutCallback parser.config
    (finalizedDocument parser).1 (finalizedDocument parser).2 fun subj block s inside => by
      rw [callback]
      exact agree s (List.mem_flatMap.mpr ⟨subj, block, inside⟩)
  have tables : manageExtensionsSpecialCharacters parser.config true
      parser.chars.withoutCallback =
        (manageExtensionsSpecialCharacters parser.config true parser.chars).withoutCallback :=
    manageExtensionsSpecialCharacters_callback parser.config true parser.chars none
  unfold finalizeDocument
  simp only [start, tables, inlines]

/-- The second document gives the tree that a fresh parser makes of it, if the callback says
what `cmark_ispunct` says wherever a backslash is met. In any case it gives the tree of a fresh
parser without callback. -/
theorem reusedTree_eq_freshTree (P : Config) (callback : Option (UInt8 → Bool))
    (first second : Bytes) :
    reusedTree P callback first second = freshTree P none second ∧
      (CallbackAgrees P callback second →
        reusedTree P callback first second = freshTree P callback second) := by
  refine ⟨reusedTree_eq P callback first second, fun agrees => ?_⟩
  rw [reusedTree_eq]
  have same := finalizeDocument_withoutCallback
    (flushParser (cmarkParserFeed (parserNew P callback) second)) agrees
  unfold freshTree Parser.parseDocument parserFinish
  simp only
  rw [← same]
  rfl

/-- The callback lets only `!` be escaped, and the document has no other backslash. -/
theorem reusedTree_of_agreeing_callback :
    reusedTree { tables := asciiTables, options := 0 } (some (· == chr '!')) (lit "a") (lit "\\!") =
      freshTree { tables := asciiTables, options := 0 } (some (· == chr '!')) (lit "\\!") :=
  (reusedTree_eq_freshTree _ _ _ _).2 (by decide +kernel)

/-- With a callback that lets `a` be escaped, the backslash before it disappears from the first
document of a parser only. -/
theorem reusedTree_ne_freshTree :
    reusedTree { tables := asciiTables, options := 0 } (some (· == chr 'a')) (lit "a") (lit "\\a") ≠
      freshTree { tables := asciiTables, options := 0 } (some (· == chr 'a')) (lit "\\a") := by
  intro same
  have texts := congrArg (fun tree => (tree.exits .text).map Node.literal) same
  revert texts
  decide +kernel

end CmarkGfm
