import CmarkGfm.Properties.BracketSteps

/-!
# Columns within a line

The columns of inlines are counted from the line of the block that was started last. A code span or raw
HTML that is read over line ends starts no line; what is behind it has shifted columns when source
positions are counted, and unshifted ones otherwise.
-/

namespace CmarkGfm

/-! ### Lines -/

/-- The position where the inline at the current position starts a line: behind a line end, or behind the
line end that a backslash stands in front of. -/
def startedLine (P : Config) (chars : CharTables) (subj : Subject) : Option Nat :=
  if isLineEndChar subj.peekChar then
    if P.options.has optPreserveWhitespace then none else skipLineEnd subj.input subj.pos
  else if subj.peekChar == chr '\\' && !chars.backslashIspunct.getD ispunct (subj.peekCharN 1) then
    if (subj.advance 1).isEof then none else skipLineEnd subj.input (subj.pos + 1)
  else none

/-- The inline at the current position is read over a line end that starts no line. -/
def readsLines (P : Config) (chars : CharTables) (subj : Subject) : Bool :=
  (isbacktick subj.peekChar || subj.peekChar == chr '<') &&
    (parseInline P chars subj).any fun next =>
      (chunkDup subj.input subj.pos (next.pos - subj.pos)).contains 10

/-- Behind the inline at the current position columns are counted as in front of it. -/
def keepsLine (P : Config) (chars : CharTables) (subj : Subject) : Bool :=
  (startedLine P chars subj).isNone && !readsLines P chars subj

/-- Were line ends read over in the line that was started last? -/
def shifted (P : Config) (chars : CharTables) (past : List Subject) : Bool :=
  past.foldl (fun before subj => (startedLine P chars subj).isNone && (before || readsLines P chars subj)) false

theorem shifted_concat (P : Config) (chars : CharTables) (past : List Subject) (subj : Subject) :
    shifted P chars (past ++ [subj]) =
      ((startedLine P chars subj).isNone && (shifted P chars past || readsLines P chars subj)) := by
  simp [shifted]

/-! ### The columns that handlers count -/

theorem countNewlinesFrom_fst {text : Bytes} (none : 10 ∉ text) (newlines sinceNewline : Nat) :
    (countNewlinesFrom newlines sinceNewline text).1 = newlines := by
  induction text generalizing sinceNewline with
  | nil => rfl
  | cons c rest ih =>
    rw [List.mem_cons, not_or] at none
    have other : (c == 10) = false := by simpa using Ne.symm none.1
    rw [countNewlinesFrom, other]
    exact ih none.2 _

section

variable {subj : Subject}

theorem columnOffset_adjustNodeNewlines (options : Options) {node : Node} {matchlen extra : Nat}
    (none : 10 ∉ chunkDup subj.input (subj.pos - matchlen - extra) matchlen) :
    (subj.adjustNodeNewlines options node matchlen extra).1.columnOffset = subj.columnOffset := by
  have counted : (countNewlines (chunkDup subj.input (subj.pos - matchlen - extra) matchlen)).1 = 0 :=
    countNewlinesFrom_fst none 0 0
  unfold Subject.adjustNodeNewlines
  split
  next => rfl
  next =>
    dsimp only
    rw [if_pos counted]

theorem pos_adjustNodeNewlines (options : Options) (node : Node) (matchlen extra : Nat) :
    (subj.adjustNodeNewlines options node matchlen extra).1.pos = subj.pos := by
  unfold Subject.adjustNodeNewlines
  split
  next => rfl
  next =>
    dsimp only
    split <;> rfl

/-- What is cut out of a text is cut out of a longer part that begins with it. -/
theorem not_mem_chunkDup {s : Bytes} {pos a b : Nat} {c : UInt8} (le : a ≤ b) (none : c ∉ chunkDup s pos b) :
    c ∉ chunkDup s pos a :=
  fun member => none ((List.take_prefix_take_left le).subset member)

theorem scanToClosingBackticks_fst (openticklength : Nat) :
    (scanToClosingBackticks subj openticklength).1.pos = subj.pos ∧
      (scanToClosingBackticks subj openticklength).1.columnOffset = subj.columnOffset := by
  unfold scanToClosingBackticks
  split
  next => exact ⟨rfl, rfl⟩
  next =>
    split
    next => exact ⟨rfl, rfl⟩
    next => split <;> exact ⟨rfl, rfl⟩

/-- A code span without line ends keeps the columns. -/
theorem columnOffset_handleBackticks {options : Options} {r : Subject × Node}
    (handled : handleBackticks options subj = r) (none : 10 ∉ chunkDup subj.input subj.pos (r.1.pos - subj.pos)) :
    r.1.columnOffset = subj.columnOffset := by
  unfold handleBackticks at handled
  extract_lets initpos startpos openticks at handled
  have opening : initpos ≤ startpos := le_skipWhile _ _ _
  have input := (sameStacks_scanToClosingBackticks { subj with pos := startpos } openticks).input
  have columns := (@scanToClosingBackticks_fst { subj with pos := startpos } openticks).2
  have bounds := fun stop => @scanToClosingBackticks_le { subj with pos := startpos } openticks stop
  generalize scanToClosingBackticks { subj with pos := startpos } openticks = scanned at handled input columns bounds
  obtain ⟨next, found⟩ := scanned
  cases found with
  | none =>
    subst handled
    exact columns
  | some endpos =>
    have forward : startpos ≤ endpos := (bounds endpos rfl).1
    subst handled
    refine (columnOffset_adjustNodeNewlines options ?_).trans columns
    rw [pos_adjustNodeNewlines] at none
    -- the bytes that are counted begin with the opening backticks
    have begin : endpos - (endpos - startpos) - openticks = initpos := by
      unfold openticks
      omega
    show 10 ∉ chunkDup next.input (endpos - (endpos - startpos) - openticks) (endpos - startpos)
    rw [begin, input]
    exact not_mem_chunkDup (Nat.sub_le_sub_left opening endpos) none

theorem columnOffset_scanHtml : (scanHtml subj).1.columnOffset = subj.columnOffset := by
  unfold scanHtml
  dsimp only
  repeat' split
  all_goals rfl

theorem columnOffset_makeRawHtml {options : Options} {pos matchlen : Nat} (behind : subj.pos = pos + 1)
    (none : 10 ∉ chunkDup subj.input pos ((makeRawHtml options subj matchlen).1.pos - pos)) :
    (makeRawHtml options subj matchlen).1.columnOffset = subj.columnOffset := by
  have passed : (makeRawHtml options subj matchlen).1.pos = subj.pos + matchlen := pos_adjustNodeNewlines _ _ _ _
  rw [passed] at none
  refine columnOffset_adjustNodeNewlines options ?_
  show 10 ∉ chunkDup subj.input (subj.pos + matchlen - matchlen - 1) matchlen
  rw [show subj.pos + matchlen - matchlen - 1 = pos by omega]
  exact not_mem_chunkDup (by omega) none

/-- An autolink or raw HTML without line ends keeps the columns. -/
theorem columnOffset_handlePointyBrace {P : Config} {r : Subject × Node} (handled : handlePointyBrace P subj = r)
    (inside : subj.pos < subj.input.length)
    (none : 10 ∉ chunkDup subj.input subj.pos (r.1.pos - subj.pos)) : r.1.columnOffset = subj.columnOffset := by
  unfold handlePointyBrace at handled
  extract_lets passed autolink uri email at handled
  have bounds : (scanHtml passed).1.pos = subj.pos + 1 := (@scanHtml_le passed inside).1
  have columns : (scanHtml passed).1.columnOffset = subj.columnOffset := columnOffset_scanHtml
  have input : (scanHtml passed).1.input = subj.input := (sameStacks_scanHtml passed).input
  generalize scanHtml passed = scanned at handled bounds columns input
  obtain ⟨next, matchlen⟩ := scanned
  dsimp only at handled bounds columns input
  rw [← input] at none
  split at handled
  next =>
    subst handled
    rfl
  next =>
    split at handled
    next =>
      subst handled
      rfl
    next =>
      split at handled
      next =>
        subst handled
        exact (columnOffset_makeRawHtml bounds none).trans columns
      next =>
        generalize (if P.options.has optLiberalHtmlTag then _ else 0) = liberal at handled
        split at handled
        next =>
          subst handled
          exact (columnOffset_makeRawHtml bounds none).trans columns
        next =>
          subst handled
          exact columns

/-- A line end starts a line. -/
theorem columnOffset_handleNewline (newline : isLineEndChar subj.peekChar) :
    ∃ start, skipLineEnd subj.input subj.pos = some start ∧
      (handleNewline subj).1.columnOffset = -(start : Int) := by
  have here : byteAt subj.input subj.pos = 10 ∨ byteAt subj.input subj.pos = 13 := by
    simpa [isLineEndChar, Subject.peekChar, Subject.peekCharN] using newline
  unfold skipLineEnd handleNewline
  extract_lets afterCr afterLf next
  have moved : (afterLf != subj.pos) = true := by
    have cr : subj.pos ≤ afterCr ∧ (byteAt subj.input subj.pos = 13 → subj.pos < afterCr) := by
      unfold afterCr
      split <;> simp_all
    rcases here with lf | isCr
    · have stays : afterCr = subj.pos := by simp [afterCr, lf]
      simp [afterLf, stays, lf]
    · have beyond := cr.2 isCr
      have further : afterCr ≤ afterLf := by
        unfold afterLf
        split <;> omega
      exact bne_iff_ne.mpr (beyond.trans_le further).ne'
  refine ⟨afterLf, by simp [moved], ?_⟩
  split <;> rfl

/-- A backslash starts a line in front of a line end only. -/
theorem columnOffset_handleBackslash {P : Config} {chars : CharTables} (backslash : subj.peekChar = chr '\\') :
    (handleBackslash chars subj).1.columnOffset =
      (startedLine P chars subj).elim subj.columnOffset fun start => -(start : Int) := by
  have noEnd : ¬ isLineEndChar subj.peekChar = true := by
    rw [backslash]
    exact Bool.false_ne_true
  have next : (subj.advance 1).peekChar = subj.peekCharN 1 := rfl
  unfold handleBackslash startedLine
  rw [if_neg noEnd]
  simp only [backslash, next, beq_self_eq_true, Bool.true_and]
  cases chars.backslashIspunct.getD ispunct (subj.peekCharN 1) with
  | true => rfl
  | false =>
    have found : (if (subj.advance 1).isEof then none
        else skipLineEnd (subj.advance 1).input (subj.advance 1).pos) =
      if (subj.advance 1).isEof then none else skipLineEnd subj.input (subj.pos + 1) := rfl
    simp only [found, Bool.not_false, if_true, Bool.false_eq_true, if_false]
    generalize (if (subj.advance 1).isEof then none else skipLineEnd subj.input (subj.pos + 1)) = start
    cases start <;> rfl

end

/-! ### The columns that an inline counts -/

section

variable {P : Config} {subj : Subject} (core : P.syntaxExtensions = [])

include core

theorem emphasisFrame_columnOffset : EmphasisFrame P fun subj subj' => subj'.columnOffset = subj.columnOffset where
  trans first second := second.trans first
  nodes _ _ _ _ := rfl
  insert ext member := by
    rw [core] at member
    exact absurd member List.not_mem_nil

theorem columnOffset_handleCloseBracket (inside : subj.pos < subj.input.length) :
    (handleCloseBracket P subj).1.columnOffset = subj.columnOffset := by
  refine handleCloseBracket_cases P (motive := fun r => r.1.columnOffset = subj.columnOffset) ?literal ?popped ?link
    ?footnote ?«attribute» inside
  case literal => exact fun _ => rfl
  case popped => exact fun _ _ _ _ => rfl
  case link =>
    intro pos refmap clones opener url title _ _ _
    exact (emphasisFrame_columnOffset core).processEmphasis (linkSpliced P (subj.lookAhead pos refmap clones) opener
      url title) opener.position
  case footnote =>
    intro refmap clones opener next _ _ _
    exact (emphasisFrame_columnOffset core).processEmphasis (footnoteSpliced P (subj.lookAhead (subj.pos + 1) refmap
      clones) opener next) opener.position
  case «attribute» =>
    intro pos refmap clones opener attributes _ _ _
    exact (emphasisFrame_columnOffset core).processEmphasis (attributeSpliced P (subj.lookAhead pos refmap clones)
      opener attributes) opener.position

omit core in
theorem columnOffset_handleDelim (chars : CharTables) (smart : Bool) (c : UInt8) :
    (handleDelim chars smart subj c).1.columnOffset = subj.columnOffset := by
  unfold handleDelim
  generalize scanDelims chars subj.input subj.pos c = run
  obtain ⟨numdelims, canOpen, canClose⟩ := run
  dsimp only
  split_ifs <;> rfl

/-- The columns behind an inline are those of the line that it starts, and otherwise the ones in front of it
unless a line end was read over. -/
def CountsColumns (P : Config) (chars : CharTables) (subj : Subject) (r : Subject × Option Node) : Prop :=
  (startedLine P chars subj).elim
    ((isbacktick subj.peekChar || subj.peekChar == chr '<' →
        10 ∉ chunkDup subj.input subj.pos (r.1.pos - subj.pos)) → r.1.columnOffset = subj.columnOffset)
    fun start => r.1.columnOffset = -(start : Int)

omit core in
theorem countsColumns_of_eq {chars : CharTables} {r : Subject × Option Node}
    (same : r.1.columnOffset = (startedLine P chars subj).elim subj.columnOffset fun start => -(start : Int)) :
    CountsColumns P chars subj r := by
  unfold CountsColumns
  cases started : startedLine P chars subj with
  | none =>
    rw [started] at same
    exact fun _ => same
  | some start =>
    rw [started] at same
    exact same

theorem countsColumns_dispatchInline {chars : CharTables} (inside : subj.pos < subj.input.length) :
    CountsColumns P chars subj (dispatchInline P chars subj subj.peekChar) := by
  have keeps {r : Subject × Option Node} (none : startedLine P chars subj = none)
      (same : r.1.columnOffset = subj.columnOffset) : CountsColumns P chars subj r :=
    countsColumns_of_eq (by rw [none]; exact same)
  unfold dispatchInline
  extract_lets smart passed
  refine iteInduction (fun newline => ?_) fun other => ?_
  · have isEnd : isLineEndChar subj.peekChar := by simpa [isLineEndChar, or_comm] using newline
    refine iteInduction (fun preserve => keeps ?_ rfl) fun fold => countsColumns_of_eq ?_
    · rw [startedLine, if_pos isEnd, if_pos preserve]
    · obtain ⟨start, started, columns⟩ := columnOffset_handleNewline isEnd
      rw [startedLine, if_pos isEnd, if_neg fold, started]
      exact columns
  have noEnd : ¬ isLineEndChar subj.peekChar = true := by simpa [isLineEndChar, and_comm] using other
  have none (literal : (subj.peekChar == chr '\\') = false) : startedLine P chars subj = none := by
    rw [startedLine, if_neg noEnd, literal]
    rfl
  refine iteInduction (fun backtick => ?_) fun _ => ?_
  · have isTick : isbacktick subj.peekChar := backtick
    rw [CountsColumns, none (by rw [beq_iff_eq.mp backtick]; rfl)]
    exact fun reads => columnOffset_handleBackticks rfl (reads (by simp [isTick]))
  refine iteInduction (fun backslash => countsColumns_of_eq ?_) fun literal => ?_
  · exact columnOffset_handleBackslash (beq_iff_eq.mp backslash)
  -- nothing else starts a line
  have none := none (Bool.eq_false_iff.mpr literal)
  refine iteInduction (fun _ => keeps none ?_) fun _ => ?_
  · unfold handleEntity
    dsimp only
    split <;> rfl
  refine iteInduction (fun opens => ?_) fun _ => ?_
  · rw [CountsColumns, none]
    exact fun reads => columnOffset_handlePointyBrace rfl inside (reads (by simp [opens]))
  refine iteInduction (fun _ => keeps none (columnOffset_handleDelim _ _ _)) fun _ => ?_
  refine iteInduction (fun _ => keeps none ?_) fun _ => ?_
  · unfold handleHyphen
    dsimp only
    split <;> rfl
  refine iteInduction (fun _ => keeps none ?_) fun _ => ?_
  · unfold handlePeriod
    dsimp only
    split
    next => split <;> rfl
    next => rfl
  refine iteInduction (fun _ => keeps none rfl) fun _ => ?_
  refine iteInduction (fun _ => keeps none (columnOffset_handleCloseBracket core inside)) fun _ => ?_
  refine iteInduction (fun _ => keeps none rfl) fun _ => ?_
  exact iteInduction (fun _ => keeps none rfl) fun _ => keeps none rfl

omit core in
/-- Where a line is started the `switch` makes a node. -/
theorem dispatchInline_of_startedLine {chars : CharTables} {start : Nat}
    (started : startedLine P chars subj = some start) :
    ∃ r, dispatchInline P chars subj subj.peekChar = made r := by
  unfold startedLine at started
  split at started
  next isEnd =>
    split at started
    next => cases started
    next fold =>
      have newline : (subj.peekChar == 13 || subj.peekChar == 10) = true := by
        simpa [isLineEndChar, or_comm] using isEnd
      refine ⟨handleNewline subj, ?_⟩
      unfold dispatchInline
      rw [if_pos newline, if_neg fold]
  next =>
    split at started
    next backslash =>
      have here : subj.peekChar = chr '\\' := by
        simp only [Bool.and_eq_true, beq_iff_eq] at backslash
        exact backslash.1
      refine ⟨handleBackslash chars subj, ?_⟩
      unfold dispatchInline
      rw [here]
      rfl
    next => cases started

variable {chars : CharTables} {next : Subject} (inside : subj.pos < subj.input.length)
  (notNul : chars.backslashIspunct.getD ispunct 0 = false) (parsed : parseInline P chars subj = some next)

include inside notNul parsed

theorem countsColumns_parseInline : CountsColumns P chars subj (next, none) := by
  obtain ⟨_, rfl⟩ | ⟨nothing, rfl⟩ := parseInline_core core inside notNul parsed
  · have dispatched : CountsColumns P chars subj (dispatchInline P chars subj subj.peekChar) :=
      countsColumns_dispatchInline core inside
    generalize dispatchInline P chars subj subj.peekChar = r at dispatched
    obtain ⟨after, made⟩ := r
    cases made <;> exact dispatched
  · -- text is read within the line
    refine countsColumns_of_eq ?_
    have none : startedLine P chars subj = none := by
      by_contra started
      obtain ⟨start, started⟩ := Option.ne_none_iff_exists'.mp started
      obtain ⟨r, made⟩ := dispatchInline_of_startedLine started
      rw [made] at nothing
      cases nothing
    rw [none]
    show (makeText P chars subj).1.columnOffset = subj.columnOffset
    unfold makeText
    dsimp only
    split <;> rfl

/-- An inline that starts a line has the columns counted from there. -/
theorem columnOffset_of_startedLine {start : Nat} (started : startedLine P chars subj = some start) :
    next.columnOffset = -(start : Int) := by
  have counts := countsColumns_parseInline core inside notNul parsed
  rwa [CountsColumns, started] at counts

/-- An inline that keeps the line keeps the columns. -/
theorem columnOffset_of_keepsLine (keeps : keepsLine P chars subj) : next.columnOffset = subj.columnOffset := by
  have counts := countsColumns_parseInline core inside notNul parsed
  simp only [keepsLine, Bool.and_eq_true, Option.isNone_iff_eq_none, Bool.not_eq_true'] at keeps
  rw [CountsColumns, keeps.1] at counts
  refine counts fun opens member => ?_
  have reads : readsLines P chars subj = true := by
    simp only [readsLines, opens, parsed, Option.any_some, Bool.true_and]
    simpa using member
  rw [keeps.2] at reads
  cases reads

end

/-! ### The columns of open brackets -/

theorem Layout.dataOf_child {P : Config} {subj : Subject} {marks : List Mark} (layout : Layout P subj marks) {m : Node}
    (member : m ∈ subj.children) : dataOf m.id subj.children = m.data := by
  have inTree : m ∈ postorderList subj.children := mem_postorderList_of_mem member
  rw [dataOf, findNode?_of_mem _ layout.distinct inTree]
  rfl

/-- An open bracket stands in front of the current position. -/
theorem Layout.position_le {P : Config} {subj : Subject} {marks : List Mark} (layout : Layout P subj marks) {b : Bracket}
    (member : b ∈ subj.brackets) : b.position ≤ subj.pos := by
  have pair : (b.position, b.inlText) ∈ (marks.filterMap Mark.bracket?).reverse :=
    layout.brackets ▸ List.mem_map_of_mem member
  obtain ⟨m, among, isBracket⟩ := List.mem_filterMap.mp (List.mem_reverse.mp pair)
  cases m with
  | delimiter d => cases isBracket
  | bracket p i =>
    obtain ⟨rfl, rfl⟩ := Prod.mk.inj (Option.some.inj isBracket)
    exact layout.within _ among

theorem keepsLine_of_opensBracket {P : Config} {chars : CharTables} {subj : Subject} {type : BracketType} {s : Bytes}
    (opens : OpensBracket subj subj.peekChar type s) : keepsLine P chars subj := by
  have here : subj.peekChar = chr '[' ∨ subj.peekChar = chr '!' ∨ subj.peekChar = chr '^' := by
    cases opens with
    | link here => exact .inl here
    | image here => exact .inr (.inl here)
    | «attribute» here => exact .inr (.inr here)
  unfold keepsLine startedLine readsLines
  rcases here with here | here | here <;> rw [here] <;> rfl

section

variable {P : Config} {subj next : Subject} {marks marks' : List Mark} (core : P.syntaxExtensions = [])
  {chars : CharTables} (layout : Layout P subj marks) (layout' : Layout P next marks')
  (inside : subj.pos < subj.input.length) (notNul : chars.backslashIspunct.getD ispunct 0 = false)
  (parsed : parseInline P chars subj = some next)

include core layout layout' inside notNul parsed

/-- An open bracket behind an inline is the inline, with the column of the current position, or was open
before, with the column that it has. -/
theorem startColumn_parseInline {b : Bracket} (member : b ∈ next.brackets) :
    b.inlText = subj.nextId ∧ subj.pos < b.position ∧ keepsLine P chars subj ∧
        (dataOf b.inlText next.children).startColumn = subj.column subj.pos ∨
      ∃ b' ∈ subj.brackets, b'.inlText = b.inlText ∧ b'.position = b.position ∧
        (dataOf b.inlText next.children).startColumn = (dataOf b.inlText subj.children).startColumn := by
  -- a child that stays keeps its data
  have stays {l r x : Forest} {i : NodeId} (before : subj.children = l ++ r) (after : next.children = l ++ x)
      (known : i ∈ l.map Node.id) : dataOf i next.children = dataOf i subj.children := by
    obtain ⟨m, among, rfl⟩ := List.mem_map.mp known
    rw [layout.dataOf_child (before ▸ List.mem_append_left r among),
      layout'.dataOf_child (after ▸ List.mem_append_left x among)]
  have old {l r x : Forest} (before : subj.children = l ++ r) (after : next.children = l ++ x)
      {b' : Bracket} (open_ : b' ∈ subj.brackets) (text : b'.inlText = b.inlText) (position : b'.position = b.position)
      (known : b'.inlText ∈ l.map Node.id) :
      ∃ b' ∈ subj.brackets, b'.inlText = b.inlText ∧ b'.position = b.position ∧
        (dataOf b.inlText next.children).startColumn = (dataOf b.inlText subj.children).startColumn :=
    ⟨b', open_, text, position, congrArg NodeData.startColumn (stays before after (text ▸ known))⟩
  cases inlineStep_parseInline core layout inside notNul parsed with
  | @node r makes children brackets flag autolink =>
    have was : b ∈ subj.brackets := brackets.subset member
    have after : (r.1.appendChild r.2).children = subj.children ++ [r.2] := by
      rw [Subject.appendChild, children]
    exact .inr (old (List.append_nil _).symm after was rfl rfl (layout.mem_children was))
  | @push type s opens =>
    rcases mem_openBracket member with ⟨text, position, _⟩ | ⟨b', was, _, position, text⟩
    · refine .inl ⟨text, ?_, keepsLine_of_opensBracket opens, ?_⟩
      · rw [position]
        cases opens <;> exact Nat.lt_add_of_pos_right (by decide)
      · have new : (openBracket subj type s).2 ∈ ((openBracket subj type s).1.appendChild
            (openBracket subj type s).2).children := List.mem_append_right _ List.mem_cons_self
        have data := layout'.dataOf_child new
        rw [text]
        refine (congrArg NodeData.startColumn data).trans ?_
        show ((subj.pos + s.length : Nat) : Int) - s.length + 1 + subj.columnOffset + subj.blockOffset = _
        rw [Subject.column]
        omega
    · exact .inr (old (List.append_nil _).symm rfl was text position (layout.mem_children was))
  | @close _ opener l r n d c isBracket closes reference =>
    have below : b ∈ subj.brackets.tail := closes.brackets ▸ member
    exact .inr (old closes.before closes.after (List.mem_of_mem_tail below) rfl rfl (closes.below b below))

end

/-! ### Footnote references -/

/-- The label that is looked up after the closing bracket names no link. -/
def namesNoLink (T : Tables) (subj : Subject) (opener : Bracket) (initialPos : Nat) : Bool :=
  (referenceLabel subj opener initialPos).2.all fun label =>
    (mapLookup T subj.refmap label).2.all fun entry => entry.value.isAttributesReference

/-- The closing bracket at the current position closes no link. -/
def closesNoLink (P : Config) (subj : Subject) (opener : Bracket) : Bool :=
  opener.type ≠ .attribute && !(opener.type = .link && subj.noLinkOpeners) &&
    (scanInlineLink P.tables subj.input (subj.pos + 1)).isNone &&
    namesNoLink P.tables (subj.advance 1) opener (subj.pos + 1)

/-- The footnote reference that the closing bracket at the current position makes: its opening bracket and the
text node of the caret. -/
def referenceOf (P : Config) (subj : Subject) : Option (Bracket × Node) :=
  if subj.peekChar == chr ']' then
    subj.brackets.head?.bind fun opener =>
      if closesNoLink P subj opener then (footnoteText P subj opener).map (opener, ·) else none
  else none

theorem opener_of_referenceOf {P : Config} {subj : Subject} {reference : Bracket × Node}
    (found : reference ∈ referenceOf P subj) : reference.1 ∈ subj.brackets := by
  unfold referenceOf at found
  obtain ⟨_, found⟩ := Option.ite_none_right_eq_some.mp found
  obtain ⟨opener, top, found⟩ := Option.bind_eq_some_iff.mp found
  obtain ⟨_, found⟩ := Option.ite_none_right_eq_some.mp found
  obtain ⟨next, _, rfl⟩ := Option.map_eq_some_iff.mp found
  exact List.mem_of_mem_head? top

/-- The length of a footnote reference that ends at the current position, counted in columns. -/
def referenceLength (subj : Subject) (opener : Bracket) : Nat :=
  ((subj.pos : Int) + subj.columnOffset + subj.blockOffset -
    (dataOf opener.inlText subj.children).startColumn - 2).toNat

/-- A footnote reference that is made here ends before the text of its caret does, and no line ends were read
over in the lines of its brackets, or the inlines between the brackets all keep the line. -/
def ReferenceInLine (P : Config) (chars : CharTables) (past : List Subject) (subj : Subject) : Prop :=
  ∀ reference ∈ referenceOf P subj,
    referenceLength (subj.advance 1) reference.1 + 1 ≤ (textFrom subj reference.2).length ∧
      (shifted P chars (past.filter (·.pos < reference.1.position)) = false ∧ shifted P chars past = false ∨
        ∀ s ∈ past, reference.1.position ≤ s.pos → keepsLine P chars s)

instance (P : Config) (chars : CharTables) (past : List Subject) (subj : Subject) :
    Decidable (ReferenceInLine P chars past subj) := inferInstanceAs (Decidable (∀ reference ∈ referenceOf P subj, _ ∧ _))

/-- So are all footnote references of a run. -/
def ReferencesInLine (P : Config) (chars : CharTables) (states : List Subject) : Prop :=
  ∀ (n : Nat) (h : n < states.length), ReferenceInLine P chars (states.take n) states[n]

instance (P : Config) (chars : CharTables) (states : List Subject) :
    Decidable (ReferencesInLine P chars states) := inferInstanceAs (Decidable (∀ (n : Nat) (_ : n < states.length), _))

end CmarkGfm
