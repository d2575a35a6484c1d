import CmarkGfm.Parser.Document
import CmarkGfm.Properties.Chunking
import CmarkGfm.Properties.BlockTree

/-!
# Where blocks end

A block that does not go on in the next line ends where the line before it ends. The parser keeps the
length of that line, taken from what handling the line has left of it.
-/

namespace CmarkGfm

/-! ### What the end of a heading loses -/

/-- The text ends with white space, or with number signs behind a space or tab. -/
def EndsCut (body : Bytes) : Prop :=
  (∃ before c, body = before ++ [c] ∧ isspace c = true) ∨
    ∃ before c hashes, body = before ++ c :: hashes ∧ isSpaceOrTab c = true ∧ hashes ≠ [] ∧
      ∀ h ∈ hashes, h = chr '#'

/-- A line without its line end. -/
def lineBody (line : Bytes) : Bytes := line.take (lineLength line)

section

variable {line body s t : Bytes} {c : UInt8}

theorem byteAt_concat : byteAt (s ++ [c]) ((s ++ [c]).length - 1) = c := by
  rw [List.length_append, List.length_singleton, Nat.add_sub_cancel, byteAt, List.getD_eq_getElem?_getD,
    List.getElem?_append_right le_rfl, Nat.sub_self]
  rfl

theorem byteAt_append_left {i : Nat} (inside : i < s.length) : byteAt (s ++ t) i = byteAt s i := by
  rw [byteAt, byteAt, List.getD_eq_getElem?_getD, List.getD_eq_getElem?_getD,
    List.getElem?_append_left inside]

theorem lineLength_concat (noLf : c ≠ 10) :
    lineLength (s ++ [c]) =
      if (s ++ [c]).length > 0 && byteAt (s ++ [c]) ((s ++ [c]).length - 1) == 13
      then (s ++ [c]).length - 1 else (s ++ [c]).length := by
  have last : ((s ++ [c]).length > 0 && byteAt (s ++ [c]) ((s ++ [c]).length - 1) == 10) = false := by
    rw [byteAt_concat]
    simp [noLf]
  unfold lineLength
  dsimp only
  rw [last]
  rfl

theorem lineLength_lf :
    lineLength (s ++ [10]) =
      if s.length > 0 && byteAt s (s.length - 1) == 13 then s.length - 1 else s.length := by
  have last : ((s ++ [10]).length > 0 && byteAt (s ++ [10]) ((s ++ [10]).length - 1) == 10) = true := by
    rw [byteAt_concat]
    simp
  unfold lineLength
  dsimp only
  rw [last, List.length_append, List.length_singleton, if_pos rfl, Nat.add_sub_cancel]
  by_cases empty : s.length = 0
  · rw [empty]
    rfl
  · rw [byteAt_append_left (by omega)]

/-- The end of a line is a line feed, a carriage return, or both. -/
theorem exists_lineEnd (line : Bytes) :
    ∃ lineEnd, line = lineBody line ++ lineEnd ∧ (∀ c ∈ lineEnd, isspace c = true) ∧
      (lineBody line).length = lineLength line := by
  -- what is left when a carriage return at the end is cut
  have cut (s : Bytes) : ∃ body lineEnd, s = body ++ lineEnd ∧ (∀ c ∈ lineEnd, isspace c = true) ∧
      body.length = if s.length > 0 && byteAt s (s.length - 1) == 13 then s.length - 1 else s.length := by
    rcases List.eq_nil_or_concat' s with rfl | ⟨s, c, rfl⟩
    · exact ⟨[], [], rfl, nofun, rfl⟩
    rw [byteAt_concat]
    by_cases cr : c = 13
    · refine ⟨s, [c], rfl, fun d member => ?_, by simp [cr]⟩
      rw [List.mem_singleton.mp member, cr]
      rfl
    · exact ⟨s ++ [c], [], (List.append_nil _).symm, nofun, by simp [cr]⟩
  have divided : ∃ body lineEnd, line = body ++ lineEnd ∧ (∀ c ∈ lineEnd, isspace c = true) ∧
      body.length = lineLength line := by
    rcases List.eq_nil_or_concat' line with rfl | ⟨s, c, rfl⟩
    · exact cut []
    by_cases newline : c = 10
    · obtain ⟨body, lineEnd, eq, white, length⟩ := cut s
      refine ⟨body, lineEnd ++ [c], by rw [eq, List.append_assoc], ?_, ?_⟩
      · intro d member
        rcases List.mem_append.mp member with member | member
        · exact white d member
        · rw [List.mem_singleton.mp member, newline]
          rfl
      · rw [length, newline, lineLength_lf]
    · obtain ⟨body, lineEnd, eq, white, length⟩ := cut (s ++ [c])
      exact ⟨body, lineEnd, eq, white, length.trans (lineLength_concat newline).symm⟩
  obtain ⟨body, lineEnd, eq, white, length⟩ := divided
  have same : lineBody line = body := by
    rw [lineBody, ← length]
    conv => lhs; arg 2; rw [eq]
    exact List.take_left
  exact ⟨lineEnd, by rw [same]; exact eq, white, by rw [same]; exact length⟩

theorem lineLength_of_trimmed (trimmed : ∀ before c, s = before ++ [c] → isspace c = false) :
    lineLength s = s.length := by
  rcases List.eq_nil_or_concat' s with rfl | ⟨s, c, rfl⟩
  · rfl
  have noSpace := trimmed s c rfl
  have noLf : c ≠ 10 := by
    rintro rfl
    cases noSpace
  have noCr : c ≠ 13 := by
    rintro rfl
    cases noSpace
  rw [lineLength_concat noLf, byteAt_concat]
  simp [noCr]

theorem chunkRtrim_append (white : ∀ c ∈ t, isspace c = true) : chunkRtrim (s ++ t) = chunkRtrim s := by
  induction t using List.reverseRecOn with
  | nil => rw [List.append_nil]
  | append_singleton t c ih =>
    rw [chunkRtrim, ← List.append_assoc,
      List.rdropWhile_concat_pos _ _ _ (white c (by simp)), ← chunkRtrim,
      ih fun d member => white d (List.mem_append_left _ member)]

theorem chunkRtrim_trimmed (s : Bytes) (before : Bytes) (c : UInt8) (ends : chunkRtrim s = before ++ [c]) :
    isspace c = false := by
  have nonempty : chunkRtrim s ≠ [] := by
    rw [ends]
    simp
  have last := List.rdropWhile_last_not isspace s nonempty
  rw [Bool.not_eq_true] at last
  rw [← last]
  apply congrArg
  unfold chunkRtrim at ends nonempty
  simp [ends]

theorem chunkRtrim_eq_iff :
    chunkRtrim body = body ↔ ¬ ∃ before c, body = before ++ [c] ∧ isspace c = true := by
  constructor
  · rintro same ⟨before, c, rfl, white⟩
    rw [chunkRtrim_trimmed _ before c same] at white
    cases white
  · intro noSpace
    rcases List.eq_nil_or_concat' body with rfl | ⟨s, c, rfl⟩
    · rfl
    · exact List.rdropWhile_concat_neg _ _ _ fun white => noSpace ⟨s, c, rfl, white⟩

theorem rdropWhile_hashes {before hashes : Bytes} (other : c ≠ chr '#')
    (all : ∀ h ∈ hashes, h = chr '#') :
    (before ++ c :: hashes).rdropWhile (· == chr '#') = before ++ [c] := by
  induction hashes using List.reverseRecOn with
  | nil => exact List.rdropWhile_concat_neg _ _ _ (by simpa using other)
  | append_singleton hashes h ih =>
    rw [← List.cons_append, ← List.append_assoc,
      List.rdropWhile_concat_pos _ _ _ (by simp [all h (by simp)])]
    exact ih fun d member => all d (List.mem_append_left _ member)

theorem length_chunkRtrim_le (s : Bytes) : (chunkRtrim s).length ≤ s.length :=
  (List.rdropWhile_prefix isspace s).length_le

/-- Nothing is cut off if and only if nothing at the end asks for it. -/
theorem chopTrailingHashtags_eq_iff : chopTrailingHashtags body = body ↔ ¬ EndsCut body := by
  unfold chopTrailingHashtags
  extract_lets trimmed kept
  have hashes : kept ++ trimmed.rtakeWhile (· == chr '#') = trimmed :=
    List.rdropWhile_append_rtakeWhile
  have keptLength : kept.length ≤ trimmed.length := (List.rdropWhile_prefix _ trimmed).length_le
  by_cases same : trimmed = body
  · have noSpace := chunkRtrim_eq_iff.mp same
    split
    next cuts =>
      -- the number signs behind a space
      simp only [Bool.and_eq_true, decide_eq_true_eq] at cuts
      obtain ⟨⟨differ, space⟩, nonempty⟩ := cuts
      obtain ⟨before, c, ends⟩ := (List.eq_nil_or_concat' kept).resolve_left nonempty
      rw [ends, byteAt_concat] at space
      have shorter := length_chunkRtrim_le kept
      constructor
      · intro unchanged
        rw [unchanged, ← same] at shorter
        omega
      · intro uncut
        refine absurd (.inr ⟨before, c, trimmed.rtakeWhile (· == chr '#'), ?_, space, ?_, ?_⟩) uncut
        · rw [ends, List.append_assoc] at hashes
          exact same.symm.trans hashes.symm
        · intro none
          rw [none, List.append_nil] at hashes
          exact differ (congrArg List.length hashes)
        · intro h member
          simpa using List.mem_rtakeWhile_imp member
    next keeps =>
      refine ⟨fun _ cut => ?_, fun _ => same⟩
      rcases cut with white | ⟨before, c, hashes', eq, space, nonempty, all⟩
      · exact noSpace white
      have other : c ≠ chr '#' := by
        rintro rfl
        cases space
      have ends : kept = before ++ [c] := by
        rw [← rdropWhile_hashes other all, ← eq, ← same]
      have some := List.length_pos_of_ne_nil nonempty
      apply keeps
      rw [ends, byteAt_concat, space, same, eq]
      simp
      omega
  · have white : ∃ before c, body = before ++ [c] ∧ isspace c = true := by
      by_contra noSpace
      exact same (chunkRtrim_eq_iff.mpr noSpace)
    refine ⟨fun unchanged => absurd ?_ same, fun uncut => absurd (.inl white) uncut⟩
    have whole : body.length ≤ trimmed.length := by
      split at unchanged
      next =>
        have shorter := length_chunkRtrim_le kept
        rw [unchanged] at shorter
        omega
      next => rw [unchanged]
    exact (List.rdropWhile_prefix isspace body).eq_of_length_le whole

theorem chopTrailingHashtags_trimmed (s before : Bytes) (c : UInt8)
    (ends : chopTrailingHashtags s = before ++ [c]) : isspace c = false := by
  unfold chopTrailingHashtags at ends
  extract_lets trimmed kept at ends
  split at ends
  next => exact chunkRtrim_trimmed kept before c ends
  next => exact chunkRtrim_trimmed s before c ends

theorem chopTrailingHashtags_isPrefix (s : Bytes) : chopTrailingHashtags s <+: s := by
  unfold chopTrailingHashtags
  extract_lets trimmed kept
  have trimmedPrefix : trimmed <+: s := List.rdropWhile_prefix _ _
  have keptPrefix : kept <+: trimmed := List.rdropWhile_prefix _ _
  split
  next => exact (List.rdropWhile_prefix _ _).trans (keptPrefix.trans trimmedPrefix)
  next => exact trimmedPrefix

/-- Cutting keeps the length if and only if nothing in front of the line end is cut off. -/
theorem lineLength_chopTrailingHashtags_iff :
    lineLength (chopTrailingHashtags line) = lineLength line ↔ ¬ EndsCut (lineBody line) := by
  obtain ⟨lineEnd, eq, white, length⟩ := exists_lineEnd line
  have same : chopTrailingHashtags line = chopTrailingHashtags (lineBody line) := by
    have trims : chunkRtrim line = chunkRtrim (lineBody line) := by
      conv_lhs => rw [eq, chunkRtrim_append white]
    rw [chopTrailingHashtags, chopTrailingHashtags, trims]
  rw [lineLength_of_trimmed (chopTrailingHashtags_trimmed line), same, ← length,
    ← chopTrailingHashtags_eq_iff]
  constructor
  · exact (chopTrailingHashtags_isPrefix (lineBody line)).eq_of_length
  · exact congrArg List.length

end

/-! ### The length that is kept -/

/-- The text of the line goes to an ATX heading, whose end is cut. -/
def TextToHeading (P : Config) (input : Bytes) (container lastMatched : NodeId) (p : ParserState) : Prop :=
  let p := setLastLineBlank container (findFirstNonspace input p)
  ¬ (p.current ≠ lastMatched && container = lastMatched &&
      (!p.blank || P.options.has optPreserveWhitespace) && p.typeOf p.current = .paragraph) ∧
    let p := closeUnmatched P lastMatched (p.nextId + 1) p
    (p.typeOf container = .heading ∧ (p.dataOf container).as.getSetext = false) ∧
      ¬ (p.blank && !P.options.has optPreserveWhitespace)

/-- In the state before the line: its text ends with something to cut and is the text of an ATX
heading. -/
def CutsHeading (P : Config) (input : Bytes) (p : ParserState) : Prop :=
  EndsCut (lineBody input) ∧
    let (p, lastMatched, allMatched) := checkOpenBlocks P input (startLine input p)
    ∃ matched, lastMatched = some matched ∧
      let (q, container) := if P.options.has optInlineOnly then (p, matched)
        else openNewBlocks P input allMatched matched p
      q.current = p.current ∧ TextToHeading P input container matched q

section

variable {P : Config} {input : Bytes} {p : ParserState}

/-- The text for an ATX heading is cut, all other text stays. -/
theorem addContainerLine_line (container : NodeId) :
    (addContainerLine P input container p).2.2 =
      if (p.typeOf container = .heading ∧ (p.dataOf container).as.getSetext = false) ∧
        ¬ (p.blank && !P.options.has optPreserveWhitespace)
      then chopTrailingHashtags input else input := by
  unfold addContainerLine ParserState.typeOf
  extract_lets d line
  have other {t : NodeType} (type : d.type = t) (differs : t ≠ .heading) :
      ¬ ((d.type = .heading ∧ d.as.getSetext = false) ∧
        ¬ (p.blank && !P.options.has optPreserveWhitespace)) :=
    fun all => differs (type.symm.trans all.1.1)
  split
  next code => rw [if_neg (other code (by decide))]
  split
  next html => rw [if_neg (other html (by decide))]
  split
  next skipped => rw [if_neg fun all => all.2 skipped]
  next taken =>
    split
    next =>
      by_cases atx : d.type = .heading ∧ d.as.getSetext = false
      · have cuts : (decide (d.type = .heading) && !d.as.getSetext) = true := by simp [atx]
        rw [if_pos ⟨atx, taken⟩]
        exact if_pos cuts
      · have keeps : ¬ (decide (d.type = .heading) && !d.as.getSetext) = true := by simpa using atx
        rw [if_neg fun all => atx all.1]
        exact if_neg keeps
    next noLines =>
      rw [if_neg]
      intro all
      rw [all.1.1] at noLines
      exact noLines rfl

theorem lineLength_addContainerLine_iff (container : NodeId) :
    lineLength (addContainerLine P input container p).2.2 = lineLength input ↔
      ¬ (EndsCut (lineBody input) ∧
        (p.typeOf container = .heading ∧ (p.dataOf container).as.getSetext = false) ∧
          ¬ (p.blank && !P.options.has optPreserveWhitespace)) := by
  rw [addContainerLine_line]
  split
  next cuts =>
    rw [lineLength_chopTrailingHashtags_iff]
    exact not_congr ⟨fun ends => ⟨ends, cuts⟩, And.left⟩
  next keeps => exact ⟨fun _ all => keeps all.2, fun _ => rfl⟩

theorem lineLength_addTextToContainer_iff (container lastMatched : NodeId) :
    lineLength (addTextToContainer P input container lastMatched p).2 = lineLength input ↔
      ¬ (EndsCut (lineBody input) ∧ TextToHeading P input container lastMatched p) := by
  unfold addTextToContainer TextToHeading
  extract_lets q q'
  split
  next isLazy =>
    exact ⟨fun _ all => all.2.1 isLazy, fun _ => rfl⟩
  next notLazy =>
    have added : lineLength (addContainerLine P input container q').2.2 = lineLength input ↔ _ :=
      lineLength_addContainerLine_iff container
    generalize addContainerLine P input container q' = r at added ⊢
    obtain ⟨_, _, line⟩ := r
    exact added.trans (not_congr ⟨fun all => ⟨all.1, notLazy, all.2⟩, fun all => ⟨all.1, all.2.2⟩⟩)

/-- The length of the line is kept unless the end of a heading is cut. -/
theorem lastLineLength_processLine_iff (buffer : Bytes) (ensureEndsInNewline : Bool) :
    (processLine P p buffer ensureEndsInNewline).lastLineLength =
        lineLength (prepareLine P buffer ensureEndsInNewline) ↔
      ¬ CutsHeading P (prepareLine P buffer ensureEndsInNewline) p := by
  unfold processLine CutsHeading
  generalize prepareLine P buffer ensureEndsInNewline = input
  dsimp only
  obtain ⟨q, lastMatched, allMatched⟩ := checkOpenBlocks P input (startLine input p)
  cases lastMatched with
  | none =>
    constructor
    · rintro _ ⟨_, matched, same, _⟩
      cases same
    · exact fun _ => rfl
  | some matched =>
    dsimp only
    simp only [Option.some.injEq, exists_eq_left']
    generalize (if P.options.has optInlineOnly then (q, matched)
      else openNewBlocks P input allMatched matched q) = r
    obtain ⟨q', container⟩ := r
    dsimp only
    split
    next same =>
      apply (lineLength_addTextToContainer_iff container matched).trans
      apply not_congr
      exact ⟨fun cuts => ⟨cuts.1, same, cuts.2⟩, fun cuts => ⟨cuts.1, cuts.2.2⟩⟩
    next differs => exact ⟨fun _ cuts => differs cuts.2.1, fun _ => rfl⟩

/-! ### Closing a block -/

/-- The parser reads a line behind the state, or the input is at its end. -/
structure Following (q r : ParserState) : Prop where
  lastLineLength : r.lastLineLength = q.lastLineLength
  lineNumber : r.curline ≠ [] → r.lineNumber = q.lineNumber + 1

/-- The blocks that are said to end in the line that closes them. -/
def EndsWithClosingLine (d : NodeData) : Prop :=
  d.type = .document ∨ (d.type = .codeBlock ∧ d.as.getCode.fenced = true) ∨
    (d.type = .heading ∧ d.as.getSetext = true)

instance (d : NodeData) : Decidable (EndsWithClosingLine d) := inferInstanceAs (Decidable (_ ∨ _))

end

section

variable {P : Config} {p q r : ParserState} {b : NodeId} {e : Block}

/-- The end column of a block that is there. -/
def ParserState.endColumnOf (p : ParserState) (b : NodeId) : Option Int :=
  (p.nodes b).map fun block => block.data.endColumn

theorem endColumnOf_modifyData {f : NodeData → NodeData} (i : NodeId)
    (keeps : ∀ d, (f d).endColumn = d.endColumn) :
    (p.modifyData i f).endColumnOf b = p.endColumnOf b := by
  unfold ParserState.endColumnOf
  rw [nodes_modifyData]
  split
  next here =>
    rw [here, Option.map_map]
    apply Option.map_congr
    exact fun block _ => keeps block.data
  next => rfl

theorem endColumnOf_endsWithBlankLineFrom (fuel : Nat) (node : NodeId) :
    (endsWithBlankLineFrom fuel node p).1.endColumnOf b = p.endColumnOf b := by
  induction fuel generalizing node p with
  | zero => rfl
  | succ fuel ih =>
    unfold endsWithBlankLineFrom
    split
    next => rfl
    next =>
      extract_lets checked
      have kept : checked.endColumnOf b = p.endColumnOf b := endColumnOf_modifyData node fun _ => rfl
      split
      next =>
        split
        next => exact (ih _).trans kept
        next => exact kept
      next => exact kept

theorem endColumnOf_looseSubitems (itemHasNext : Bool) (subitems : List NodeId) :
    (looseSubitems itemHasNext subitems p).1.endColumnOf b = p.endColumnOf b := by
  induction subitems generalizing p with
  | nil => rfl
  | cons subitem rest ih =>
    have blank := endColumnOf_endsWithBlankLineFrom (p := p) (b := b) p.nextId subitem
    unfold looseSubitems
    split
    next =>
      unfold endsWithBlankLine
      generalize endsWithBlankLineFrom p.nextId subitem p = r at blank
      obtain ⟨p', ends⟩ := r
      cases ends with
      | true => exact blank
      | false => exact ih.trans blank
    next => exact ih

theorem endColumnOf_looseItems (items : List NodeId) :
    (looseItems items p).1.endColumnOf b = p.endColumnOf b := by
  induction items generalizing p with
  | nil => rfl
  | cons item rest ih =>
    have subitems := endColumnOf_looseSubitems (p := p) (b := b) (!rest.isEmpty) (p.childrenOf item)
    unfold looseItems
    split
    next => rfl
    next =>
      generalize looseSubitems (!rest.isEmpty) (p.childrenOf item) p = r at subitems
      obtain ⟨p', loose⟩ := r
      cases loose with
      | true => exact subitems
      | false => exact ih.trans subitems

/-- A block that is not removed keeps the end it was given. -/
theorem endColumnOf_finalizeContent (stays : (finalizeContent P b p).nodes b = some e) :
    (finalizeContent P b p).endColumnOf b = p.endColumnOf b := by
  unfold finalizeContent at stays ⊢
  split at stays
  next =>
    have resolved : (resolveReferenceLinkDefinitions P.tables b p).1.endColumnOf b = p.endColumnOf b :=
      endColumnOf_modifyData (f := fun d => { d with content := _ }) b fun _ => rfl
    generalize resolveReferenceLinkDefinitions P.tables b p = r at resolved stays ⊢
    obtain ⟨q, hasContent⟩ := r
    dsimp only at resolved stays ⊢
    split at stays
    next freed =>
      have gone : (q.freeBlock b).nodes b = none := if_pos rfl
      rw [gone] at stays
      cases stays
    next kept => rw [if_neg kept, resolved]
  next =>
    unfold finalizeCode
    extract_lets
    split
    next => exact endColumnOf_modifyData b fun _ => rfl
    next => exact endColumnOf_modifyData b fun _ => rfl
  next => exact endColumnOf_modifyData b fun _ => rfl
  next =>
    have items := endColumnOf_looseItems (p := p) (b := b) (p.childrenOf b)
    generalize looseItems (p.childrenOf b) p = r at items ⊢
    obtain ⟨q, loose⟩ := r
    apply Eq.trans _ items
    apply endColumnOf_modifyData
    exact fun _ => rfl
  next => rfl

theorem endColumnOf_setEnd (opened : p.curline ≠ [] → (p.dataOf b).endLine < p.lineNumber) :
    (setEnd b p).endColumnOf b = (p.nodes b).map fun _ =>
      if p.curline ≠ [] ∧ EndsWithClosingLine (p.dataOf b) then (lineLength p.curline : Int)
      else p.lastLineLength := by
  have given (f : NodeData → NodeData) (n : Int) (ends : ∀ d, (f d).endColumn = n) :
      (p.modifyData b f).endColumnOf b = (p.nodes b).map fun _ => n := by
    rw [ParserState.endColumnOf, nodes_modifyData, if_pos rfl, Option.map_map]
    apply Option.map_congr
    exact fun block _ => ends block.data
  unfold setEnd
  extract_lets d
  by_cases atEnd : p.curline = []
  · rw [if_pos (by rw [atEnd]; rfl), if_neg fun both => both.1 atEnd]
    apply given
    exact fun _ => rfl
  have line : ¬ p.curline.length = 0 := fun zero => atEnd (List.length_eq_zero_iff.mp zero)
  rw [if_neg line]
  by_cases closing : EndsWithClosingLine d
  · have closing' : (d.type = .document || (d.type = .codeBlock && d.as.getCode.fenced) ||
        (d.type = .heading && d.as.getSetext) || (p.lineNumber : Int) - 1 < d.endLine) = true := by
      unfold EndsWithClosingLine at closing
      simp [or_assoc] at closing ⊢
      tauto
    rw [if_pos closing', if_pos ⟨atEnd, closing⟩]
    apply given
    exact fun _ => rfl
  · have before := opened atEnd
    have other : ¬ (d.type = .document || (d.type = .codeBlock && d.as.getCode.fenced) ||
        (d.type = .heading && d.as.getSetext) || (p.lineNumber : Int) - 1 < d.endLine) = true := by
      have later : ¬ (p.lineNumber : Int) - 1 < d.endLine := by
        have : d.endLine < p.lineNumber := before
        omega
      unfold EndsWithClosingLine at closing
      simp [or_assoc, later] at closing ⊢
      tauto
    rw [if_neg other, if_neg fun both => closing both.2]
    apply given
    exact fun _ => rfl

/-- Where a block that was opened in an earlier line ends when it is closed. -/
theorem endColumn_finalize (opened : p.curline ≠ [] → (p.dataOf b).endLine < p.lineNumber)
    (stays : (finalize P b p).1.nodes b = some e) :
    e.data.endColumn =
      if p.curline ≠ [] ∧ EndsWithClosingLine (p.dataOf b) then (lineLength p.curline : Int)
      else p.lastLineLength := by
  unfold finalize at stays
  extract_lets parent q q' at stays
  have kept := endColumnOf_finalizeContent stays
  have closed : q'.nodes b = (p.nodes b).map fun block =>
      { block with data := { block.data with isOpen := false } } := if_pos rfl
  have data : q'.dataOf b = { p.dataOf b with isOpen := false } := by
    unfold ParserState.dataOf ParserState.block
    rw [closed]
    cases p.nodes b with
    | none => rfl
    | some block => rfl
  have same : EndsWithClosingLine (q'.dataOf b) ↔ EndsWithClosingLine (p.dataOf b) := by
    rw [data]
    rfl
  have opened' : q'.curline ≠ [] → (q'.dataOf b).endLine < q'.lineNumber := by
    rw [data]
    exact opened
  rw [ParserState.endColumnOf, stays, endColumnOf_setEnd opened', closed, Option.map_map] at kept
  obtain ⟨_, _, eq⟩ := Option.map_eq_some_iff.mp kept.symm
  have eq : (if p.curline ≠ [] ∧ EndsWithClosingLine (q'.dataOf b) then (lineLength p.curline : Int)
      else p.lastLineLength) = e.data.endColumn := eq
  simp only [same] at eq
  exact eq.symm

/-- The line that closes a block is its last one: the line is the closing fence of a code block, or an
HTML block goes on in it and then ends. -/
def EndsIn (P : Config) (line : Bytes) (p : ParserState) (b : NodeId) : Prop :=
  let r := checkOpenBlocks P line (startLine line p)
  (r.2.1 = none ∧ p.isOpen b = true ∧ r.1.isOpen b = false) ∨
    (r.2.1 = some b ∧ p.typeOf b = .htmlBlock)

instance (line : Bytes) : Decidable (EndsIn P line p b) := inferInstanceAs (Decidable (_ ∨ _))

/-- The last line of a block that is closed in `q`, behind a line and the state `p` that it leaves. -/
def lastLineOf (P : Config) (input : Bytes) (p q : ParserState) (b : NodeId) : Bytes :=
  if q.curline ≠ [] ∧ EndsIn P q.curline p b then q.curline else input

/-- In every run of lines, and whatever block is closed behind a line: the parser has kept the length of
the line and the block ends where its last line ends, if and only if the line is no heading whose end is
cut, and the block is said to end in the line that closes it just when this is its last line, unless both
lines have the same length. -/
theorem endColumn_iff_kept (P : Config) (lines : List (Bytes × Bool)) (buffer : Bytes)
    (ensureEndsInNewline : Bool) :
    let before := replay (processLine P) initialState lines
    let input := prepareLine P buffer ensureEndsInNewline
    let after := processLine P before buffer ensureEndsInNewline
    ∀ closed b e, Following after closed → (closed.dataOf b).endLine ≤ after.lineNumber →
      (finalize P b closed).1.nodes b = some e →
      ((after.lastLineLength = lineLength input ∧
          e.data.endColumn = lineLength (lastLineOf P input after closed b)) ↔
        ¬ CutsHeading P input before ∧
          (closed.curline ≠ [] →
            (EndsWithClosingLine (closed.dataOf b) ↔ EndsIn P closed.curline after b) ∨
              lineLength closed.curline = lineLength input)) := by
  intro before input after closed b e following opened stays
  have earlier : closed.curline ≠ [] → (closed.dataOf b).endLine < closed.lineNumber := by
    intro reading
    rw [following.lineNumber reading]
    omega
  have kept : after.lastLineLength = lineLength input ↔ ¬ CutsHeading P input before :=
    lastLineLength_processLine_iff buffer ensureEndsInNewline
  rw [endColumn_finalize earlier stays, following.lastLineLength, ← kept]
  apply and_congr_right
  intro kept
  rw [kept, lastLineOf]
  by_cases reading : closed.curline = []
  · simp [reading]
  -- the line the block is given, against the line it ends in
  by_cases closing : EndsWithClosingLine (closed.dataOf b) <;>
    by_cases own : EndsIn P closed.curline after b <;>
    simp [reading, closing, own, eq_comm]

/-- A fenced code block ends with its closing fence, and this is the column that it is given. -/
theorem endColumn_iff_kept_fence :
    let P : Config := ⟨asciiTables, 0, []⟩
    let after := processLine P (processLine P initialState (lit "```") true) (lit "code") true
    let closed := startLine (lit "```\n") after
    ∃ e, (finalize P 1 closed).1.nodes 1 = some e ∧ after.lastLineLength = 4 ∧ e.data.endColumn = 3 := by
  intro P after closed
  have here : ((finalize P 1 closed).1.nodes 1).isSome = true := by decide +kernel
  obtain ⟨e, stays⟩ := Option.isSome_iff_exists.mp here
  have opened : (closed.dataOf 1).endLine ≤ after.lineNumber := by decide +kernel
  have other : ¬ CutsHeading P (prepareLine P (lit "code") true)
      (replay (processLine P) initialState [(lit "```", true)]) := by
    rintro ⟨ends, _⟩
    exact chopTrailingHashtags_eq_iff.mp (by decide +kernel) ends
  have own : EndsWithClosingLine (closed.dataOf 1) ↔ EndsIn P closed.curline after 1 := by decide +kernel
  obtain ⟨length, column⟩ := (endColumn_iff_kept P [(lit "```", true)] (lit "code") true closed 1 e
    ⟨rfl, fun _ => rfl⟩ opened stays).mpr ⟨other, fun _ => .inl own⟩
  have last : lineLength (lastLineOf P (prepareLine P (lit "code") true) after closed 1) = 3 := by
    decide +kernel
  exact ⟨e, stays, length.trans (by decide +kernel), column.trans (congrArg Nat.cast last)⟩

/-- The number sign at the end is missing in the length, and the heading and the block quote around it
end in front of it. -/
theorem endColumn_of_cut_heading :
    let P : Config := ⟨asciiTables, 0, []⟩
    let after := processLine P initialState (lit "> # a #") true
    let closed := startLine (lit "b\n") after
    lineLength (prepareLine P (lit "> # a #") true) = 7 ∧ after.lastLineLength = 5 ∧
      ((finalize P 1 closed).1.nodes 1).map (fun e => (e.data.type, e.data.endLine, e.data.endColumn)) =
        some (.blockQuote, 1, 5) := by
  decide +kernel

end

end CmarkGfm
