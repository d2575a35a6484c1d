import CmarkGfm.Properties.InlineLayout

/-!
# Runs of the inline parser

The states between the calls of `parse_inline`, the calls of `process_emphasis` on the way, and what
holds in all of them.
-/

namespace CmarkGfm

/-- The states between the calls of `parse_inline`. -/
inductive Reaches (P : Config) (chars : CharTables) (start : Subject) : Subject → Prop where
  | start : Reaches P chars start start
  | step {subj subj' : Subject} (reached : Reaches P chars start subj)
      (inside : subj.pos < subj.input.length) (parsed : parseInline P chars subj = some subj') :
      Reaches P chars start subj'

/-- A call of `process_emphasis` that `handle_close_bracket` makes, with its `stack_bottom`. -/
inductive BracketCall (P : Config) (subj : Subject) : Subject → Nat → Prop where
  | link {opener : Bracket} {pos : Nat} {refmap : Map Reference} {clones : List Clone}
      {url title : Bytes} (top : opener ∈ subj.brackets.head?) (ahead : subj.Ahead pos)
      (taken : handleCloseBracket P subj =
        (matchLink P (subj.lookAhead pos refmap clones) opener url title, none)) :
      BracketCall P subj (linkSpliced P (subj.lookAhead pos refmap clones) opener url title)
        opener.position
  | footnote {opener : Bracket} {refmap : Map Reference} {clones : List Clone} {next : Node}
      (top : opener ∈ subj.brackets.head?)
      (taken : handleCloseBracket P subj =
        (makeFootnoteReference P (subj.lookAhead (subj.pos + 1) refmap clones) opener next, none)) :
      BracketCall P subj
        (footnoteSpliced P (subj.lookAhead (subj.pos + 1) refmap clones) opener next)
        opener.position
  | «attribute» {opener : Bracket} {pos : Nat} {refmap : Map Reference} {clones : List Clone}
      {attributes : Bytes} (top : opener ∈ subj.brackets.head?) (ahead : subj.Ahead pos)
      (taken : handleCloseBracket P subj =
        (matchAttribute P (subj.lookAhead pos refmap clones) opener attributes, none)) :
      BracketCall P subj (attributeSpliced P (subj.lookAhead pos refmap clones) opener attributes)
        opener.position

/-- Every call of `process_emphasis` in a run of `cmark_parse_inlines`. -/
inductive EmphasisCall (P : Config) (chars : CharTables) (start : Subject) : Subject → Nat → Prop where
  | bracket {subj call : Subject} {bottom : Nat} (reached : Reaches P chars start subj)
      (inside : subj.pos < subj.input.length) (made : BracketCall P subj call bottom) :
      EmphasisCall P chars start call bottom
  | last : EmphasisCall P chars start (parseInlinesLoop P chars start.input.length start) 0

/-! ### What the calls find -/

/-- The loop of `process_emphasis` works on the siblings `f`. In front of them, among the nodes before
the zone, are the text nodes of the marks under the bottom of the stack. -/
structure CallLayout (P : Config) (z : Zone) (marks : List Mark) (bottom : Nat) (e : Emphasis)
    (upper : List Delimiter) (f : Forest) : Prop where
  zone : EmphasisZone P z bottom (marks.filterMap Mark.delimiter?).reverse e upper f
  low : ∀ m ∈ marks, m.position < bottom
  order : (marks.map Mark.inlText).Sublist (z.outer.map Node.id)
  texts : ∀ d, .delimiter d ∈ marks → ∀ n ∈ z.outer, n.id = d.inlText → DelimiterText d n
  openers : ∀ p i, .bracket p i ∈ marks → ∀ n ∈ z.outer, n.id = i → n.type = .text ∧ n.children = []

/-- What a call of `process_emphasis` finds when its loop starts. -/
def Finds (P : Config) (call : Subject) (bottom : Nat) : Prop :=
  ∃ z marks top f, call.delims = top ++ (marks.filterMap Mark.delimiter?).reverse ∧
    (bottom ≠ 0 → call.brackets.tail.map (fun b => (b.position, b.inlText)) =
      (marks.filterMap Mark.bracket?).reverse) ∧
    CallLayout P z marks bottom ⟨call, (marks.filterMap Mark.delimiter?).reverse, top.reverse⟩ [] f

namespace Layout

variable {P : Config} {subj : Subject} {marks : List Mark}

/-- The marks before the opener are in front of the zone. -/
theorem finds {spliced : Subject} {opener : Bracket} {before after : List Mark} {z : Zone}
    {f l r new : Forest} {n : Node}
    (layout : Layout P subj (before ++ .bracket opener.position opener.inlText :: after))
    (children : subj.children = l ++ n :: r)
    (left : (before.map Mark.inlText).Sublist (l.map Node.id)) (outer : z.outer = l ++ new)
    (later : ∀ m ∈ new, m = n ∨ subj.nextId ≤ m.id)
    (delims : spliced.delims = subj.delims) (brackets : spliced.brackets = subj.brackets)
    (below : subj.brackets.tail.map (fun b => (b.position, b.inlText)) =
      (before.filterMap Mark.bracket?).reverse)
    (zone : EmphasisZone P z opener.position (before.filterMap Mark.delimiter?).reverse
      ⟨spliced, (before.filterMap Mark.delimiter?).reverse,
        (after.filterMap Mark.delimiter?).reverse.reverse⟩ [] f) :
    Finds P spliced opener.position := by
  have sublist : before.Sublist (before ++ .bracket opener.position opener.inlText :: after) :=
    List.sublist_append_left _ _
  have old : ∀ m ∈ before, m.inlText < subj.nextId := fun m member =>
    layout.fresh _ ((ids_sublist_addresses _).subset
      (layout.order.subset (List.mem_map_of_mem (sublist.subset member))))
  have among : ∀ {i}, i < subj.nextId → ∀ m ∈ z.outer, m.id = i → m ∈ subj.children := by
    intro i low m member here
    rw [outer, List.mem_append] at member
    rcases member with first | inserted
    · simp [children, first]
    · rcases later m inserted with rfl | high
      · simp [children]
      · exact absurd (here ▸ high) (not_le.mpr low)
  refine ⟨z, before, (after.filterMap Mark.delimiter?).reverse, f, ?_, fun _ => ?_, zone, fun m member => ?_,
    ?_, fun d member m inside here => ?_, fun p i member m inside here => ?_⟩
  · rw [delims]
    exact layout.delims_split.1
  · rw [brackets]
    exact below
  · exact (List.pairwise_append.mp layout.sorted).2.2 m member _ List.mem_cons_self
  · rw [outer, List.map_append]
    exact left.trans (List.sublist_append_left _ _)
  · exact layout.texts d (sublist.subset member) m (among (old _ member) m inside here) here
  · exact layout.openers p i (sublist.subset member) m (among (old _ member) m inside here) here

theorem bracketCall {call : Subject} {bottom : Nat} (layout : Layout P subj marks)
    (made : BracketCall P subj call bottom) : Finds P call bottom := by
  cases made with
  | @link opener pos refmap clones url title top ahead taken =>
    obtain ⟨before, after, rfl, _, below⟩ := layout.exists_opener top
    have layout' := @Layout.lookAhead _ _ _ layout _ refmap clones ahead.1.le
    obtain ⟨l, r, n, d, children, here, left, type, _, zone⟩ := layout'.zone_link _ _
    exact @Layout.finds _ _ _ _ _ _ _ _ _ _ [] _ layout' children left (List.append_nil _).symm nofun rfl rfl below zone
  | @footnote opener refmap clones next top taken =>
    obtain ⟨before, after, rfl, _, below⟩ := layout.exists_opener top
    have layout' := @Layout.lookAhead _ _ _ layout _ refmap clones (Nat.le_succ subj.pos)
    obtain ⟨l, r, n, d, children, here, left, type, _, zone⟩ := layout'.zone_footnote _
    refine layout'.finds children left rfl (fun m member => ?_) rfl rfl below zone
    rcases List.mem_pair.mp member with rfl | rfl
    · exact .inr le_rfl
    · exact .inl rfl
  | @«attribute» opener pos refmap clones attributes top ahead taken =>
    obtain ⟨before, after, rfl, _, below⟩ := layout.exists_opener top
    have layout' := @Layout.lookAhead _ _ _ layout _ refmap clones ahead.1.le
    obtain ⟨l, r, n, d, children, here, left, type, _, zone⟩ := layout'.zone_attribute _
    exact @Layout.finds _ _ _ _ _ _ _ _ _ _ [] _ layout' children left (List.append_nil _).symm nofun rfl rfl below zone

/-- At the end of the content all siblings are the zone. -/
theorem lastZone (layout : Layout P subj marks) :
    EmphasisZone P ⟨[], none⟩ 0 [] ⟨subj, [], subj.delims.reverse⟩ [] subj.children := by
  have all : Emphasis.stack ⟨subj, [], subj.delims.reverse⟩ [] = marks.filterMap Mark.delimiter? := by
    rw [layout.delims]
    simp [Emphasis.stack]
  refine ⟨rfl, rfl, layout.distinct, layout.fresh, layout.accepts, layout.inline, ?_,
    fun d member n among here => ?_, fun _ _ => Nat.zero_le _⟩
  · exact all ▸ (delimiters_sublist marks).trans layout.order
  · exact layout.texts d (Mark.mem_delimiters.mp (all ▸ member)) n among here

theorem lastCall (layout : Layout P subj marks) : Finds P subj 0 := by
  refine ⟨⟨[], none⟩, [], subj.delims, subj.children, (List.append_nil _).symm, by simp, layout.lastZone, by simp, .slnil,
    fun _ member => ?_, by simp⟩
  cases member

/-- Before the first inline nothing is laid out. -/
theorem start {parent : NodeData} (content : Bytes) (refmap : Map Reference) (nextId : NodeId)
    (accepts : ∀ t : NodeType, t.isInline → P.nodeCanContainType parent t) :
    Layout P (.ofBlock parent content [] refmap nextId) [] :=
  ⟨rfl, rfl, .slnil, .nil, nofun, nofun, nofun, .nil, nofun, nofun, accepts⟩

end Layout

/-! ### All states of a run -/

section

variable {P : Config} {chars : CharTables} {start : Subject}
  (sound : ∀ e ∈ P.syntaxExtensions, e.Sound P)
  (notNul : chars.backslashIspunct.getD ispunct 0 = false) (layout : ∃ marks, Layout P start marks)

include sound notNul

/-- Between the calls of `parse_inline` the position stays within the content. -/
theorem Reaches.within (nulFree : 0 ∉ start.input) (within : start.pos ≤ start.input.length)
    {subj : Subject} (reached : Reaches P chars start subj) :
    subj.input = start.input ∧ subj.pos ≤ subj.input.length := by
  induction reached with
  | start => exact ⟨rfl, within⟩
  | @step subj subj' _ inside parsed ih =>
    obtain ⟨next, made, advances⟩ := advances_parseInline (fun e member => (sound e member).reads) inside
      notNul (ih.1 ▸ nulFree)
    obtain rfl : next = subj' := Option.some.inj (made.symm.trans parsed)
    exact ⟨advances.input.trans ih.1, advances.within.trans_eq (congrArg _ advances.input.symm)⟩

include layout

/-- Between the calls of `parse_inline` the stacks are laid out. -/
theorem Reaches.laidOut {subj : Subject} (reached : Reaches P chars start subj) :
    ∃ marks, Layout P subj marks := by
  induction reached with
  | start => exact layout
  | step _ inside parsed ih =>
    obtain ⟨marks, layout⟩ := ih
    exact layout.parseInline sound inside notNul parsed

omit sound notNul layout in
/-- The loop of `cmark_parse_inlines` ends in such a state. -/
theorem reaches_parseInlinesLoop (fuel : Nat) {subj : Subject} (reached : Reaches P chars start subj) :
    Reaches P chars start (parseInlinesLoop P chars fuel subj) := by
  induction fuel generalizing subj with
  | zero => exact reached
  | succ fuel ih =>
    rw [parseInlinesLoop]
    split
    next => exact reached
    next more =>
      split
      next => exact reached
      next subj' parsed =>
        exact ih (reached.step (not_le.mp (by simpa [Subject.isEof] using more)) parsed)

theorem EmphasisCall.finds {call : Subject} {bottom : Nat}
    (made : EmphasisCall P chars start call bottom) : Finds P call bottom := by
  cases made with
  | bracket reached inside made =>
    obtain ⟨marks, layout⟩ := reached.laidOut sound notNul layout
    exact layout.bracketCall made
  | last =>
    obtain ⟨marks, layout⟩ := (reaches_parseInlinesLoop _ .start).laidOut sound notNul layout
    exact layout.lastCall

/-- At every turn of the loop of a call the stack is where the call found it, and the tree was changed
only by matching runs. -/
theorem EmphasisCall.keeps {call : Subject} {bottom : Nat}
    (made : EmphasisCall P chars start call bottom) :
    ∃ z marks top f, call.delims = top ++ (marks.filterMap Mark.delimiter?).reverse ∧
      (bottom ≠ 0 → call.brackets.tail.map (fun b => (b.position, b.inlText)) =
        (marks.filterMap Mark.bracket?).reverse) ∧
      ∀ turns, ∃ upper f',
        CallLayout P z marks bottom (emphasisLoop P OpenersBottom.get bottom turns
          (emphasisStart call bottom) (.initial bottom)).1 upper f' ∧
        Relation.ReflTransGen (EmphasisChange (top.map Delimiter.inlText)) f f' ∧
        otherTextList (top.map Delimiter.inlText) f' = otherTextList (top.map Delimiter.inlText) f := by
  obtain ⟨z, marks, top, f, split, brackets, calls⟩ := made.finds sound notNul layout
  have high : ∀ d ∈ top, bottom ≤ d.position := fun d member =>
    calls.zone.above d (by simpa [Emphasis.stack] using member)
  have low : ∀ d ∈ (marks.filterMap Mark.delimiter?).reverse, d.position < bottom := fun d member =>
    calls.low (.delimiter d) (Mark.mem_delimiters.mp (List.mem_reverse.mp member))
  have runs : (Emphasis.stack ⟨call, (marks.filterMap Mark.delimiter?).reverse, top.reverse⟩ []).map
      Delimiter.inlText ⊆ top.map Delimiter.inlText := List.map_subset _ fun d member => by
    simpa [Emphasis.stack] using member
  refine ⟨z, marks, top, f, split, brackets, fun turns => ?_⟩
  rw [emphasisStart_eq split high low]
  obtain ⟨upper, f', zone, _, changes, _⟩ := emphasisLoop_spec (fun e member => (sound e member).turns)
    OpenersBottom.get (.initial bottom) turns low calls.zone
  have changes' := Relation.ReflTransGen.mono (fun _ _ => EmphasisChange.mono runs) _ _ changes
  exact ⟨upper, f', { calls with zone := zone }, changes', otherText_eq_of_changes changes'⟩

/-- A call of `process_emphasis` comes to an end and leaves no delimiter from its bottom on. -/
theorem EmphasisCall.ends {call : Subject} {bottom : Nat}
    (made : EmphasisCall P chars start call bottom) :
    (emphasisLoop P OpenersBottom.get bottom (emphasisFuel (emphasisStart call bottom))
      (emphasisStart call bottom) (.initial bottom)).1.after = [] ∧
    ∀ d ∈ (processEmphasis P call bottom).delims, d.position < bottom := by
  obtain ⟨z, marks, top, f, split, _, calls⟩ := made.finds sound notNul layout
  have low : ∀ d ∈ (marks.filterMap Mark.delimiter?).reverse, d.position < bottom := fun d member =>
    calls.low (.delimiter d) (Mark.mem_delimiters.mp (List.mem_reverse.mp member))
  obtain ⟨f', _, _, _, _, delims, passed⟩ := processEmphasisWith_spec
    (fun e member => (sound e member).turns) OpenersBottom.get split low calls.zone
  refine ⟨passed, fun d member => low d ?_⟩
  rw [← delims]
  exact member

end

/-! ### Strikethrough -/

/-- The run that the callback of the strikethrough extension scans. -/
theorem tildes_bounds {subj : Subject} (inside : subj.pos < subj.input.length)
    (tilde : subj.peekChar = chr '~') :
    0 < (inlineParserScanDelimiters subj.input subj.pos 100 (chr '~')).1 ∧
      subj.pos + (inlineParserScanDelimiters subj.input subj.pos 100 (chr '~')).1 ≤ subj.input.length := by
  have run := lt_skipWhile (p := (· == chr '~')) inside (beq_iff_eq.mpr tilde)
  have bound := skipWhile_le_length (· == chr '~') _ _ inside.le
  show 0 < min (skipWhile (· == chr '~') subj.input subj.pos - subj.pos) 100 ∧
    subj.pos + min (skipWhile (· == chr '~') subj.input subj.pos - subj.pos) 100 ≤ subj.input.length
  omega

/-- The callbacks of the strikethrough extension. -/
theorem strikethrough_sound (P : Config) (self : Nat) (contains : NodeData → NodeType → Bool) :
    (strikethroughExtension self contains).Sound P where
  reads := by
    refine ⟨?_, ?_⟩
    · rintro _ ⟨⟩ options subj inside
      unfold Strikethrough.matchInline
      split
      next => exact .inl rfl
      next tilde =>
        have bounds := tildes_bounds inside (by simpa using tilde)
        generalize inlineParserScanDelimiters subj.input subj.pos 100 (chr '~') = run at bounds ⊢
        obtain ⟨delims, leftFlanking, rightFlanking⟩ := run
        have beyond : subj.pos < subj.pos + delims := Nat.lt_add_of_pos_right bounds.1
        refine .inr ?_
        dsimp only
        split
        next => exact ⟨rfl, rfl, beyond, bounds.2⟩
        next => exact ⟨rfl, rfl, beyond, bounds.2⟩
    · rintro _ ⟨⟩ options subj below opener between closer later
      exact ⟨rfl, rfl⟩
  turns := strikethrough_takesTurns P self contains
  edits := by
    rintro _ ⟨⟩ options subj below opener between closer later
    exact ⟨_, _, _, rfl⟩
  produces := by
    rintro _ ⟨⟩ options subj inside subj' node found
    unfold Strikethrough.matchInline at found
    split at found
    next => cases found
    next tilde =>
      have bounds := tildes_bounds inside (by simpa using tilde)
      generalize inlineParserScanDelimiters subj.input subj.pos 100 (chr '~') = run at bounds found
      obtain ⟨delims, leftFlanking, rightFlanking⟩ := run
      have text : ∀ d : Delimiter, d.delimChar = chr '~' → d.length = delims →
          ∀ n : Node, n.type = .text → n.children = [] → n.literal = List.replicate delims (chr '~') →
          DelimiterText d n := by
        intro d char length n type leaf literal
        refine ⟨type, leaf, ?_, ?_, fun _ => ?_, fun quote => ?_⟩
        · rw [literal, ne_eq, List.replicate_eq_nil_iff]
          exact bounds.1.ne'
        · rw [literal, List.length_replicate, length]
        · rw [literal, List.length_replicate, char]
        · rw [char] at quote
          cases quote
      dsimp only at found
      split at found
      next =>
        obtain ⟨rfl, same⟩ := Prod.mk.inj found
        obtain rfl := Option.some.inj same
        refine ⟨.of_leaf (makes_alloc subj rfl), rfl, rfl, rfl,
          .inr ⟨_, rfl, rfl, rfl, text _ ?_ ?_ _ rfl rfl rfl⟩⟩
        · simpa using tilde
        · exact List.length_replicate
      next =>
        obtain ⟨rfl, same⟩ := Prod.mk.inj found
        obtain rfl := Option.some.inj same
        exact ⟨.of_leaf (makes_alloc subj rfl), rfl, rfl, rfl, .inl rfl⟩

/-! ### Paragraphs and headings -/

/-- A parser with no extension, or with that for strikethrough alone. -/
def CoreOrStrikethrough (P : Config) : Prop :=
  P.syntaxExtensions = [] ∨ P = withStrikethrough P.tables P.options

theorem CoreOrStrikethrough.sound {P : Config} (core : CoreOrStrikethrough P) :
    ∀ e ∈ P.syntaxExtensions, e.Sound P := by
  intro e member
  rcases core with none | same
  · rw [none] at member
    cases member
  · rw [same] at member
    obtain rfl := List.mem_singleton.mp member
    exact strikethrough_sound P 0 strikethroughContains

/-- The characters at which the text of such a parser stops. -/
def inlineChars (P : Config) : CharTables := manageExtensionsSpecialCharacters P true defaultCharTables

theorem CoreOrStrikethrough.notNul {P : Config} (core : CoreOrStrikethrough P) :
    (inlineChars P).backslashIspunct.getD ispunct 0 = false := by
  rcases core with none | same
  · have noChars : P.extensionChars = [] := by
      simp [Config.extensionChars, Config.inlineSyntaxExtensions, none]
    unfold inlineChars manageExtensionsSpecialCharacters
    rw [noChars]
    rfl
  · rw [same]
    rfl

/-- A paragraph or a heading takes all inlines. -/
theorem accepts_block {P : Config} {parent : NodeData}
    (block : parent.type = .paragraph ∨ parent.type = .heading) (plain : P.extensionOf parent = none)
    (t : NodeType) (isInline : t.isInline = true) : P.nodeCanContainType parent t = true := by
  unfold Config.nodeCanContainType
  rw [if_neg (by rintro rfl; cases isInline), plain]
  exact Layout.containsInline (.inr (.inr (.inr block))) t isInline

theorem nul_not_mem_chunkRtrim {s : Bytes} (nulFree : 0 ∉ s) : 0 ∉ chunkRtrim s :=
  fun member => nulFree ((List.rdropWhile_prefix isspace s).subset member)

/-- `cmark_parse_inlines` on any content: each call of `parse_inline` passes some of it, the loop ends
at its end, and each call of `process_emphasis` ends and clears its part of the stack. -/
theorem parseInlines_consumes (tables : Tables) (options : Options) (refmap : Map Reference)
    (nextId : NodeId) (parent : NodeData) (block : parent.type = .paragraph ∨ parent.type = .heading)
    (nulFree : 0 ∉ parent.content) :
    let P := Config.mk tables options []
    let start := inlineSubject P parent [] refmap nextId
    (∀ subj, Reaches P defaultCharTables start subj → subj.pos < subj.input.length →
      ∃ subj', parseInline P defaultCharTables subj = some subj' ∧ subj'.input = subj.input ∧
        subj.pos < subj'.pos ∧ subj'.pos ≤ subj'.input.length) ∧
    (parseInlinesLoop P defaultCharTables start.input.length start).pos = start.input.length ∧
    ∀ call bottom, EmphasisCall P defaultCharTables start call bottom →
      (emphasisLoop P OpenersBottom.get bottom (emphasisFuel (emphasisStart call bottom))
        (emphasisStart call bottom) (.initial bottom)).1.after = [] ∧
      ∀ d ∈ (processEmphasis P call bottom).delims, d.position < bottom := by
  intro P start
  have plain : P.extensionOf parent = none := extensionOf_core rfl parent
  have nulFree' : 0 ∉ start.input := by
    show 0 ∉ if P.options.has optPreserveWhitespace then parent.content else chunkRtrim parent.content
    split
    next => exact nulFree
    next => exact nul_not_mem_chunkRtrim nulFree
  have layout : ∃ marks, Layout P start marks :=
    ⟨[], Layout.start _ refmap nextId (accepts_block block plain)⟩
  have within : start.pos ≤ start.input.length := Nat.zero_le _
  have none : ∀ {p : Extension → Prop}, ∀ e ∈ P.syntaxExtensions, p e := fun e member => by cases member
  refine ⟨fun subj reached inside => ?_, ?_, fun call bottom made => ?_⟩
  · obtain ⟨same, _⟩ := reached.within none rfl nulFree' within
    obtain ⟨subj', parsed, advances⟩ := @advances_parseInline _ defaultCharTables _ none inside rfl
      (same ▸ nulFree')
    exact ⟨subj', parsed, advances.input, advances.beyond,
      advances.within.trans_eq (congrArg _ advances.input.symm)⟩
  · exact pos_parseInlinesLoop none rfl nulFree' within (Nat.le_add_left _ _)
  · exact made.ends none rfl layout

/-- The content `[*a*](b)` of a paragraph. -/
theorem parseInlines_consumes_link :
    let P := Config.mk asciiTables optSmart []
    let start := inlineSubject P { type := .paragraph, content := lit "[*a*](b)" } [] .new 0
    (parseInlinesLoop P defaultCharTables 8 start).pos = 8 :=
  (parseInlines_consumes asciiTables optSmart .new 0 { type := .paragraph, content := lit "[*a*](b)" }
    (.inl rfl) (by decide)).2.1

/-! ### The stacks of a run -/

/-- Between the calls of `parse_inline` the delimiters and brackets have their text nodes among the
children of the block, in order. While `process_emphasis` runs, the text nodes of the delimiters it
works on are siblings in the zone of the call, behind those of all marks under them, and nothing but
these runs changes. -/
theorem parseInlines_stacks (P : Config) (core : CoreOrStrikethrough P) (refmap : Map Reference)
    (nextId : NodeId) (parent : NodeData) (block : parent.type = .paragraph ∨ parent.type = .heading)
    (plain : parent.extension = none) :
    let start := inlineSubject P parent [] refmap nextId
    (∀ subj, Reaches P (inlineChars P) start subj → ∃ marks, Layout P subj marks) ∧
    ∀ call bottom, EmphasisCall P (inlineChars P) start call bottom →
      ∃ z marks top f, call.delims = top ++ (marks.filterMap Mark.delimiter?).reverse ∧
        (bottom ≠ 0 → call.brackets.tail.map (fun b => (b.position, b.inlText)) =
          (marks.filterMap Mark.bracket?).reverse) ∧
        ∀ turns, ∃ upper f',
          CallLayout P z marks bottom (emphasisLoop P OpenersBottom.get bottom turns
            (emphasisStart call bottom) (.initial bottom)).1 upper f' ∧
          Relation.ReflTransGen (EmphasisChange (top.map Delimiter.inlText)) f f' ∧
          otherTextList (top.map Delimiter.inlText) f' =
            otherTextList (top.map Delimiter.inlText) f := by
  intro start
  have isPlain : P.extensionOf parent = none := by rw [Config.extensionOf, plain, Option.bind_none]
  have layout : ∃ marks, Layout P start marks :=
    ⟨[], Layout.start _ refmap nextId (accepts_block block isPlain)⟩
  exact ⟨fun subj reached => reached.laidOut core.sound core.notNul layout,
    fun call bottom made => made.keeps core.sound core.notNul layout⟩

/-- The content `*a *b*` of a paragraph, before the last call of `process_emphasis` and at every turn of its
loop. -/
theorem parseInlines_stacks_emph :
    let P := Config.mk asciiTables 0 []
    let start := inlineSubject P { type := .paragraph, content := lit "*a *b*" } [] .new 0
    let call := parseInlinesLoop P (inlineChars P) start.input.length start
    (∃ marks, Layout P call marks) ∧ ∃ z marks top f, call.delims = top ++ (marks.filterMap Mark.delimiter?).reverse ∧
      ∀ turns, ∃ upper f',
        CallLayout P z marks 0 (emphasisLoop P OpenersBottom.get 0 turns (emphasisStart call 0) (.initial 0)).1 upper f' ∧
        Relation.ReflTransGen (EmphasisChange (top.map Delimiter.inlText)) f f' ∧
        otherTextList (top.map Delimiter.inlText) f' = otherTextList (top.map Delimiter.inlText) f := by
  intro P start call
  have both := parseInlines_stacks P (.inl rfl) .new 0 { type := .paragraph, content := lit "*a *b*" } (.inl rfl) rfl
  obtain ⟨z, marks, top, f, split, _, turns⟩ := both.2 call 0 .last
  exact ⟨both.1 call (reaches_parseInlinesLoop _ .start), z, marks, top, f, split, turns⟩

/-- Is the second node a later sibling of the first? -/
def isLaterSibling (root : NodeData) (f : Forest) (i j : NodeId) : Bool :=
  (familyOf? i root f).any fun family => (siblingsAfter i family.2).any fun n => n.id == j

/-- In `*a [b* c*` the last call of `process_emphasis` moves the text node of the bracket into the
emphasis while the last delimiter is still on the stack. -/
theorem bracket_below_emphasis :
    let P := Config.mk asciiTables 0 []
    let start := inlineSubject P { type := .paragraph, content := lit "*a [b* c*" } [] .new 0
    let call := parseInlinesLoop P (inlineChars P) start.input.length start
    let e := (emphasisLoop P OpenersBottom.get 0 2 (emphasisStart call 0) (.initial 0)).1
    EmphasisCall P (inlineChars P) start call 0 ∧
      ∃ b ∈ e.subj.brackets, ∃ d ∈ e.before ++ e.after, b.position < d.position ∧
        isLaterSibling e.subj.parent e.subj.children b.inlText d.inlText = false :=
  ⟨.last, by decide +kernel⟩

end CmarkGfm
