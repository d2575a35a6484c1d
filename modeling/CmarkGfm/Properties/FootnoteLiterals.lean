import CmarkGfm.Properties.BracketSteps

/-!
# The text of a footnote reference

`handle_close_bracket` cuts the literal of a footnote reference out of the content, from the caret on
and as long as the columns of the two brackets are apart. Where the caret is the byte behind the
bracket and no line was started since, the literal is the text between the brackets, whatever nodes
the parser made of it on the way.
-/

namespace CmarkGfm

/-! ### The nodes behind an open bracket -/

/-- The text node of an open bracket is that of the byte in front of its position, and the next node is
that of the byte at its position. -/
structure Behind (subj : Subject) (b : Bracket) : Prop where
  opens : 0 < b.position ∧ byteAt subj.input (b.position - 1) = chr '['
  image : b.type = .image → byteAt subj.input b.position ≠ chr '^'
  text : b.type = .link → ∀ n ∈ (siblingsFrom b.inlText subj.children).head?, n.literal = lit "["
  last : siblingsAfter b.inlText subj.children = [] → subj.pos = b.position
  caret : byteAt subj.input b.position = chr '^' → byteAt subj.input (b.position + 1) ≠ chr '[' →
    ∀ m ∈ (siblingsAfter b.inlText subj.children).head?, m.type = .text → m.data.chunkPos = some b.position

namespace Behind

variable {subj subj' : Subject} {b b' : Bracket}

/-- The children from behind the bracket on are replaced by one. -/
theorem extend (behind : Behind subj b) {l r : Forest} {m : Node} (children : subj.children = l ++ r)
    (member : b.inlText ∈ l.map Node.id) (children' : subj'.children = l ++ [m]) (input : subj'.input = subj.input)
    (same : b.type = b'.type ∧ b.position = b'.position ∧ b.inlText = b'.inlText)
    (first : siblingsAfter b.inlText l = [] → byteAt subj.input b.position = chr '^' →
      byteAt subj.input (b.position + 1) ≠ chr '[' → m.type = .text → m.data.chunkPos = some b.position) :
    Behind subj' b' := by
  obtain ⟨type, position, inlText⟩ := same
  obtain ⟨opener, rest, split⟩ := List.exists_cons_of_ne_nil (siblingsFrom_ne_nil member)
  have after : siblingsAfter b.inlText l = rest := by rw [siblingsAfter, split, List.tail_cons]
  rw [after] at first
  have last := behind.last
  have text := behind.text
  have caret := behind.caret
  rw [children, siblingsAfter_append member, after] at last caret
  rw [children, siblingsFrom_append_of_mem member, split] at text
  refine ⟨?_, ?_, fun isLink n head => ?_, fun none => ?_, fun isCaret other n head isText => ?_⟩
  · rw [input, ← position]
    exact behind.opens
  · rw [input, ← position, ← type]
    exact behind.image
  · rw [← inlText, children', siblingsFrom_append_of_mem member, split] at head
    exact text (type.trans isLink) n head
  · rw [← inlText, children', siblingsAfter_append member] at none
    exact absurd none (List.append_ne_nil_of_right_ne_nil _ (List.cons_ne_nil m []))
  · rw [← inlText, children', siblingsAfter_append member, after] at head
    rw [input, ← position] at isCaret other
    rw [← position]
    cases rest with
    | nil =>
      obtain rfl : m = n := Option.some.inj head
      exact first rfl isCaret other isText
    | cons m rest => exact caret isCaret other n head isText

end Behind

/-- Text begins at the current position of the content. -/
theorem chunkPos_makeText (P : Config) (chars : CharTables) (subj : Subject) :
    (makeText P chars subj).2.data.chunkPos = some subj.pos := by
  unfold makeText
  extract_lets startpos endpos
  split <;> rfl

section

variable {P : Config} {subj : Subject} {marks : List Mark} (core : P.syntaxExtensions = []) {chars : CharTables}

/-- A caret alone is text. -/
theorem dispatchInline_caret (here : subj.peekChar = chr '^') (alone : subj.peekCharN 1 ≠ chr '[') :
    dispatchInline P chars subj subj.peekChar = (subj, none) := by
  have plain : (chr '^' == 13 || chr '^' == 10) = false := by decide
  have other : (isEmphasisChar (chr '^') || isQuote (chr '^')) = false := by decide
  rw [here, dispatchInline]
  have single : (subj.peekCharN 1 == chr '[') = false := beq_eq_false_iff_ne.mpr alone
  simp only [plain, other, single]
  rfl

variable (layout : Layout P subj marks) (inside : subj.pos < subj.input.length)
  (notNul : chars.backslashIspunct.getD ispunct 0 = false)

include core layout inside notNul

/-- A step of the parser keeps the nodes behind the open brackets. -/
theorem behind_parseInline (behind : ∀ b ∈ subj.brackets, Behind subj b) {subj' : Subject}
    (parsed : parseInline P chars subj = some subj') : ∀ b ∈ subj'.brackets, Behind subj' b := by
  have input := (Advances.of_parseInline core inside notNul parsed).input
  by_cases caret : subj.peekChar = chr '^' ∧ subj.peekCharN 1 ≠ chr '['
  · -- the text that begins with the caret
    obtain ⟨something, _⟩ | ⟨_, rfl⟩ := parseInline_core core inside notNul parsed
    · exact absurd (dispatchInline_caret caret.1 caret.2) something
    · have same := sameStacks_makeText subj P chars
      intro b member
      have old : b ∈ subj.brackets := same.brackets ▸ member
      refine (behind b old).extend (List.append_nil _).symm (layout.mem_children old)
        (congrArg (· ++ [_]) same.children) input ⟨rfl, rfl, rfl⟩ fun none _ _ _ => ?_
      rw [← (behind b old).last none]
      exact chunkPos_makeText P chars subj
  · -- no caret stands alone at the position of a bracket that is the last child
    have first : ∀ b ∈ subj.brackets, siblingsAfter b.inlText subj.children = [] →
        byteAt subj.input b.position = chr '^' → byteAt subj.input (b.position + 1) ≠ chr '[' → False := by
      intro b member none isCaret other
      rw [← (behind b member).last none] at isCaret other
      exact caret ⟨isCaret, other⟩
    cases inlineStep_parseInline core layout inside notNul parsed with
    | @node r makes children brackets flag autolink =>
      intro b member
      have old : b ∈ subj.brackets := brackets.subset member
      exact (behind b old).extend (List.append_nil _).symm (layout.mem_children old)
        (congrArg (· ++ [r.2]) children) input ⟨rfl, rfl, rfl⟩ fun none isCaret other _ =>
          absurd other fun other => first b old none isCaret other
    | @push type s opens =>
      intro b member
      obtain ⟨inlText, position, kind⟩ | ⟨b', old, same⟩ := mem_openBracket member
      · have new : subj.nextId ∉ subj.children.map Node.id := fun inside =>
          Nat.lt_irrefl _ (layout.fresh _ ((ids_sublist_addresses _).subset inside))
        have here : siblingsFrom b.inlText (subj.children ++ [(openBracket subj type s).2]) =
            [(openBracket subj type s).2] := by
          rw [inlText]
          exact siblingsFrom_split rfl new
        refine ⟨?_, fun isImage => ?_, fun isLink n head => ?_, fun _ => position.symm, fun _ _ n head => ?_⟩
        · rw [position]
          cases opens with
          | link opener => exact ⟨Nat.succ_pos _, opener⟩
          | image _ next => exact ⟨Nat.succ_pos _, next⟩
          | «attribute» _ next => exact ⟨Nat.succ_pos _, next⟩
        · rw [position]
          cases opens with
          | link => cases kind.symm.trans isImage
          | image _ _ other => exact other
          | «attribute» => cases kind.symm.trans isImage
        · rw [show ((openBracket subj type s).1.appendChild (openBracket subj type s).2).children =
            subj.children ++ [(openBracket subj type s).2] from rfl, here] at head
          obtain rfl : (openBracket subj type s).2 = n := Option.some.inj head
          cases opens with
          | link => rfl
          | image => cases kind.symm.trans isLink
          | «attribute» => cases kind.symm.trans isLink
        · rw [show ((openBracket subj type s).1.appendChild (openBracket subj type s).2).children =
            subj.children ++ [(openBracket subj type s).2] from rfl, siblingsAfter, here] at head
          cases head
      · exact (behind b' old).extend (List.append_nil _).symm (layout.mem_children old) rfl input same
          fun none isCaret other _ => absurd other fun other => first b' old none isCaret other
    | @close _ opener l r n d c isBracket closes reference =>
      intro b member
      rw [closes.brackets] at member
      have old := List.mem_of_mem_tail member
      refine (behind b old).extend closes.before (closes.below b member) closes.after input ⟨rfl, rfl, rfl⟩
        fun _ _ _ isText => ?_
      rcases closes.kind with ⟨type, _⟩ | ⟨type | type | type, _⟩
      all_goals cases type.symm.trans isText

end

/-! ### The literal -/

theorem chunkDup_cons {input : Bytes} {i n : Nat} {c : UInt8} (here : byteAt input i = c) (notNul : c ≠ 0) :
    chunkDup input i (n + 1) = c :: chunkDup input (i + 1) n := by
  have inside := lt_length_of_byteAt_eq here notNul
  rw [byteAt_eq_getElem inside] at here
  rw [chunkDup, List.drop_eq_getElem_cons inside, List.take_succ_cons, here]
  rfl

theorem chunkDup_concat {input : Bytes} {i n : Nat} {c : UInt8} (last : byteAt input (i + n) = c) (notNul : c ≠ 0) :
    chunkDup input i (n + 1) = chunkDup input i n ++ [c] := by
  have inside := lt_length_of_byteAt_eq last notNul
  rw [byteAt_eq_getElem inside] at last
  have bound : n < (input.drop i).length := by
    rw [List.length_drop]
    omega
  rw [chunkDup, List.take_succ_eq_append_getElem bound, List.getElem_drop, last]
  rfl

/-- The content from a bracket and a caret to the closing bracket. -/
theorem chunkDup_between {input : Bytes} {position pos : Nat}
    (opens : 0 < position ∧ byteAt input (position - 1) = chr '[') (caret : byteAt input position = chr '^')
    (closes : byteAt input pos = chr ']') (within : position + 1 ≤ pos) :
    chunkDup input (position - 1) (pos + 2 - position) =
      lit "[^" ++ chunkDup input (position + 1) (pos - (position + 1)) ++ lit "]" := by
  have three : pos + 2 - position = pos - (position + 1) + 1 + 1 + 1 := by omega
  have first : position - 1 + 1 = position := Nat.sub_add_cancel opens.1
  have last : byteAt input (position + 1 + (pos - (position + 1))) = chr ']' := by
    rw [Nat.add_sub_cancel' within]
    exact closes
  rw [three, chunkDup_cons opens.2 (by decide), first, chunkDup_cons caret (by decide),
    chunkDup_concat last (by decide)]
  rfl

/-- A footnote reference that a step makes has the text between the brackets for its literal, and takes
the place of the opening bracket and of all nodes behind it. -/
def KeepsReference (P : Config) (chars : CharTables) (subj : Subject) : Prop :=
  ∀ subj', parseInline P chars subj = some subj' →
    ∀ m ∈ subj'.children, subj.nextId ≤ m.id → m.type = .footnoteReference →
      ∃ opener ∈ subj.brackets.head?, ∃ text l n r, m.data.as = .literal text ∧
        chunkDup subj.input (opener.position - 1) (subj.pos + 2 - opener.position) = lit "[^" ++ text ++ lit "]" ∧
        subj.children = l ++ n :: r ∧ n.id = opener.inlText ∧ n.literal = lit "[" ∧
        subj'.children = l ++ [m] ∧ subj'.pos = subj.pos + 1

/-- The byte behind the last open bracket is a caret that opens no bracket, and the columns are still
those of the line of the bracket. -/
def CaretInLine (subj : Subject) : Prop :=
  ∀ opener ∈ subj.brackets.head?,
    byteAt subj.input opener.position = chr '^' ∧ byteAt subj.input (opener.position + 1) ≠ chr '[' ∧
      (dataOf opener.inlText subj.children).startColumn = opener.position + subj.columnOffset + subj.blockOffset

section

variable {P : Config} {subj : Subject} {marks : List Mark} (layout : Layout P subj marks)

include layout

/-- The text node behind the opener is the next sibling. -/
theorem footnoteText_sibling {opener : Bracket} (top : opener ∈ subj.brackets.head?) {next : Node}
    (found : footnoteText P subj opener = some next) :
    next ∈ (siblingsAfter opener.inlText subj.children).head? ∧ next.type = .text := by
  have member := layout.mem_children (List.mem_of_mem_head? top)
  have family : familyOf? opener.inlText subj.parent subj.children = some (subj.parent, subj.children) := by
    rw [familyOf?, if_pos (hasSibling_iff.mpr member)]
  unfold footnoteText at found
  rw [family, Option.map_some] at found
  split at found
  next =>
    split at found
    next first rest after =>
      split at found
      next isText =>
        obtain rfl := Option.some.inj found
        rw [Option.some.inj after]
        simp only [Bool.and_eq_true, decide_eq_true_eq] at isText
        exact ⟨rfl, isText.1.1⟩
      next => cases found
    next => cases found
  next => cases found

/-- No child is as new as the next one. -/
theorem Layout.not_new {m : Node} (member : m ∈ subj.children) : ¬ subj.nextId ≤ m.id := fun new =>
  Nat.lt_irrefl _ ((layout.fresh _ ((ids_sublist_addresses _).subset (List.mem_map_of_mem member))).trans_le new)

variable (core : P.syntaxExtensions = []) {chars : CharTables} (inside : subj.pos < subj.input.length)
  (notNul : chars.backslashIspunct.getD ispunct 0 = false)

include core inside notNul

theorem keepsReference_of_caretInLine (behind : ∀ b ∈ subj.brackets, Behind subj b) (inLine : CaretInLine subj) :
    KeepsReference P chars subj := by
  intro subj' parsed m member new isReference
  cases inlineStep_parseInline core layout inside notNul parsed with
  | @node r makes children brackets flag autolink =>
    -- outside of brackets no references are made
    rcases List.mem_append.mp member with old | here
    · exact absurd new (layout.not_new (children ▸ old))
    · obtain rfl := List.mem_singleton.mp here
      have plain := makes.plain
      obtain ⟨after, i, d, cs⟩ := r
      have isPlain : d.type.isPlainInline = true := plain.1
      rw [show d.type = .footnoteReference from isReference] at isPlain
      cases isPlain
  | @push type s opens =>
    rcases List.mem_append.mp member with old | here
    · exact absurd new (layout.not_new old)
    · obtain rfl := List.mem_singleton.mp here
      cases isReference
  | @close _ opener l r n d c isBracket closes reference =>
    have top := closes.top
    have opened := behind opener (List.mem_of_mem_head? top)
    obtain ⟨isCaret, alone, column⟩ := inLine opener top
    rw [closes.after] at member
    have here : m = .mk subj.nextId d c := by
      rcases List.mem_append.mp member with old | here
      · refine absurd new (layout.not_new ?_)
        rw [closes.before]
        exact List.mem_append_left _ old
      · exact List.mem_singleton.mp here
    subst here
    have type : d.type = .footnoteReference := isReference
    have pos := reference type
    obtain ⟨kind, next, found, literal⟩ := closes.reference type
    obtain ⟨head, isText⟩ := footnoteText_sibling layout top found
    have slice := opened.caret isCaret alone next head isText
    -- the position is behind the caret, since a caret is no closing bracket
    have within : opener.position + 1 ≤ subj.pos := by
      obtain ⟨before, after, rfl, _⟩ := layout.exists_opener top
      have reached := layout.within (.bracket opener.position opener.inlText) (by simp)
      refine Nat.lt_of_le_of_ne reached fun same => ?_
      have both : byteAt subj.input opener.position = chr ']' := by
        rw [show opener.position = subj.pos from same]
        exact isBracket
      rw [isCaret] at both
      cases both
    have length : ((subj'.pos : Int) + subj.columnOffset + subj.blockOffset -
        (dataOf opener.inlText subj.children).startColumn - 2).toNat = subj.pos - (opener.position + 1) := by
      rw [column, pos]
      omega
    have isLink : opener.type = .link := by
      cases opens : opener.type with
      | link => rfl
      | image => exact absurd isCaret (opened.image opens)
      | «attribute» => exact absurd opens kind
    refine ⟨opener, top, chunkDup subj.input (opener.position + 1) (subj.pos - (opener.position + 1)), l, n, r, ?_, ?_,
      closes.before, closes.opens, ?_, ?_, pos⟩
    · have text : textFrom subj next = subj.input.drop opener.position := by
        rw [textFrom, slice]
      -- the closing bracket stands in the content, and nothing behind the content is read
      rw [length, footnoteLiteral_of_le, text, chunkDup, List.drop_drop] at literal
      · exact literal
      · rw [text, List.length_drop]
        omega
    · exact chunkDup_between opened.opens isCaret isBracket within
    · refine opened.text isLink n ?_
      rw [← closes.opens, (layout.siblings_child closes.before).1]
      rfl
    · exact closes.after

end

/-! ### All runs -/

section

variable {P : Config} (core : P.syntaxExtensions = []) {chars : CharTables}
  (notNul : chars.backslashIspunct.getD ispunct 0 = false)

include core notNul

theorem Reaches.behind {start : Subject} (layout : ∃ marks, Layout P start marks) (bare : start.brackets = [])
    {subj : Subject} (reached : Reaches P chars start subj) : ∀ b ∈ subj.brackets, Behind subj b := by
  induction reached with
  | start =>
    rw [bare]
    exact List.forall_mem_nil _
  | @step subj subj' reached inside parsed ih =>
    obtain ⟨marks, layout⟩ := reached.laidOut (sound_of_core core) notNul layout
    exact behind_parseInline core layout inside notNul ih parsed

end

instance : DecidablePred CaretInLine := fun subj => by
  unfold CaretInLine
  infer_instance

/-- In every run a footnote reference whose caret and columns are those of the opening bracket has the
text of the content between the brackets, whatever nodes were made of it. -/
theorem keepsReference_parseInlines (P : Config) (core : P.syntaxExtensions = []) (refmap : Map Reference)
    (nextId : NodeId) (parent : NodeData) (block : parent.type = .paragraph ∨ parent.type = .heading) :
    let start := inlineSubject P parent [] refmap nextId
    ∀ subj, Reaches P defaultCharTables start subj → CaretInLine subj → KeepsReference P defaultCharTables subj := by
  intro start subj reached inLine
  have started : ∃ marks, Layout P start marks :=
    ⟨[], Layout.start _ refmap nextId (accepts_block block (extensionOf_core core parent))⟩
  obtain ⟨marks, layout⟩ := reached.laidOut (sound_of_core core) rfl started
  by_cases inside : subj.pos < subj.input.length
  · exact keepsReference_of_caretInLine layout core inside rfl (reached.behind core rfl started rfl) inLine
  · -- at the end of the content nothing is parsed
    intro subj' parsed
    have nul : subj.peekChar = 0 := by
      by_contra notNul
      exact inside (lt_length_of_byteAt notNul)
    rw [parseInline, nul] at parsed
    cases parsed

/-- In `[^a *b*]` the text is that of four nodes. -/
theorem keepsReference_parseInlines_emph :
    let P := Config.mk asciiTables optFootnotes []
    let start := inlineSubject P { type := .paragraph, content := lit "[^a *b*]" } [] .new 0
    KeepsReference P defaultCharTables (parseInlinesLoop P defaultCharTables 5 start) :=
  keepsReference_parseInlines (Config.mk asciiTables optFootnotes []) rfl .new 0
    { type := .paragraph, content := lit "[^a *b*]" } (.inl rfl) _ (reaches_parseInlinesLoop 5 .start) (by decide +kernel)

end CmarkGfm
