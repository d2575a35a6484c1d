import CmarkGfm.Properties.InlineRuns

/-!
# One step of the inline parser

Without extensions a call of `parse_inline` makes a node that becomes the last child, pushes a
bracket with its text, or closes the last bracket. What is true between the calls follows from these
three cases.
-/

namespace CmarkGfm

theorem siblingsFrom_append_of_mem {i : NodeId} {f g : Forest} (member : i ∈ f.map Node.id) :
    siblingsFrom i (f ++ g) = siblingsFrom i f ++ g := by
  induction f with
  | nil => cases member
  | cons n f ih =>
    unfold siblingsFrom at ih ⊢
    rw [List.cons_append]
    by_cases here : n.id = i
    · simp [here]
    · have later : i ∈ f.map Node.id := (List.mem_cons.mp member).resolve_left (Ne.symm here)
      have passes : (n.id != i) = true := bne_iff_ne.mpr here
      simp only [List.dropWhile_cons, passes, if_true]
      exact ih later

theorem siblingsFrom_ne_nil {i : NodeId} {f : Forest} (member : i ∈ f.map Node.id) : siblingsFrom i f ≠ [] := by
  obtain ⟨n, inside, here⟩ := List.mem_map.mp member
  intro none
  have passed := List.dropWhile_eq_nil_iff.mp none n inside
  exact (bne_iff_ne.mp passed) here

theorem siblingsAfter_append {i : NodeId} {f g : Forest} (member : i ∈ f.map Node.id) :
    siblingsAfter i (f ++ g) = siblingsAfter i f ++ g := by
  rw [siblingsAfter, siblingsFrom_append_of_mem member, siblingsAfter,
    List.tail_append_of_ne_nil (siblingsFrom_ne_nil member)]

/-! ### The cases -/

/-- The last bracket is closed: a node takes the place of its text and of what is behind it. -/
structure ClosesBracket (P : Config) (subj subj' : Subject) (opener : Bracket) (l r : Forest) (n : Node)
    (d : NodeData) (c : Forest) : Prop where
  top : opener ∈ subj.brackets.head?
  before : subj.children = l ++ n :: r
  opens : n.id = opener.inlText
  after : subj'.children = l ++ [.mk subj.nextId d c]
  brackets : subj'.brackets = subj.brackets.tail
  below : ∀ b ∈ subj.brackets.tail, b.inlText ∈ l.map Node.id
  content : c = [] ∨ ∃ runs, Relation.ReflTransGen (EmphasisChange runs) r c
  kind : d.type = .link ∧ opener.type = .link ∧ subj.noLinkOpeners = false ∧ subj'.noLinkOpeners = true ∨
    (d.type = .image ∨ d.type = .attribute ∨ d.type = .footnoteReference) ∧
      subj'.noLinkOpeners = subj.noLinkOpeners
  data : d.type = .footnoteReference ∨ (∃ url title, d.as = .link url title) ∨ ∃ attributes, d.as = .attribute attributes
  reference : d.type = .footnoteReference → opener.type ≠ .attribute ∧ ∃ next,
    footnoteText P subj opener = some next ∧ d.as = .literal (footnoteLiteral P subj next ((subj'.pos : Int) + subj.columnOffset + subj.blockOffset -
      (dataOf opener.inlText subj.children).startColumn - 2).toNat)

/-- What `parse_inline` does to the children of the block and to the brackets. -/
inductive InlineStep (P : Config) (subj : Subject) : Subject → Prop where
  | node {r : Subject × Node} (makes : MakesPlain subj r) (children : r.1.children = subj.children)
      (brackets : r.1.brackets <:+ subj.brackets) (flag : r.1.noLinkOpeners = subj.noLinkOpeners)
      (autolink : r.2.type = .link → subj.peekChar = chr '<') : InlineStep P subj (r.1.appendChild r.2)
  | push {type : BracketType} {s : Bytes} (opens : OpensBracket subj subj.peekChar type s) :
      InlineStep P subj ((openBracket subj type s).1.appendChild (openBracket subj type s).2)
  | close {subj' : Subject} {opener : Bracket} {l r : Forest} {n : Node} {d : NodeData} {c : Forest}
      (here : subj.peekChar = chr ']') (closes : ClosesBracket P subj subj' opener l r n d c)
      (reference : d.type = .footnoteReference → subj'.pos = subj.pos + 1) : InlineStep P subj subj'

theorem brackets_openBracket (subj : Subject) (type : BracketType) (s : Bytes) :
    ∃ b : Bracket, b.inlText = subj.nextId ∧ b.position = subj.pos + s.length ∧ b.type = type ∧
      (openBracket subj type s).1.brackets =
        b :: subj.brackets.modifyHead fun last => { last with bracketAfter := true } := by
  unfold openBracket pushBracket
  refine ⟨⟨subj.nextId, subj.pos + s.length, type, false,
    fun t => t == type || subj.brackets.head?.elim false fun b => b.inBracket t⟩, rfl, rfl, rfl, ?_⟩
  dsimp only [Subject.advance, Subject.makeStr, Subject.makeLiteral, Subject.alloc]
  cases subj.brackets <;> rfl

/-- After a push a bracket is the new one or was on the stack before. -/
theorem mem_openBracket {subj : Subject} {type : BracketType} {s : Bytes} {b : Bracket}
    (member : b ∈ (openBracket subj type s).1.brackets) :
    b.inlText = subj.nextId ∧ b.position = subj.pos + s.length ∧ b.type = type ∨
      ∃ b' ∈ subj.brackets, b'.type = b.type ∧ b'.position = b.position ∧ b'.inlText = b.inlText := by
  obtain ⟨new, text, position, kind, stack⟩ := brackets_openBracket subj type s
  rw [stack] at member
  rcases List.mem_cons.mp member with rfl | below
  · exact .inl ⟨text, position, kind⟩
  · cases stack : subj.brackets with
    | nil => simp [stack] at below
    | cons last rest =>
      rw [stack, List.modifyHead_cons] at below
      rcases List.mem_cons.mp below with rfl | member
      · exact .inr ⟨last, List.mem_cons_self, rfl, rfl, rfl⟩
      · exact .inr ⟨b, List.mem_cons_of_mem _ member, rfl, rfl, rfl⟩

/-- Brackets that the marks stand for have the text nodes of the marks. -/
theorem inlText_mem_of_marks {marks : List Mark} {brackets : List Bracket}
    (same : brackets.map (fun b => (b.position, b.inlText)) = (marks.filterMap Mark.bracket?).reverse) {b : Bracket}
    (member : b ∈ brackets) : b.inlText ∈ marks.map Mark.inlText := by
  have pair : (b.position, b.inlText) ∈ (marks.filterMap Mark.bracket?).reverse := same ▸ List.mem_map_of_mem member
  obtain ⟨m, among, isBracket⟩ := List.mem_filterMap.mp (List.mem_reverse.mp pair)
  cases m with
  | delimiter d => cases isBracket
  | bracket p i =>
    obtain ⟨rfl, rfl⟩ := Prod.mk.inj (Option.some.inj isBracket)
    exact List.mem_map_of_mem among

namespace Layout

variable {P : Config} {subj : Subject} {marks : List Mark} (layout : Layout P subj marks)

include layout

theorem mem_children {b : Bracket} (member : b ∈ subj.brackets) : b.inlText ∈ subj.children.map Node.id :=
  layout.order.subset (inlText_mem_of_marks layout.brackets member)

/-- The siblings behind a child. -/
theorem siblings_child {l r : Forest} {n : Node} (children : subj.children = l ++ n :: r) :
    siblingsFrom n.id subj.children = n :: r ∧ siblingsAfter n.id subj.children = r := by
  have ids := (ids_sublist_addresses _).nodup layout.distinct
  rw [children] at ids ⊢
  have first : n.id ∉ l.map Node.id := fun inside => by
    rw [List.map_append, List.map_cons, List.nodup_append] at ids
    exact ids.2.2 _ inside n.id List.mem_cons_self rfl
  exact ⟨siblingsFrom_split rfl first, siblingsAfter_split rfl first⟩

end Layout

/-! ### Closing a bracket -/

/-- A footnote reference that ends before the text to which its caret points does is cut out of that text. -/
theorem footnoteLiteral_of_le {P : Config} {subj : Subject} {next : Node} {len : Nat}
    (within : len + 1 ≤ (textFrom subj next).length) :
    footnoteLiteral P subj next len = chunkDup (textFrom subj next) 1 len := by
  have rest : len ≤ ((textFrom subj next).drop 1).length := by
    rw [List.length_drop]
    omega
  rw [footnoteLiteral, chunkDup, chunkDup, List.drop_append_of_le_length (by omega),
    List.take_append_of_le_length rest]

section

variable {P : Config} {subj : Subject} {marks : List Mark} (layout : Layout P subj marks)

/-- A closing bracket as text, after some brackets were given up. -/
theorem inlineStep_literalCloseBracket {subj' : Subject} (nextId : subj'.nextId = subj.nextId)
    (children : subj'.children = subj.children) (brackets : subj'.brackets <:+ subj.brackets)
    (flag : subj'.noLinkOpeners = subj.noLinkOpeners) :
    InlineStep P subj (appended (literalCloseBracket subj')) :=
  .node (r := subj'.makeChar (chr ']')) (MakesLeaf.of_nextId nextId (makes_alloc subj' rfl)).plain children brackets flag
    nofun

variable (sound : ∀ e ∈ P.syntaxExtensions, e.Sound P) {opener : Bracket} (top : opener ∈ subj.brackets.head?)

include layout sound top

theorem closes_matchLink (active : opener.Active subj) (url title : Bytes) :
    ∃ l r n d c, d.type ≠ .footnoteReference ∧
      ClosesBracket P subj (matchLink P subj opener url title) opener l r n d c := by
  obtain ⟨before, after, rfl, _, below⟩ := layout.exists_opener top
  obtain ⟨l, r, n, d, children, here, left, type, target, zone⟩ := layout.zone_link url title
  obtain ⟨i, f', emphasized, changes, _⟩ := Layout.processEmphasis_zone sound layout zone rfl
  have other : d.type ≠ .footnoteReference := by
    rw [type]
    split <;> simp
  rw [matchLink_eq, emphasized]
  refine ⟨l, r, n, d, f', other, top, children, here, rfl, rfl,
    fun b member => left.subset (inlText_mem_of_marks below member), .inr changes, ?_, .inr (.inl ⟨url, title, target⟩),
    fun is => absurd is other⟩
  by_cases image : opener.type = .image
  · rw [if_pos image] at type
    exact .inr ⟨.inl type, if_pos image⟩
  · have link : opener.type = .link := by
      cases isKind : opener.type with
      | link => rfl
      | image => exact absurd isKind image
      | «attribute» => exact absurd isKind active.kind
    rw [if_neg image] at type
    exact .inl ⟨type, link, active.unguarded link, if_neg image⟩

theorem closes_matchAttribute (attributes : Bytes) :
    ∃ l r n d c, d.type ≠ .footnoteReference ∧
      ClosesBracket P subj (matchAttribute P subj opener attributes) opener l r n d c := by
  obtain ⟨before, after, rfl, _, below⟩ := layout.exists_opener top
  obtain ⟨l, r, n, d, children, here, left, type, found, zone⟩ := layout.zone_attribute attributes
  obtain ⟨i, f', emphasized, changes, _⟩ := Layout.processEmphasis_zone sound layout zone rfl
  have other : d.type ≠ .footnoteReference := by simp [type]
  rw [matchAttribute_eq, emphasized]
  exact ⟨l, r, n, d, f', other, top, children, here, rfl, rfl,
    fun b member => left.subset (inlText_mem_of_marks below member), .inr changes, .inr ⟨.inr (.inl type), rfl⟩,
    .inr (.inr ⟨attributes, found⟩), fun is => absurd is other⟩

theorem closes_makeFootnoteReference (kind : opener.type ≠ .attribute) {next : Node}
    (found : footnoteText P subj opener = some next) :
    ∃ l r n d, ClosesBracket P subj (makeFootnoteReference P subj opener next) opener l r n d [] := by
  obtain ⟨before, after, rfl, _, below⟩ := layout.exists_opener top
  obtain ⟨l, r, n, d, i, children, here, left, type, literal, made, _⟩ :=
    Layout.makeFootnoteReference_children sound layout next
  rw [made]
  exact ⟨l, r, n, d, top, children, here, rfl, rfl, fun b member => left.subset (inlText_mem_of_marks below member),
    .inl rfl, .inr ⟨.inr (.inr type), rfl⟩, .inl type, fun _ => ⟨kind, next, found, literal⟩⟩

end

section

variable {P : Config} {subj : Subject} {marks : List Mark} (layout : Layout P subj marks)
  (sound : ∀ e ∈ P.syntaxExtensions, e.Sound P) (inside : subj.pos < subj.input.length)

/-- Reading ahead changes neither the children nor the brackets. -/
theorem ClosesBracket.of_lookAhead {pos : Nat} {refmap : Map Reference} {clones : List Clone} {subj' : Subject}
    {opener : Bracket} {l r : Forest} {n : Node} {d : NodeData} {c : Forest}
    (closes : ClosesBracket P (subj.lookAhead pos refmap clones) subj' opener l r n d c) :
    ClosesBracket P subj subj' opener l r n d c :=
  ⟨closes.top, closes.before, closes.opens, closes.after, closes.brackets, closes.below, closes.content, closes.kind,
    closes.data, closes.reference⟩

include layout sound inside

theorem inlineStep_handleCloseBracket (isBracket : subj.peekChar = chr ']') :
    InlineStep P subj (appended (handleCloseBracket P subj)) := by
  have ahead : ∀ pos refmap clones, subj.Ahead pos → Layout P (subj.lookAhead pos refmap clones) marks :=
    fun _ _ _ ahead => layout.lookAhead ahead.1.le
  have here : subj.Ahead (subj.pos + 1) := ⟨Nat.lt_succ_self _, inside⟩
  refine handleCloseBracket_cases P (motive := fun r => InlineStep P subj (appended r)) ?literal ?popped ?link ?footnote
    ?«attribute» inside
  case literal => exact fun _ => inlineStep_literalCloseBracket rfl rfl List.suffix_rfl rfl
  case popped => exact fun _ _ _ _ => inlineStep_literalCloseBracket rfl rfl (List.tail_suffix _) rfl
  case link =>
    intro pos refmap clones opener url title after top active
    obtain ⟨l, r, n, d, c, other, closes⟩ :=
      closes_matchLink (ahead pos refmap clones after) sound top ⟨active.kind, active.unguarded⟩ url title
    exact .close isBracket closes.of_lookAhead fun is => absurd is other
  case footnote =>
    intro refmap clones opener next top active found
    obtain ⟨l, r, n, d, closes⟩ :=
      closes_makeFootnoteReference (ahead _ refmap clones here) sound top active.kind found
    have stays := (@reads_makeFootnoteReference P (subj.lookAhead (subj.pos + 1) refmap clones)
      (fun e member => (sound e member).reads) opener next).2
    exact .close isBracket closes.of_lookAhead fun _ => stays
  case «attribute» =>
    intro pos refmap clones opener attributes after top _
    obtain ⟨l, r, n, d, c, other, closes⟩ :=
      closes_matchAttribute (ahead pos refmap clones after) sound top attributes
    exact .close isBracket closes.of_lookAhead fun is => absurd is other

end

/-! ### One inline -/

section

variable {P : Config} {subj : Subject} {marks : List Mark} (core : P.syntaxExtensions = []) {chars : CharTables}

include core

theorem sound_of_core : ∀ e ∈ P.syntaxExtensions, e.Sound P := by
  rw [core]
  exact fun _ member => absurd member List.not_mem_nil

variable (layout : Layout P subj marks) (inside : subj.pos < subj.input.length)
  (notNul : chars.backslashIspunct.getD ispunct 0 = false)

include inside notNul

/-- `parse_inline` without extensions: what the `switch` does, or else text. -/
theorem parseInline_core {subj' : Subject} (parsed : parseInline P chars subj = some subj') :
    dispatchInline P chars subj subj.peekChar ≠ (subj, none) ∧
        subj' = appended (dispatchInline P chars subj subj.peekChar) ∨
      dispatchInline P chars subj subj.peekChar = (subj, none) ∧ subj' = appended (made (makeText P chars subj)) := by
  have passes : Proceeds subj (dispatchInline P chars subj subj.peekChar) :=
    proceeds_dispatchInline (fun e member => (sound_of_core core e member).reads) inside notNul
  unfold parseInline nextInline Config.inlineSyntaxExtensions at parsed
  rw [core] at parsed
  dsimp only at parsed
  generalize dispatchInline P chars subj subj.peekChar = r at passes parsed ⊢
  obtain ⟨after, found⟩ := r
  split at parsed
  next => cases parsed
  next =>
    cases found with
    | some node =>
      cases parsed
      exact .inl ⟨fun nothing => Option.some_ne_none node (Prod.mk.inj nothing).2, rfl⟩
    | none =>
      dsimp only at parsed
      split at parsed
      next stays =>
        cases parsed
        obtain nothing | advances := passes
        · obtain rfl : after = subj := (Prod.mk.inj nothing).1
          exact .inr ⟨rfl, rfl⟩
        · exact absurd stays advances.beyond.ne'
      next moved =>
        cases parsed
        refine .inl ⟨fun nothing => moved ?_, rfl⟩
        rw [(Prod.mk.inj nothing).1]

theorem Advances.of_parseInline {subj' : Subject} (parsed : parseInline P chars subj = some subj') :
    Advances subj subj' := by
  have passes : Advances subj (nextInline P chars subj subj.peekChar).1 :=
    advances_nextInline (fun e member => (sound_of_core core e member).reads) inside notNul
  unfold parseInline at parsed
  dsimp only at parsed
  split at parsed
  next => cases parsed
  next =>
    generalize nextInline P chars subj subj.peekChar = r at passes parsed
    obtain ⟨after, found⟩ := r
    cases parsed
    cases found with
    | none => exact passes
    | some node => exact passes.same rfl rfl

include layout

omit notNul in
theorem inlineStep_dispatchInline :
    InlineStep P subj (appended (dispatchInline P chars subj subj.peekChar)) ∨
      dispatchInline P chars subj subj.peekChar = (subj, none) := by
  by_cases closes : subj.peekChar = chr ']'
  · rw [closes]
    exact .inl (inlineStep_handleCloseBracket layout (sound_of_core core) inside closes)
  · have plain : ∀ n, (dispatchInline P chars subj subj.peekChar).2 = some n →
        MakesPlain subj ((dispatchInline P chars subj subj.peekChar).1, n) ∧
          (n.type = .link → subj.peekChar = chr '<') := by
      refine dispatchInline_leaf (motive := fun r => ∀ n, r.2 = some n →
        MakesPlain subj (r.1, n) ∧ (n.type = .link → subj.peekChar = chr '<')) P chars subj.peekChar
        (fun isClose => absurd isClose closes) nofun ?_ ?_
      · rintro r leaf _ n ⟨⟩
        exact ⟨leaf.plain, fun isLink => absurd isLink leaf.type_ne⟩
      · rintro opens n ⟨⟩
        exact ⟨makes_handlePointyBrace subj P, fun _ => opens⟩
    refine dispatchInline_cases (motive := fun r => (∀ n, r.2 = some n →
        MakesPlain subj (r.1, n) ∧ (n.type = .link → subj.peekChar = chr '<')) →
      InlineStep P subj (appended r) ∨ r = (subj, none)) subj P chars subj.peekChar ?simple ?delim ?openBracket
      ?closeBracket ?nothing plain
    case simple =>
      intro r same makes
      exact .inl (.node (makes r.2 rfl).1 same.children (same.brackets ▸ List.suffix_rfl) same.noLinkOpeners
        (makes r.2 rfl).2)
    case delim =>
      intro _ makes
      obtain ⟨children, brackets, flag⟩ : let after := (handleDelim chars (P.options.has optSmart) subj subj.peekChar).1
          after.children = subj.children ∧ after.brackets = subj.brackets ∧
            after.noLinkOpeners = subj.noLinkOpeners := by
        obtain ⟨after, same, eq | ⟨canOpen, canClose, eq⟩⟩ :=
          handleDelim_cases subj chars (P.options.has optSmart) subj.peekChar
        · rw [eq]
          exact ⟨same.children, same.brackets, same.noLinkOpeners⟩
        · rw [eq]
          exact ⟨same.children, same.brackets, same.noLinkOpeners⟩
      exact .inl (.node (makes _ rfl).1 children (brackets ▸ List.suffix_rfl) flag (makes _ rfl).2)
    case openBracket => exact fun type s opens _ => .inl (.push opens)
    case closeBracket => exact fun isClose => absurd isClose closes
    case nothing => exact fun _ => .inr rfl

/-- Every call of `parse_inline` is such a step. -/
theorem inlineStep_parseInline {subj' : Subject} (parsed : parseInline P chars subj = some subj') :
    InlineStep P subj subj' := by
  obtain ⟨something, rfl⟩ | ⟨_, rfl⟩ := parseInline_core core inside notNul parsed
  · exact (inlineStep_dispatchInline core layout inside).resolve_right something
  · have leaf := makes_makeText subj P chars
    have same := sameStacks_makeText subj P chars
    exact .node leaf.plain same.children (same.brackets ▸ List.suffix_rfl) same.noLinkOpeners
      fun isLink => absurd isLink leaf.type_ne

end

end CmarkGfm
