import CmarkGfm.Inlines.Parse

/-!
# What making an inline node leaves alone

The handlers that make one node for the next characters touch neither the stacks nor the
reference map nor the nodes made before.
-/

namespace CmarkGfm

/-- The states differ in the position, the fields kept with it and the next address only. -/
structure SameStacks (subj subj' : Subject) : Prop where
  input : subj'.input = subj.input
  parent : subj'.parent = subj.parent
  refmap : subj'.refmap = subj.refmap
  delims : subj'.delims = subj.delims
  brackets : subj'.brackets = subj.brackets
  noLinkOpeners : subj'.noLinkOpeners = subj.noLinkOpeners
  children : subj'.children = subj.children
  clones : subj'.clones = subj.clones

namespace SameStacks

theorem refl (subj : Subject) : SameStacks subj subj := ⟨rfl, rfl, rfl, rfl, rfl, rfl, rfl, rfl⟩

theorem trans {subj subj' subj'' : Subject} (first : SameStacks subj subj')
    (second : SameStacks subj' subj'') : SameStacks subj subj'' where
  input := second.input.trans first.input
  parent := second.parent.trans first.parent
  refmap := second.refmap.trans first.refmap
  delims := second.delims.trans first.delims
  brackets := second.brackets.trans first.brackets
  noLinkOpeners := second.noLinkOpeners.trans first.noLinkOpeners
  children := second.children.trans first.children
  clones := second.clones.trans first.clones

end SameStacks

section

variable (subj : Subject)

theorem sameStacks_makeStr (a b : Int) (s : Bytes) : SameStacks subj (subj.makeStr a b s).1 :=
  ⟨rfl, rfl, rfl, rfl, rfl, rfl, rfl, rfl⟩

theorem sameStacks_makeStrAt (a b : Int) (pos : Nat) (s : Bytes) :
    SameStacks subj (subj.makeStrAt a b pos s).1 := ⟨rfl, rfl, rfl, rfl, rfl, rfl, rfl, rfl⟩

theorem sameStacks_adjustNodeNewlines (options : Options) (node : Node) (matchlen extra : Nat) :
    SameStacks subj (subj.adjustNodeNewlines options node matchlen extra).1 := by
  unfold Subject.adjustNodeNewlines
  simp only
  split
  next => exact .refl subj
  next =>
    split
    next => exact .refl subj
    next => exact ⟨rfl, rfl, rfl, rfl, rfl, rfl, rfl, rfl⟩

theorem sameStacks_handleHyphen (smart : Bool) : SameStacks subj (handleHyphen smart subj).1 := by
  unfold handleHyphen
  simp only
  split <;> exact ⟨rfl, rfl, rfl, rfl, rfl, rfl, rfl, rfl⟩

theorem sameStacks_handlePeriod (smart : Bool) : SameStacks subj (handlePeriod smart subj).1 := by
  unfold handlePeriod
  simp only
  split
  next => split <;> exact ⟨rfl, rfl, rfl, rfl, rfl, rfl, rfl, rfl⟩
  next => exact ⟨rfl, rfl, rfl, rfl, rfl, rfl, rfl, rfl⟩

theorem sameStacks_handleBackslash (chars : CharTables) :
    SameStacks subj (handleBackslash chars subj).1 := by
  unfold handleBackslash
  simp only
  split
  next => exact ⟨rfl, rfl, rfl, rfl, rfl, rfl, rfl, rfl⟩
  next => split <;> exact ⟨rfl, rfl, rfl, rfl, rfl, rfl, rfl, rfl⟩

theorem sameStacks_handleEntity (T : Tables) : SameStacks subj (handleEntity T subj).1 := by
  unfold handleEntity
  simp only
  split <;> exact ⟨rfl, rfl, rfl, rfl, rfl, rfl, rfl, rfl⟩

theorem sameStacks_handleNewline : SameStacks subj (handleNewline subj).1 := by
  unfold handleNewline
  extract_lets nlpos afterCr afterLf subj'
  split <;> exact ⟨rfl, rfl, rfl, rfl, rfl, rfl, rfl, rfl⟩

theorem sameStacks_scanHtml : SameStacks subj (scanHtml subj).1 := by
  unfold scanHtml
  simp only
  repeat' split
  all_goals exact ⟨rfl, rfl, rfl, rfl, rfl, rfl, rfl, rfl⟩

theorem sameStacks_makeRawHtml (options : Options) (matchlen : Nat) :
    SameStacks subj (makeRawHtml options subj matchlen).1 := by
  unfold makeRawHtml
  extract_lets contents subj'
  have literal : SameStacks subj
      (subj'.makeLiteral .htmlInline ((subj'.pos : Int) - matchlen - 1) ((subj'.pos : Int) - 1)
        contents).1 := ⟨rfl, rfl, rfl, rfl, rfl, rfl, rfl, rfl⟩
  generalize subj'.makeLiteral .htmlInline ((subj'.pos : Int) - matchlen - 1)
    ((subj'.pos : Int) - 1) contents = r at literal ⊢
  exact literal.trans (sameStacks_adjustNodeNewlines r.1 options r.2 matchlen 1)

theorem sameStacks_handlePointyBrace (P : Config) :
    SameStacks subj (handlePointyBrace P subj).1 := by
  unfold handlePointyBrace
  extract_lets subj' autolink uri email
  have advanced : SameStacks subj subj' := ⟨rfl, rfl, rfl, rfl, rfl, rfl, rfl, rfl⟩
  split
  next => exact ⟨rfl, rfl, rfl, rfl, rfl, rfl, rfl, rfl⟩
  next =>
    split
    next => exact ⟨rfl, rfl, rfl, rfl, rfl, rfl, rfl, rfl⟩
    next =>
      have scanned := advanced.trans (sameStacks_scanHtml subj')
      generalize scanHtml subj' = r at scanned ⊢
      obtain ⟨subj'', matchlen⟩ := r
      simp only at scanned ⊢
      split
      next => exact scanned.trans (sameStacks_makeRawHtml subj'' P.options matchlen)
      next =>
        generalize (if P.options.has optLiberalHtmlTag then
          Scanners.scanAt Scanners.liberalHtmlTag subj''.input subj''.pos else 0) = liberal
        split
        next => exact scanned.trans (sameStacks_makeRawHtml subj'' P.options liberal)
        next => exact scanned.trans ⟨rfl, rfl, rfl, rfl, rfl, rfl, rfl, rfl⟩

theorem sameStacks_scanToClosingBackticks (openticklength : Nat) :
    SameStacks subj (scanToClosingBackticks subj openticklength).1 := by
  unfold scanToClosingBackticks
  split
  next => exact .refl subj
  next =>
    split
    next => exact .refl subj
    next => split <;> exact ⟨rfl, rfl, rfl, rfl, rfl, rfl, rfl, rfl⟩

theorem sameStacks_handleBackticks (options : Options) :
    SameStacks subj (handleBackticks options subj).1 := by
  unfold handleBackticks
  extract_lets initpos startpos openticks
  have advanced : SameStacks subj { subj with pos := startpos } :=
    ⟨rfl, rfl, rfl, rfl, rfl, rfl, rfl, rfl⟩
  have scanned := advanced.trans (sameStacks_scanToClosingBackticks _ openticks)
  generalize scanToClosingBackticks { subj with pos := startpos } openticks = r at scanned ⊢
  obtain ⟨subj', endpos⟩ := r
  cases endpos with
  | none => exact scanned.trans (sameStacks_makeStrAt subj' _ _ _ _)
  | some endpos =>
    refine scanned.trans (.trans ?_ (sameStacks_adjustNodeNewlines _ options _ _ _))
    exact ⟨rfl, rfl, rfl, rfl, rfl, rfl, rfl, rfl⟩

theorem sameStacks_makeText (P : Config) (chars : CharTables) :
    SameStacks subj (makeText P chars subj).1 := by
  unfold makeText
  simp only
  split <;> exact ⟨rfl, rfl, rfl, rfl, rfl, rfl, rfl, rfl⟩

/-- A run of delimiters may put one delimiter on the stack. -/
theorem handleDelim_cases (chars : CharTables) (smart : Bool) (c : UInt8) :
    ∃ subj', SameStacks subj subj' ∧
      ((handleDelim chars smart subj c).1 = subj' ∨ ∃ canOpen canClose,
        (handleDelim chars smart subj c).1 =
          pushDelimiter subj' c canOpen canClose (handleDelim chars smart subj c).2) := by
  unfold handleDelim
  generalize scanDelims chars subj.input subj.pos c = run
  obtain ⟨numdelims, canOpen, canClose⟩ := run
  dsimp -zeta only
  extract_lets start subj' stop
  have advanced : SameStacks subj subj' := ⟨rfl, rfl, rfl, rfl, rfl, rfl, rfl, rfl⟩
  have text : SameStacks subj
      (if c == chr '\'' && smart then subj'.makeStr start stop rightSingleQuote
        else if c == chr '"' && smart then
          subj'.makeStr start stop (if canClose then rightDoubleQuote else leftDoubleQuote)
        else subj'.makeStrAt start stop start (chunkDup subj'.input start numdelims)).1 := by
    split
    next => exact advanced.trans (sameStacks_makeStr subj' _ _ _)
    next =>
      split
      next => exact advanced.trans (sameStacks_makeStr subj' _ _ _)
      next => exact advanced.trans (sameStacks_makeStrAt subj' _ _ _ _)
  generalize (if c == chr '\'' && smart then subj'.makeStr start stop rightSingleQuote
    else if c == chr '"' && smart then
      subj'.makeStr start stop (if canClose then rightDoubleQuote else leftDoubleQuote)
    else subj'.makeStrAt start stop start (chunkDup subj'.input start numdelims)) = r at text ⊢
  refine ⟨r.1, text, ?_⟩
  split
  next => exact .inr ⟨canOpen, canClose, rfl⟩
  next => exact .inl rfl

/-- At the byte `c` an opening bracket begins. -/
inductive OpensBracket (subj : Subject) (c : UInt8) : BracketType → Bytes → Prop where
  | link (here : c = chr '[') : OpensBracket subj c .link (lit "[")
  | image (here : c = chr '!') (next : subj.peekCharN 1 = chr '[') (other : subj.peekCharN 2 ≠ chr '^') :
      OpensBracket subj c .image (lit "![")
  | «attribute» (here : c = chr '^') (next : subj.peekCharN 1 = chr '[') : OpensBracket subj c .attribute (lit "^[")

/-- What the `switch` of `parse_inline` can do: make a node and leave the stacks alone, push a
delimiter, open or close a bracket, or nothing. -/
theorem dispatchInline_cases (P : Config) (chars : CharTables) (c : UInt8)
    {motive : Subject × Option Node → Prop}
    (simple : ∀ r : Subject × Node, SameStacks subj r.1 → motive (made r))
    (delim : isEmphasisChar c || isQuote c →
      motive (made (handleDelim chars (P.options.has optSmart) subj c)))
    (openBracket : ∀ type s, OpensBracket subj c type s → motive (made (openBracket subj type s)))
    (closeBracket : c = chr ']' → motive (handleCloseBracket P subj))
    (nothing : motive (subj, none)) : motive (dispatchInline P chars subj c) := by
  unfold dispatchInline
  extract_lets smart advanced
  refine iteInduction (fun _ => iteInduction (fun _ => ?_) fun _ => ?_) fun _ => ?_
  · exact simple _ ⟨rfl, rfl, rfl, rfl, rfl, rfl, rfl, rfl⟩
  · exact simple _ (sameStacks_handleNewline subj)
  refine iteInduction (fun _ => simple _ (sameStacks_handleBackticks subj P.options)) fun _ => ?_
  refine iteInduction (fun _ => simple _ (sameStacks_handleBackslash subj chars)) fun _ => ?_
  refine iteInduction (fun _ => simple _ (sameStacks_handleEntity subj P.tables)) fun _ => ?_
  refine iteInduction (fun _ => simple _ (sameStacks_handlePointyBrace subj P)) fun _ => ?_
  refine iteInduction delim fun _ => ?_
  refine iteInduction (fun _ => simple _ (sameStacks_handleHyphen subj smart)) fun _ => ?_
  refine iteInduction (fun _ => simple _ (sameStacks_handlePeriod subj smart)) fun _ => ?_
  refine iteInduction (fun opens => openBracket .link (lit "[") (.link (beq_iff_eq.mp opens))) fun _ => ?_
  refine iteInduction (fun closes => closeBracket (beq_iff_eq.mp closes)) fun _ => ?_
  refine iteInduction (fun opens => ?_) fun _ => iteInduction (fun opens => ?_) fun _ => nothing
  · simp only [Bool.and_eq_true, beq_iff_eq, bne_iff_ne] at opens
    exact openBracket .image (lit "![") (.image opens.1.1 opens.1.2 opens.2)
  · simp only [Bool.and_eq_true, beq_iff_eq] at opens
    exact openBracket .attribute (lit "^[") (.attribute opens.1 opens.2)

end

/-! ### What matching emphasis leaves alone -/

/-- A relation of the states before and after matching emphasis: it allows for changes of the
nodes and of the delimiter stack, and the extensions keep it. -/
structure EmphasisFrame (P : Config) (R : Subject → Subject → Prop) : Prop where
  trans : ∀ {subj subj' subj''}, R subj subj' → R subj' subj'' → R subj subj''
  nodes : ∀ subj children nextId delims,
    R subj { subj with children := children, nextId := nextId, delims := delims }
  insert : ∀ e ∈ P.syntaxExtensions, ∀ f, e.insertInlineFromDelim = some f →
    ∀ options subj below opener between closer later,
      R subj (f options subj below opener between closer later).subj

theorem mem_syntaxExtensions {P : Config} {e : Extension}
    (member : e ∈ P.inlineSyntaxExtensions) : e ∈ P.syntaxExtensions :=
  List.mem_of_mem_filter member

namespace EmphasisFrame

variable {P : Config} {R : Subject → Subject → Prop} (frame : EmphasisFrame P R)

include frame

theorem matchedCloser (e : Emphasis) (between : List Delimiter) (opener : Delimiter)
    (below : List Delimiter) (closer : Delimiter) (later : List Delimiter) :
    R e.subj (matchedCloser P e between opener below closer later).subj := by
  unfold CmarkGfm.matchedCloser
  split
  next ext found =>
    have member := mem_syntaxExtensions (List.mem_of_find?_eq_some found)
    split
    next insert callback => exact frame.insert ext member insert callback ..
    next => exact frame.nodes e.subj e.subj.children e.subj.nextId e.subj.delims
  next =>
    split
    next => exact frame.nodes e.subj _ _ _
    next => split <;> exact frame.nodes e.subj _ _ _

theorem unmatchedCloser (e : Emphasis) (closer : Delimiter) (later : List Delimiter) :
    R e.subj (unmatchedCloser P e closer later).subj := by
  unfold CmarkGfm.unmatchedCloser
  simp only
  split <;> exact frame.nodes e.subj _ _ _

theorem emphasisStep (limit : OpenersBottom → Delimiter → Nat) (stackBottom : Nat)
    (e : Emphasis) (bottom : OpenersBottom) :
    R e.subj (emphasisStep P limit stackBottom e bottom).1.subj := by
  have same := frame.nodes e.subj e.subj.children e.subj.nextId e.subj.delims
  unfold CmarkGfm.emphasisStep
  split
  next => exact same
  next closer later _ =>
    split
    next =>
      split
      next between opener below _ => exact frame.matchedCloser e between opener below closer later
      next => exact frame.unmatchedCloser e closer later
    next => exact same

theorem emphasisLoop (limit : OpenersBottom → Delimiter → Nat) (stackBottom : Nat)
    (fuel : Nat) (e : Emphasis) (bottom : OpenersBottom) :
    R e.subj (emphasisLoop P limit stackBottom fuel e bottom).1.subj := by
  induction fuel generalizing e bottom with
  | zero => exact frame.nodes e.subj e.subj.children e.subj.nextId e.subj.delims
  | succ fuel ih => exact frame.trans (frame.emphasisStep limit stackBottom e bottom) (ih _ _)

theorem processEmphasis (subj : Subject) (stackBottom : Nat) :
    R subj (processEmphasis P subj stackBottom) :=
  frame.trans (frame.emphasisLoop OpenersBottom.get stackBottom _ (emphasisStart subj stackBottom) _)
    (frame.nodes _ _ _ _)

end EmphasisFrame

/-! ### Attributes -/

/-- The position after the attributes in parentheses, if there are any. -/
def attributesEnd (subj : Subject) : Nat :=
  match scanInlineAttributes subj.input subj.pos with
  | some (pos, _) => pos
  | none => subj.pos

/-- The end of `handle_close_bracket_attribute`, from the attributes that were found. -/
def closeAttribute (P : Config) (opener : Bracket) (r : Subject × Option Bytes) :
    Subject × Option Node :=
  match r.2 with
  | none => literalCloseBracket (popBracket r.1)
  | some attributes => (matchAttribute P r.1 opener attributes, none)

theorem handleCloseBracketAttribute_eq (P : Config) (subj : Subject) (opener : Bracket) :
    handleCloseBracketAttribute P subj opener =
      closeAttribute P opener (referenceAttributes P.tables
        { subj with pos := attributesEnd subj }
        ((scanInlineAttributes subj.input subj.pos).map (·.2))) := by
  unfold handleCloseBracketAttribute attributesEnd closeAttribute
  cases scanInlineAttributes subj.input subj.pos <;> rfl

end CmarkGfm
