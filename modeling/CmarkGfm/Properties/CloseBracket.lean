import CmarkGfm.Properties.InlineFrames
import CmarkGfm.Properties.Reuse

/-!
# Where a closing bracket leaves the subject

`handle_close_bracket` reads ahead for a destination or a label. It either makes a node, and then
stands after what belongs to it, or it stands after the bracket and has made a `]` of it. The
attribute variant does not go back when a label it passed leads to no attributes.
-/

namespace CmarkGfm

/-- The callback of an extension for delimiters leaves the position alone. -/
def Extension.KeepsPosition (e : Extension) : Prop :=
  ∀ f, e.insertInlineFromDelim = some f → ∀ options subj below opener between closer later,
    (f options subj below opener between closer later).subj.pos = subj.pos

/-! ### The syntax after a closing bracket -/

/-- A label refers to a link definition. -/
def RefersToLink (T : Tables) (subj : Subject) (label : Bytes) : Prop :=
  ∃ ref, (lookupReference T subj label).2 = some ref ∧ ref.isAttributesReference = false

/-- A label refers to an attributes definition. -/
def RefersToAttributes (T : Tables) (subj : Subject) (label : Bytes) : Prop :=
  ∃ ref, (lookupReference T subj label).2 = some ref ∧ ref.isAttributesReference = true

instance (T : Tables) (subj : Subject) (label : Bytes) :
    Decidable (RefersToAttributes T subj label) :=
  match found : (lookupReference T subj label).2 with
  | none => isFalse fun ⟨_, ref, _⟩ => by simp [found] at ref
  | some ref =>
    if isAttributes : ref.isAttributesReference = true then isTrue ⟨ref, found, isAttributes⟩
    else isFalse fun ⟨ref', found', isAttributes'⟩ => by
      rw [found] at found'
      cases found'
      exact isAttributes isAttributes'

/-- The text between the brackets. -/
def bracketText (subj : Subject) (opener : Bracket) : Bytes :=
  chunkDup subj.input opener.position (subj.pos - opener.position - 1)

/-- The end of a link or an image whose closing bracket is before the current position. -/
inductive LinkSyntax (T : Tables) (subj : Subject) (opener : Bracket) : Nat → Prop where
  | inline {stop : Nat} {url title : Bytes}
      (scanned : scanInlineLink T subj.input subj.pos = some (stop, url, title)) :
      LinkSyntax T subj opener stop
  | full {stop : Nat} {label : Bytes}
      (scanned : linkLabel subj.input subj.pos false = some (stop, label))
      (refers : RefersToLink T subj label) : LinkSyntax T subj opener stop
  | collapsed {stop : Nat} (scanned : linkLabel subj.input subj.pos false = some (stop, []))
      (refers : RefersToLink T subj (bracketText subj opener)) : LinkSyntax T subj opener stop
  | shortcut (scanned : linkLabel subj.input subj.pos false = none)
      (refers : RefersToLink T subj (bracketText subj opener)) : LinkSyntax T subj opener subj.pos

/-- The end of an attribute node whose closing bracket is before the current position. -/
inductive AttributeSyntax (T : Tables) (subj : Subject) : Nat → Prop where
  | inline {stop : Nat} {attributes : Bytes}
      (scanned : scanInlineAttributes subj.input subj.pos = some (stop, attributes))
      (unlabelled : linkLabel subj.input stop false = none) : AttributeSyntax T subj stop
  | reference {stop : Nat} {label : Bytes}
      (scanned : linkLabel subj.input (attributesEnd subj) false = some (stop, label))
      (refers : RefersToAttributes T subj label) : AttributeSyntax T subj stop

/-- A result of `handle_close_bracket` that keeps the source: the bracket is made text and the
subject goes on after it, or a node is made and the subject goes on after its syntax. -/
def ClosesWith (P : Config) (subj : Subject) (r : Subject × Option Node) : Prop :=
  let after := subj.advance 1
  match r.2 with
  | some node => node.type = .text ∧ node.literal = lit "]" ∧ r.1.pos = subj.pos + 1
  | none => ∃ opener ∈ subj.brackets.head?, ∃ s, s.children = subj.children ∧
      if opener.type = .attribute then
        ∃ attributes, r.1 = matchAttribute P s opener attributes ∧
          AttributeSyntax P.tables after r.1.pos
      else
        (∃ url title, r.1 = matchLink P s opener url title ∧
          LinkSyntax P.tables after opener r.1.pos) ∨
        ∃ next, r.1 = makeFootnoteReference P s opener next ∧ r.1.pos = subj.pos + 1

/-- A call of `handle_close_bracket` keeps the source. -/
def ClosesExactly (P : Config) (subj : Subject) : Prop :=
  ClosesWith P subj (handleCloseBracket P subj)

/-- The bracket closes an attribute bracket, and after it and the attributes in parentheses
stands a label that refers to no attributes definition. -/
def PassesLabel (T : Tables) (subj : Subject) : Prop :=
  let after := subj.advance 1
  (∃ opener ∈ subj.brackets.head?, opener.type = .attribute) ∧
    ∃ r ∈ linkLabel subj.input (attributesEnd after) false, ¬ RefersToAttributes T after r.2

instance (T : Tables) (subj : Subject) : Decidable (PassesLabel T subj) :=
  inferInstanceAs (Decidable (_ ∧ _))

/-! ### Positions -/

theorem lt_linkLabel {input : Bytes} {start stop : Nat} {label : Bytes}
    (scanned : linkLabel input start false = some (stop, label)) : start < stop := by
  unfold linkLabel at scanned
  simp only [Bool.false_and, Bool.false_eq_true, if_false, Option.ite_none_left_eq_some] at scanned
  obtain ⟨length, _, same⟩ := Option.map_eq_some_iff.mp scanned.2
  have stop_eq := (Prod.mk.inj same).1
  omega

theorem le_attributesEnd (subj : Subject) : subj.pos ≤ attributesEnd subj := by
  unfold attributesEnd
  split
  next pos attributes scanned =>
    unfold scanInlineAttributes at scanned
    split at scanned
    next =>
      split at scanned
      next n _ =>
        obtain ⟨_, same⟩ := Option.ite_none_right_eq_some.mp scanned
        have pos_eq := (Prod.mk.inj (Option.some.inj same)).1
        omega
      next => cases scanned
    next => cases scanned
  next => exact Nat.le_refl _

section

variable (P : Config)

theorem emphasisFrame_pos (keeps : ∀ e ∈ P.syntaxExtensions, e.KeepsPosition) :
    EmphasisFrame P fun subj subj' => subj'.pos = subj.pos where
  trans first second := second.trans first
  nodes _ _ _ _ := rfl
  insert ext member := keeps ext member

variable (keeps : ∀ e ∈ P.syntaxExtensions, e.KeepsPosition)

include keeps

theorem pos_matchLink (subj : Subject) (opener : Bracket) (url title : Bytes) :
    (matchLink P subj opener url title).pos = subj.pos :=
  (emphasisFrame_pos P keeps).processEmphasis _ _

theorem pos_matchAttribute (subj : Subject) (opener : Bracket) (attributes : Bytes) :
    (matchAttribute P subj opener attributes).pos = subj.pos :=
  (emphasisFrame_pos P keeps).processEmphasis _ _

theorem pos_makeFootnoteReference (subj : Subject) (opener : Bracket) (next : Node) :
    (makeFootnoteReference P subj opener next).pos = subj.pos :=
  (emphasisFrame_pos P keeps).processEmphasis _ _

/-! ### Links and images -/

/-- A bracket that closes no link goes on after the bracket. -/
theorem closesWith_noMatch {subj subj' : Subject} {opener : Bracket}
    (top : opener ∈ subj.brackets.head?) (link : opener.type ≠ .attribute)
    (same : subj'.children = subj.children) :
    ClosesWith P subj (noMatch P subj' opener (subj.pos + 1)) := by
  unfold noMatch
  simp only
  cases footnoteText P { subj' with pos := subj.pos + 1 } opener with
  | none => exact ⟨rfl, rfl, rfl⟩
  | some next =>
    refine ⟨opener, top, { subj' with pos := subj.pos + 1 }, same, ?_⟩
    rw [if_neg link]
    exact .inr ⟨next, rfl, pos_makeFootnoteReference P keeps _ opener next⟩

theorem closesWith_matchLink {subj subj' : Subject} {opener : Bracket} {url title : Bytes}
    (top : opener ∈ subj.brackets.head?) (link : opener.type ≠ .attribute)
    (same : subj'.children = subj.children)
    (stops : LinkSyntax P.tables (subj.advance 1) opener subj'.pos) :
    ClosesWith P subj (matchLink P subj' opener url title, none) := by
  refine ⟨opener, top, subj', same, ?_⟩
  rw [if_neg link]
  refine .inl ⟨url, title, rfl, ?_⟩
  rwa [pos_matchLink P keeps]

omit keeps in
/-- The label that is looked up leads to a link only with the syntax of one. -/
theorem linkSyntax_referenceLabel (T : Tables) (subj : Subject) (opener : Bracket) {label : Bytes}
    (labelled : (referenceLabel subj opener subj.pos).2 = some label)
    (refers : RefersToLink T subj label) :
    LinkSyntax T subj opener (referenceLabel subj opener subj.pos).1 := by
  unfold referenceLabel at labelled ⊢
  cases scanned : linkLabel subj.input subj.pos false with
  | none =>
    simp only [scanned] at labelled ⊢
    split at labelled
    next condition =>
      cases labelled
      rw [if_pos condition]
      exact .shortcut scanned refers
    next => cases labelled
  | some r =>
    obtain ⟨stop, rawLabel⟩ := r
    simp only [scanned] at labelled ⊢
    split at labelled
    next condition =>
      cases labelled
      rw [if_pos condition]
      have empty : rawLabel = [] := by
        simp only [Option.getD_some, Bool.and_eq_true, decide_eq_true_eq] at condition
        exact List.length_eq_zero_iff.mp condition.1
      exact .collapsed (empty ▸ scanned) refers
    next condition =>
      cases labelled
      rw [if_neg condition]
      exact .full scanned refers

theorem closesWith_closeReference {subj : Subject} {opener : Bracket}
    (top : opener ∈ subj.brackets.head?) (link : opener.type ≠ .attribute) :
    ClosesWith P subj (closeReference P (subj.advance 1) opener (subj.advance 1).pos) := by
  have stops {label : Bytes} := @linkSyntax_referenceLabel P.tables (subj.advance 1) opener label
  unfold closeReference
  generalize referenceLabel (subj.advance 1) opener (subj.advance 1).pos = r at stops ⊢
  obtain ⟨stop, label⟩ := r
  cases label with
  | none => exact closesWith_noMatch P keeps top link rfl
  | some label =>
    simp only
    split
    next subj' missing =>
      obtain ⟨rfl, _⟩ := Prod.mk.inj missing
      exact closesWith_noMatch P keeps top link rfl
    next subj' ref found =>
      obtain ⟨rfl, looked⟩ := Prod.mk.inj found
      split
      next => exact closesWith_noMatch P keeps top link rfl
      next isLink =>
        refine closesWith_matchLink P keeps top link rfl (stops rfl ⟨ref, looked, ?_⟩)
        simpa using isLink

/-- A bracket that is no attribute bracket always closes exactly. -/
theorem closesExactly_of_link {subj : Subject}
    (link : ∀ opener ∈ subj.brackets.head?, opener.type ≠ .attribute) : ClosesExactly P subj := by
  unfold ClosesExactly handleCloseBracket
  extract_lets subj'
  split
  next => exact ⟨rfl, rfl, rfl⟩
  next opener rest stack =>
    have top : opener ∈ subj.brackets.head? := by
      rw [show subj.brackets = opener :: rest from stack]
      rfl
    have isLink := link opener top
    rw [if_neg isLink]
    split
    next => exact ⟨rfl, rfl, rfl⟩
    next =>
      split
      next pos url title scanned => exact closesWith_matchLink P keeps top isLink rfl (.inline scanned)
      next => exact closesWith_closeReference P keeps top isLink

/-! ### Attributes -/

omit keeps in
theorem closesWith_closeAttribute_none {subj subj' : Subject} (opener : Bracket) :
    ClosesWith P subj (closeAttribute P opener (subj', none)) ↔ subj'.pos = subj.pos + 1 :=
  ⟨fun closes => closes.2.2, fun pos => ⟨rfl, rfl, pos⟩⟩

theorem closesWith_closeAttribute_some {subj subj' : Subject} {opener : Bracket}
    (attributes : Bytes) (top : opener ∈ subj.brackets.head?)
    (isAttribute : opener.type = .attribute) (same : subj'.children = subj.children) :
    ClosesWith P subj (closeAttribute P opener (subj', some attributes)) ↔
      AttributeSyntax P.tables (subj.advance 1) subj'.pos := by
  have pos := pos_matchAttribute P keeps subj' opener attributes
  constructor
  · rintro ⟨opener', top', s, _, rest⟩
    obtain rfl : opener' = opener := Option.mem_unique top' top
    rw [if_pos isAttribute] at rest
    obtain ⟨_, _, stops⟩ := rest
    rwa [← pos]
  · intro stops
    refine ⟨opener, top, subj', same, ?_⟩
    rw [if_pos isAttribute]
    exact ⟨attributes, rfl, pos.symm ▸ stops⟩

/-- Without a label the attributes in parentheses are all there is to read. -/
theorem closesWith_unlabelled {subj : Subject} {opener : Bracket}
    (top : opener ∈ subj.brackets.head?) (isAttribute : opener.type = .attribute)
    (unlabelled : linkLabel subj.input (attributesEnd (subj.advance 1)) false = none) :
    ClosesWith P subj (handleCloseBracketAttribute P (subj.advance 1) opener) := by
  have nothing (attributes : Option Bytes) :
      referenceAttributes P.tables
        { subj.advance 1 with pos := attributesEnd (subj.advance 1) } attributes =
      ({ subj.advance 1 with pos := attributesEnd (subj.advance 1) }, attributes) := by
    unfold referenceAttributes
    simp only [show (subj.advance 1).input = subj.input from rfl, unlabelled]
  rw [handleCloseBracketAttribute_eq, nothing]
  unfold attributesEnd at unlabelled ⊢
  cases scanned : scanInlineAttributes (subj.advance 1).input (subj.advance 1).pos with
  | none => exact (closesWith_closeAttribute_none P opener).mpr rfl
  | some r =>
    rw [scanned] at unlabelled
    exact (@closesWith_closeAttribute_some P keeps _ { subj.advance 1 with pos := r.1 } _
      r.2 top isAttribute rfl).mpr (.inline scanned unlabelled)

/-- A label that refers to no attributes is passed nevertheless. -/
theorem not_closesWith_passed {subj subj' : Subject} {opener : Bracket} {label : Bytes}
    (attributes : Option Bytes) (top : opener ∈ subj.brackets.head?)
    (isAttribute : opener.type = .attribute) (same : subj'.children = subj.children)
    (labelled : linkLabel subj.input (attributesEnd (subj.advance 1)) false =
      some (subj'.pos, label))
    (vain : ¬ RefersToAttributes P.tables (subj.advance 1) label) :
    ¬ ClosesWith P subj (closeAttribute P opener (subj', attributes)) := by
  have passed := lt_linkLabel labelled
  have after : subj.pos + 1 ≤ attributesEnd (subj.advance 1) := le_attributesEnd (subj.advance 1)
  intro closes
  cases attributes with
  | none =>
    have pos := (closesWith_closeAttribute_none P opener).mp closes
    omega
  | some attributes =>
    cases (closesWith_closeAttribute_some P keeps attributes top isAttribute same).mp closes with
    | inline scanned unlabelled =>
      have stop : attributesEnd (subj.advance 1) = subj'.pos := by
        unfold attributesEnd
        rw [scanned]
      omega
    | reference labelled' refers =>
      rw [show (subj.advance 1).input = subj.input from rfl, labelled] at labelled'
      cases labelled'
      exact vain refers

/-- A label is passed in any case, so it has to refer to attributes. -/
theorem closesWith_labelled_iff {subj : Subject} {opener : Bracket} {stop : Nat} {label : Bytes}
    (top : opener ∈ subj.brackets.head?) (isAttribute : opener.type = .attribute)
    (labelled : linkLabel subj.input (attributesEnd (subj.advance 1)) false = some (stop, label)) :
    ClosesWith P subj (handleCloseBracketAttribute P (subj.advance 1) opener) ↔
      RefersToAttributes P.tables (subj.advance 1) label := by
  rw [handleCloseBracketAttribute_eq]
  generalize (scanInlineAttributes (subj.advance 1).input (subj.advance 1).pos).map (·.2) =
    attributes
  unfold referenceAttributes
  simp only [show (subj.advance 1).input = subj.input from rfl, labelled]
  split
  next subj' missing =>
    obtain ⟨rfl, nothing⟩ := Prod.mk.inj missing
    have vain : ¬ RefersToAttributes P.tables (subj.advance 1) label := by
      rintro ⟨ref, found, _⟩
      cases found.symm.trans nothing
    exact iff_of_false
      (not_closesWith_passed P keeps attributes top isAttribute rfl labelled vain) vain
  next subj' ref found =>
    obtain ⟨rfl, looked⟩ := Prod.mk.inj found
    split
    next attributesReference =>
      have refers : RefersToAttributes P.tables (subj.advance 1) label :=
        ⟨ref, looked, attributesReference⟩
      have stops : AttributeSyntax P.tables (subj.advance 1) stop := .reference labelled refers
      refine iff_of_true ?_ refers
      refine (closesWith_closeAttribute_some P keeps ref.attributes top isAttribute ?_).mpr ?_
      case refine_1 => rfl
      case refine_2 => exact stops
    next link =>
      have vain : ¬ RefersToAttributes P.tables (subj.advance 1) label := by
        rintro ⟨ref', found', isAttributes⟩
        cases found'.symm.trans looked
        exact link isAttributes
      exact iff_of_false
        (not_closesWith_passed P keeps attributes top isAttribute rfl labelled vain) vain

end

/-- A call of `handle_close_bracket` makes a node and stands after its syntax, or makes the
bracket text and stands after the bracket, unless the attribute variant passes a label that
refers to no attributes. -/
theorem closesExactly_iff (P : Config) (keeps : ∀ e ∈ P.syntaxExtensions, e.KeepsPosition)
    (subj : Subject) : ClosesExactly P subj ↔ ¬ PassesLabel P.tables subj := by
  by_cases link : ∀ opener ∈ subj.brackets.head?, opener.type ≠ .attribute
  · refine iff_of_true (closesExactly_of_link P keeps link) ?_
    rintro ⟨⟨opener, top, isAttribute⟩, _⟩
    exact link opener top isAttribute
  · obtain ⟨opener, top, isAttribute⟩ : ∃ opener ∈ subj.brackets.head?,
        opener.type = .attribute := by simpa using link
    have result : handleCloseBracket P subj =
        handleCloseBracketAttribute P (subj.advance 1) opener := by
      obtain ⟨rest, stack⟩ := List.head?_eq_some_iff.mp top
      unfold handleCloseBracket
      simp only [show (subj.advance 1).brackets = opener :: rest from stack, if_pos isAttribute]
    unfold ClosesExactly
    rw [result]
    cases labelled : linkLabel subj.input (attributesEnd (subj.advance 1)) false with
    | none =>
      refine iff_of_true (closesWith_unlabelled P keeps top isAttribute labelled) ?_
      rintro ⟨_, r, found, _⟩
      rw [labelled] at found
      cases found
    | some r =>
      rw [closesWith_labelled_iff P keeps top isAttribute labelled]
      constructor
      · rintro refers ⟨_, r', found, vain⟩
        rw [labelled] at found
        cases found
        exact vain refers
      · intro notPassed
        by_contra vain
        exact notPassed ⟨⟨opener, top, isAttribute⟩, r, labelled, vain⟩

/-- At the end of `[a](u)`. -/
theorem closesExactly_of_inlineLink :
    ClosesExactly { tables := asciiTables, options := 0 }
      { input := lit "[a](u)", parent := { type := .paragraph }, line := 1, pos := 2,
        blockOffset := 0, refmap := .new, nextId := 3,
        brackets := [⟨1, 1, .link, false, fun t => t == .link⟩], noLinkOpeners := false } :=
  (closesExactly_iff _ (by simp) _).mpr (by decide +kernel)

/-- The states in which the inlines of `^[a][b]` are parsed, without a definition of `b`. -/
def unknownLabelStates : List Subject :=
  inlineStates { tables := asciiTables, options := 0 } defaultCharTables 7
    (inlineSubject { tables := asciiTables, options := 0 }
      { type := .paragraph, content := lit "^[a][b]" } [] .new 1)

/-- At the first closing bracket the text goes on after the label. -/
theorem not_closesExactly_of_unknown_label :
    ∃ subj ∈ unknownLabelStates, subj.peekChar = chr ']' ∧
      ¬ ClosesExactly { tables := asciiTables, options := 0 } subj := by
  have facts : unknownLabelStates[2]?.map (fun subj => (subj.peekChar, subj.pos,
      (handleCloseBracket { tables := asciiTables, options := 0 } subj).1.pos,
      (handleCloseBracket { tables := asciiTables, options := 0 } subj).2.isSome)) =
        some (chr ']', 3, 7, true) := by decide +kernel
  obtain ⟨subj, at_2, values⟩ := Option.map_eq_some_iff.mp facts
  obtain ⟨closes, pos, pos', text⟩ : _ ∧ _ ∧ _ ∧ _ := by simpa using values
  refine ⟨subj, List.mem_of_getElem? at_2, closes, fun exactly => ?_⟩
  unfold ClosesExactly ClosesWith at exactly
  obtain ⟨node, made⟩ := Option.isSome_iff_exists.mp text
  simp only [made] at exactly
  omega

end CmarkGfm
