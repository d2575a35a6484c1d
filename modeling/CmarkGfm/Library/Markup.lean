import Mathlib.Data.List.Basic

/-!
# Markup

A reader of text with tags, byte by byte. It keeps the names of the elements that are open, so that
every end tag must close the element opened last, and the names of the attributes of the tag being
read, so that none occurs twice. Outside of tags and in the values of attributes, `<`, `>` and `"` may
not stand for themselves.
-/

namespace Markup

/-! ### The reader -/

/-- Letters, `_` and `:`. -/
def isNameStart (c : UInt8) : Bool :=
  (65 ≤ c && c ≤ 90) || (97 ≤ c && c ≤ 122) || c == 95 || c == 58

/-- Also digits, `-` and `.`. -/
def isNameChar (c : UInt8) : Bool :=
  isNameStart c || (48 ≤ c && c ≤ 57) || c == 45 || c == 46

/-- Does the byte stand for itself outside of tags and in values? -/
def isPlain (c : UInt8) : Bool := c != 60 && c != 62 && c != 34

/-- What the reader expects. `tag` is the name of the element, `names` are the attributes so far. -/
inductive Mode where
  | text
  | opening
  | name (tag : List UInt8)
  | gap (tag : List UInt8) (names : List (List UInt8))
  | attribute (tag : List UInt8) (names : List (List UInt8)) (name : List UInt8)
  | equals (tag : List UInt8) (names : List (List UInt8))
  | value (tag : List UInt8) (names : List (List UInt8))
  | valueEnd (tag : List UInt8) (names : List (List UInt8))
  | empty (tag : List UInt8)
  | closing (tag : List UInt8)
  | bang
  | bangDash
  | comment
  | commentDash
  | commentEnd
  | start
  | finished
  deriving DecidableEq

/-- The mode and the elements that are open, the innermost first. -/
structure State where
  mode : Mode
  opened : List (List UInt8)
  deriving DecidableEq

/-- How strict the reader is: a document has one root element and every attribute has a value. -/
structure Rules where
  document : Bool

namespace Rules

variable (R : Rules)

/-- After an end tag or an empty element, when these elements are still open. -/
def outside (opened : List (List UInt8)) : State :=
  if R.document && opened.isEmpty then ⟨.finished, []⟩ else ⟨.text, opened⟩

/-- The end of an attribute without value. -/
def bare (tag : List UInt8) (names : List (List UInt8)) (opened : List (List UInt8)) (c : UInt8) :
    Option State :=
  if R.document then none
  else if c == 32 then some ⟨.gap tag names, opened⟩
  else if c == 62 then some ⟨.text, tag :: opened⟩
  else none

/-- Read one byte; `none` where it may not stand. -/
def step (s : State) (c : UInt8) : Option State :=
  match s.mode with
  | .start => if c == 60 then some ⟨.opening, s.opened⟩ else none
  | .finished => if c == 10 then some s else none
  | .text =>
    if c == 60 then some ⟨.opening, s.opened⟩ else if isPlain c then some s else none
  | .opening =>
    if isNameStart c then some ⟨.name [c], s.opened⟩
    else if c == 47 then some ⟨.closing [], s.opened⟩
    else if c == 33 then some ⟨.bang, s.opened⟩
    else none
  | .name tag =>
    if isNameChar c then some ⟨.name (tag ++ [c]), s.opened⟩
    else if c == 32 then some ⟨.gap tag [], s.opened⟩
    else if c == 62 then some ⟨.text, tag :: s.opened⟩
    else none
  | .gap tag names =>
    if isNameStart c then some ⟨.attribute tag names [c], s.opened⟩
    else if c == 47 then some ⟨.empty tag, s.opened⟩
    else none
  | .attribute tag names name =>
    if isNameChar c then some ⟨.attribute tag names (name ++ [c]), s.opened⟩
    else if name ∈ names then none
    else if c == 61 then some ⟨.equals tag (name :: names), s.opened⟩
    else R.bare tag (name :: names) s.opened c
  | .equals tag names => if c == 34 then some ⟨.value tag names, s.opened⟩ else none
  | .value tag names =>
    if c == 34 then some ⟨.valueEnd tag names, s.opened⟩ else if isPlain c then some s else none
  | .valueEnd tag names =>
    if c == 32 then some ⟨.gap tag names, s.opened⟩
    else if c == 62 then some ⟨.text, tag :: s.opened⟩
    else none
  | .empty _ => if c == 62 then some (R.outside s.opened) else none
  | .closing tag =>
    if isNameChar c then some ⟨.closing (tag ++ [c]), s.opened⟩
    else if c == 62 && s.opened.head? == some tag then some (R.outside s.opened.tail)
    else none
  | .bang => if c == 45 then some ⟨.bangDash, s.opened⟩ else none
  | .bangDash => if c == 45 then some ⟨.comment, s.opened⟩ else none
  | .comment => if c == 45 then some ⟨.commentDash, s.opened⟩ else some s
  | .commentDash => if c == 45 then some ⟨.commentEnd, s.opened⟩ else some ⟨.comment, s.opened⟩
  | .commentEnd => if c == 62 then some ⟨.text, s.opened⟩ else none

/-- Read a text. -/
def read (s : State) (text : List UInt8) : Option State := text.foldlM R.step s

theorem read_append (s : State) (a b : List UInt8) :
    R.read s (a ++ b) = (R.read s a).bind fun s => R.read s b := List.foldlM_append

/-- Bytes that stand for themselves are passed over. -/
theorem read_plain {s : State} {text : List UInt8} (plain : ∀ c ∈ text, isPlain c)
    (mode : s.mode = .text ∨ ∃ tag names, s.mode = .value tag names) : R.read s text = some s := by
  induction text with
  | nil => rfl
  | cons c text ih =>
    rw [List.forall_mem_cons] at plain
    obtain ⟨here, later⟩ := plain
    have stays : R.step s c = some s := by
      have notTag : (c == 60) = false ∧ (c == 34) = false := by
        simp only [isPlain, Bool.and_eq_true, bne_iff_ne] at here
        simp [here.1.1, here.2]
      obtain mode | ⟨tag, names, mode⟩ := mode
      · rw [step, mode]
        simp [notTag, here]
      · rw [step, mode]
        simp [notTag, here]
    rw [read, List.foldlM_cons, stays]
    exact ih later

/-- A word that can be the name of an element or an attribute. -/
def IsName (name : List UInt8) : Prop :=
  ∃ c rest, name = c :: rest ∧ isNameStart c = true ∧ ∀ d ∈ rest, isNameChar d = true

/-- The name of an attribute that is read to the end. -/
theorem read_attributeName {tag acc rest : List UInt8} {names opened : List (List UInt8)}
    (chars : ∀ d ∈ rest, isNameChar d = true) :
    R.read ⟨.attribute tag names acc, opened⟩ rest = some ⟨.attribute tag names (acc ++ rest), opened⟩ := by
  induction rest generalizing acc with
  | nil => simp [read]
  | cons d rest ih =>
    obtain ⟨here, later⟩ := List.forall_mem_cons.mp chars
    have stays : R.step ⟨.attribute tag names acc, opened⟩ d = some ⟨.attribute tag names (acc ++ [d]), opened⟩ := by
      simp [step, here]
    rw [read, List.foldlM_cons, stays]
    exact (ih later).trans (by simp)

/-- A blank, the name of an attribute that is new, and the start of its value. -/
theorem read_attribute {s : State} {tag name : List UInt8} {names opened : List (List UInt8)}
    (inTag : s = ⟨.name tag, opened⟩ ∧ names = [] ∨ s = ⟨.valueEnd tag names, opened⟩) (isName : IsName name)
    (new : name ∉ names) :
    R.read s (32 :: name ++ [61, 34]) = some ⟨.value tag (name :: names), opened⟩ := by
  obtain ⟨c, rest, rfl, first, chars⟩ := isName
  have gap : R.step s 32 = some ⟨.gap tag names, opened⟩ := by
    rcases inTag with ⟨rfl, rfl⟩ | rfl <;> rfl
  have starts : R.step ⟨.gap tag names, opened⟩ c = some ⟨.attribute tag names [c], opened⟩ := by
    simp [step, first]
  have ends : R.read ⟨.attribute tag names (c :: rest), opened⟩ [61, 34] =
      some ⟨.value tag ((c :: rest) :: names), opened⟩ := by
    have notName : isNameChar 61 = false := by decide
    simp [read, step, notName, new]
  rw [List.cons_append, List.cons_append, read, List.foldlM_cons, gap]
  change R.read ⟨.gap tag names, opened⟩ (c :: (rest ++ [61, 34])) = _
  rw [read, List.foldlM_cons, starts]
  change R.read ⟨.attribute tag names [c], opened⟩ (rest ++ [61, 34]) = _
  rw [read_append, read_attributeName R chars]
  exact ends

end Rules

/-! ### Fragments and documents -/

/-- Text and tags in which every element that is opened is closed in nested order. -/
def Nested (text : List UInt8) : Prop :=
  Rules.read ⟨false⟩ ⟨.text, []⟩ text = some ⟨.text, []⟩

/-- One element, with nothing but line ends behind it. -/
def OneElement (text : List UInt8) : Prop :=
  Rules.read ⟨true⟩ ⟨.start, []⟩ text = some ⟨.finished, []⟩

instance (text : List UInt8) : Decidable (Nested text) := inferInstanceAs (Decidable (_ = _))

instance (text : List UInt8) : Decidable (OneElement text) := inferInstanceAs (Decidable (_ = _))

end Markup
