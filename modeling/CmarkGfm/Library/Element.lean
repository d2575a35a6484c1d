import CmarkGfm.Library.Markup
import Mathlib.Data.List.Nodup

/-!
# Elements

Trees of elements, and how they are written as markup: every tag begins a line, behind blanks that depend on its
depth. What is written is read as one element, and it determines the tree.
-/

namespace Markup

open Rules (IsName)

/-- An element with text in it, or with other elements. -/
inductive Element where
  | text (name : List UInt8) (attributes : List (List UInt8 × List UInt8)) (text : List UInt8)
  | node (name : List UInt8) (attributes : List (List UInt8 × List UInt8)) (children : List Element)

/-- A tag that can be read: its names are words, and no attribute is repeated. -/
structure LegalTag (name : List UInt8) (attributes : List (List UInt8 × List UInt8)) : Prop where
  isName : IsName name
  isNames : ∀ a ∈ attributes, IsName a.1
  nodup : (attributes.map Prod.fst).Nodup

/-- A name that may not stand behind `<`. -/
def Broken (name : List UInt8) : Prop := ∃ c rest, name = c :: rest ∧ isNameStart c = false ∧ c ≠ 47 ∧ c ≠ 33

mutual

/-- Every tag of the tree meets the condition. -/
def Element.All (q : List UInt8 → List (List UInt8 × List UInt8) → Prop) : Element → Prop
  | .text name attributes _ => q name attributes
  | .node name attributes children => q name attributes ∧ AllElements q children

def AllElements (q : List UInt8 → List (List UInt8 × List UInt8) → Prop) : List Element → Prop
  | [] => True
  | e :: es => e.All q ∧ AllElements q es

end

/-- How values are escaped, and how many blanks are before a tag at a depth. -/
structure TagLayout where
  escape : List UInt8 → List UInt8
  blanks : Nat → Nat

namespace TagLayout

variable (L : TagLayout)

def attributeText (a : List UInt8 × List UInt8) : List UInt8 := 32 :: a.1 ++ [61, 34] ++ (L.escape a.2 ++ [34])

/-- The blanks before a tag. -/
def indent (depth : Nat) : List UInt8 := List.replicate (L.blanks depth) 32

/-- A tag up to its end. -/
def opening (depth : Nat) (name : List UInt8) (attributes : List (List UInt8 × List UInt8)) : List UInt8 :=
  L.indent depth ++ (60 :: (name ++ attributes.flatMap L.attributeText))

/-- A closing tag and the end of its line. -/
def closing (name : List UInt8) : List UInt8 := 60 :: 47 :: (name ++ [62, 10])

mutual

def write (depth : Nat) : Element → List UInt8
  | .text name attributes text => L.opening depth name attributes ++ (62 :: (L.escape text ++ closing name))
  | .node name attributes children =>
    L.opening depth name attributes ++
      (if children.isEmpty then [32, 47, 62, 10]
        else 62 :: 10 :: (writeAll (depth + 1) children ++ (L.indent depth ++ closing name)))

def writeAll (depth : Nat) : List Element → List UInt8
  | [] => []
  | e :: es => write depth e ++ writeAll depth es

end

/-- Escaped values can stand between tags and in attributes, and can be told apart. -/
structure Lawful : Prop where
  plain : ∀ s, ∀ c ∈ L.escape s, isPlain c
  injective : Function.Injective L.escape

end TagLayout

/-! ### Reading what is written -/

namespace Rules

variable (R : Rules) {s : State} {tag name chars : List UInt8} {names opened : List (List UInt8)}
  {attributes : List (List UInt8 × List UInt8)}

/-- The reader is in a tag, behind its name or a value. -/
def InTag (s : State) (tag : List UInt8) (names opened : List (List UInt8)) : Prop :=
  s = ⟨.name tag, opened⟩ ∧ names = [] ∨ s = ⟨.valueEnd tag names, opened⟩

theorem isNameChar_of_mem (isName : IsName name) : ∀ c ∈ name, isNameChar c = true := by
  obtain ⟨c, rest, rfl, first, chars⟩ := isName
  exact List.forall_mem_cons.mpr ⟨by simp [isNameChar, first], chars⟩

theorem read_name (isName : IsName name) : R.read ⟨.opening, opened⟩ name = some ⟨.name name, opened⟩ := by
  obtain ⟨c, rest, rfl, first, chars⟩ := isName
  have more {acc : List UInt8} : ∀ {rest : List UInt8}, (∀ d ∈ rest, isNameChar d = true) →
      R.read ⟨.name acc, opened⟩ rest = some ⟨.name (acc ++ rest), opened⟩ := by
    intro rest chars
    induction rest generalizing acc with
    | nil => simp [read]
    | cons d rest ih =>
      obtain ⟨here, later⟩ := List.forall_mem_cons.mp chars
      have stays : R.step ⟨.name acc, opened⟩ d = some ⟨.name (acc ++ [d]), opened⟩ := by simp [step, here]
      rw [read, List.foldlM_cons, stays]
      exact (ih later).trans (by simp)
  have starts : R.step ⟨.opening, opened⟩ c = some ⟨.name [c], opened⟩ := by simp [step, first]
  rw [read, List.foldlM_cons, starts]
  exact more chars

theorem read_closingName {acc : List UInt8} (chars : ∀ c ∈ name, isNameChar c = true) :
    R.read ⟨.closing acc, opened⟩ name = some ⟨.closing (acc ++ name), opened⟩ := by
  induction name generalizing acc with
  | nil => simp [read]
  | cons c rest ih =>
    obtain ⟨here, later⟩ := List.forall_mem_cons.mp chars
    have stays : R.step ⟨.closing acc, opened⟩ c = some ⟨.closing (acc ++ [c]), opened⟩ := by simp [step, here]
    rw [read, List.foldlM_cons, stays]
    exact (ih later).trans (by simp)

/-- The line of a tag that closes or has no contents ends where the reader is outside of it. -/
theorem read_lineEnd (opened : List (List UInt8)) : R.read (R.outside opened) [10] = some (R.outside opened) := by
  have plain : isPlain 10 = true := by decide
  unfold outside
  split <;> simp [read, step, plain]

theorem read_closing (isName : IsName name) :
    R.read ⟨.text, name :: opened⟩ (TagLayout.closing name) = some (R.outside opened) := by
  have starts : R.read ⟨.text, name :: opened⟩ [60, 47] = some ⟨.closing [], name :: opened⟩ := by
    have notName : isNameStart 47 = false := by decide
    simp [read, step, notName]
  have ends : R.read ⟨.closing name, name :: opened⟩ [62] = some (R.outside opened) := by
    have notName : isNameChar 62 = false := by decide
    simp [read, step, notName]
  calc R.read ⟨.text, name :: opened⟩ (TagLayout.closing name)
      = R.read ⟨.text, name :: opened⟩ ([60, 47] ++ (name ++ ([62] ++ [10]))) := by simp [TagLayout.closing]
    _ = some (R.outside opened) := by
      rw [read_append, starts, Option.bind_some, read_append, read_closingName R (isNameChar_of_mem isName),
        Option.bind_some, List.nil_append, read_append, ends, Option.bind_some, read_lineEnd]

theorem read_attributes {L : TagLayout} (lawful : L.Lawful) (inTag : InTag s tag names opened)
    (isNames : ∀ a ∈ attributes, IsName a.1) (nodup : (attributes.map Prod.fst).Nodup)
    (new : ∀ a ∈ attributes, a.1 ∉ names) :
    ∃ s' names', R.read s (attributes.flatMap L.attributeText) = some s' ∧ InTag s' tag names' opened := by
  induction attributes generalizing s names with
  | nil => exact ⟨s, names, rfl, inTag⟩
  | cons a rest ih =>
    obtain ⟨isName, isNames⟩ := List.forall_mem_cons.mp isNames
    obtain ⟨first, others⟩ := List.forall_mem_cons.mp new
    obtain ⟨notLater, nodup⟩ := List.nodup_cons.mp nodup
    have starts := R.read_attribute inTag isName first
    have value : R.read ⟨.value tag (a.1 :: names), opened⟩ (L.escape a.2) = some ⟨.value tag (a.1 :: names), opened⟩ :=
      R.read_plain (lawful.plain a.2) (.inr ⟨tag, a.1 :: names, rfl⟩)
    have ends : R.read ⟨.value tag (a.1 :: names), opened⟩ [34] = some ⟨.valueEnd tag (a.1 :: names), opened⟩ := rfl
    have still : ∀ b ∈ rest, b.1 ∉ a.1 :: names := by
      intro b member again
      rcases List.mem_cons.mp again with same | before
      · exact notLater (same ▸ List.mem_map_of_mem member)
      · exact others b member before
    obtain ⟨s', names', read', inTag'⟩ := ih (.inr rfl) isNames nodup still
    refine ⟨s', names', ?_, inTag'⟩
    rw [List.flatMap_cons, TagLayout.attributeText, read_append, read_append, starts, Option.bind_some, read_append, value,
      Option.bind_some, ends, Option.bind_some, read']

/-- The reader is where a tag may begin. -/
def Ready (L : TagLayout) (depth : Nat) (s : State) (opened : List (List UInt8)) : Prop :=
  s = ⟨.text, opened⟩ ∨ s = ⟨.start, opened⟩ ∧ L.blanks depth = 0

theorem read_indent {L : TagLayout} {depth : Nat} (ready : Ready L depth s opened) :
    R.read s (L.indent depth ++ [60]) = some ⟨.opening, opened⟩ := by
  rcases ready with rfl | ⟨rfl, none⟩
  · have blanks : ∀ c ∈ L.indent depth, isPlain c := by
      intro c member
      rw [(List.mem_replicate.mp member).2]
      decide
    rw [read_append, R.read_plain blanks (.inl rfl), Option.bind_some]
    rfl
  · rw [TagLayout.indent, none]
    rfl

theorem read_opening {L : TagLayout} (lawful : L.Lawful) {depth : Nat} (ready : Ready L depth s opened)
    (legal : LegalTag tag attributes) :
    ∃ s' names, R.read s (L.opening depth tag attributes) = some s' ∧ InTag s' tag names opened := by
  have behindName : InTag ⟨.name tag, opened⟩ tag [] opened := .inl ⟨rfl, rfl⟩
  obtain ⟨s', names, read', inTag⟩ := R.read_attributes lawful behindName legal.isNames legal.nodup
    (fun _ _ => List.not_mem_nil)
  refine ⟨s', names, ?_, inTag⟩
  calc R.read s (L.opening depth tag attributes)
      = R.read s ((L.indent depth ++ [60]) ++ (tag ++ attributes.flatMap L.attributeText)) := by simp [TagLayout.opening]
    _ = some s' := by
      rw [read_append, R.read_indent ready, Option.bind_some, read_append, R.read_name legal.isName, Option.bind_some,
        read']

theorem read_opening_broken {L : TagLayout} {depth : Nat} (ready : Ready L depth s opened) (broken : Broken tag) :
    R.read s (L.opening depth tag attributes) = none := by
  obtain ⟨c, rest, rfl, notName, notSlash, notBang⟩ := broken
  have fails : R.step ⟨.opening, opened⟩ c = none := by simp [step, notName, notSlash, notBang]
  have shape : L.opening depth (c :: rest) attributes =
      (L.indent depth ++ [60]) ++ (c :: (rest ++ attributes.flatMap L.attributeText)) := by simp [TagLayout.opening]
  rw [shape, read_append, R.read_indent ready, Option.bind_some, read, List.foldlM_cons, fails]
  rfl

theorem read_tagEnd (inTag : InTag s tag names opened) : R.read s [62] = some ⟨.text, tag :: opened⟩ := by
  rcases inTag with ⟨rfl, -⟩ | rfl
  · have notName : isNameChar 62 = false := by decide
    simp [read, step, notName]
  · rfl

theorem read_empty (inTag : InTag s tag names opened) : R.read s [32, 47, 62, 10] = some (R.outside opened) := by
  have blank : R.read s [32, 47] = some ⟨.empty tag, opened⟩ := by
    have notName : isNameChar 32 = false := by decide
    have notStart : isNameStart 47 = false := by decide
    rcases inTag with ⟨rfl, -⟩ | rfl
    · simp [read, step, notName, notStart]
    · simp [read, step, notStart]
  have ends : R.read ⟨.empty tag, opened⟩ [62] = some (R.outside opened) := rfl
  rw [show [32, 47, 62, 10] = ([32, 47] : List UInt8) ++ ([62] ++ [10]) from rfl, read_append, blank, Option.bind_some,
    read_append, ends, Option.bind_some, read_lineEnd]

theorem outside_cons (tag : List UInt8) (opened : List (List UInt8)) :
    R.outside (tag :: opened) = ⟨.text, tag :: opened⟩ := by simp [outside]

theorem plain_indent (L : TagLayout) (depth : Nat) : ∀ c ∈ L.indent depth, isPlain c := by
  intro c member
  rw [(List.mem_replicate.mp member).2]
  decide

mutual

/-- What is written of an element with legal tags is read as an element. -/
theorem read_write {L : TagLayout} (lawful : L.Lawful) {depth : Nat} {s : State} {opened : List (List UInt8)} :
    (e : Element) → Ready L depth s opened → e.All LegalTag → R.read s (L.write depth e) = some (R.outside opened)
  | .text name attributes text, ready, legal => by
    obtain ⟨s', names, starts, inTag⟩ := R.read_opening lawful ready legal
    rw [TagLayout.write, ← List.singleton_append, read_append, starts, Option.bind_some, read_append,
      R.read_tagEnd inTag, Option.bind_some, read_append, R.read_plain (lawful.plain text) (.inl rfl),
      Option.bind_some, R.read_closing legal.isName]
  | .node name attributes children, ready, ⟨tag, below⟩ => by
    obtain ⟨s', names, starts, inTag⟩ := R.read_opening lawful ready tag
    rw [TagLayout.write, read_append, starts, Option.bind_some]
    split
    next => exact R.read_empty inTag
    next =>
      have line : R.read ⟨.text, name :: opened⟩ [10] = some ⟨.text, name :: opened⟩ := by
        rw [← R.outside_cons, read_lineEnd]
      rw [← List.singleton_append, ← List.singleton_append (x := 10), read_append, R.read_tagEnd inTag,
        Option.bind_some, read_append, line, Option.bind_some, read_append,
        read_writeAll lawful children below, Option.bind_some, read_append,
        R.read_plain (plain_indent L depth) (.inl rfl), Option.bind_some, R.read_closing tag.isName]

theorem read_writeAll {L : TagLayout} (lawful : L.Lawful) {depth : Nat} {tag : List UInt8} {opened : List (List UInt8)} :
    (es : List Element) → AllElements LegalTag es →
      R.read ⟨.text, tag :: opened⟩ (L.writeAll depth es) = some ⟨.text, tag :: opened⟩
  | [], _ => rfl
  | e :: es, ⟨here, later⟩ => by
    rw [TagLayout.writeAll, read_append, read_write lawful e (.inl rfl) here, Option.bind_some, R.outside_cons,
      read_writeAll lawful es later]

end

mutual

/-- A name that may not stand behind `<` stops the reader. -/
theorem read_write_broken {L : TagLayout} (lawful : L.Lawful) {depth : Nat} {s : State} {opened : List (List UInt8)} :
    (e : Element) → Ready L depth s opened → e.All (fun name attributes => LegalTag name attributes ∨ Broken name) →
      ¬e.All LegalTag → R.read s (L.write depth e) = none
  | .text name attributes text, ready, each, illegal => by
    have broken : Broken name := each.resolve_left illegal
    rw [TagLayout.write, read_append, R.read_opening_broken ready broken]
    rfl
  | .node name attributes children, ready, ⟨here, below⟩, illegal => by
    rw [TagLayout.write, read_append]
    rcases here with tag | broken
    · obtain ⟨s', names, starts, inTag⟩ := R.read_opening lawful ready tag
      have others : ¬AllElements LegalTag children := fun all => illegal ⟨tag, all⟩
      have nonempty : children.isEmpty = false := by
        cases children with
        | nil => exact absurd trivial others
        | cons => rfl
      have line : R.read ⟨.text, name :: opened⟩ [10] = some ⟨.text, name :: opened⟩ := by
        rw [← R.outside_cons, read_lineEnd]
      rw [starts, Option.bind_some, nonempty, if_neg (by simp), ← List.singleton_append,
        ← List.singleton_append (x := 10), read_append, R.read_tagEnd inTag,
        Option.bind_some, read_append, line, Option.bind_some, read_append,
        read_writeAll_broken lawful children below others]
      rfl
    · rw [R.read_opening_broken ready broken]
      rfl

theorem read_writeAll_broken {L : TagLayout} (lawful : L.Lawful) {depth : Nat} {tag : List UInt8}
    {opened : List (List UInt8)} :
    (es : List Element) → AllElements (fun name attributes => LegalTag name attributes ∨ Broken name) es →
      ¬AllElements LegalTag es → R.read ⟨.text, tag :: opened⟩ (L.writeAll depth es) = none
  | [], _, illegal => absurd trivial illegal
  | e :: es, ⟨here, later⟩, illegal => by
    rw [TagLayout.writeAll, read_append]
    by_cases legal : e.All LegalTag
    · have others : ¬AllElements LegalTag es := fun all => illegal ⟨legal, all⟩
      rw [R.read_write lawful e (.inl rfl) legal, Option.bind_some, R.outside_cons,
        read_writeAll_broken lawful es later others]
    · rw [read_write_broken lawful e (.inl rfl) here legal]
      rfl

end

end Rules

/-- One element is read where the tags of the tree are legal, and only there. -/
theorem oneElement_write_iff {L : TagLayout} (lawful : L.Lawful) {depth : Nat} (none : L.blanks depth = 0) {e : Element}
    (each : e.All fun name attributes => LegalTag name attributes ∨ Broken name) :
    OneElement (L.write depth e) ↔ e.All LegalTag := by
  constructor
  · intro one
    by_contra illegal
    have stops := Rules.read_write_broken ⟨true⟩ lawful (s := ⟨.start, []⟩) e (.inr ⟨rfl, none⟩) each illegal
    rw [OneElement, stops] at one
    cases one
  · exact fun legal => Rules.read_write ⟨true⟩ lawful (s := ⟨.start, []⟩) e (.inr ⟨rfl, none⟩) legal

/-! ### What is written determines the tree -/

namespace TagLayout

variable {L : TagLayout} {name name' : List UInt8} {attributes attributes' : List (List UInt8 × List UInt8)}
  {u v : List UInt8}

/-- A text ends where a byte stands that is not in it. -/
theorem split_inj {c d : UInt8} {w x : List UInt8} (first : d ∉ w) (second : c ∉ x) (same : w ++ c :: u = x ++ d :: v) :
    w = x ∧ c = d ∧ u = v := by
  rcases List.append_eq_append_iff.mp same with ⟨rest, rfl, more⟩ | ⟨rest, rfl, more⟩
  · cases rest with
    | nil => exact ⟨(List.append_nil w).symm, by simpa using more⟩
    | cons a rest =>
      rw [(List.cons.inj more).1] at second
      exact absurd (List.mem_append_right w List.mem_cons_self) second
  · cases rest with
    | nil => exact ⟨List.append_nil x, by simpa [eq_comm] using more⟩
    | cons a rest =>
      rw [(List.cons.inj more).1] at first
      exact absurd (List.mem_append_right x List.mem_cons_self) first

/-- What may stand behind the attributes of a tag. -/
def TagEnd (s : List UInt8) : Prop := (∃ u, s = 62 :: u) ∨ ∃ u, s = 32 :: 47 :: u

theorem notMem_of_isName (isName : IsName name) : (32 : UInt8) ∉ name ∧ (61 : UInt8) ∉ name ∧ (62 : UInt8) ∉ name := by
  have chars := Rules.isNameChar_of_mem isName
  refine ⟨?_, ?_, ?_⟩ <;> exact fun member => absurd (chars _ member) (by decide)

theorem notMem_escape (lawful : L.Lawful) (s : List UInt8) : (34 : UInt8) ∉ L.escape s ∧ (60 : UInt8) ∉ L.escape s :=
  ⟨fun member => absurd (lawful.plain s _ member) (by decide),
    fun member => absurd (lawful.plain s _ member) (by decide)⟩

theorem attributes_inj (lawful : L.Lawful) (isNames : ∀ a ∈ attributes, IsName a.1)
    (isNames' : ∀ a ∈ attributes', IsName a.1) (ends : TagEnd u) (ends' : TagEnd v)
    (same : attributes.flatMap L.attributeText ++ u = attributes'.flatMap L.attributeText ++ v) :
    attributes = attributes' ∧ u = v := by
  -- a name cannot be taken for the end of the tag
  have apart {a : List UInt8 × List UInt8} {w x : List UInt8} (isName : IsName a.1) (ends : TagEnd w) :
      w ≠ L.attributeText a ++ x := by
    obtain ⟨c, rest, eq, first, -⟩ := isName
    rw [attributeText, eq]
    rcases ends with ⟨u, rfl⟩ | ⟨u, rfl⟩
    · simp
    · intro same
      have slash : 47 = c := (List.cons.inj (List.cons.inj same).2).1
      rw [← slash] at first
      cases first
  induction attributes generalizing attributes' with
  | nil =>
    cases attributes' with
    | nil => exact ⟨rfl, same⟩
    | cons b rest =>
      rw [List.flatMap_cons, List.append_assoc] at same
      exact absurd same (apart (isNames' b List.mem_cons_self) ends)
  | cons a rest ih =>
    obtain ⟨isName, isNames⟩ := List.forall_mem_cons.mp isNames
    cases attributes' with
    | nil =>
      rw [List.flatMap_cons, List.append_assoc] at same
      exact absurd same.symm (apart isName ends')
    | cons b rest' =>
      obtain ⟨isName', isNames'⟩ := List.forall_mem_cons.mp isNames'
      simp only [List.flatMap_cons, attributeText, List.cons_append, List.append_assoc, List.cons.injEq, true_and,
        List.nil_append] at same
      obtain ⟨names, -, same⟩ := split_inj (notMem_of_isName isName).2.1
        (notMem_of_isName isName').2.1 same
      obtain ⟨values, -, same⟩ := split_inj (notMem_escape lawful a.2).1
        (notMem_escape lawful b.2).1 (List.cons.inj same).2
      obtain ⟨rfl, rfl⟩ := ih isNames isNames' same
      exact ⟨by rw [Prod.ext names (lawful.injective values)], rfl⟩

theorem opening_inj (lawful : L.Lawful) {depth : Nat} (legal : LegalTag name attributes)
    (legal' : LegalTag name' attributes') (ends : TagEnd u) (ends' : TagEnd v)
    (same : L.opening depth name attributes ++ u = L.opening depth name' attributes' ++ v) :
    name = name' ∧ attributes = attributes' ∧ u = v := by
  -- behind a name there is a blank or the end of the tag
  have behind (attributes : List (List UInt8 × List UInt8)) {w : List UInt8} (ends : TagEnd w) :
      ∃ c rest, attributes.flatMap L.attributeText ++ w = c :: rest ∧ (c = 32 ∨ c = 62) := by
    cases attributes with
    | nil =>
      rcases ends with ⟨u, rfl⟩ | ⟨u, rfl⟩
      · exact ⟨62, u, rfl, .inr rfl⟩
      · exact ⟨32, 47 :: u, rfl, .inl rfl⟩
    | cons a rest => exact ⟨32, _, rfl, .inl rfl⟩
  have notMem {name : List UInt8} {c : UInt8} (isName : IsName name) (either : c = 32 ∨ c = 62) : c ∉ name := by
    rcases either with rfl | rfl
    · exact (notMem_of_isName isName).1
    · exact (notMem_of_isName isName).2.2
  simp only [opening, List.append_assoc, List.append_cancel_left_eq, List.cons_append, List.cons.injEq,
    true_and] at same
  obtain ⟨c, rest, eq, either⟩ := behind attributes ends
  obtain ⟨c', rest', eq', either'⟩ := behind attributes' ends'
  rw [eq, eq'] at same
  obtain ⟨names, first, others⟩ := split_inj (notMem legal.isName either')
        (notMem legal'.isName either) same
  rw [← first, ← others] at eq'
  obtain ⟨attributes, ends⟩ := attributes_inj lawful legal.isNames legal'.isNames ends ends' (eq.trans eq'.symm)
  exact ⟨names, attributes, ends⟩

/-- An element begins with blanks and a tag. -/
theorem write_start (depth : Nat) {e : Element} (legal : e.All LegalTag) :
    ∃ c rest, L.write depth e = L.indent depth ++ 60 :: c :: rest ∧ isNameStart c = true := by
  have tag {name : List UInt8} {attributes : List (List UInt8 × List UInt8)} (isName : IsName name)
      (w : List UInt8) : ∃ c rest, L.opening depth name attributes ++ w = L.indent depth ++ 60 :: c :: rest ∧
        isNameStart c = true := by
    obtain ⟨c, rest, rfl, first, -⟩ := isName
    exact ⟨c, rest ++ (attributes.flatMap L.attributeText ++ w), by simp [opening], first⟩
  cases e with
  | text name attributes text => exact tag legal.isName _
  | node name attributes children => exact tag legal.1.isName _

theorem notMem_indent (depth : Nat) : (60 : UInt8) ∉ L.indent depth :=
  fun member => absurd (List.mem_replicate.mp member).2 (by decide)

/-- A closing tag is no beginning of an element, whatever is before it. -/
theorem closing_ne_write {depth : Nat} {e : Element} (legal : e.All LegalTag) {w : List UInt8}
    (blanks : List UInt8) (noTag : (60 : UInt8) ∉ w) (noTag' : (60 : UInt8) ∉ blanks) :
    w ++ (closing name ++ u) ≠ blanks ++ (L.write depth e ++ v) := by
  obtain ⟨c, rest, eq, first⟩ := write_start (L := L) depth legal
  intro same
  have tags : w ++ 60 :: 47 :: (name ++ [62, 10] ++ u) = (blanks ++ L.indent depth) ++ 60 :: c :: (rest ++ v) := by
    simpa [closing, eq] using same
  have before : (60 : UInt8) ∉ blanks ++ L.indent depth := by
    rw [List.mem_append, not_or]
    exact ⟨noTag', notMem_indent depth⟩
  obtain ⟨-, -, behind⟩ := split_inj noTag before tags
  have slash : 47 = c := (List.cons.inj behind).1
  rw [← slash] at first
  cases first

mutual

theorem write_inj (lawful : L.Lawful) {depth : Nat} {u v : List UInt8} : (e e' : Element) → e.All LegalTag →
    e'.All LegalTag → L.write depth e ++ u = L.write depth e' ++ v → e = e' ∧ u = v
  | .text name attributes text, .text name' attributes' text', legal, legal', same => by
    rw [write, write] at same
    simp only [List.append_assoc, List.cons_append] at same
    obtain ⟨rfl, rfl, ends⟩ := opening_inj lawful legal legal' (.inl ⟨_, rfl⟩) (.inl ⟨_, rfl⟩) same
    simp only [closing, List.cons_append, List.append_assoc, List.cons.injEq, true_and] at ends
    obtain ⟨texts, -, behind⟩ := split_inj (notMem_escape lawful text).2
        (notMem_escape lawful text').2 ends
    rw [lawful.injective texts]
    exact ⟨rfl, by simpa using behind⟩
  | .text name attributes text, .node name' attributes' children', legal, ⟨legal', below'⟩, same => by
    rw [write, write] at same
    simp only [List.append_assoc, List.cons_append] at same
    cases children' with
    | nil =>
      obtain ⟨-, -, ends⟩ := opening_inj lawful legal legal' (.inl ⟨_, rfl⟩) (.inr ⟨_, rfl⟩) same
      cases ends
    | cons e' es' =>
      simp only [writeAll, List.isEmpty_cons, Bool.false_eq_true, if_false, List.append_assoc, List.cons_append] at same
      obtain ⟨-, -, ends⟩ := opening_inj lawful legal legal' (.inl ⟨_, rfl⟩) (.inl ⟨_, rfl⟩) same
      have ends := (List.cons.inj ends).2
      have noTag : (60 : UInt8) ∉ ([10] : List UInt8) := by decide
      exact absurd ends (closing_ne_write below'.1 [10] (notMem_escape lawful text).2 noTag)
  | .node name attributes children, .text name' attributes' text', ⟨legal, below⟩, legal', same => by
    rw [write, write] at same
    simp only [List.append_assoc, List.cons_append] at same
    cases children with
    | nil =>
      obtain ⟨-, -, ends⟩ := opening_inj lawful legal legal' (.inr ⟨_, rfl⟩) (.inl ⟨_, rfl⟩) same
      cases ends
    | cons e es =>
      simp only [writeAll, List.isEmpty_cons, Bool.false_eq_true, if_false, List.append_assoc, List.cons_append] at same
      obtain ⟨-, -, ends⟩ := opening_inj lawful legal legal' (.inl ⟨_, rfl⟩) (.inl ⟨_, rfl⟩) same
      have ends := (List.cons.inj ends).2
      have noTag : (60 : UInt8) ∉ ([10] : List UInt8) := by decide
      exact absurd ends.symm (closing_ne_write below.1 [10] (notMem_escape lawful text').2 noTag)
  | .node name attributes children, .node name' attributes' children', ⟨legal, below⟩, ⟨legal', below'⟩, same => by
    rw [write, write] at same
    simp only [List.append_assoc] at same
    have tagEnd (es : List Element) (closed u : List UInt8) :
        TagEnd ((if es.isEmpty then [32, 47, 62, 10] else 62 :: 10 :: closed) ++ u) := by
      split
      next => exact .inr ⟨_, rfl⟩
      next => exact .inl ⟨_, rfl⟩
    obtain ⟨rfl, rfl, ends⟩ := opening_inj lawful legal legal' (tagEnd _ _ _) (tagEnd _ _ _) same
    by_cases none : children.isEmpty <;> by_cases none' : children'.isEmpty <;>
      simp only [none, none', if_true, Bool.false_eq_true, if_false] at ends
    · rw [List.isEmpty_iff.mp none, List.isEmpty_iff.mp none']
      exact ⟨rfl, by simpa using ends⟩
    · cases ends
    · cases ends
    · simp only [List.cons_append, List.append_assoc, List.cons.injEq, true_and] at ends
      obtain ⟨rfl, rfl⟩ := writeAll_inj lawful children children' below below' ends
      exact ⟨rfl, rfl⟩

theorem writeAll_inj (lawful : L.Lawful) {depth outer : Nat} {name u v : List UInt8} : (es es' : List Element) →
    AllElements LegalTag es → AllElements LegalTag es' →
    L.writeAll depth es ++ (L.indent outer ++ (closing name ++ u)) =
      L.writeAll depth es' ++ (L.indent outer ++ (closing name ++ v)) → es = es' ∧ u = v
  | [], [], _, _, same => ⟨rfl, by simpa [writeAll] using same⟩
  | [], e :: es, _, ⟨here, _⟩, same => by
    rw [writeAll, writeAll, List.nil_append, List.append_assoc] at same
    exact absurd same (closing_ne_write here [] (notMem_indent outer) List.not_mem_nil)
  | e :: es, [], ⟨here, _⟩, _, same => by
    rw [writeAll, writeAll, List.nil_append, List.append_assoc] at same
    exact absurd same.symm (closing_ne_write here [] (notMem_indent outer) List.not_mem_nil)
  | e :: es, e' :: es', ⟨here, later⟩, ⟨here', later'⟩, same => by
    rw [writeAll, writeAll, List.append_assoc, List.append_assoc] at same
    obtain ⟨rfl, others⟩ := write_inj lawful e e' here here' same
    obtain ⟨rfl, rfl⟩ := writeAll_inj lawful es es' later later' others
    exact ⟨rfl, rfl⟩

end

end TagLayout

end Markup
