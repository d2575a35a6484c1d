import CmarkGfm.Inlines.Delimiters

/-! # strikethrough.c -/

namespace CmarkGfm

def optStrikethroughDoubleTilde : Nat := 1 <<< 14

/-- `CMARK_NODE_STRIKETHROUGH`, the first inline type that the extensions register. -/
def strikethroughType : NodeType := .extensionInline 0

/-- `cmark_inline_parser_scan_delimiters`: the length of the run, and whether it is left or
right flanking. -/
def inlineParserScanDelimiters (input : Bytes) (pos maxDelims : Nat) (c : UInt8) :
    Nat × Bool × Bool :=
  let beforeChar :=
    if pos = 0 then 10
    else
      let before := beforeCharPos (fun _ => false) input (pos - 1)
      flankingChar (fun _ => false) (chunkDup input before (pos - before))
  let numdelims := min (skipWhile (· == c) input pos - pos) maxDelims
  let afterChar := flankingChar (fun _ => false) (input.drop (pos + numdelims))
  let punctBefore := utf8IsPunctuation beforeChar
  let punctAfter := utf8IsPunctuation afterChar
  let spaceBefore := utf8IsSpace beforeChar
  let spaceAfter := utf8IsSpace afterChar
  (numdelims, numdelims > 0 && !spaceAfter && !(punctAfter && !spaceBefore && !punctBefore),
    numdelims > 0 && !spaceBefore && !(punctBefore && !spaceAfter && !punctAfter))

namespace Strikethrough

/-- `match`: the tildes as text, on the delimiter stack if they are one or two. -/
def matchInline (options : Options) (subj : Subject) (character : UInt8) :
    Subject × Option Node :=
  if character != chr '~' then (subj, none)
  else
    let (delims, leftFlanking, rightFlanking) :=
      inlineParserScanDelimiters subj.input subj.pos 100 (chr '~')
    let subj := subj.advance delims
    let (subj, res) := subj.alloc
      { type := .text
        as := .literal (List.replicate delims (chr '~'))
        startLine := subj.line
        endLine := subj.line
        startColumn := subj.column subj.pos - delims }
    if (leftFlanking || rightFlanking) &&
        (delims == 2 || (!options.has optStrikethroughDoubleTilde && delims == 1)) then
      (pushDelimiter subj character leftFlanking rightFlanking res, some res)
    else (subj, some res)

/-- `can_contain`. -/
def canContain (node : NodeData) (childType : NodeType) : Bool :=
  node.type = strikethroughType && childType.isInline

/-- `cmark_node_append_child` lets a strikethrough node take it. -/
def takes (n : Node) : Bool := n.type ≠ .document && n.type.isInline

/-- What the text node of the opener becomes. -/
def nodeData (self : Nat) (closer opener : NodeData) : NodeData :=
  { opener with
    type := strikethroughType
    extension := some self
    as := .empty
    chunkPos := none
    endLine := closer.endLine
    endColumn := closer.startColumn + closer.as.getLiteral.length - 1 }

/-- The strikethrough node takes the siblings up to the closer, whose text node is freed. -/
def insertNodes (self : Nat) (opener closer : NodeId) (closerData : NodeData) (siblings : Forest) :
    Forest :=
  let after := siblingsAfter opener siblings
  let between := after.takeWhile fun n => n.id != closer
  let strikethrough := fun n : Node =>
    Node.mk n.id (nodeData self closerData n.data) (between.filter takes)
  siblingsBefore opener siblings ++ ((siblingsFrom opener siblings).take 1).map strikethrough ++
    between.filter (fun n => !takes n) ++ (after.dropWhile fun n => n.id != closer).tail

/-- `insert`, where `self` is the place of the extension among those of the parser and `contains` is
`cmark_node_can_contain_type`. -/
def insert (self : Nat) (contains : NodeData → NodeType → Bool) (_ : Options) (subj : Subject)
    (below : List Delimiter) (opener : Delimiter) (_ : List Delimiter) (closer : Delimiter)
    (later : List Delimiter) : Emphasis :=
  let openerInl := dataOf opener.inlText subj.children
  let closerInl := dataOf closer.inlText subj.children
  let accepted := match familyOf? opener.inlText subj.parent subj.children with
    | some (owner, _) => contains owner strikethroughType
    | none => false
  let children :=
    if openerInl.as.getLiteral.length = closerInl.as.getLiteral.length && accepted then
      editSiblings opener.inlText (insertNodes self opener.inlText closer.inlText closerInl)
        subj.children
    else subj.children
  -- the delimiters from the opener to the closer are removed in any case
  { subj := { subj with children := children }, before := below, after := later }

end Strikethrough

/-- `create_strikethrough_extension`, attached to a parser in the place `self`. -/
def strikethroughExtension (self : Nat) (contains : NodeData → NodeType → Bool) : Extension where
  matchInline := some Strikethrough.matchInline
  insertInlineFromDelim := some (Strikethrough.insert self contains)
  specialInlineChars := [chr '~']
  emphasis := true
  canContainFunc := some Strikethrough.canContain

/-- `cmark_node_can_contain_type` when no other extension is attached. -/
def strikethroughContains (node : NodeData) (childType : NodeType) : Bool :=
  if childType = .document then false
  else if node.extension = some 0 then Strikethrough.canContain node childType
  else node.type.canContainType childType

/-- A parser to which only this extension is attached. -/
def withStrikethrough (tables : Tables) (options : Options) : Config where
  tables := tables
  options := options
  syntaxExtensions := [strikethroughExtension 0 strikethroughContains]

theorem nodeCanContainType_withStrikethrough (tables : Tables) (options : Options)
    (node : NodeData) (childType : NodeType) :
    (withStrikethrough tables options).nodeCanContainType node childType =
      strikethroughContains node childType := by
  unfold Config.nodeCanContainType strikethroughContains
  split
  next => rfl
  next =>
    cases place : node.extension with
    | none => simp [Config.extensionOf, place]
    | some i =>
      cases i with
      | zero => simp [Config.extensionOf, place, withStrikethrough, strikethroughExtension]
      | succ i => simp [Config.extensionOf, place, withStrikethrough]

end CmarkGfm
