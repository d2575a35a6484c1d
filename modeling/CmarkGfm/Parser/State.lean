import CmarkGfm.Map
import CmarkGfm.Node.Tree

/-! # The state of the parser, the inline parser and the extensions -/

namespace CmarkGfm

/-! ### Options -/

/-- The `int` of option bits. -/
abbrev Options := Nat

/-- `options & mask`, as a condition. -/
def Options.has (options : Options) (mask : Nat) : Bool := options &&& mask != 0

def optSourcepos : Nat := 1 <<< 1

def optValidateUtf8 : Nat := 1 <<< 9

def optSmart : Nat := 1 <<< 10

def optLiberalHtmlTag : Nat := 1 <<< 12

def optFootnotes : Nat := 1 <<< 13

def optInlineOnly : Nat := 1 <<< 18

/-- A mask of two bits: testing it also holds when only `optInlineOnly` is set. -/
def optPreserveWhitespace : Nat := 1 <<< 19 ||| optInlineOnly

/-! ### The inline parser -/

structure Delimiter where
  inlText : NodeId
  position : Nat
  length : Nat
  delimChar : UInt8
  canOpen : Bool
  canClose : Bool
  deriving DecidableEq, Inhabited

inductive BracketType where
  | link
  | image
  | attribute
  deriving DecidableEq, Inhabited

structure Bracket where
  inlText : NodeId
  position : Nat
  type : BracketType
  bracketAfter : Bool
  inBracket : BracketType → Bool

/-- Bytes cloned out of the reference map into a node. -/
inductive Clone where
  | link (bytes : Nat)
  | attributes (bytes : Nat)
  deriving DecidableEq

def Clone.bytes : Clone → Nat
  | link n => n
  | attributes n => n

/-- `struct subject`, with what the inline parser writes elsewhere: `children` are the
children of the block `parent`, `nextId` is the next fresh address, and `clones` records
the calls of `chunk_clone` on definitions. `delims` and `brackets` are the two stacks,
last element first; `input` is the trimmed content. -/
structure Subject where
  input : Bytes
  parent : NodeData
  skipHtmlCdata : Bool := false
  skipHtmlDeclaration : Bool := false
  skipHtmlPi : Bool := false
  skipHtmlComment : Bool := false
  line : Int
  pos : Nat := 0
  blockOffset : Int
  columnOffset : Int := 0
  refmap : Map Reference
  delims : List Delimiter := []
  brackets : List Bracket := []
  backticks : Nat → Nat := fun _ => 0
  scannedForBackticks : Bool := false
  noLinkOpeners : Bool := true
  children : Forest := []
  nextId : NodeId
  clones : List Clone := []

/-- The state of the loop of `process_emphasis`: the delimiters below the closer, nearest
first, and the closer with those above it. -/
structure Emphasis where
  subj : Subject
  before : List Delimiter
  after : List Delimiter

/-! ### The block parser -/

/-- A block while the document is being read. -/
structure Block where
  data : NodeData
  parent : Option NodeId
  children : List NodeId

instance : Inhabited Block := ⟨⟨default, none, []⟩⟩

/-- The fields of `cmark_parser` that parsing lines writes, and the blocks by address.
`asserts` records whether every assertion met so far held. -/
structure ParserState where
  refmap : Map Reference := .new
  root : NodeId
  current : NodeId
  lineNumber : Nat := 0
  offset : Nat := 0
  column : Nat := 0
  firstNonspace : Nat := 0
  firstNonspaceColumn : Nat := 0
  thematicBreakKillPos : Nat := 0
  indent : Int := 0
  blank : Bool := false
  partiallyConsumedTab : Bool := false
  curline : Bytes := []
  lastLineLength : Nat := 0
  nodes : NodeId → Option Block
  nextId : NodeId
  asserts : Bool := true

/-! ### Extensions and configuration -/

/-- `cmark_syntax_extension` without private data: every callback is a function of what it
is given. Callbacks change the state of the parse, not the configuration of the parser. -/
structure Extension where
  lastBlockMatches : Option (Options → ParserState → Bytes → NodeId → ParserState × Bool) := none
  tryOpeningBlock :
    Option (Options → Bool → ParserState → NodeId → Bytes → ParserState × Option NodeId) := none
  matchInline : Option (Options → Subject → UInt8 → Subject × Option Node) := none
  insertInlineFromDelim : Option (Options → Subject → List Delimiter → Delimiter →
    List Delimiter → Delimiter → List Delimiter → Emphasis) := none
  specialInlineChars : List UInt8 := []
  emphasis : Bool := false
  canContainFunc : Option (NodeData → NodeType → Bool) := none
  containsInlinesFunc : Option (NodeData → Bool) := none
  postprocessFunc : Option (Options → Node → Option Node) := none

/-- What the caller configures. -/
structure Config where
  tables : Tables
  options : Options
  syntaxExtensions : List Extension := []

namespace Config

/-- Extensions with an inline callback, which attaching puts on a list of their own. -/
def inlineSyntaxExtensions (P : Config) : List Extension :=
  P.syntaxExtensions.filter fun e => e.matchInline.isSome || e.insertInlineFromDelim.isSome

def extensionOf (P : Config) (d : NodeData) : Option Extension :=
  d.extension.bind fun i => P.syntaxExtensions[i]?

/-- `cmark_node_can_contain_type`. -/
def nodeCanContainType (P : Config) (node : NodeData) (childType : NodeType) : Bool :=
  if childType = .document then false
  else match (P.extensionOf node).bind (·.canContainFunc) with
  | some f => f node childType
  | none => node.type.canContainType childType

end Config

section

variable {P : Config} (core : P.syntaxExtensions = []) (d : NodeData)

include core

theorem extensionOf_core : P.extensionOf d = none := by
  unfold Config.extensionOf
  rw [core]
  cases d.extension <;> rfl

theorem nodeCanContainType_core (t : NodeType) :
    P.nodeCanContainType d t = d.type.canContainType t := by
  unfold Config.nodeCanContainType NodeType.canContainType
  rw [extensionOf_core core]
  split <;> rfl

end

/-- `special_chars`, `skip_chars` and `backslash_ispunct`. -/
structure CharTables where
  specialChars : UInt8 → Bool
  skipChars : UInt8 → Bool
  backslashIspunct : Option (UInt8 → Bool) := none

end CmarkGfm
