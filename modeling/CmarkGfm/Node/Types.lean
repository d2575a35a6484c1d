import CmarkGfm.Bytes

/-! # Node types, node contents and the containment table -/

namespace CmarkGfm

/-- `cmark_node_type`, with the values extensions register. -/
inductive NodeType where
  | none
  | document
  | blockQuote
  | list
  | item
  | codeBlock
  | htmlBlock
  | customBlock
  | paragraph
  | heading
  | thematicBreak
  | footnoteDefinition
  | text
  | softbreak
  | linebreak
  | code
  | htmlInline
  | customInline
  | emph
  | strong
  | link
  | image
  | footnoteReference
  | attribute
  | extensionBlock (n : Nat)
  | extensionInline (n : Nat)
  deriving DecidableEq, Inhabited

namespace NodeType

/-- `CMARK_NODE_TYPE_BLOCK_P`. -/
def isBlock : NodeType → Bool
  | .document | .blockQuote | .list | .item | .codeBlock | .htmlBlock | .customBlock
  | .paragraph | .heading | .thematicBreak | .footnoteDefinition | .extensionBlock _ => true
  | _ => false

/-- `CMARK_NODE_TYPE_INLINE_P`. -/
def isInline : NodeType → Bool
  | .text | .softbreak | .linebreak | .code | .htmlInline | .customInline | .emph | .strong
  | .link | .image | .footnoteReference | .attribute | .extensionInline _ => true
  | _ => false

/-- `cmark_node_can_contain_type` for a node without extension. -/
def canContainType (parent child : NodeType) : Bool :=
  if child = .document then false
  else match parent with
  | .document | .blockQuote | .footnoteDefinition | .item => child.isBlock && child ≠ .item
  | .list => child = .item
  | .customBlock => true
  | .paragraph | .heading | .emph | .strong | .link | .image | .attribute | .customInline =>
    child.isInline
  | _ => false

end NodeType

inductive ListType where
  | noList
  | bullet
  | ordered
  deriving DecidableEq, Inhabited

inductive DelimType where
  | noDelim
  | period
  | paren
  deriving DecidableEq, Inhabited

/-- `cmark_list`. -/
structure ListData where
  listType : ListType
  markerOffset : Int
  padding : Int
  start : Nat
  delimiter : DelimType
  bulletChar : UInt8
  tight : Bool
  checked : Bool
  deriving DecidableEq, Inhabited

/-- `cmark_code`. -/
structure CodeData where
  info : Bytes
  literal : Bytes
  fenceLength : Nat
  fenceOffset : Nat
  fenceChar : UInt8
  fenced : Bool
  deriving DecidableEq, Inhabited

/-- `node_table`. -/
structure Table.TableData where
  nColumns : Nat
  alignments : List UInt8
  nRows : Nat
  nNonemptyCells : Nat
  deriving DecidableEq, Inhabited

/-- `node_cell_data`. -/
structure Table.CellData where
  colspan : Nat
  rowspan : Nat
  cellIndex : Nat
  deriving DecidableEq

/-- What an extension hangs on a node of its own: `node_table`, `node_table_row` and `node_cell_data`. -/
inductive OpaqueData where
  | table (t : Table.TableData)
  | tableRow (isHeader : Bool)
  | tableCell (c : Table.CellData)
  deriving DecidableEq

/-- The union `as` of a node. Reading another member than the one last written does
not happen in the functions modelled; the accessors give an empty value there. -/
inductive NodeAs where
  | empty
  | literal (s : Bytes)
  | list (l : ListData)
  | code (c : CodeData)
  | heading (level : Nat) (setext : Bool)
  | link (url title : Bytes)
  | attribute (attributes : Bytes)
  | custom (onEnter onExit : Bytes)
  | htmlBlockType (n : Nat)
  | opaqueData (o : OpaqueData)
  deriving DecidableEq, Inhabited

namespace NodeAs

def getLiteral : NodeAs → Bytes
  | literal s => s
  | _ => []

def getList : NodeAs → ListData
  | list l => l
  | _ => default

def getCode : NodeAs → CodeData
  | code c => c
  | _ => default

def getSetext : NodeAs → Bool
  | heading _ setext => setext
  | _ => false

def getLevel : NodeAs → Nat
  | heading level _ => level
  | _ => 0

def getUrl : NodeAs → Bytes
  | link url _ => url
  | _ => []

def getTitle : NodeAs → Bytes
  | link _ title => title
  | _ => []

def getAttributes : NodeAs → Bytes
  | «attribute» attributes => attributes
  | _ => []

def getOnEnter : NodeAs → Bytes
  | custom onEnter _ => onEnter
  | _ => []

def getOnExit : NodeAs → Bytes
  | custom _ onExit => onExit
  | _ => []

def getHtmlBlockType : NodeAs → Nat
  | htmlBlockType n => n
  | _ => 0

end NodeAs

/-- The address of a node. -/
abbrev NodeId := Nat

/-- The fields of `cmark_node` other than the links. `extension` is the position of the
extension in the list attached to the parser; `refIx` is the union `footnote`: `ref_ix` of a
reference, `def_count` of a definition. `chunkPos` says where in the content being parsed the literal points, if it
does not own its bytes. `tableVisited` is the flag that table.c registers. -/
structure NodeData where
  type : NodeType
  content : Bytes := []
  isOpen : Bool := false
  lastLineBlank : Bool := false
  lastLineChecked : Bool := false
  tableVisited : Bool := false
  startLine : Int := 0
  startColumn : Int := 0
  endLine : Int := 0
  endColumn : Int := 0
  internalOffset : Nat := 0
  backtickCount : Nat := 0
  extension : Option Nat := none
  refIx : Nat := 0
  parentFootnoteDef : Option NodeId := none
  as : NodeAs := .empty
  chunkPos : Option Nat := none
  deriving DecidableEq, Inhabited

end CmarkGfm
