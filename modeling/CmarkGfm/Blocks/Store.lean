import CmarkGfm.Parser.State

/-! # Reading and writing blocks by address -/

namespace CmarkGfm

namespace ParserState

def block (p : ParserState) (i : NodeId) : Block := (p.nodes i).getD default

def dataOf (p : ParserState) (i : NodeId) : NodeData := (p.block i).data

def typeOf (p : ParserState) (i : NodeId) : NodeType := (p.dataOf i).type

def parentOf (p : ParserState) (i : NodeId) : Option NodeId := (p.block i).parent

def childrenOf (p : ParserState) (i : NodeId) : List NodeId := (p.block i).children

def lastChild (p : ParserState) (i : NodeId) : Option NodeId := (p.childrenOf i).getLast?

def isOpen (p : ParserState) (i : NodeId) : Bool := (p.dataOf i).isOpen

/-- Write a block that exists. -/
def modify (p : ParserState) (i : NodeId) (f : Block → Block) : ParserState :=
  { p with nodes := fun j => if j = i then (p.nodes i).map f else p.nodes j }

def modifyData (p : ParserState) (i : NodeId) (f : NodeData → NodeData) : ParserState :=
  p.modify i fun b => { b with data := f b.data }

/-- `assert`. -/
def assert (p : ParserState) (condition : Bool) : ParserState :=
  { p with asserts := p.asserts && condition }

/-- Link a new block behind the last child of `parent`. -/
def appendBlock (p : ParserState) (parent : NodeId) (data : NodeData) : ParserState × NodeId :=
  let child := p.nextId
  let p := p.modify parent fun b => { b with children := b.children ++ [child] }
  ({ p with
      nodes := fun j => if j = child then some ⟨data, some parent, []⟩ else p.nodes j
      nextId := child + 1 }, child)

/-- `cmark_node_free` of a block without children. -/
def freeBlock (p : ParserState) (i : NodeId) : ParserState :=
  let p := match p.parentOf i with
    | some parent => p.modify parent fun b => { b with children := b.children.filter (· != i) }
    | none => p
  { p with nodes := fun j => if j = i then none else p.nodes j }

end ParserState

end CmarkGfm
