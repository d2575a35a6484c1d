import CmarkGfm.Node.Types

/-!
# Trees of nodes

A finished tree, or the children of the block whose inlines are being parsed. A node
carries its address, by which the delimiter and bracket stacks refer to it; the
`next`/`prev`/`parent` links are the places in the lists.
-/

namespace CmarkGfm

inductive Node where
  | mk (id : NodeId) (data : NodeData) (children : List Node)

namespace Node

def id : Node → NodeId
  | mk i _ _ => i

def data : Node → NodeData
  | mk _ d _ => d

def children : Node → List Node
  | mk _ _ cs => cs

def type (n : Node) : NodeType := n.data.type

def literal (n : Node) : Bytes := n.data.as.getLiteral

/-- A node without children. -/
def leaf (id : NodeId) (data : NodeData) : Node := mk id data []

def setData (d : NodeData) : Node → Node
  | mk i _ cs => mk i d cs

section

variable (n : Node) (i : NodeId) (d e : NodeData) (cs : List Node)

@[simp] theorem id_mk : (mk i d cs).id = i := rfl

@[simp] theorem data_mk : (mk i d cs).data = d := rfl

@[simp] theorem children_mk : (mk i d cs).children = cs := rfl

@[simp] theorem id_leaf : (leaf i d).id = i := rfl

@[simp] theorem data_leaf : (leaf i d).data = d := rfl

@[simp] theorem children_leaf : (leaf i d).children = [] := rfl

@[simp] theorem id_setData : (n.setData d).id = n.id := by cases n; rfl

@[simp] theorem data_setData : (n.setData d).data = d := by cases n; rfl

@[simp] theorem children_setData : (n.setData d).children = n.children := by cases n; rfl

end

end Node

/-- A list of siblings. -/
abbrev Forest := List Node

/-- Is the node one of these siblings? -/
def hasSibling (i : NodeId) (f : Forest) : Bool := f.any fun n => n.id == i

/-- The siblings before a node, and the node with those after it. -/
def siblingsBefore (i : NodeId) (f : Forest) : Forest := f.takeWhile fun n => n.id != i

def siblingsFrom (i : NodeId) (f : Forest) : Forest := f.dropWhile fun n => n.id != i

/-- The siblings after a node (`next`, `next->next`, ...). -/
def siblingsAfter (i : NodeId) (f : Forest) : Forest := (siblingsFrom i f).tail

mutual

/-- Apply `g` to the list of siblings, below this node, that holds node `i`. -/
def Node.editSiblings (i : NodeId) (g : Forest → Forest) : Node → Node
  | .mk j d cs => .mk j d (if hasSibling i cs then g cs else editSiblingsList i g cs)

def editSiblingsList (i : NodeId) (g : Forest → Forest) : Forest → Forest
  | [] => []
  | n :: ns => n.editSiblings i g :: editSiblingsList i g ns

end

/-- Apply `g` to the list of siblings that holds node `i`, at any depth. -/
def editSiblings (i : NodeId) (g : Forest → Forest) (f : Forest) : Forest :=
  if hasSibling i f then g f else editSiblingsList i g f

/-- Replace the data of a node among its siblings. -/
def editSibling (i : NodeId) (g : NodeData → NodeData) (f : Forest) : Forest :=
  f.map fun n => if n.id == i then n.setData (g n.data) else n

/-- Write fields of node `i`, wherever it is. -/
def editData (i : NodeId) (g : NodeData → NodeData) (f : Forest) : Forest :=
  editSiblings i (editSibling i g) f

/-- `cmark_node_free`: unlink a node and drop it with everything below it. -/
def freeNode (i : NodeId) (f : Forest) : Forest :=
  editSiblings i (fun l => l.filter fun n => n.id != i) f

mutual

/-- Rewrite the data of every node. -/
def Node.mapData (g : NodeId → NodeData → NodeData) : Node → Node
  | .mk i d cs => .mk i (g i d) (mapDataList g cs)

def mapDataList (g : NodeId → NodeData → NodeData) : Forest → Forest
  | [] => []
  | n :: ns => n.mapData g :: mapDataList g ns

end

mutual

/-- The node with address `i`, in document order. -/
def Node.find? (i : NodeId) : Node → Option Node
  | .mk j d cs => if j == i then some (.mk j d cs) else findNode? i cs

def findNode? (i : NodeId) : Forest → Option Node
  | [] => none
  | n :: ns => (n.find? i).or (findNode? i ns)

end

mutual

/-- The data of the parent of node `i`, and the siblings among which `i` is. -/
def Node.familyOf? (i : NodeId) : Node → Option (NodeData × Forest)
  | .mk _ d cs => if hasSibling i cs then some (d, cs) else familyOfList? i cs

def familyOfList? (i : NodeId) : Forest → Option (NodeData × Forest)
  | [] => none
  | n :: ns => (n.familyOf? i).or (familyOfList? i ns)

end

/-- The family of a node below `parent`, whose children are `f`. -/
def familyOf? (i : NodeId) (parent : NodeData) (f : Forest) : Option (NodeData × Forest) :=
  if hasSibling i f then some (parent, f) else familyOfList? i f

/-- The data of a node referred to by its address. -/
def dataOf (i : NodeId) (f : Forest) : NodeData := (findNode? i f).elim default Node.data

/-- The literal of a node referred to by its address. -/
def literalOf (i : NodeId) (f : Forest) : Bytes := (dataOf i f).as.getLiteral

end CmarkGfm
