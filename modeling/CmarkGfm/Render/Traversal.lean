import CmarkGfm.Node.Tree

/-!
# iterator.c

A renderer is called at every event of the iterator, and looks at the node and at what is
around it: the nodes above, the siblings, and whether it is a node seen before.
-/

namespace CmarkGfm

/-- `S_is_leaf`: the iterator does not look at the children of these. -/
def NodeType.isLeaf : NodeType → Bool
  | .htmlBlock | .thematicBreak | .codeBlock | .text | .softbreak | .linebreak | .code
  | .htmlInline => true
  | _ => false

/-- What the links of a node lead to: the nodes above it, nearest first, and its siblings,
nearest first. The position of the node in the tree, below the root of the traversal,
stands for its address. -/
structure Place where
  path : List Nat := []
  ancestors : List NodeData := []
  before : Forest := []
  after : Forest := []

namespace Place

/-- `node->parent` -/
def parent (place : Place) : Option NodeData := place.ancestors.head?

/-- `node->parent->parent`, and NULL without a parent. -/
def grandparent (place : Place) : Option NodeData := place.ancestors.tail.head?

/-- The place of a child. -/
def below (place : Place) (d : NodeData) (before after : Forest) : Place where
  path := before.length :: place.path
  ancestors := d :: place.ancestors
  before := before
  after := after

end Place

/-- An event of the iterator. -/
structure Visit where
  entering : Bool
  node : Node
  place : Place

mutual

/-- The events `cmark_iter_next` gives between the start at a node and `CMARK_EVENT_DONE`. -/
def Node.visits (place : Place) : Node → List Visit
  | .mk i d cs =>
    if d.type.isLeaf then [⟨true, .mk i d cs, place⟩]
    else ⟨true, .mk i d cs, place⟩ :: (visitsFrom place d [] cs ++ [⟨false, .mk i d cs, place⟩])

/-- The events of the siblings after `before`, below a node with data `d` at `place`. -/
def visitsFrom (place : Place) (d : NodeData) (before : Forest) : Forest → List Visit
  | [] => []
  | n :: after =>
    n.visits (place.below d before after) ++ visitsFrom place d (n :: before) after

end

end CmarkGfm
