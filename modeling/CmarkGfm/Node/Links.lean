import Mathlib.Logic.Function.Basic
import CmarkGfm.Parser.State

/-!
# The tree interface on linked nodes (node.c)

Here the links are fields that the calls write one after the other. A heap holds the nodes a
caller has made, and a null pointer is `none`.
-/

namespace CmarkGfm

/-- `n` nodes, field by field. `mem` is the allocator of a node. -/
structure Heap (n : Nat) where
  mem : Fin n → Nat
  data : Fin n → NodeData
  next : Fin n → Option (Fin n)
  prev : Fin n → Option (Fin n)
  parent : Fin n → Option (Fin n)
  firstChild : Fin n → Option (Fin n)
  lastChild : Fin n → Option (Fin n)

namespace Heap

variable {n : Nat} (P : Config) (h : Heap n)

def setNext (node : Fin n) (v : Option (Fin n)) : Heap n :=
  { h with next := Function.update h.next node v }

def setPrev (node : Fin n) (v : Option (Fin n)) : Heap n :=
  { h with prev := Function.update h.prev node v }

def setParent (node : Fin n) (v : Option (Fin n)) : Heap n :=
  { h with parent := Function.update h.parent node v }

def setFirstChild (node : Fin n) (v : Option (Fin n)) : Heap n :=
  { h with firstChild := Function.update h.firstChild node v }

def setLastChild (node : Fin n) (v : Option (Fin n)) : Heap n :=
  { h with lastChild := Function.update h.lastChild node v }

def setData (node : Fin n) (d : NodeData) : Heap n :=
  { h with data := Function.update h.data node d }

/-- `if (node) node->next = v`. -/
def setNextIf (node v : Option (Fin n)) : Heap n :=
  match node with
  | some node => h.setNext node v
  | none => h

/-- `if (node) node->prev = v`. -/
def setPrevIf (node v : Option (Fin n)) : Heap n :=
  match node with
  | some node => h.setPrev node v
  | none => h

theorem setNextIf_eq (node v : Option (Fin n)) :
    h.setNextIf node v = { h with next := fun c => if node = some c then v else h.next c } := by
  cases node with
  | none => simp [setNextIf]
  | some a =>
    simp only [setNextIf, setNext, Option.some.injEq]
    congr 1
    funext c
    simp [Function.update_apply, eq_comm]

theorem setPrevIf_eq (node v : Option (Fin n)) :
    h.setPrevIf node v = { h with prev := fun c => if node = some c then v else h.prev c } := by
  cases node with
  | none => simp [setPrevIf]
  | some a =>
    simp only [setPrevIf, setPrev, Option.some.injEq]
    congr 1
    funext c
    simp [Function.update_apply, eq_comm]

/-- The loop of the safety check: is `child` met on the way up from `cur`? The way up has at
most as many nodes as the heap, unless it is a cycle, on which the loop does not end. -/
def meetsAncestor (child : Fin n) : Nat → Fin n → Option Bool
  | 0, _ => none
  | fuel + 1, cur =>
    if cur = child then some true
    else match h.parent cur with
    | some parent => meetsAncestor child fuel parent
    | none => some false

/-- `S_can_contain`, with safety checks; `none` if it does not return. -/
def canContain (node child : Option (Fin n)) : Option Bool :=
  match node, child with
  | some node, some child =>
    if h.mem node ≠ h.mem child then some false
    else match h.meetsAncestor child n node with
    | none => none
    | some true => some false
    | some false => some (P.nodeCanContainType (h.data node) (h.data child).type)
  | _, _ => some false

/-- `S_node_unlink`: unlink a node without adjusting its next, prev, and parent pointers. -/
def unlinkNode (node : Fin n) : Heap n :=
  let h := h.setNextIf (h.prev node) (h.next node)
  let h := h.setPrevIf (h.next node) (h.prev node)
  -- Adjust first_child and last_child of parent.
  match h.parent node with
  | some parent =>
    let h := if h.firstChild parent = some node then h.setFirstChild parent (h.next node) else h
    if h.lastChild parent = some node then h.setLastChild parent (h.prev node) else h
  | none => h

/-- `cmark_node_unlink`. -/
def nodeUnlink (node : Fin n) : Heap n :=
  (((h.unlinkNode node).setNext node none).setPrev node none).setParent node none

/-- The writes of `cmark_node_insert_before`, once the arguments are accepted. -/
def linkBefore (node sibling : Fin n) : Heap n :=
  let h := h.unlinkNode sibling
  let oldPrev := h.prev node
  -- Insert 'sibling' between 'old_prev' and 'node'.
  let h := h.setNextIf oldPrev (some sibling)
  let h := h.setPrev sibling oldPrev
  let h := h.setNext sibling (some node)
  let h := h.setPrev node (some sibling)
  -- Set new parent.
  let parent := h.parent node
  let h := h.setParent sibling parent
  -- Adjust first_child of parent if inserted as first child.
  match parent, oldPrev with
  | some parent, none => h.setFirstChild parent (some sibling)
  | _, _ => h

/-- The writes of `cmark_node_insert_after`. -/
def linkAfter (node sibling : Fin n) : Heap n :=
  let h := h.unlinkNode sibling
  let oldNext := h.next node
  -- Insert 'sibling' between 'node' and 'old_next'.
  let h := h.setPrevIf oldNext (some sibling)
  let h := h.setNext sibling oldNext
  let h := h.setPrev sibling (some node)
  let h := h.setNext node (some sibling)
  -- Set new parent.
  let parent := h.parent node
  let h := h.setParent sibling parent
  -- Adjust last_child of parent if inserted as last child.
  match parent, oldNext with
  | some parent, none => h.setLastChild parent (some sibling)
  | _, _ => h

/-- The writes of `cmark_node_prepend_child`. -/
def linkFirst (node child : Fin n) : Heap n :=
  let h := h.unlinkNode child
  let oldFirstChild := h.firstChild node
  let h := h.setNext child oldFirstChild
  let h := h.setPrev child none
  let h := h.setParent child (some node)
  let h := h.setFirstChild node (some child)
  match oldFirstChild with
  | some oldFirstChild => h.setPrev oldFirstChild (some child)
  -- Also set last_child if node previously had no children.
  | none => h.setLastChild node (some child)

/-- The writes of `cmark_node_append_child`. -/
def linkLast (node child : Fin n) : Heap n :=
  let h := h.unlinkNode child
  let oldLastChild := h.lastChild node
  let h := h.setNext child none
  let h := h.setPrev child oldLastChild
  let h := h.setParent child (some node)
  let h := h.setLastChild node (some child)
  match oldLastChild with
  | some oldLastChild => h.setNext oldLastChild (some child)
  -- Also set first_child if node previously had no children.
  | none => h.setFirstChild node (some child)

/-- `cmark_node_insert_before`: the heap, and whether the call succeeded. -/
def insertBefore (node sibling : Option (Fin n)) : Option (Heap n × Bool) :=
  match node, sibling with
  | some node, some sibling =>
    match h.parent node with
    | none => some (h, false)
    | some parent => do
      if ← h.canContain P (some parent) (some sibling) then
        some (h.linkBefore node sibling, true)
      else some (h, false)
  | _, _ => some (h, false)

/-- `cmark_node_insert_after`. -/
def insertAfter (node sibling : Option (Fin n)) : Option (Heap n × Bool) :=
  match node, sibling with
  | some node, some sibling =>
    match h.parent node with
    | none => some (h, false)
    | some parent => do
      if ← h.canContain P (some parent) (some sibling) then
        some (h.linkAfter node sibling, true)
      else some (h, false)
  | _, _ => some (h, false)

/-- `cmark_node_replace`. -/
def replace (oldnode newnode : Option (Fin n)) : Option (Heap n × Bool) := do
  let (h, inserted) ← h.insertBefore P oldnode newnode
  match inserted, oldnode with
  | true, some oldnode => some (h.nodeUnlink oldnode, true)
  | _, _ => some (h, false)

/-- `cmark_node_prepend_child`. -/
def prependChild (node child : Option (Fin n)) : Option (Heap n × Bool) := do
  match ← h.canContain P node child, node, child with
  | true, some node, some child => some (h.linkFirst node child, true)
  | _, _, _ => some (h, false)

/-- `cmark_node_append_child`. -/
def appendChild (node child : Option (Fin n)) : Option (Heap n × Bool) := do
  match ← h.canContain P node child, node, child with
  | true, some node, some child => some (h.linkLast node child, true)
  | _, _, _ => some (h, false)

/-- `cmark_node_set_type`. -/
def setType (node : Fin n) (type : NodeType) : Option (Heap n × Bool) :=
  if type = (h.data node).type then some (h, true)
  else do
    let initialType := (h.data node).type
    let h := h.setData node { h.data node with type := type }
    if ← h.canContain P (h.parent node) (some node) then
      -- free_node_as
      some (h.setData node { h.data node with as := .empty }, true)
    else some (h.setData node { h.data node with type := initialType }, false)

end Heap

/-- A call of the interface. Unlinking and retyping do not take a null pointer. -/
inductive TreeCall (n : Nat) where
  | unlink (node : Fin n)
  | insertBefore (node sibling : Option (Fin n))
  | insertAfter (node sibling : Option (Fin n))
  | replace (oldnode newnode : Option (Fin n))
  | prependChild (node child : Option (Fin n))
  | appendChild (node child : Option (Fin n))
  | setType (node : Fin n) (type : NodeType)
  deriving DecidableEq

/-- What a call does; a call that returns nothing counts as one that succeeds. -/
def Heap.call {n : Nat} (P : Config) (h : Heap n) : TreeCall n → Option (Heap n × Bool)
  | .unlink node => some (h.nodeUnlink node, true)
  | .insertBefore node sibling => h.insertBefore P node sibling
  | .insertAfter node sibling => h.insertAfter P node sibling
  | .replace oldnode newnode => h.replace P oldnode newnode
  | .prependChild node child => h.prependChild P node child
  | .appendChild node child => h.appendChild P node child
  | .setType node type => h.setType P node type

end CmarkGfm
