import CmarkGfm.Node.Links

/-!
# Checking the links (node.c)

`cmark_node_check` walks along `first_child` and `next`, and repairs the other links on its way. The
way back up leads over the `parent` pointers that it has repaired.
-/

namespace CmarkGfm

namespace Heap

variable {n : Nat}

/-- A heap in which links have been repaired, and the errors in their order: the arguments of
`S_print_error`. -/
abbrev CheckState (n : Nat) := Heap n × List (Fin n × String)

def checkPrev (node : Fin n) (v : Option (Fin n)) (s : CheckState n) : CheckState n :=
  if s.1.prev node ≠ v then (s.1.setPrev node v, s.2 ++ [(node, "prev")]) else s

def checkParent (node : Fin n) (v : Option (Fin n)) (s : CheckState n) : CheckState n :=
  if s.1.parent node ≠ v then (s.1.setParent node v, s.2 ++ [(node, "parent")]) else s

def checkLastChild (node : Fin n) (v : Option (Fin n)) (s : CheckState n) : CheckState n :=
  if s.1.lastChild node ≠ v then (s.1.setLastChild node v, s.2 ++ [(node, "last_child")]) else s

/-- The loop; the flag says whether it is at `next_sibling`. It fails on a null pointer. -/
def checkLoop (node : Fin n) : Nat → Bool → Fin n → CheckState n → Option (CheckState n)
  | 0, _, _, _ => none
  | fuel + 1, false, cur, s =>
    match s.1.firstChild cur with
    | some child => checkLoop node fuel false child (checkParent child (some cur) (checkPrev child none s))
    | none => checkLoop node fuel true cur s
  | fuel + 1, true, cur, s =>
    if cur = node then some s
    else match s.1.next cur with
    | some next =>
      checkLoop node fuel false next (checkParent next (s.1.parent cur) (checkPrev next (some cur) s))
    | none =>
      match s.1.parent cur with
      | some parent => checkLoop node fuel true parent (checkLastChild parent (some cur) s)
      | none => none

/-- `cmark_node_check`: what it returns is the number of errors. The loop comes to a node at most
twice, unless it does not end. -/
def nodeCheck (h : Heap n) (node : Option (Fin n)) : Option (CheckState n) :=
  match node with
  | none => some (h, [])
  | some node => checkLoop node (2 * n) false node (h, [])

end Heap

end CmarkGfm
