import CmarkGfm.Node.Links
import CmarkGfm.Parser.Document
import CmarkGfm.Render.Traversal

/-!
# The iterator on linked nodes (iterator.c)

The iterator holds the event it has returned last and the next one, which it computes from the links
of a node. Nodes may be freed (node.c) between two calls; a call that reads or frees a freed node, a
null pointer that is read, and an assertion that fails are `none`.
-/

namespace CmarkGfm

/-- `cmark_event_type`. -/
inductive EventType where
  | none
  | done
  | enter
  | exit
  deriving DecidableEq

/-- `cmark_iter_state`. -/
structure IterState (n : Nat) where
  evType : EventType
  node : Option (Fin n)
  deriving DecidableEq

/-- `cmark_iter`. -/
structure Iter (n : Nat) where
  root : Fin n
  cur : IterState n
  next : IterState n

/-- `cmark_iter_new`. -/
def iterNew {n : Nat} (root : Fin n) : Iter n where
  root := root
  cur := ⟨.none, none⟩
  next := ⟨.enter, some root⟩

namespace Heap

variable {n : Nat} (h : Heap n)

/-- Roll forward from the last event of a node. -/
def iterAfter (root node : Fin n) : Option (IterState n) :=
  if node = root then
    -- don't move past root
    some ⟨.done, none⟩
  else match h.next node with
  | some next => some ⟨.enter, some next⟩
  | none =>
    match h.parent node with
    | some parent => some ⟨.exit, some parent⟩
    -- assert(false)
    | none => none

/-- Roll forward to the next item. -/
def iterForward (root : Fin n) (evType : EventType) (node : Fin n) : Option (IterState n) :=
  if evType = .enter ∧ ¬ (h.data node).type.isLeaf then
    match h.firstChild node with
    -- stay on this node but exit
    | none => some ⟨.exit, some node⟩
    | some child => some ⟨.enter, some child⟩
  else h.iterAfter root node

/-- `cmark_iter_next`. -/
def iterNext (iter : Iter n) : Option (Iter n × EventType) :=
  let evType := iter.next.evType
  if evType = .done then some ({ iter with cur := iter.next }, evType)
  else match iter.next.node with
  | none => none
  | some node =>
    (h.iterForward iter.root evType node).map fun next =>
      ({ iter with cur := iter.next, next := next }, evType)

/-- The events until `CMARK_EVENT_DONE`, if there are not more than the fuel. -/
def iterEvents : Nat → Iter n → Option (List (IterState n))
  | 0, _ => none
  | fuel + 1, iter =>
    match h.iterNext iter with
    | none => none
    | some (_, .done) => some []
    | some (iter, _) => (iterEvents fuel iter).map fun events => iter.cur :: events

end Heap

/-- The nodes, and which of them have been freed. -/
structure Store (n : Nat) where
  heap : Heap n
  freed : Fin n → Bool

namespace Store

variable {n : Nat} (m : Store n)

/-- `S_free_nodes`: free a list of nodes and any children. -/
def freeNodes : Nat → Store n → Option (Fin n) → Option (Store n)
  | _, m, none => some m
  | 0, _, some _ => none
  | fuel + 1, m, some e =>
    if m.freed e then none
    else match m.heap.lastChild e with
    | none => freeNodes fuel { m with freed := Function.update m.freed e true } (m.heap.next e)
    | some last =>
      if m.freed last then none
      else
        -- Splice children into list
        let heap := (m.heap.setNext last (m.heap.next e)).setNext e (m.heap.firstChild e)
        freeNodes fuel { heap := heap, freed := Function.update m.freed e true } (heap.next e)

/-- `cmark_node_free`. -/
def nodeFree (node : Fin n) : Option (Store n) :=
  -- S_node_unlink
  if m.freed node || (m.heap.prev node).any m.freed || (m.heap.next node).any m.freed ||
      (m.heap.parent node).any m.freed then none
  else freeNodes n { m with heap := (m.heap.unlinkNode node).setNext node none } (some node)

/-- The nodes that the loop of `S_free_nodes` frees, in that order. -/
def freedNodes : Nat → Store n → Option (Fin n) → Option (List (Fin n))
  | _, _, none => some []
  | 0, _, some _ => none
  | fuel + 1, m, some e =>
    if m.freed e then none
    else match m.heap.lastChild e with
    | none =>
      (freedNodes fuel { m with freed := Function.update m.freed e true } (m.heap.next e)).map (e :: ·)
    | some last =>
      if m.freed last then none
      else
        let heap := (m.heap.setNext last (m.heap.next e)).setNext e (m.heap.firstChild e)
        (freedNodes fuel { heap := heap, freed := Function.update m.freed e true } (heap.next e)).map (e :: ·)

/-- The nodes that `cmark_node_free` frees, in that order. -/
def nodeFreed (node : Fin n) : Option (List (Fin n)) :=
  if m.freed node || (m.heap.prev node).any m.freed || (m.heap.next node).any m.freed ||
      (m.heap.parent node).any m.freed then none
  else freedNodes n { m with heap := (m.heap.unlinkNode node).setNext node none } (some node)

/-- `cmark_iter_next`, which reads the node of the next event. -/
def iterNext (iter : Iter n) : Option (Iter n × EventType) :=
  if iter.next.node.any m.freed then none else m.heap.iterNext iter

/-- A loop over the events that frees the chosen nodes when they are exited, and those of a leaf type
when they are entered. -/
def iterDelete (chosen : Fin n → Bool) : Nat → Store n → Iter n → Option (List (IterState n) × Store n)
  | 0, _, _ => none
  | fuel + 1, m, iter =>
    match m.iterNext iter with
    | none => none
    | some (_, .done) => some ([], m)
    | some (iter, evType) =>
      match iter.cur.node with
      | none => none
      | some node => do
        let m ← if chosen node ∧ (evType = .exit ∨ (m.heap.data node).type.isLeaf) then m.nodeFree node
          else some m
        let (events, m) ← iterDelete chosen fuel m iter
        some (iter.cur :: events, m)

/-- Is the next sibling a text node? -/
def nextIsText (cur : Fin n) : Option Bool :=
  match m.heap.next cur with
  | none => some false
  | some next => if m.freed next then none else some ((m.heap.data next).type = .text)

/-- The inner loop of `cmark_consolidate_text_nodes`: put the literals of the text nodes from `tmp` on
into `buf`, free them, and advance the iterator. -/
def mergeTexts (cur : Fin n) : Nat → Store n → Iter n → Bytes → Option (Fin n) →
    Option (Store n × Iter n × Bytes)
  | _, m, iter, buf, none => some (m, iter, buf)
  | 0, _, _, _, some _ => none
  | fuel + 1, m, iter, buf, some tmp =>
    if m.freed tmp then none
    else if (m.heap.data tmp).type = .text then do
      let (iter, _) ← m.iterNext iter -- advance pointer
      let buf := buf ++ (m.heap.data tmp).as.getLiteral
      let data := { m.heap.data cur with endColumn := (m.heap.data tmp).endColumn }
      let m := { m with heap := m.heap.setData cur data }
      let next := m.heap.next tmp
      let m ← m.nodeFree tmp
      mergeTexts cur fuel m iter buf next
    else some (m, iter, buf)

/-- The loop of `cmark_consolidate_text_nodes`. -/
def consolidateFrom : Nat → Store n → Iter n → Option (Store n)
  | 0, _, _ => none
  | fuel + 1, m, iter =>
    match m.iterNext iter with
    | none => none
    | some (_, .done) => some m
    | some (iter, evType) =>
      match iter.cur.node with
      | none => none
      | some cur => do
        let merges ← if evType = .enter ∧ (m.heap.data cur).type = .text then m.nextIsText cur else some false
        if merges then
          let (m, iter, buf) ← mergeTexts cur n m iter (m.heap.data cur).as.getLiteral (m.heap.next cur)
          let data := { m.heap.data cur with as := .literal buf, chunkPos := none }
          consolidateFrom fuel { m with heap := m.heap.setData cur data } iter
        else consolidateFrom fuel m iter

/-- `cmark_consolidate_text_nodes`. -/
def consolidateTextNodes (fuel : Nat) (m : Store n) (root : Fin n) : Option (Store n) :=
  consolidateFrom fuel m (iterNew root)

end Store

end CmarkGfm
