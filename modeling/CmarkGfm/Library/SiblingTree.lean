import Mathlib.Data.List.Nodup

/-!
# Trees of first children and next siblings

Two links lead forward through such a tree, and three lead back. `Spans` says what the forward links
reach. `Checked` is what a walk along the forward links can see of the backward links: all but the
last child of an element without a first one. `Consistent` includes it.
-/

/-- An element with what is below it and what follows it. -/
inductive SiblingTree (α : Type*) where
  | nil
  | node (a : α) (children next : SiblingTree α)

namespace SiblingTree

variable {α : Type*}

def nodes : SiblingTree α → List α
  | nil => []
  | node a c x => a :: (c.nodes ++ x.nodes)

/-- From `p` the forward links reach the elements of the tree, in this shape. -/
def Spans (firstChild next : α → Option α) : Option α → SiblingTree α → Prop
  | p, nil => p = none
  | p, node a c x => p = some a ∧ Spans firstChild next (firstChild a) c ∧ Spans firstChild next (next a) x

/-- The links that lead back. -/
structure BackLinks (α : Type*) where
  prev : α → Option α
  parent : α → Option α
  lastChild : α → Option α

/-- The siblings of the tree are below `above` and after `p`, and the last sibling is its last
child. -/
def Checked (l : BackLinks α) (above : α) : Option α → SiblingTree α → Prop
  | p, nil => p ≠ none → l.lastChild above = p
  | p, node a c x => l.prev a = p ∧ l.parent a = some above ∧ Checked l a none c ∧ Checked l above (some a) x

/-- All links back are what the links forward say. -/
def Consistent (l : BackLinks α) (above : α) : Option α → SiblingTree α → Prop
  | p, nil => l.lastChild above = p
  | p, node a c x => l.prev a = p ∧ l.parent a = some above ∧ Consistent l a none c ∧ Consistent l above (some a) x

variable {l l' : BackLinks α} {above : α} {p : Option α} {t : SiblingTree α} {firstChild next : α → Option α}

/-- `Checked` looks at the elements of the tree and at the last child of the one above. -/
theorem checked_congr (top : l'.lastChild above = l.lastChild above)
    (same : ∀ b ∈ t.nodes, l'.prev b = l.prev b ∧ l'.parent b = l.parent b ∧ l'.lastChild b = l.lastChild b) :
    Checked l' above p t ↔ Checked l above p t := by
  induction t generalizing above p with
  | nil => rw [Checked, Checked, top]
  | node a c x ihc ihx =>
    rw [nodes, List.forall_mem_cons] at same
    obtain ⟨⟨prev, parent, last⟩, same⟩ := same
    rw [Checked, Checked, prev, parent, ihc last fun b inside => same b (List.mem_append_left _ inside),
      ihx top fun b inside => same b (List.mem_append_right _ inside)]

theorem Spans.nil_iff (spans : Spans firstChild next p t) : t = nil ↔ p = none := by
  cases t with
  | nil => simp [show p = none from spans]
  | node a c x => simp [spans.1]

/-- Behind `p` or, if there is nothing before the tree, below the element above. -/
theorem consistent_iff_checked {q : Option α} (spans : Spans firstChild next q t) :
    Consistent l above p t ↔ Checked l above p t ∧ (p = none → t = nil → l.lastChild above = none) ∧
      ∀ b ∈ t.nodes, firstChild b = none → l.lastChild b = none := by
  induction t generalizing above p q with
  | nil => cases p <;> simp [Consistent, Checked, nodes]
  | node a c x ihc ihx =>
    obtain ⟨_, below, after⟩ := spans
    have childless := below.nil_iff
    rw [Consistent, Checked, ihc below, ihx after]
    simp only [nodes, List.forall_mem_cons, List.forall_mem_append, childless]
    simp
    tauto

/-- What a walk does not see is the last child of an element that has no first one. -/
theorem consistent_iff (spans : Spans firstChild next (firstChild above) t) :
    Consistent l above none t ↔
      Checked l above none t ∧ ∀ b ∈ above :: t.nodes, firstChild b = none → l.lastChild b = none := by
  rw [consistent_iff_checked spans, spans.nil_iff, List.forall_mem_cons]
  simp

end SiblingTree
