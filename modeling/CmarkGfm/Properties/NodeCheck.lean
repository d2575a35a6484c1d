import Mathlib.Data.Fintype.Card
import CmarkGfm.Library.SiblingTree
import CmarkGfm.Node.Check

/-!
# What `cmark_node_check` sees and repairs

Below the root the links forward span a tree. Then the walk comes back to the root, and every link
back that it looks at is repaired; there are errors if and only if one of these was wrong. It never
looks at the last child of a node without a first one.
-/

namespace CmarkGfm

namespace Heap

open SiblingTree

variable {n : Nat}

def backLinks (h : Heap n) : BackLinks (Fin n) := ⟨h.prev, h.parent, h.lastChild⟩

/-! ### One link -/

section

variable (node : Fin n) (v : Option (Fin n)) (s : CheckState n)

theorem checkPrev_eq : checkPrev node v s =
    (s.1.setPrev node v, s.2 ++ if s.1.prev node = v then [] else [(node, "prev")]) := by
  unfold checkPrev setPrev
  by_cases right : s.1.prev node = v
  · simp [right.symm]
  · simp [right]

theorem checkParent_eq : checkParent node v s =
    (s.1.setParent node v, s.2 ++ if s.1.parent node = v then [] else [(node, "parent")]) := by
  unfold checkParent setParent
  by_cases right : s.1.parent node = v
  · simp [right.symm]
  · simp [right]

theorem checkLastChild_eq : checkLastChild node v s =
    (s.1.setLastChild node v, s.2 ++ if s.1.lastChild node = v then [] else [(node, "last_child")]) := by
  unfold checkLastChild setLastChild
  by_cases right : s.1.lastChild node = v
  · simp [right.symm]
  · simp [right]

end

/-! ### The walk -/

/-- What a walk over some nodes below `above` leaves as it was. -/
structure Frame (h h' : Heap n) (above : Fin n) (nodes : List (Fin n)) : Prop where
  mem : h'.mem = h.mem
  data : h'.data = h.data
  firstChild : h'.firstChild = h.firstChild
  next : h'.next = h.next
  prev : ∀ b, b ∉ nodes → h'.prev b = h.prev b
  parent : ∀ b, b ∉ nodes → h'.parent b = h.parent b
  lastChild : ∀ b, b ≠ above → b ∉ nodes → h'.lastChild b = h.lastChild b
  childless : ∀ b, h.firstChild b = none → h'.lastChild b = h.lastChild b

theorem Frame.refl (h : Heap n) (above : Fin n) (nodes : List (Fin n)) : Frame h h above nodes :=
  ⟨rfl, rfl, rfl, rfl, fun _ _ => rfl, fun _ _ => rfl, fun _ _ _ => rfl, fun _ _ => rfl⟩

/-- Two walks in a row are a walk over any nodes that include those of both. -/
theorem Frame.trans {h h' h'' : Heap n} {a above : Fin n} {l l' l'' : List (Fin n)} (first : Frame h h' a l)
    (second : Frame h' h'' above l') (top : a = above ∨ a ∈ l'') (left : l ⊆ l'') (right : l' ⊆ l'') :
    Frame h h'' above l'' where
  mem := second.mem.trans first.mem
  data := second.data.trans first.data
  firstChild := second.firstChild.trans first.firstChild
  next := second.next.trans first.next
  prev b other := (second.prev b fun i => other (right i)).trans (first.prev b fun i => other (left i))
  parent b other := (second.parent b fun i => other (right i)).trans (first.parent b fun i => other (left i))
  lastChild b notAbove other := by
    have notTop : b ≠ a := by
      rintro rfl
      exact top.elim notAbove other
    exact (second.lastChild b notAbove fun i => other (right i)).trans
      (first.lastChild b notTop fun i => other (left i))
  childless b none := by
    have none' : h'.firstChild b = Option.none := by rw [first.firstChild, none]
    exact (second.childless b none').trans (first.childless b none)

/-- Coming to a node, the walk writes its links back. -/
def enter (h : Heap n) (a above : Fin n) (p : Option (Fin n)) : Heap n :=
  (h.setPrev a p).setParent a (some above)

theorem Frame.enter (h : Heap n) (a above : Fin n) (p : Option (Fin n)) :
    Frame h (h.enter a above p) above [a] where
  mem := rfl
  data := rfl
  firstChild := rfl
  next := rfl
  prev _ other := Function.update_of_ne (List.ne_of_not_mem_cons other) ..
  parent _ other := Function.update_of_ne (List.ne_of_not_mem_cons other) ..
  lastChild _ _ _ := rfl
  childless _ _ := rfl

/-- What is wrong with the links back of the node it comes to. -/
def entryErrors (h : Heap n) (a above : Fin n) (p : Option (Fin n)) : List (Fin n × String) :=
  (if h.prev a = p then [] else [(a, "prev")]) ++ if h.parent a = some above then [] else [(a, "parent")]

theorem entryErrors_eq_nil (h : Heap n) (a above : Fin n) (p : Option (Fin n)) :
    h.entryErrors a above p = [] ↔ h.prev a = p ∧ h.parent a = some above := by
  simp [entryErrors]

/-- The link that leads on: to the first child, or from a child to the next one. -/
def following (h : Heap n) (above : Fin n) : Option (Fin n) → Option (Fin n)
  | none => h.firstChild above
  | some p => h.next p

theorem checkLoop_enter (root : Fin n) {h : Heap n} {a above : Fin n} {p : Option (Fin n)}
    (leads : h.following above p = some a) (behind : ∀ q, p = some q → h.parent q = some above ∧ q ≠ root)
    (fuel : Nat) (errors : List (Fin n × String)) :
    checkLoop root (fuel + 1) p.isSome (p.getD above) (h, errors) =
      checkLoop root fuel false a (h.enter a above p, errors ++ h.entryErrors a above p) := by
  cases p with
  | none =>
    have first : h.firstChild above = some a := leads
    simp [checkLoop, first, checkPrev_eq, checkParent_eq, enter, entryErrors, setPrev]
  | some q =>
    have next : h.next q = some a := leads
    obtain ⟨parent, notTop⟩ := behind q rfl
    simp [checkLoop, next, notTop, parent, checkPrev_eq, checkParent_eq, enter, entryErrors, setPrev]

/-- A walk over the nodes of a tree ends at the node above it. -/
theorem checkLoop_walk (root : Fin n) (t : SiblingTree (Fin n)) {h : Heap n} (above : Fin n) (p : Option (Fin n))
    (spans : SiblingTree.Spans h.firstChild h.next (h.following above p) t) (once : t.nodes.Nodup)
    (notAbove : above ∉ t.nodes) (notRoot : root ∉ t.nodes)
    (behind : ∀ q, p = some q → h.parent q = some above ∧ q ≠ root ∧ q ∉ t.nodes ∧ h.firstChild above ≠ none)
    (errors : List (Fin n × String)) :
    ∃ h' found, Frame h h' above t.nodes ∧ Checked h'.backLinks above p t ∧
      (found = [] ↔ Checked h.backLinks above p t) ∧
      ∀ fuel, checkLoop root (fuel + (2 * t.nodes.length + 1)) p.isSome (p.getD above) (h, errors) =
        checkLoop root fuel true above (h', errors ++ found) := by
  induction t generalizing h above p errors with
  | nil =>
    cases p with
    | none =>
      refine ⟨h, [], Frame.refl .., ?_, ?_, ?_⟩
      · simp [Checked]
      · simp [Checked]
      · intro fuel
        have stop : h.firstChild above = none := spans
        simp [checkLoop, stop, nodes]
    | some q =>
      obtain ⟨parent, notTop, _, some⟩ := behind q rfl
      have stop : h.next q = none := spans
      refine ⟨h.setLastChild above q, if h.lastChild above = Option.some q then [] else [(above, "last_child")],
        ⟨rfl, rfl, rfl, rfl, fun _ _ => rfl, fun _ _ => rfl, ?_, ?_⟩, ?_, ?_, ?_⟩
      · intro b other _
        exact Function.update_of_ne other ..
      · intro b childless
        refine Function.update_of_ne ?_ ..
        rintro rfl
        exact some childless
      · intro _
        exact Function.update_self ..
      · simp [Checked, backLinks]
      · intro fuel
        simp [checkLoop, stop, parent, notTop, checkLastChild_eq, nodes]
  | node a c x ihc ihx =>
    obtain ⟨leads, spansC, spansX⟩ := spans
    rw [nodes, List.nodup_cons, List.mem_append, not_or, List.nodup_append] at once
    obtain ⟨⟨notC, notX⟩, onceC, onceX, apart⟩ := once
    rw [nodes, List.mem_cons, List.mem_append, not_or, not_or] at notAbove notRoot
    have some : h.firstChild above ≠ none := by
      cases p with
      | none =>
        have first : h.firstChild above = Option.some a := leads
        simp [first]
      | some q => exact (behind q rfl).2.2.2
    -- The node, the nodes below it, and those after it.
    have frame₁ := Frame.enter h a above p
    obtain ⟨h₂, found₂, frame₂, checked₂, none₂, run₂⟩ :=
      ihc (h := h.enter a above p) a none spansC onceC notC notRoot.2.1 (by simp)
        (errors ++ h.entryErrors a above p)
    have frame₁₂ : Frame h h₂ above (a :: c.nodes) :=
      frame₁.trans (frame₂.trans (Frame.refl h₂ above []) (.inr List.mem_cons_self)
        (List.subset_cons_self a c.nodes) (List.nil_subset _)) (.inl rfl) (by simp) (List.Subset.refl _)
    have prev₂ : h₂.prev a = p := (frame₂.prev a notC).trans (Function.update_self ..)
    have parent₂ : h₂.parent a = Option.some above := (frame₂.parent a notC).trans (Function.update_self ..)
    have spansX₂ : SiblingTree.Spans h₂.firstChild h₂.next (h₂.following above (Option.some a)) x := by
      rw [following, frame₁₂.firstChild, frame₁₂.next]
      exact spansX
    obtain ⟨h₃, found₃, frame₃, checked₃, none₃, run₃⟩ :=
      ihx (h := h₂) above (Option.some a) spansX₂ onceX notAbove.2.2 notRoot.2.2
        (by
          intro q same
          obtain rfl := Option.some.inj same
          refine ⟨parent₂, Ne.symm notRoot.1, notX, ?_⟩
          rw [frame₁₂.firstChild]
          exact some)
        (errors ++ h.entryErrors a above p ++ found₂)
    refine ⟨h₃, h.entryErrors a above p ++ found₂ ++ found₃, ?_, ?_, ?_, ?_⟩
    · exact frame₁₂.trans frame₃ (.inl rfl) (by simp [nodes]) (by simp [nodes])
    · -- What the second walk leaves of the first.
      refine ⟨(frame₃.prev a notX).trans prev₂, (frame₃.parent a notX).trans parent₂, ?_, checked₃⟩
      refine (checked_congr (frame₃.lastChild a (Ne.symm notAbove.1) notX) ?_).mpr checked₂
      intro b inside
      have notLater : b ∉ x.nodes := fun later => apart b inside b later rfl
      refine ⟨frame₃.prev b notLater, frame₃.parent b notLater, frame₃.lastChild b ?_ notLater⟩
      rintro rfl
      exact notAbove.2.1 inside
    · -- Each part of the walk looks at links that nothing has written before.
      have same₁ : Checked (h.enter a above p).backLinks a none c ↔ Checked h.backLinks a none c := by
        refine checked_congr rfl fun b inside => ?_
        have other : b ∉ [a] := by
          rw [List.mem_singleton]
          rintro rfl
          exact notC inside
        exact ⟨frame₁.prev b other, frame₁.parent b other, rfl⟩
      have same₂ : Checked h₂.backLinks above (Option.some a) x ↔ Checked h.backLinks above (Option.some a) x := by
        refine checked_congr ?_ fun b inside => ?_
        · exact frame₂.lastChild above notAbove.1 notAbove.2.1
        · have other : b ∉ a :: c.nodes := by
            rw [List.mem_cons, not_or]
            constructor
            · rintro rfl
              exact notX inside
            · exact fun earlier => apart b earlier b inside rfl
          refine ⟨frame₁₂.prev b other, frame₁₂.parent b other, frame₁₂.lastChild b ?_ other⟩
          rintro rfl
          exact notAbove.2.2 inside
      rw [List.append_eq_nil_iff, List.append_eq_nil_iff, entryErrors_eq_nil, none₂, none₃, same₁, same₂]
      simp only [Checked, backLinks, and_assoc]
    · intro fuel
      have turns : fuel + (2 * (node a c x).nodes.length + 1) =
          fuel + (2 * x.nodes.length + 1) + (2 * c.nodes.length + 1) + 1 := by
        rw [nodes, List.length_cons, List.length_append]
        omega
      rw [turns, checkLoop_enter root leads fun q same => ⟨(behind q same).1, (behind q same).2.1⟩]
      have below := run₂ (fuel + (2 * x.nodes.length + 1))
      rw [Option.isSome_none, Option.getD_none] at below
      rw [below]
      have after := run₃ fuel
      rw [Option.isSome_some, Option.getD_some] at after
      rw [after, List.append_assoc, List.append_assoc, List.append_assoc]

/-! ### The whole check -/

variable {h : Heap n} {root : Fin n} {t : SiblingTree (Fin n)}

/-- From the root the call returns. It has repaired what it looks at, and found errors if there was
something to repair; nothing else has changed. -/
theorem nodeCheck_spec (spans : SiblingTree.Spans h.firstChild h.next (h.firstChild root) t) (once : (root :: t.nodes).Nodup) :
    ∃ h' found, h.nodeCheck (some root) = some (h', found) ∧ Frame h h' root t.nodes ∧
      Checked h'.backLinks root none t ∧ (found = [] ↔ Checked h.backLinks root none t) := by
  obtain ⟨notBelow, onceBelow⟩ := List.nodup_cons.mp once
  obtain ⟨h', found, frame, checked, none, run⟩ :=
    checkLoop_walk root t root none spans onceBelow notBelow notBelow (by simp) []
  refine ⟨h', found, ?_, frame, checked, none⟩
  have few : (root :: t.nodes).length ≤ n := by
    have card := once.length_le_card
    rw [Fintype.card_fin] at card
    exact card
  rw [List.length_cons] at few
  obtain ⟨fuel, enough⟩ := Nat.exists_eq_add_of_le few
  have turns : 2 * n = 2 * fuel + 1 + (2 * t.nodes.length + 1) := by omega
  rw [Option.isSome_none, Option.getD_none] at run
  unfold nodeCheck
  dsimp only
  rw [turns, run, List.nil_append, checkLoop, if_pos rfl]

/-- The call is right about the links, repairs them, and finds nothing more to repair, if and only if
no node without a first child has a last one. -/
theorem nodeCheck_iff (spans : SiblingTree.Spans h.firstChild h.next (h.firstChild root) t) (once : (root :: t.nodes).Nodup) :
    ∃ h' found, h.nodeCheck (some root) = some (h', found) ∧
      ((found.length = 0 ↔ Consistent h.backLinks root none t) ∧ Consistent h'.backLinks root none t ∧
          (∃ h'', h'.nodeCheck (some root) = some (h'', [])) ↔
        ∀ b ∈ root :: t.nodes, h.firstChild b = none → h.lastChild b = none) := by
  obtain ⟨h', found, returns, frame, checked, sound⟩ := nodeCheck_spec spans once
  have spans' : SiblingTree.Spans h'.firstChild h'.next (h'.firstChild root) t := by
    rw [frame.firstChild, frame.next]
    exact spans
  -- The last children of such nodes are not written.
  have same : (∀ b ∈ root :: t.nodes, h'.firstChild b = none → h'.backLinks.lastChild b = none) ↔
      ∀ b ∈ root :: t.nodes, h.firstChild b = none → h.lastChild b = none := by
    rw [frame.firstChild]
    constructor
    · intro childless b inside none
      exact (frame.childless b none).symm.trans (childless b inside none)
    · intro childless b inside none
      exact (frame.childless b none).trans (childless b inside none)
  refine ⟨h', found, returns, ?_⟩
  rw [List.length_eq_zero_iff, consistent_iff spans, consistent_iff spans', same]
  constructor
  · rintro ⟨_, ⟨_, childless⟩, _⟩
    exact childless
  · intro childless
    obtain ⟨h'', found', returns', _, _, sound'⟩ := nodeCheck_spec spans' once
    rw [sound'.mpr checked] at returns'
    exact ⟨sound.trans ⟨fun seen => ⟨seen, childless⟩, fun seen => seen.1⟩, ⟨checked, childless⟩, h'', returns'⟩

/-- A document and three paragraphs, with the links forward alone. -/
def incompleteTree : Heap 4 where
  mem _ := 0
  data i := { type := if i = 0 then .document else .paragraph }
  next i := if i = 1 then some 2 else if i = 2 then some 3 else none
  prev _ := none
  parent _ := none
  firstChild i := if i = 0 then some 1 else none
  lastChild _ := none

example : (incompleteTree.nodeCheck (some 0)).map (·.2.length) = some 6 := by decide

theorem nodeCheck_incompleteTree : ∃ h' found, incompleteTree.nodeCheck (some 0) = some (h', found) ∧
    ((found.length = 0 ↔
          Consistent incompleteTree.backLinks 0 none (.node 1 .nil (.node 2 .nil (.node 3 .nil .nil)))) ∧
        Consistent h'.backLinks 0 none (.node 1 .nil (.node 2 .nil (.node 3 .nil .nil))) ∧
        (∃ h'', h'.nodeCheck (some 0) = some (h'', [])) ↔
      ∀ b ∈ 0 :: nodes (.node 1 .nil (.node 2 .nil (.node 3 .nil .nil))),
        incompleteTree.firstChild b = none → incompleteTree.lastChild b = none) :=
  nodeCheck_iff (t := .node 1 .nil (.node 2 .nil (.node 3 .nil .nil))) ⟨rfl, rfl, rfl, rfl, rfl, rfl, rfl⟩ (by decide)

/-- A node without children whose last child is another node. -/
def strayLastChild : Heap 2 where
  mem _ := 0
  data _ := { type := .paragraph }
  next _ := none
  prev _ := none
  parent _ := none
  firstChild _ := none
  lastChild i := if i = 0 then some 1 else none

theorem nodeCheck_strayLastChild : ∃ h', strayLastChild.nodeCheck (some 0) = some (h', []) ∧
    SiblingTree.Spans strayLastChild.firstChild strayLastChild.next (strayLastChild.firstChild 0) .nil ∧
      ¬Consistent strayLastChild.backLinks 0 none .nil ∧ ¬Consistent h'.backLinks 0 none .nil := by
  refine ⟨strayLastChild, rfl, rfl, ?_, ?_⟩
  · intro consistent
    cases consistent
  · intro consistent
    cases consistent

end Heap

end CmarkGfm
