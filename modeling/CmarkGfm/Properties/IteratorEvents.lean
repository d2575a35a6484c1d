import CmarkGfm.Library.OrderedTree
import CmarkGfm.Node.Iterator
import CmarkGfm.Properties.TreeLinks

/-!
# The events of the iterator

From a node of a well-formed heap on, the iterator walks through the tree below the node and then
stops, whatever is around the node.
-/

namespace CmarkGfm

open LinkedForest OrderedTree

/-- The event at a node that is entered or left. -/
def walkEvent {n : Nat} (e : Bool × Fin n) : IterState n := ⟨if e.1 then .enter else .exit, some e.2⟩

namespace Heap

variable {n : Nat} {h : Heap n} {kids : Fin n → List (Fin n)} {root : Fin n}

/-- The iterator does not look below such a node. -/
def isLeaf (h : Heap n) (a : Fin n) : Bool := (h.data a).type.isLeaf

mutual

/-- The tree is the one that the links lead through. -/
def Spells (h : Heap n) : OrderedTree (Fin n) → Prop
  | .mk a cs => h.firstChild a = (cs.map OrderedTree.root).head? ∧
      h.lastChild a = (cs.map OrderedTree.root).getLast? ∧
      Chained h.next (cs.map OrderedTree.root) ∧ SpellsList h cs

def SpellsList (h : Heap n) : List (OrderedTree (Fin n)) → Prop
  | [] => True
  | t :: ts => Spells h t ∧ SpellsList h ts

end

mutual

theorem Represents.spells (rep : h.Represents kids) : (t : OrderedTree (Fin n)) → t.Unfolds kids → h.Spells t
  | .mk a cs, unfolds => by
    rw [Spells, unfolds.1]
    exact ⟨rep.first a, rep.last a, (rep.linked a).chained, rep.spellsList cs unfolds.2⟩

theorem Represents.spellsList (rep : h.Represents kids) : (ts : List (OrderedTree (Fin n))) →
    UnfoldsList kids ts → h.SpellsList ts
  | [], _ => trivial
  | t :: ts, unfolds => ⟨rep.spells t unfolds.1, rep.spellsList ts unfolds.2⟩

end

/-! ### Rolling forward -/

theorem iterForward_last (root : Fin n) {e : Bool × Fin n} (last : IsLast h.isLeaf e) :
    h.iterForward root (walkEvent e).evType e.2 = h.iterAfter root e.2 := by
  have notInner : ¬ ((walkEvent e).evType = .enter ∧ ¬ (h.data e.2).type.isLeaf) := by
    rintro ⟨entering, inner⟩
    rcases last with leaving | leaf
    · rw [walkEvent, leaving] at entering
      cases entering
    · exact inner leaf
  rw [iterForward, if_neg notInner]

/-- The first event below a node, or else the one that leaves it. -/
def iterStart (p : Fin n) (link : Option (Fin n)) : IterState n :=
  match link with
  | some c => ⟨.enter, some c⟩
  | none => ⟨.exit, some p⟩

theorem iterForward_enter (root : Fin n) {a : Fin n} (inner : h.isLeaf a = false) :
    h.iterForward root .enter a = some (iterStart a (h.firstChild a)) := by
  unfold iterForward
  rw [if_pos ⟨rfl, by simpa [isLeaf] using inner⟩]
  cases h.firstChild a <;> rfl

/-- Behind a child come its next sibling, or else the end of its parent. -/
theorem iterAfter_child {a p : Fin n} (child : h.parent a = some p) (inner : a ≠ root) :
    h.iterAfter root a = some (iterStart p (h.next a)) := by
  rw [iterAfter, if_neg inner, child]
  cases h.next a <;> rfl

theorem iterAfter_root : h.iterAfter root root = some ⟨.done, none⟩ := by
  rw [iterAfter, if_pos rfl]

/-- Rolling forward leads from the first event through these to the last. -/
inductive Follows (h : Heap n) (root : Fin n) : IterState n → List (IterState n) → IterState n → Prop
  | nil (s : IterState n) : Follows h root s [] s
  | cons {evType : EventType} {a : Fin n} {s s' : IterState n} {es : List (IterState n)} :
      h.iterForward root evType a = some s → Follows h root s es s' →
      Follows h root ⟨evType, some a⟩ (⟨evType, some a⟩ :: es) s'

theorem Follows.append {s s' s'' : IterState n} {es es' : List (IterState n)} (first : h.Follows root s es s')
    (second : h.Follows root s' es' s'') : h.Follows root s (es ++ es') s'' := by
  induction first with
  | nil => exact second
  | cons forward _ ih => exact .cons forward (ih second)

mutual

/-- The iterator walks through a tree and goes on behind it. -/
theorem follows_walk (rep : h.Represents kids) {s : IterState n} : (t : OrderedTree (Fin n)) →
    t.Unfolds kids → (∀ x ∈ nodesList t.children, x ≠ root) → h.iterAfter root t.root = some s →
    h.Follows root ⟨.enter, some t.root⟩ ((t.walk h.isLeaf).map walkEvent) s
  | .mk a cs, unfolds, inner, after => by
    unfold walk
    split
    next leaf =>
      have forward := iterForward_last (h := h) root (e := (true, a)) (.inr leaf)
      exact .cons (forward.trans after) (.nil s)
    next notLeaf =>
      have forward := iterForward_enter (h := h) root (by simpa using notLeaf)
      rw [List.map_cons, List.map_append]
      apply Follows.cons forward
      rw [rep.first, ← unfolds.1]
      have below := follows_walkList rep (p := a) [] cs unfolds.2 (by rw [unfolds.1]; rfl) inner
      exact below.append (.cons after (.nil s))

theorem follows_walkList (rep : h.Represents kids) {p : Fin n} (before : List (Fin n)) :
    (ts : List (OrderedTree (Fin n))) → UnfoldsList kids ts →
    kids p = before ++ ts.map OrderedTree.root → (∀ x ∈ nodesList ts, x ≠ root) →
    h.Follows root (iterStart p (ts.map OrderedTree.root).head?) ((walkList h.isLeaf ts).map walkEvent)
      ⟨.exit, some p⟩
  | [], _, _, _ => .nil _
  | t :: ts, unfolds, split, inner => by
    rw [walkList, List.map_append]
    rw [nodesList, List.forall_mem_append] at inner
    have child : h.parent t.root = some p := by
      rw [rep.parent, split]
      simp
    have linked := rep.linked p
    rw [split, List.map_cons] at linked
    have after := iterAfter_child child (inner.1 _ (root_mem_nodes t))
    rw [linked.at.2] at after
    have below : ∀ x ∈ nodesList t.children, x ≠ root := by
      intro x inside
      apply inner.1
      rw [nodes_eq]
      exact List.mem_cons_of_mem _ inside
    have rest := follows_walkList rep (p := p) (before ++ [t.root]) ts unfolds.2 (by simp [split])
      inner.2
    exact (follows_walk rep t unfolds.1 below after).append rest

end

/-! ### The whole iteration -/

/-- The iterator walks through the tree of its root and stops behind it. -/
theorem Represents.follows (rep : h.Represents kids) (t : OrderedTree (Fin n)) (unfolds : t.Unfolds kids) :
    h.Follows t.root ⟨.enter, some t.root⟩ ((t.walk h.isLeaf).map walkEvent) ⟨.done, none⟩ := by
  apply follows_walk rep t unfolds _ iterAfter_root
  rintro x inside rfl
  have nodup := nodup_nodes rep.parent rep.acyclic rep.nodup t unfolds
  rw [nodes_eq] at nodup
  exact (List.nodup_cons.mp nodup).1 inside

theorem iterEvents_of_follows {cur s s' : IterState n} {es : List (IterState n)}
    (follows : h.Follows root s es s') (ends : s' = ⟨.done, none⟩) (goesOn : ∀ e ∈ es, e.evType ≠ .done)
    {fuel : Nat} (enough : es.length < fuel) : h.iterEvents fuel ⟨root, cur, s⟩ = some es := by
  induction follows generalizing cur fuel with
  | nil s =>
    obtain ⟨fuel, rfl⟩ := Nat.exists_eq_succ_of_ne_zero (Nat.ne_of_gt enough)
    subst ends
    rfl
  | @cons evType a s s' es forward rest ih =>
    obtain ⟨fuel, rfl⟩ := Nat.exists_eq_succ_of_ne_zero (Nat.ne_of_gt (Nat.zero_lt_of_lt enough))
    rw [List.forall_mem_cons] at goesOn
    have goes : evType ≠ .done := goesOn.1
    have next : h.iterNext ⟨root, cur, ⟨evType, some a⟩⟩ = some (⟨root, ⟨evType, some a⟩, s⟩, evType) := by
      unfold iterNext
      simp only [goes, if_false, forward, Option.map_some]
    have later := @ih ⟨evType, some a⟩ ends goesOn.2 fuel (Nat.lt_of_succ_lt_succ enough)
    rw [iterEvents, next]
    cases evType with
    | done => exact absurd rfl goes
    | none | enter | exit =>
      dsimp only
      rw [later]
      rfl

theorem evType_walkEvent (e : Bool × Fin n) : (walkEvent e).evType ≠ .done := by
  unfold walkEvent
  split <;> nofun

/-- The iterator gives the events of the walk through the tree below the root, none for a node outside
of it, and then stops. -/
theorem iterEvents_eq_walk (wellFormed : WellFormed h) (root : Fin n) : ∃ t : OrderedTree (Fin n),
    t.root = root ∧ h.Spells t ∧ (∀ x, x ∈ t.nodes ↔ Below h.parent x root) ∧
      ∀ fuel > (t.walk h.isLeaf).length, h.iterEvents fuel (iterNew root) = some ((t.walk h.isLeaf).map walkEvent) := by
  obtain ⟨kids, rep⟩ := exists_represents wellFormed
  obtain ⟨t, rfl, unfolds⟩ := exists_unfolds rep.parent rep.acyclic root
  refine ⟨t, rfl, rep.spells t unfolds, fun x => mem_nodes_iff rep.parent t unfolds, fun fuel enough => ?_⟩
  apply iterEvents_of_follows (rep.follows t unfolds) rfl
  · exact List.forall_mem_map.mpr fun e _ => evType_walkEvent e
  · rw [List.length_map]
    exact enough

def twoTextsData (i : Fin 3) : NodeData :=
  if i = 0 then { type := .paragraph } else { type := .text, as := .literal (decimal i) }

/-- A paragraph with two text nodes. -/
def twoTexts : Heap 3 := ((Heap.new (fun _ => 0) twoTextsData).linkLast 0 1).linkLast 0 2

theorem wellFormed_twoTexts : WellFormed twoTexts := by
  have top {h : Heap 3} (noParent : h.parent 0 = none) {s : Fin 3} (other : s ≠ 0) :
      ¬ Relation.ReflTransGen (ParentOf h.parent) 0 s := by
    intro path
    rcases Relation.ReflTransGen.cases_head path with same | ⟨p, link, _⟩
    · exact other same.symm
    · cases noParent.symm.trans link
  have new := represents_new (fun _ : Fin 3 => 0) twoTextsData
  obtain ⟨_, first⟩ := new.linkLast (top rfl (s := 1) (by decide))
  obtain ⟨_, second⟩ := first.linkLast (top (by decide) (s := 2) (by decide))
  exact second.wellFormed

theorem iterEvents_twoTexts : ∃ t : OrderedTree (Fin 3), t.root = 0 ∧ twoTexts.Spells t ∧
    (∀ x, x ∈ t.nodes ↔ Below twoTexts.parent x 0) ∧
      ∀ fuel > (t.walk twoTexts.isLeaf).length,
        twoTexts.iterEvents fuel (iterNew 0) = some ((t.walk twoTexts.isLeaf).map walkEvent) :=
  iterEvents_eq_walk wellFormed_twoTexts 0

end Heap

end CmarkGfm
