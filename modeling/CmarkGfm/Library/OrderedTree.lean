import CmarkGfm.Library.LinkedForest

/-!
# Ordered trees

A tree of elements, such as the addresses of linked nodes. `Unfolds kids t`: the children of every
element of `t` are its list in `kids`. The walk through a tree enters and leaves every element, but
does not look below those that count as leaves.
-/

inductive OrderedTree (α : Type*) where
  | mk (root : α) (children : List (OrderedTree α))

namespace OrderedTree

open LinkedForest

variable {α : Type*}

def root : OrderedTree α → α
  | mk a _ => a

def children : OrderedTree α → List (OrderedTree α)
  | mk _ cs => cs

mutual

/-- The elements, each before those below it. -/
def nodes : OrderedTree α → List α
  | mk a cs => a :: nodesList cs

def nodesList : List (OrderedTree α) → List α
  | [] => []
  | t :: ts => nodes t ++ nodesList ts

end

mutual

def Unfolds (kids : α → List α) : OrderedTree α → Prop
  | mk a cs => cs.map root = kids a ∧ UnfoldsList kids cs

def UnfoldsList (kids : α → List α) : List (OrderedTree α) → Prop
  | [] => True
  | t :: ts => Unfolds kids t ∧ UnfoldsList kids ts

end

mutual

/-- The elements as they are entered (true) and left (false). Leaves are entered only. -/
def walk (leaf : α → Bool) : OrderedTree α → List (Bool × α)
  | mk a cs => if leaf a then [(true, a)] else (true, a) :: (walkList leaf cs ++ [(false, a)])

def walkList (leaf : α → Bool) : List (OrderedTree α) → List (Bool × α)
  | [] => []
  | t :: ts => walk leaf t ++ walkList leaf ts

end

section

variable {kids kids' : α → List α} {t : OrderedTree α} {ts : List (OrderedTree α)}

theorem root_mem_nodes (t : OrderedTree α) : t.root ∈ t.nodes := by
  cases t
  exact List.mem_cons_self

theorem nodes_eq (t : OrderedTree α) : t.nodes = t.root :: nodesList t.children := by
  cases t
  rfl

theorem nodesList_append (ts us : List (OrderedTree α)) :
    nodesList (ts ++ us) = nodesList ts ++ nodesList us := by
  induction ts with
  | nil => rfl
  | cons t ts ih => rw [List.cons_append, nodesList, nodesList, ih, List.append_assoc]

theorem mem_nodesList {x : α} : x ∈ nodesList ts ↔ ∃ t ∈ ts, x ∈ t.nodes := by
  induction ts with
  | nil => simp [nodesList]
  | cons t ts ih => simp [nodesList, ih]

theorem map_root_sublist (ts : List (OrderedTree α)) : (ts.map root).Sublist (nodesList ts) := by
  induction ts with
  | nil => exact .slnil
  | cons t ts ih =>
    rw [List.map_cons, nodesList, nodes_eq, List.cons_append]
    exact (ih.trans (List.sublist_append_right _ _)).cons_cons _

/-- A root is below no root. -/
theorem root_not_mem_children {u : OrderedTree α} (nodup : (nodesList ts).Nodup) (among : t ∈ ts)
    (among' : u ∈ ts) : u.root ∉ nodesList t.children := by
  induction ts with
  | nil => cases among
  | cons s ts ih =>
    rw [nodesList, List.nodup_append] at nodup
    obtain ⟨first, rest, apart⟩ := nodup
    rw [nodes_eq, List.nodup_cons] at first
    have inRest {v : OrderedTree α} (member : v ∈ ts) {x : α} (inside : x ∈ v.nodes) : x ∈ nodesList ts :=
      mem_nodesList.mpr ⟨v, member, inside⟩
    have below {v : OrderedTree α} {x : α} (inside : x ∈ nodesList v.children) : x ∈ v.nodes := by
      rw [nodes_eq]
      exact List.mem_cons_of_mem _ inside
    rcases List.mem_cons.mp among with rfl | later
    · rcases List.mem_cons.mp among' with rfl | later'
      · exact first.1
      · exact fun inside => apart _ (below inside) _ (inRest later' (root_mem_nodes u)) rfl
    · rcases List.mem_cons.mp among' with rfl | later'
      · exact fun inside => apart _ (root_mem_nodes u) _ (inRest later (below inside)) rfl
      · exact ih rest later later'

theorem Unfolds.children (unfolds : t.Unfolds kids) : UnfoldsList kids t.children := by
  cases t
  exact unfolds.2

mutual

/-- Lists of other elements do not matter. -/
theorem Unfolds.congr : {t : OrderedTree α} → t.Unfolds kids → (∀ x ∈ t.nodes, kids' x = kids x) →
    t.Unfolds kids'
  | mk a cs, unfolds, same => by
    rw [nodes, List.forall_mem_cons] at same
    exact ⟨unfolds.1.trans same.1.symm, unfolds.2.congr same.2⟩

theorem UnfoldsList.congr : {ts : List (OrderedTree α)} → UnfoldsList kids ts →
    (∀ x ∈ nodesList ts, kids' x = kids x) → UnfoldsList kids' ts
  | [], _, _ => trivial
  | t :: ts, unfolds, same => by
    rw [nodesList, List.forall_mem_append] at same
    exact ⟨unfolds.1.congr same.1, unfolds.2.congr same.2⟩

end

mutual

theorem mem_walk {leaf : α → Bool} {e : Bool × α} : (t : OrderedTree α) → e ∈ t.walk leaf → e.2 ∈ t.nodes
  | mk a cs, member => by
    rw [nodes, List.mem_cons]
    unfold walk at member
    split at member
    next => exact .inl (List.mem_singleton.mp member ▸ rfl)
    next =>
      rcases List.mem_cons.mp member with rfl | member
      · exact .inl rfl
      rcases List.mem_append.mp member with below | last
      · exact .inr (mem_walkList cs below)
      · exact .inl (List.mem_singleton.mp last ▸ rfl)

theorem mem_walkList {leaf : α → Bool} {e : Bool × α} : (ts : List (OrderedTree α)) →
    e ∈ walkList leaf ts → e.2 ∈ nodesList ts
  | [], member => nomatch member
  | t :: ts, member => by
    rw [nodesList, List.mem_append]
    rcases List.mem_append.mp member with first | rest
    · exact .inl (mem_walk t first)
    · exact .inr (mem_walkList ts rest)

end

/-- The event is the last one of its element. -/
def IsLast (leaf : α → Bool) (e : Bool × α) : Prop := e.1 = false ∨ leaf e.2 = true

mutual

/-- Every element is entered and left at most once. -/
theorem length_walk_le (leaf : α → Bool) : (t : OrderedTree α) → (t.walk leaf).length ≤ 2 * t.nodes.length
  | mk a cs => by
    have below := length_walkList_le leaf cs
    unfold walk
    split
    next =>
      simp only [nodes, List.length_cons, List.length_nil]
      omega
    next =>
      simp only [nodes, List.length_cons, List.length_append, List.length_nil]
      omega

theorem length_walkList_le (leaf : α → Bool) : (ts : List (OrderedTree α)) →
    (walkList leaf ts).length ≤ 2 * (nodesList ts).length
  | [] => Nat.le_refl 0
  | t :: ts => by
    have first := length_walk_le leaf t
    have rest := length_walkList_le leaf ts
    rw [walkList, nodesList, List.length_append, List.length_append]
    omega

end

mutual

/-- Leaves are not left. -/
theorem inner_of_walk {leaf : α → Bool} {x : α} : (t : OrderedTree α) → (false, x) ∈ t.walk leaf → leaf x = false
  | mk a cs, among => by
    unfold walk at among
    split at among
    next => simp at among
    next inner =>
      simp only [List.mem_cons, Prod.mk.injEq, Bool.false_eq_true, false_and, false_or, List.mem_append,
        List.not_mem_nil, or_false, true_and] at among
      rcases among with below | rfl
      · exact inner_of_walkList cs below
      · simpa using inner

theorem inner_of_walkList {leaf : α → Bool} {x : α} : (ts : List (OrderedTree α)) →
    (false, x) ∈ walkList leaf ts → leaf x = false
  | [], among => nomatch among
  | t :: ts, among => by
    rcases List.mem_append.mp among with first | rest
    · exact inner_of_walk t first
    · exact inner_of_walkList ts rest

end

mutual

/-- Every element has a last event where nothing is below the leaves. -/
theorem exists_last {leaf : α → Bool} (childless : ∀ x, leaf x = true → kids x = []) {x : α} : (t : OrderedTree α) →
    t.Unfolds kids → x ∈ t.nodes → ∃ e ∈ t.walk leaf, e.2 = x ∧ IsLast leaf e
  | mk a cs, unfolds, inside => by
    unfold walk
    split
    next isLeaf =>
      have none : cs = [] := List.map_eq_nil_iff.mp (unfolds.1.trans (childless a isLeaf))
      subst none
      exact ⟨(true, a), List.mem_cons_self, (List.mem_singleton.mp inside).symm, .inr isLeaf⟩
    next =>
      rcases List.mem_cons.mp inside with rfl | below
      · exact ⟨(false, x), by simp, rfl, .inl rfl⟩
      · obtain ⟨e, among, last⟩ := exists_lastList childless cs unfolds.2 below
        exact ⟨e, List.mem_cons_of_mem _ (List.mem_append_left _ among), last⟩

theorem exists_lastList {leaf : α → Bool} (childless : ∀ x, leaf x = true → kids x = []) {x : α} : (ts : List (OrderedTree α)) →
    UnfoldsList kids ts → x ∈ nodesList ts → ∃ e ∈ walkList leaf ts, e.2 = x ∧ IsLast leaf e
  | [], _, inside => nomatch inside
  | t :: ts, unfolds, inside => by
    rcases List.mem_append.mp inside with first | rest
    · obtain ⟨e, among, last⟩ := exists_last childless t unfolds.1 first
      exact ⟨e, List.mem_append_left _ among, last⟩
    · obtain ⟨e, among, last⟩ := exists_lastList childless ts unfolds.2 rest
      exact ⟨e, List.mem_append_right _ among, last⟩

end

end

/-! ### Trees of a parent relation -/

section

variable {parent : α → Option α} {kids : α → List α} {leaf : α → Bool}

/-- An element is in the tree below `a`. -/
def Below (parent : α → Option α) (x a : α) : Prop := Relation.ReflTransGen (ParentOf parent) x a

theorem rightUnique_parentOf (parent : α → Option α) : Relator.RightUnique (ParentOf parent) :=
  fun _ _ _ first second => Option.some.inj (first.symm.trans second)

theorem below_iff {x a : α} : Below parent x a ↔ x = a ∨ ∃ p, parent x = some p ∧ Below parent p a :=
  Relation.ReflTransGen.cases_head_iff

variable (member : ∀ c p, parent c = some p ↔ c ∈ kids p)

include member

omit member in
mutual

theorem mem_nodes_iff (member : ∀ c p, parent c = some p ↔ c ∈ kids p) {x : α} : (t : OrderedTree α) →
    t.Unfolds kids →
    (x ∈ t.nodes ↔ Below parent x t.root)
  | mk a cs, unfolds => by
    rw [nodes, List.mem_cons, mem_nodesList_iff member cs unfolds.2, unfolds.1]
    constructor
    · rintro (rfl | ⟨c, child, below⟩)
      · exact .refl
      · exact below.tail ((member c a).mpr child)
    · intro below
      rcases Relation.ReflTransGen.cases_tail below with same | ⟨c, below, child⟩
      · exact .inl same.symm
      · exact .inr ⟨c, (member c a).mp child, below⟩

theorem mem_nodesList_iff (member : ∀ c p, parent c = some p ↔ c ∈ kids p) {x : α} : (ts : List (OrderedTree α)) →
    UnfoldsList kids ts →
    (x ∈ nodesList ts ↔ ∃ c ∈ ts.map root, Below parent x c)
  | [], _ => by simp [nodesList]
  | t :: ts, unfolds => by
    rw [nodesList, List.mem_append, mem_nodes_iff member t unfolds.1, mem_nodesList_iff member ts unfolds.2,
      List.map_cons]
    simp

end

/-- Every element is the root of a tree. -/
theorem exists_unfolds [Finite α] (acyclic : Acyclic parent) (a : α) :
    ∃ t : OrderedTree α, t.root = a ∧ t.Unfolds kids := by
  induction left : Nat.card α - depth parent a using Nat.strong_induction_on generalizing a with
  | _ k ih =>
    have below : ∀ l : List α, (∀ c ∈ l, c ∈ kids a) →
        ∃ ts : List (OrderedTree α), ts.map root = l ∧ UnfoldsList kids ts := by
      intro l children
      induction l with
      | nil => exact ⟨[], rfl, trivial⟩
      | cons c cs ih' =>
        rw [List.forall_mem_cons] at children
        have deeper := acyclic.depth_lt ((member c a).mpr children.1)
        have bound := depth_le_card parent c
        obtain ⟨t, rfl, unfolds⟩ := ih (Nat.card α - depth parent c) (by omega) c rfl
        obtain ⟨ts, rfl, rest⟩ := ih' children.2
        exact ⟨t :: ts, rfl, unfolds, rest⟩
    obtain ⟨ts, roots, unfolds⟩ := below (kids a) fun _ inside => inside
    exact ⟨mk a ts, rfl, roots, unfolds⟩

/-- An element is not below its children. -/
theorem not_below_child (acyclic : Acyclic parent) {a c : α} (child : c ∈ kids a) : ¬ Below parent a c := by
  intro below
  exact acyclic a (Relation.TransGen.tail' below ((member c a).mpr child))

/-- The trees below two children have nothing in common. -/
theorem disjoint_children (acyclic : Acyclic parent) {a c d x : α} (child : c ∈ kids a) (child' : d ∈ kids a)
    (below : Below parent x c) (below' : Below parent x d) : c = d := by
  have apart {c d : α} (child : c ∈ kids a) (child' : d ∈ kids a) (path : Below parent c d) : c = d := by
    rcases below_iff.mp path with same | ⟨p, link, path⟩
    · exact same
    · obtain rfl := Option.some.inj (link.symm.trans ((member c a).mpr child))
      exact absurd path (not_below_child member acyclic child')
  rcases Relation.ReflTransGen.total_of_right_unique (rightUnique_parentOf parent) below below' with path | path
  · exact apart child child' path
  · exact (apart child' child path).symm

mutual

theorem nodup_nodes (acyclic : Acyclic parent) (nodup : ∀ p, (kids p).Nodup) : (t : OrderedTree α) →
    t.Unfolds kids → t.nodes.Nodup
  | mk a cs, unfolds => by
    rw [nodes, List.nodup_cons]
    refine ⟨?_, ?_⟩
    · rw [mem_nodesList_iff member cs unfolds.2, unfolds.1]
      rintro ⟨c, child, below⟩
      exact not_below_child member acyclic child below
    · apply nodup_nodesList acyclic nodup cs unfolds.2 (p := a)
      · rw [unfolds.1]
        exact fun c child => child
      · rw [unfolds.1]
        exact nodup a

theorem nodup_nodesList (acyclic : Acyclic parent) (nodup : ∀ p, (kids p).Nodup) {p : α} :
    (ts : List (OrderedTree α)) → UnfoldsList kids ts → (∀ c ∈ ts.map root, c ∈ kids p) →
    (ts.map root).Nodup → (nodesList ts).Nodup
  | [], _, _, _ => List.nodup_nil
  | t :: ts, unfolds, children, distinct => by
    rw [List.map_cons, List.forall_mem_cons] at children
    rw [List.map_cons, List.nodup_cons] at distinct
    rw [nodesList, List.nodup_append]
    refine ⟨nodup_nodes acyclic nodup t unfolds.1,
      nodup_nodesList acyclic nodup ts unfolds.2 children.2 distinct.2, ?_⟩
    rintro x inFirst y inRest rfl
    rw [mem_nodes_iff member t unfolds.1] at inFirst
    obtain ⟨c, among, below⟩ := (mem_nodesList_iff member ts unfolds.2).mp inRest
    have same := disjoint_children member acyclic children.1 (children.2 c among) inFirst below
    exact distinct.1 (same ▸ among)

end

mutual

/-- When an element has been left, nothing below it is entered or left. -/
theorem pairwise_walk (leaf : α → Bool) (acyclic : Acyclic parent) (nodup : ∀ p, (kids p).Nodup) : (t : OrderedTree α) →
    t.Unfolds kids →
    (t.walk leaf).Pairwise fun e f => IsLast leaf e → ¬ Below parent f.2 e.2
  | mk a cs, unfolds => by
    unfold walk
    split
    next => exact List.pairwise_singleton _ _
    next inner =>
      rw [List.pairwise_cons]
      refine ⟨fun f _ last => ?_, ?_⟩
      · rcases last with entering | leaf
        · cases entering
        · exact absurd leaf inner
      rw [List.pairwise_append]
      refine ⟨?_, List.pairwise_singleton _ _, ?_⟩
      · apply pairwise_walkList leaf acyclic nodup cs unfolds.2 (p := a)
        · rw [unfolds.1]
          exact fun c child => child
        · rw [unfolds.1]
          exact nodup a
      · intro e inside f last _
        rw [List.mem_singleton.mp last]
        obtain ⟨c, among, below⟩ := (mem_nodesList_iff member cs unfolds.2).mp (mem_walkList cs inside)
        rw [unfolds.1] at among
        exact fun path => not_below_child member acyclic among (path.trans below)

theorem pairwise_walkList (leaf : α → Bool) (acyclic : Acyclic parent) (nodup : ∀ p, (kids p).Nodup) {p : α} :
    (ts : List (OrderedTree α)) → UnfoldsList kids ts → (∀ c ∈ ts.map root, c ∈ kids p) →
    (ts.map root).Nodup →
    (walkList leaf ts).Pairwise fun e f => IsLast leaf e → ¬ Below parent f.2 e.2
  | [], _, _, _ => .nil
  | t :: ts, unfolds, children, distinct => by
    rw [List.map_cons, List.forall_mem_cons] at children
    rw [List.map_cons, List.nodup_cons] at distinct
    rw [walkList, List.pairwise_append]
    refine ⟨pairwise_walk leaf acyclic nodup t unfolds.1,
      pairwise_walkList leaf acyclic nodup ts unfolds.2 children.2 distinct.2, ?_⟩
    intro e inFirst f inRest _ path
    have inFirst := (mem_nodes_iff member t unfolds.1).mp (mem_walk t inFirst)
    obtain ⟨c, among, below⟩ := (mem_nodesList_iff member ts unfolds.2).mp (mem_walkList ts inRest)
    have same := disjoint_children member acyclic children.1 (children.2 c among) (path.trans inFirst) below
    exact distinct.1 (same ▸ among)

end

end

end OrderedTree
