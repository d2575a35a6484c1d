import CmarkGfm.Properties.TreeLinks

/-!
# Containment under the tree interface

Every insertion asks `cmark_node_can_contain_type` about the one pair it makes. A change of
type makes new pairs above and below the node, and only the pair above is checked.
-/

namespace CmarkGfm

open LinkedForest

namespace Heap

variable {n : Nat} {h : Heap n} {P : Config}

/-- Every parent may contain its children. -/
def Contained (P : Config) (h : Heap n) : Prop :=
  ∀ c p, h.parent c = some p → P.nodeCanContainType (h.data p) (h.data c).type = true

/-- The data of a node after a change of type. -/
def retypedData (h : Heap n) (node : Fin n) (type : NodeType) : NodeData :=
  { h.data node with type := type, as := .empty }

/-- The call gives a node a new type which its parent accepts, and with which the node may not
contain all its children. -/
def RejectsChild (P : Config) (h : Heap n) (c : TreeCall n) : Prop :=
  ∃ node p type, c = .setType node type ∧ type ≠ (h.data node).type ∧ h.parent node = some p ∧
    h.mem p = h.mem node ∧ P.nodeCanContainType (h.data p) type = true ∧
    ∃ child, h.parent child = some node ∧
      P.nodeCanContainType (h.retypedData node type) (h.data child).type = false

/-- The pairs are right before, between and after the calls, each of which returns. -/
def KeepsContained (P : Config) : Heap n → List (TreeCall n) → Prop
  | h, [] => Contained P h
  | h, c :: calls => Contained P h ∧ ∃ h' result, h.call P c = some (h', result) ∧
      KeepsContained P h' calls

/-- No call of the run gives a node a type that rejects one of its children. -/
def NeverRejectsChild (P : Config) : Heap n → List (TreeCall n) → Prop
  | _, [] => True
  | h, c :: calls => ¬ RejectsChild P h c ∧
      ∀ h' result, h.call P c = some (h', result) → NeverRejectsChild P h' calls

/-! ### Parents and data after a call -/

theorem data_unlinkNode (h : Heap n) (s : Fin n) : (h.unlinkNode s).data = h.data := by
  rw [unlinkNode_eq]

/-- `h'` differs from `h` in the parent of `s`, which is now `p`, and in links between siblings. -/
structure Moved (h h' : Heap n) (s : Fin n) (p : Option (Fin n)) : Prop where
  parent : h'.parent = Function.update h.parent s p
  data : h'.data = h.data

theorem moved_nodeUnlink (h : Heap n) (s : Fin n) : h.Moved (h.nodeUnlink s) s none := by
  constructor
  · simp only [nodeUnlink, setNext, setPrev, setParent, parent_unlinkNode]
  · simp only [nodeUnlink, setNext, setPrev, setParent, data_unlinkNode]

theorem moved_linkBefore (h : Heap n) (node s : Fin n) :
    h.Moved (h.linkBefore node s) s (h.parent node) := by
  unfold linkBefore
  simp only [setNextIf_eq, setPrev, setNext, setParent, setFirstChild, parent_unlinkNode]
  constructor <;> split <;> simp [data_unlinkNode]

theorem moved_linkAfter (h : Heap n) (node s : Fin n) :
    h.Moved (h.linkAfter node s) s (h.parent node) := by
  unfold linkAfter
  simp only [setPrevIf_eq, setPrev, setNext, setParent, setLastChild, parent_unlinkNode]
  constructor <;> split <;> simp [data_unlinkNode]

theorem moved_linkFirst (h : Heap n) (node s : Fin n) :
    h.Moved (h.linkFirst node s) s (some node) := by
  unfold linkFirst
  simp only [setPrev, setNext, setParent, setFirstChild, setLastChild]
  constructor <;> split <;> simp [data_unlinkNode, parent_unlinkNode]

theorem moved_linkLast (h : Heap n) (node s : Fin n) :
    h.Moved (h.linkLast node s) s (some node) := by
  unfold linkLast
  simp only [setPrev, setNext, setParent, setFirstChild, setLastChild]
  constructor <;> split <;> simp [data_unlinkNode, parent_unlinkNode]

theorem Moved.acyclic {h' : Heap n} {s p : Fin n} (moved : h.Moved h' s (some p))
    (acyclic : Acyclic h.parent) (allowed : h.Allowed P p s) : Acyclic h'.parent := by
  rw [moved.parent]
  exact acyclic.update allowed.notBelow

theorem Moved.acyclic_of_none {h' : Heap n} {s : Fin n} (moved : h.Moved h' s none)
    (acyclic : Acyclic h.parent) : Acyclic h'.parent := by
  rw [moved.parent]
  refine acyclic.mono fun a b link => ?_
  by_cases same : a = s
  · rw [same, Function.update_self] at link
    cases link
  · rwa [Function.update_of_ne same] at link

/-- The one new pair has been checked. -/
theorem Moved.contained {h' : Heap n} {s p : Fin n} (moved : h.Moved h' s (some p))
    (contained : Contained P h) (allowed : h.Allowed P p s) : Contained P h' := by
  intro c q link
  rw [moved.parent] at link
  rw [moved.data]
  by_cases same : c = s
  · subst same
    rw [Function.update_self] at link
    obtain rfl := Option.some.inj link
    exact allowed.type
  · rw [Function.update_of_ne same] at link
    exact contained c q link

theorem Moved.contained_of_none {h' : Heap n} {s : Fin n} (moved : h.Moved h' s none)
    (contained : Contained P h) : Contained P h' := by
  intro c q link
  rw [moved.parent] at link
  rw [moved.data]
  by_cases same : c = s
  · rw [same, Function.update_self] at link
    cases link
  · rw [Function.update_of_ne same] at link
    exact contained c q link

/-! ### Runs of calls -/

theorem acyclic_of_outcome {c : TreeCall n} {h' : Heap n} {result : Bool}
    (acyclic : Acyclic h.parent) (outcome : h.Outcome P c h' result) : Acyclic h'.parent := by
  cases outcome with
  | refused => exact acyclic
  | unlinked node => exact (moved_nodeUnlink h node).acyclic_of_none acyclic
  | before node s p parent allowed =>
    have moved := moved_linkBefore h node s
    rw [parent] at moved
    exact moved.acyclic acyclic allowed
  | after node s p parent allowed =>
    have moved := moved_linkAfter h node s
    rw [parent] at moved
    exact moved.acyclic acyclic allowed
  | replaced node s p parent allowed =>
    have moved := moved_linkBefore h node s
    rw [parent] at moved
    exact (moved_nodeUnlink _ node).acyclic_of_none (moved.acyclic acyclic allowed)
  | first node s allowed => exact (moved_linkFirst h node s).acyclic acyclic allowed
  | last node s allowed => exact (moved_linkLast h node s).acyclic acyclic allowed
  | sameType => exact acyclic
  | retyped => exact acyclic

/-- A change of type: the pair above has been checked, those below have not. -/
theorem contained_retyped_iff (acyclic : Acyclic h.parent) (contained : Contained P h)
    {node p : Fin n} {type : NodeType} (parent : h.parent node = some p)
    (accepted : P.nodeCanContainType (h.data p) type = true) :
    Contained P (h.setData node (h.retypedData node type)) ↔
      ∀ child, h.parent child = some node →
        P.nodeCanContainType (h.retypedData node type) (h.data child).type = true := by
  have other : ∀ {a b}, h.parent a = some b → a ≠ b := by
    rintro a _ link rfl
    exact acyclic a (.single link)
  constructor
  · intro after child link
    have pair := after child node link
    simpa [setData, other link] using pair
  · intro below c q link
    by_cases self : c = node
    · subst self
      have link' : h.parent c = some q := link
      rw [parent] at link'
      obtain rfl := Option.some.inj link'
      simpa [setData, Ne.symm (other parent), retypedData] using accepted
    · by_cases above : q = node
      · subst above
        simpa [setData, self] using below c link
      · simpa [setData, self, above] using contained c q link

/-- A call that gives a node no such type keeps the pairs right. -/
theorem contained_of_outcome {c : TreeCall n} {h' : Heap n} {result : Bool}
    (acyclic : Acyclic h.parent) (contained : Contained P h) (outcome : h.Outcome P c h' result)
    (accepts : ¬ RejectsChild P h c) : Contained P h' := by
  cases outcome with
  | refused => exact contained
  | unlinked node => exact (moved_nodeUnlink h node).contained_of_none contained
  | before node s p parent allowed =>
    have moved := moved_linkBefore h node s
    rw [parent] at moved
    exact moved.contained contained allowed
  | after node s p parent allowed =>
    have moved := moved_linkAfter h node s
    rw [parent] at moved
    exact moved.contained contained allowed
  | replaced node s p parent allowed =>
    have moved := moved_linkBefore h node s
    rw [parent] at moved
    exact (moved_nodeUnlink _ node).contained_of_none (moved.contained contained allowed)
  | first node s allowed => exact (moved_linkFirst h node s).contained contained allowed
  | last node s allowed => exact (moved_linkLast h node s).contained contained allowed
  | sameType => exact contained
  | retyped node p type changed parent allocator accepted =>
    refine (contained_retyped_iff acyclic contained parent accepted).mpr ?_
    intro child link
    by_contra rejected
    exact accepts ⟨node, p, type, rfl, changed, parent, allocator, accepted,
      child, link, by simpa using rejected⟩

/-- A call that gives a node such a type goes on, and leaves a wrong pair. -/
theorem not_contained_of_rejectsChild {c : TreeCall n} (acyclic : Acyclic h.parent)
    (contained : Contained P h) (rejects : RejectsChild P h c) :
    ∃ h', h.call P c = some (h', true) ∧ ¬ Contained P h' := by
  obtain ⟨node, p, type, rfl, changed, parent, allocator, accepted, child, link, rejected⟩ := rejects
  have other : p ≠ node := by
    rintro rfl
    exact acyclic p (.single parent)
  have notBelow : ¬ Relation.ReflTransGen (ParentOf h.parent) p node := fun path =>
    acyclic node (Relation.TransGen.head' parent path)
  have asked : (h.setData node { h.data node with type := type }).canContain P (some p)
      (some node) = some true := by
    refine canContain_of_allowed (h := h.setData node { h.data node with type := type }) acyclic
      ⟨allocator, notBelow, ?_⟩
    simpa [setData, other] using accepted
  refine ⟨h.setData node (h.retypedData node type), ?_, ?_⟩
  · simp only [setData] at asked
    simp [call, setType, changed, setData, parent, asked, retypedData]
  · rw [contained_retyped_iff acyclic contained parent accepted]
    intro all
    rw [all child link] at rejected
    cases rejected

theorem keepsContained_iff_of_acyclic (calls : List (TreeCall n)) (acyclic : Acyclic h.parent)
    (contained : Contained P h) : KeepsContained P h calls ↔ NeverRejectsChild P h calls := by
  induction calls generalizing h with
  | nil => exact iff_of_true contained trivial
  | cons c calls ih =>
    by_cases rejects : RejectsChild P h c
    · obtain ⟨h', eq, broken⟩ := not_contained_of_rejectsChild acyclic contained rejects
      refine iff_of_false ?_ fun sound => sound.1 rejects
      rintro ⟨_, h'', result, eq', rest⟩
      rw [eq] at eq'
      obtain ⟨rfl, rfl⟩ : h' = h'' ∧ true = result := by simpa using eq'
      cases calls with
      | nil => exact broken rest
      | cons _ _ => exact broken rest.1
    · obtain ⟨h', result, eq, outcome⟩ := call_outcome P acyclic c
      have acyclic' := acyclic_of_outcome acyclic outcome
      have contained' := contained_of_outcome acyclic contained outcome rejects
      constructor
      · rintro ⟨_, h'', result', eq', rest⟩
        refine ⟨rejects, fun h₂ result₂ eq₂ => ?_⟩
        rw [eq'] at eq₂
        obtain ⟨rfl, rfl⟩ : h'' = h₂ ∧ result' = result₂ := by simpa using eq₂
        rw [eq] at eq'
        obtain ⟨rfl, rfl⟩ : h' = h'' ∧ result = result' := by simpa using eq'
        exact (ih acyclic' contained').mp rest
      · rintro ⟨_, rest⟩
        exact ⟨contained, h', result, eq, (ih acyclic' contained').mpr (rest h' result eq)⟩

end Heap

/-- Over any run of calls on a tree in which every parent may contain its children, this stays
so exactly when no node gets a type that rejects one of its children. -/
theorem keepsContained_iff {n : Nat} (P : Config) (h : Heap n) (tree : WellFormed h)
    (contained : h.Contained P) (calls : List (TreeCall n)) :
    h.KeepsContained P calls ↔ h.NeverRejectsChild P calls :=
  Heap.keepsContained_iff_of_acyclic calls tree.parentAcyclic contained

/-- A paragraph with a text becomes a heading, which may contain it, below a document. -/
theorem keepsContained_of_heading :
    Heap.KeepsContained (n := 3) { tables := asciiTables, options := 0 }
      (.new (fun _ => 0) fun i => { type := if i = 0 then .document else if i = 1 then .paragraph else .text })
      [.appendChild (some 0) (some 1), .appendChild (some 1) (some 2), .setType 1 .heading] := by
  refine (keepsContained_iff _ _ (Heap.represents_new _ _).wellFormed ?_ _).mpr ?_
  · rintro c p ⟨⟩
  · refine ⟨?_, fun h₁ r₁ first => ⟨?_, fun h₂ r₂ second => ⟨?_, fun _ _ _ => trivial⟩⟩⟩
    · rintro ⟨_, _, _, ⟨⟩, _⟩
    · rintro ⟨_, _, _, ⟨⟩, _⟩
    · obtain ⟨rfl, rfl⟩ := Prod.mk.inj (Option.some.inj first)
      obtain ⟨rfl, rfl⟩ := Prod.mk.inj (Option.some.inj second)
      rintro ⟨node, p, type, ⟨⟩, _, _, _, _, child, link, rejects⟩
      revert rejects
      revert link
      revert child
      decide

/-- A block quote that holds a paragraph becomes a heading. -/
theorem not_keepsContained_of_quote :
    ¬ Heap.KeepsContained (n := 3) { tables := asciiTables, options := 0 }
      (.new (fun _ => 0) fun i =>
        { type := if i = 0 then .document else if i = 1 then .blockQuote else .paragraph })
      [.appendChild (some 0) (some 1), .appendChild (some 1) (some 2), .setType 1 .heading] := by
  rintro ⟨_, h₁, _, first, _, h₂, _, second, _, h₃, _, third, contained⟩
  obtain ⟨rfl, rfl⟩ := Prod.mk.inj (Option.some.inj first)
  obtain ⟨rfl, rfl⟩ := Prod.mk.inj (Option.some.inj second)
  obtain ⟨rfl, rfl⟩ := Prod.mk.inj (Option.some.inj third)
  exact absurd (contained 2 1 (by decide)) (by decide)

end CmarkGfm
