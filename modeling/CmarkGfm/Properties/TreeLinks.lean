import CmarkGfm.Library.LinkedForest
import CmarkGfm.Node.Links
import CmarkGfm.Utf8

/-!
# The tree interface keeps a forest

`Represents h kids` says that the links of the heap are those of a forest in which `kids` are
the lists of children. Every call but the insertion of a node next to itself takes a
represented forest to a represented forest.
-/

namespace CmarkGfm

open LinkedForest

/-- The links describe a forest. -/
structure WellFormed {n : Nat} (h : Heap n) : Prop where
  next_iff : ∀ a b, h.next a = some b ↔ h.prev b = some a
  siblings : ∀ a b, h.next a = some b → ∃ p, h.parent a = some p ∧ h.parent b = some p
  firstChild_iff : ∀ p c, h.firstChild p = some c ↔ h.parent c = some p ∧ h.prev c = none
  lastChild_iff : ∀ p c, h.lastChild p = some c ↔ h.parent c = some p ∧ h.next c = none
  nextAcyclic : Acyclic h.next
  parentAcyclic : Acyclic h.parent

namespace Heap

variable {n : Nat} {h : Heap n} {kids : Fin n → List (Fin n)}

/-- The links are those of a forest with these lists of children. -/
structure Represents (h : Heap n) (kids : Fin n → List (Fin n)) : Prop where
  first : ∀ p, h.firstChild p = (kids p).head?
  last : ∀ p, h.lastChild p = (kids p).getLast?
  parent : ∀ c p, h.parent c = some p ↔ c ∈ kids p
  nodup : ∀ p, (kids p).Nodup
  linked : ∀ p, Linked h.next h.prev none (kids p) none
  roots : ∀ c, h.parent c = none → h.prev c = none ∧ h.next c = none
  acyclic : Acyclic h.parent

/-- The same without node `s`, whose own links may be anything. -/
structure RepresentsBut (h : Heap n) (kids : Fin n → List (Fin n)) (s : Fin n) : Prop where
  first : ∀ p, h.firstChild p = (kids p).head?
  last : ∀ p, h.lastChild p = (kids p).getLast?
  parent : ∀ c, c ≠ s → ∀ p, h.parent c = some p ↔ c ∈ kids p
  away : ∀ p, s ∉ kids p
  nodup : ∀ p, (kids p).Nodup
  linked : ∀ p, Linked h.next h.prev none (kids p) none
  roots : ∀ c, c ≠ s → h.parent c = none → h.prev c = none ∧ h.next c = none
  acyclic : Acyclic h.parent

/-! ### A represented forest is well formed -/

/-- Where a node stands among its siblings. -/
theorem Represents.split (rep : h.Represents kids) {c p : Fin n} (child : h.parent c = some p) :
    ∃ before after, kids p = before ++ c :: after ∧ h.prev c = before.getLast? ∧
      h.next c = after.head? := by
  obtain ⟨before, after, split⟩ := List.mem_iff_append.mp ((rep.parent c p).mp child)
  have linked := rep.linked p
  rw [split] at linked
  exact ⟨before, after, split, linked.at.1, linked.at.2⟩

theorem Represents.parent_of_next (rep : h.Represents kids) {a b : Fin n}
    (link : h.next a = some b) : ∃ p, h.parent a = some p := by
  match parent : h.parent a with
  | some p => exact ⟨p, rfl⟩
  | none =>
    rw [(rep.roots a parent).2] at link
    cases link

theorem Represents.parent_of_prev (rep : h.Represents kids) {a b : Fin n}
    (link : h.prev b = some a) : ∃ p, h.parent b = some p := by
  match parent : h.parent b with
  | some p => exact ⟨p, rfl⟩
  | none =>
    rw [(rep.roots b parent).1] at link
    cases link

theorem Represents.of_next (rep : h.Represents kids) {a b : Fin n} (link : h.next a = some b) :
    h.prev b = some a ∧ ∃ p, h.parent a = some p ∧ h.parent b = some p := by
  obtain ⟨p, parent⟩ := rep.parent_of_next link
  obtain ⟨before, after, split, _, next⟩ := rep.split parent
  rw [next] at link
  obtain ⟨rest, rfl⟩ := List.head?_eq_some_iff.mp link
  have shifted : kids p = (before ++ [a]) ++ b :: rest := by simp [split]
  have linked := rep.linked p
  rw [shifted] at linked
  refine ⟨by simpa using linked.at.1, p, parent, (rep.parent b p).mpr ?_⟩
  simp [split]

theorem Represents.of_prev (rep : h.Represents kids) {a b : Fin n} (link : h.prev b = some a) :
    h.next a = some b := by
  obtain ⟨p, parent⟩ := rep.parent_of_prev link
  obtain ⟨before, after, split, prev, _⟩ := rep.split parent
  rw [prev] at link
  obtain ⟨rest, rfl⟩ := List.getLast?_eq_some_iff.mp link
  have shifted : kids p = rest ++ a :: (b :: after) := by simp [split]
  have linked := rep.linked p
  rw [shifted] at linked
  simpa using linked.at.2

theorem Represents.wellFormed (rep : h.Represents kids) : WellFormed h := by
  constructor
  case next_iff => exact fun a b => ⟨fun link => (rep.of_next link).1, rep.of_prev⟩
  case siblings => exact fun a b link => (rep.of_next link).2
  case firstChild_iff =>
    intro p c
    rw [rep.first, rep.parent]
    constructor
    · intro first
      obtain ⟨rest, split⟩ := List.head?_eq_some_iff.mp first
      have linked := rep.linked p
      rw [split] at linked
      exact ⟨by simp [split], linked.1⟩
    · rintro ⟨inside, noPrev⟩
      obtain ⟨before, after, split, prev, _⟩ := rep.split ((rep.parent c p).mpr inside)
      rw [noPrev, eq_comm, List.getLast?_eq_none_iff] at prev
      simp [split, prev]
  case lastChild_iff =>
    intro p c
    rw [rep.last, rep.parent]
    constructor
    · intro last
      obtain ⟨rest, split⟩ := List.getLast?_eq_some_iff.mp last
      have linked := rep.linked p
      rw [split] at linked
      exact ⟨by simp [split], linked.at.2⟩
    · rintro ⟨inside, noNext⟩
      obtain ⟨before, after, split, _, next⟩ := rep.split ((rep.parent c p).mpr inside)
      rw [noNext, eq_comm, List.head?_eq_none_iff] at next
      simp [split, next]
  case nextAcyclic =>
    intro a cycle
    obtain ⟨b, link, _⟩ := Relation.TransGen.head'_iff.mp cycle
    obtain ⟨p, parent⟩ := rep.parent_of_next link
    obtain ⟨before, after, split, _⟩ := rep.split parent
    have linked := rep.linked p
    have nodup := rep.nodup p
    rw [split] at linked nodup
    have again : a ∈ after := linked.mem_of_transGen cycle
    exact (List.nodup_cons.mp (List.nodup_append.mp nodup).2.1).1 again
  case parentAcyclic => exact rep.acyclic

/-- The children of a node, from its first child on. -/
theorem exists_children (wellFormed : WellFormed h) (p : Fin n) :
    ∃ l, h.firstChild p = l.head? ∧ Linked h.next h.prev none l none ∧ ∀ c, h.parent c = some p ↔ c ∈ l := by
  have backward := wellFormed.nextAcyclic.inverse wellFormed.next_iff
  cases first : h.firstChild p with
  | none =>
    refine ⟨[], rfl, trivial, fun c => ⟨fun child => ?_, nofun⟩⟩
    -- before every child there is a first one
    exfalso
    induction bound : depth h.prev c using Nat.strong_induction_on generalizing c with
    | _ k ih =>
      cases before : h.prev c with
      | none =>
        have isFirst := (wellFormed.firstChild_iff p c).mpr ⟨child, before⟩
        rw [first] at isFirst
        cases isFirst
      | some b =>
        obtain ⟨q, parent, parent'⟩ := wellFormed.siblings b c ((wellFormed.next_iff b c).mpr before)
        rw [← parent', child] at parent
        exact ih (depth h.prev b) (bound ▸ backward.depth_lt before) b parent rfl
  | some f =>
    obtain ⟨parent, noPrev⟩ := (wellFormed.firstChild_iff p f).mp first
    obtain ⟨cs, linked⟩ := exists_linked wellFormed.nextAcyclic wellFormed.next_iff f
    rw [noPrev] at linked
    refine ⟨f :: cs, rfl, linked, fun c => ⟨fun child => ?_, fun inside => ?_⟩⟩
    · induction bound : depth h.prev c using Nat.strong_induction_on generalizing c with
      | _ k ih =>
        cases before : h.prev c with
        | none =>
          have isFirst := (wellFormed.firstChild_iff p c).mpr ⟨child, before⟩
          rw [first] at isFirst
          exact Option.some.inj isFirst ▸ List.mem_cons_self
        | some b =>
          have link := (wellFormed.next_iff b c).mpr before
          obtain ⟨q, parent, parent'⟩ := wellFormed.siblings b c link
          rw [← parent', child] at parent
          have inside := ih (depth h.prev b) (bound ▸ backward.depth_lt before) b parent rfl
          obtain ⟨left, right, split⟩ := List.mem_iff_append.mp inside
          rw [split] at linked ⊢
          rw [linked.at.2] at link
          exact List.mem_append_right _ (List.mem_cons_of_mem b (List.mem_of_head? link))
    · have same {a b : Fin n} (path : Relation.TransGen (ParentOf h.next) a b) (child : h.parent a = some p) :
          h.parent b = some p := by
        induction path with
        | single link =>
          obtain ⟨q, parent, parent'⟩ := wellFormed.siblings _ _ link
          rw [parent', ← parent, child]
        | tail _ link ih =>
          obtain ⟨q, parent, parent'⟩ := wellFormed.siblings _ _ link
          rw [parent', ← parent, ih]
      rcases List.mem_cons.mp inside with rfl | later
      · exact parent
      · exact same ((List.pairwise_cons.mp linked.pairwise).1 c later) parent

/-- The links of a well-formed heap are those of a forest. -/
theorem exists_represents (wellFormed : WellFormed h) : ∃ kids, h.Represents kids := by
  choose kids first linked member using exists_children wellFormed
  refine ⟨kids, first, fun p => ?_, fun c p => member p c, fun p => (linked p).nodup wellFormed.nextAcyclic,
    linked, fun c noParent => ⟨?_, ?_⟩, wellFormed.parentAcyclic⟩
  · rcases List.eq_nil_or_concat (kids p) with none | ⟨before, z, split⟩
    · rw [none, List.getLast?_nil, Option.eq_none_iff_forall_ne_some]
      intro c last
      have child := (member p c).mp ((wellFormed.lastChild_iff p c).mp last).1
      rw [none] at child
      cases child
    · rw [List.concat_eq_append] at split
      have at' := linked p
      rw [split] at at'
      have child : z ∈ kids p := by simp [split]
      rw [split, List.getLast?_concat]
      exact (wellFormed.lastChild_iff p z).mpr ⟨(member p z).mpr child, at'.at.2⟩
  · cases before : h.prev c with
    | none => rfl
    | some b =>
      obtain ⟨_, _, parent⟩ := wellFormed.siblings b c ((wellFormed.next_iff b c).mpr before)
      rw [noParent] at parent
      cases parent
  · cases after : h.next c with
    | none => rfl
    | some b =>
      obtain ⟨_, parent, _⟩ := wellFormed.siblings c b after
      rw [noParent] at parent
      cases parent

/-! ### Taking a node out -/

theorem unlinkNode_eq (h : Heap n) (s : Fin n) :
    h.unlinkNode s =
      { h with
        next := fun c => if h.prev s = some c then h.next s else h.next c
        prev := fun c => if h.next s = some c then h.prev s else h.prev c
        firstChild := fun p =>
          if h.parent s = some p ∧ h.firstChild p = some s then h.next s else h.firstChild p
        lastChild := fun p =>
          if h.parent s = some p ∧ h.lastChild p = some s then h.prev s else h.lastChild p } := by
  unfold unlinkNode
  simp only [setNextIf_eq, setPrevIf_eq, ite_self]
  cases parent : h.parent s with
  | none => simp
  | some p =>
    simp only [setFirstChild, setLastChild, Option.some.injEq]
    split <;> split <;> congr 1 <;> funext c <;> by_cases same : c = p <;>
      simp_all [eq_comm]

theorem Represents.away (rep : h.Represents kids) {s p q : Fin n} (parent : h.parent s = some p)
    (other : q ≠ p) : s ∉ kids q := by
  intro inside
  rw [(rep.parent s q).mpr inside] at parent
  exact other (Option.some.inj parent)

theorem Represents.erase_of_ne (rep : h.Represents kids) {s p q : Fin n}
    (parent : h.parent s = some p) (other : q ≠ p) : (kids q).erase s = kids q :=
  List.erase_of_not_mem (rep.away parent other)

/-- A node without parent has no links, and unlinking it writes nothing. -/
theorem Represents.unlinkRoot (rep : h.Represents kids) {s : Fin n} (root : h.parent s = none) :
    (h.unlinkNode s).RepresentsBut (fun p => (kids p).erase s) s := by
  obtain ⟨noPrev, noNext⟩ := rep.roots s root
  have away : ∀ p, s ∉ kids p := by
    intro p inside
    rw [(rep.parent s p).mpr inside] at root
    cases root
  have same : (fun p => (kids p).erase s) = kids :=
    funext fun p => List.erase_of_not_mem (away p)
  have unchanged : h.unlinkNode s = h := by
    rw [unlinkNode_eq, root, noPrev, noNext]
    simp
  rw [same, unchanged]
  exact ⟨rep.first, rep.last, fun c _ p => rep.parent c p, away, rep.nodup, rep.linked,
    fun c _ => rep.roots c, rep.acyclic⟩

theorem Represents.unlinkChild (rep : h.Represents kids) {s p : Fin n}
    (parent : h.parent s = some p) :
    (h.unlinkNode s).RepresentsBut (fun q => (kids q).erase s) s := by
  obtain ⟨before, after, split, prev, next⟩ := rep.split parent
  have nodup := rep.nodup p
  have linked := rep.linked p
  rw [split] at nodup linked
  obtain ⟨_, nodupRight, apart⟩ := List.nodup_append.mp nodup
  have notBefore : s ∉ before := fun inside => apart s inside s (List.mem_cons_self ..) rfl
  have notAfter : s ∉ after := (List.nodup_cons.mp nodupRight).1
  have here : (kids p).erase s = before ++ after := by
    rw [split, List.erase_append_right _ notBefore, List.erase_cons_head]
  have elsewhere : ∀ q, q ≠ p → (kids q).erase s = kids q := fun q => rep.erase_of_ne parent
  rw [unlinkNode_eq, parent, prev, next]
  constructor
  case first =>
    intro q
    simp only [Option.some.injEq]
    by_cases same : p = q
    · subst same
      rw [here, rep.first, split]
      match before with
      | [] => simp
      | b :: bs =>
        have other : b ≠ s := fun eq => notBefore (eq ▸ List.mem_cons_self ..)
        simp [other]
    · rw [if_neg fun both => same both.1, elsewhere q (Ne.symm same), rep.first]
  case last =>
    intro q
    simp only [Option.some.injEq]
    by_cases same : p = q
    · subst same
      rw [here, rep.last, split]
      rcases List.eq_nil_or_concat after with rfl | ⟨as, a, rfl⟩
      · simp
      · have other : a ≠ s := fun eq => notAfter (by simp [eq])
        simp [List.getLast?_append, List.getLast?_cons, other]
    · rw [if_neg fun both => same both.1, elsewhere q (Ne.symm same), rep.last]
  case parent =>
    intro c other q
    rw [List.mem_erase_of_ne other]
    exact rep.parent c q
  case away =>
    intro q inside
    exact List.Nodup.not_mem_erase (rep.nodup q) inside
  case nodup => exact fun q => (rep.nodup q).erase s
  case linked =>
    intro q
    by_cases same : q = p
    · subst same
      rw [here, ← prev, ← next]
      exact linked.unlink nodup
    · rw [elsewhere q same]
      have foreign : ∀ c ∈ kids q, c ∉ kids p := by
        intro c inside inside'
        exact rep.away ((rep.parent c p).mpr inside') same inside
      refine (rep.linked q).congr ?_ ?_
      · intro c inside
        refine if_neg fun last => foreign c inside ?_
        simp [split, List.mem_of_getLast? last]
      · intro c inside
        refine if_neg fun first => foreign c inside ?_
        simp [split, List.mem_of_head? first]
  case roots =>
    intro c other root
    have notChild : c ∉ kids p := by
      intro inside
      rw [(rep.parent c p).mpr inside] at root
      cases root
    obtain ⟨noPrev, noNext⟩ := rep.roots c root
    constructor
    · refine (if_neg fun first => notChild ?_).trans noPrev
      simp [split, List.mem_of_head? first]
    · refine (if_neg fun last => notChild ?_).trans noNext
      simp [split, List.mem_of_getLast? last]
  case acyclic => exact rep.acyclic

/-- Unlinking takes a node out of the list it is in. -/
theorem Represents.unlinkNode (rep : h.Represents kids) (s : Fin n) :
    (h.unlinkNode s).RepresentsBut (fun p => (kids p).erase s) s := by
  match parent : h.parent s with
  | none => exact rep.unlinkRoot parent
  | some p => exact rep.unlinkChild parent

theorem Represents.nodeUnlink (rep : h.Represents kids) (s : Fin n) :
    (h.nodeUnlink s).Represents (fun p => (kids p).erase s) := by
  have but := rep.unlinkNode s
  have other : ∀ q, ∀ c ∈ (kids q).erase s, c ≠ s := by
    rintro q c inside rfl
    exact but.away q inside
  constructor
  case first => exact but.first
  case last => exact but.last
  case parent =>
    intro c p
    by_cases same : c = s
    · subst same
      simp [Heap.nodeUnlink, setNext, setPrev, setParent, but.away p]
    · simp only [Heap.nodeUnlink, setNext, setPrev, setParent, Function.update_of_ne same]
      exact but.parent c same p
  case nodup => exact but.nodup
  case linked =>
    intro p
    refine (but.linked p).congr ?_ ?_ <;> intro c inside <;>
      exact Function.update_of_ne (other p c inside) _ _
  case roots =>
    intro c
    by_cases same : c = s
    · subst same
      simp [Heap.nodeUnlink, setNext, setPrev, setParent]
    · simp only [Heap.nodeUnlink, setNext, setPrev, setParent, Function.update_of_ne same]
      exact but.roots c same
  case acyclic =>
    refine but.acyclic.mono ?_
    intro a b link
    by_cases same : a = s
    · subst same
      simp [Heap.nodeUnlink, setNext, setPrev, setParent] at link
    · simpa [Heap.nodeUnlink, setNext, setPrev, setParent, same] using link

/-! ### Putting a node in -/

/-- Node `s`, which is in no list, is put between `before` and `after` below `p`. -/
def attached (h : Heap n) (p s : Fin n) (before after : Option (Fin n)) : Heap n :=
  { h with
    next := fun c => if c = s then after else if before = some c then some s else h.next c
    prev := fun c => if c = s then before else if after = some c then some s else h.prev c
    parent := Function.update h.parent s (some p)
    firstChild := fun q => if q = p ∧ before = none then some s else h.firstChild q
    lastChild := fun q => if q = p ∧ after = none then some s else h.lastChild q }

theorem RepresentsBut.attached {s p : Fin n} {before after : List (Fin n)}
    (rep : h.RepresentsBut kids s) (split : kids p = before ++ after)
    (notBelow : ¬ Relation.ReflTransGen (ParentOf h.parent) p s) :
    (h.attached p s before.getLast? after.head?).Represents
      (Function.update kids p (before ++ s :: after)) := by
  have away : s ∉ before ++ after := split ▸ rep.away p
  have nodup : (before ++ s :: after).Nodup := by
    rw [List.perm_middle.nodup_iff, List.nodup_cons]
    exact ⟨away, split ▸ rep.nodup p⟩
  have inFirst : ∀ {c}, before.getLast? = some c → c ∈ kids p := fun last => by
    simp [split, List.mem_of_getLast? last]
  have inSecond : ∀ {c}, after.head? = some c → c ∈ kids p := fun first => by
    simp [split, List.mem_of_head? first]
  constructor
  case first =>
    intro q
    by_cases same : q = p
    · subst same
      simp only [Heap.attached, true_and, Function.update_self, rep.first, split]
      cases before <;> simp [List.getLast?_cons]
    · simp [Heap.attached, same, rep.first]
  case last =>
    intro q
    by_cases same : q = p
    · subst same
      simp only [Heap.attached, true_and, Function.update_self, rep.last, split]
      cases after <;> simp [List.getLast?_append, List.getLast?_cons]
    · simp [Heap.attached, same, rep.last]
  case parent =>
    intro c q
    by_cases node : c = s
    · subst node
      by_cases same : q = p
      · subst same
        simp [Heap.attached]
      · simp [Heap.attached, same, rep.away q, Ne.symm same]
    · have old := rep.parent c node q
      by_cases same : q = p
      · subst same
        simp [Heap.attached, node, old, split]
      · simp [Heap.attached, node, same, old]
  case nodup =>
    intro q
    by_cases same : q = p
    · subst same
      rw [Function.update_self]
      exact nodup
    · rw [Function.update_of_ne same]
      exact rep.nodup q
  case linked =>
    intro q
    by_cases same : q = p
    · subst same
      rw [Function.update_self]
      have linked := rep.linked q
      rw [split] at linked
      exact linked.insert nodup
    · rw [Function.update_of_ne same]
      have foreign : ∀ c ∈ kids q, c ≠ s ∧ c ∉ kids p := by
        intro c inside
        have node : c ≠ s := by
          rintro rfl
          exact rep.away q inside
        refine ⟨node, fun inside' => same ?_⟩
        have parent := (rep.parent c node p).mpr inside'
        rw [(rep.parent c node q).mpr inside] at parent
        exact Option.some.inj parent
      refine (rep.linked q).congr ?_ ?_
      · intro c inside
        obtain ⟨node, notChild⟩ := foreign c inside
        simp only [Heap.attached, if_neg node]
        exact if_neg fun last => notChild (inFirst last)
      · intro c inside
        obtain ⟨node, notChild⟩ := foreign c inside
        simp only [Heap.attached, if_neg node]
        exact if_neg fun first => notChild (inSecond first)
  case roots =>
    intro c root
    have node : c ≠ s := by
      rintro rfl
      simp [Heap.attached] at root
    have root : h.parent c = none := by simpa [Heap.attached, node] using root
    have notChild : c ∉ kids p := by
      intro inside
      rw [(rep.parent c node p).mpr inside] at root
      cases root
    obtain ⟨noPrev, noNext⟩ := rep.roots c node root
    simp only [Heap.attached, if_neg node]
    constructor
    · rw [if_neg fun first => notChild (inSecond first), noPrev]
    · rw [if_neg fun last => notChild (inFirst last), noNext]
  case acyclic => exact rep.acyclic.update notBelow

theorem linkBefore_eq {node s p : Fin n} (parent : (h.unlinkNode s).parent node = some p)
    (other : node ≠ s) :
    h.linkBefore node s =
      (h.unlinkNode s).attached p s ((h.unlinkNode s).prev node) (some node) := by
  unfold linkBefore
  generalize h.unlinkNode s = h at parent ⊢
  simp only [setNextIf_eq, setPrev, setNext, setParent, setFirstChild, parent, attached]
  cases h.prev node with
  | none =>
    simp only
    congr 1 <;> funext c <;> by_cases same : c = s <;> by_cases same' : c = node <;>
      by_cases same'' : c = p <;> simp_all [Function.update_apply, eq_comm]
  | some b =>
    simp only
    congr 1 <;> funext c <;> by_cases same : c = s <;> by_cases same' : c = node <;>
      simp_all [Function.update_apply, eq_comm]

theorem linkAfter_eq {node s p : Fin n} (parent : (h.unlinkNode s).parent node = some p)
    (other : node ≠ s) :
    h.linkAfter node s =
      (h.unlinkNode s).attached p s (some node) ((h.unlinkNode s).next node) := by
  unfold linkAfter
  generalize h.unlinkNode s = h at parent ⊢
  simp only [setPrevIf_eq, setPrev, setNext, setParent, setLastChild, parent, attached]
  cases h.next node with
  | none =>
    simp only
    congr 1 <;> funext c <;> by_cases same : c = s <;> by_cases same' : c = node <;>
      by_cases same'' : c = p <;> simp_all [Function.update_apply, eq_comm]
  | some b =>
    simp only
    congr 1 <;> funext c <;> by_cases same : c = s <;> by_cases same' : c = node <;>
      simp_all [Function.update_apply, eq_comm]

theorem linkFirst_eq {node s : Fin n} (other : (h.unlinkNode s).firstChild node ≠ some s) :
    h.linkFirst node s =
      (h.unlinkNode s).attached node s none ((h.unlinkNode s).firstChild node) := by
  unfold linkFirst
  generalize h.unlinkNode s = h at other ⊢
  simp only [setPrev, setNext, setParent, setFirstChild, setLastChild, attached]
  cases first : h.firstChild node with
  | none =>
    simp only
    congr 1 <;> funext c <;> by_cases same : c = s <;> by_cases same' : c = node <;>
      simp_all
  | some f =>
    have other : s ≠ f := fun same => other (by rw [first, same])
    simp only
    congr 1 <;> funext c <;> by_cases same : c = s <;> by_cases same' : c = node <;>
      simp_all [Function.update_apply, @eq_comm _ f]

theorem linkLast_eq {node s : Fin n} (other : (h.unlinkNode s).lastChild node ≠ some s) :
    h.linkLast node s =
      (h.unlinkNode s).attached node s ((h.unlinkNode s).lastChild node) none := by
  unfold linkLast
  generalize h.unlinkNode s = h at other ⊢
  simp only [setPrev, setNext, setParent, setFirstChild, setLastChild, attached]
  cases last : h.lastChild node with
  | none =>
    simp only
    congr 1 <;> funext c <;> by_cases same : c = s <;> by_cases same' : c = node <;>
      simp_all
  | some f =>
    have other : s ≠ f := fun same => other (by rw [last, same])
    simp only
    congr 1 <;> funext c <;> by_cases same : c = s <;> by_cases same' : c = node <;>
      simp_all [Function.update_apply, @eq_comm _ f]

theorem parent_unlinkNode (h : Heap n) (s : Fin n) : (h.unlinkNode s).parent = h.parent := by
  rw [unlinkNode_eq]

theorem Represents.linkBefore (rep : h.Represents kids) {node s p : Fin n}
    (parent : h.parent node = some p) (other : node ≠ s)
    (notBelow : ¬ Relation.ReflTransGen (ParentOf h.parent) p s) :
    ∃ kids', (h.linkBefore node s).Represents kids' := by
  have but := rep.unlinkNode s
  rw [← parent_unlinkNode h s] at parent notBelow
  obtain ⟨before, after, split⟩ := List.mem_iff_append.mp ((but.parent node other p).mp parent)
  have linked := but.linked p
  rw [split] at linked
  rw [linkBefore_eq parent other, linked.at.1]
  exact ⟨_, but.attached split notBelow⟩

theorem Represents.linkAfter (rep : h.Represents kids) {node s p : Fin n}
    (parent : h.parent node = some p) (other : node ≠ s)
    (notBelow : ¬ Relation.ReflTransGen (ParentOf h.parent) p s) :
    ∃ kids', (h.linkAfter node s).Represents kids' := by
  have but := rep.unlinkNode s
  rw [← parent_unlinkNode h s] at parent notBelow
  obtain ⟨before, after, split⟩ := List.mem_iff_append.mp ((but.parent node other p).mp parent)
  have linked := but.linked p
  rw [split] at linked
  have last : (before ++ [node]).getLast? = some node := by simp
  rw [linkAfter_eq parent other, linked.at.2, ← last]
  rw [← List.singleton_append, ← List.append_assoc] at split
  exact ⟨_, but.attached split notBelow⟩

theorem Represents.linkFirst (rep : h.Represents kids) {node s : Fin n}
    (notBelow : ¬ Relation.ReflTransGen (ParentOf h.parent) node s) :
    ∃ kids', (h.linkFirst node s).Represents kids' := by
  have but := rep.unlinkNode s
  rw [← parent_unlinkNode h s] at notBelow
  have other : (h.unlinkNode s).firstChild node ≠ some s := by
    rw [but.first]
    exact fun first => but.away node (List.mem_of_head? first)
  rw [linkFirst_eq other, but.first]
  exact ⟨_, but.attached (show _ = [] ++ _ from rfl) notBelow⟩

theorem Represents.linkLast (rep : h.Represents kids) {node s : Fin n}
    (notBelow : ¬ Relation.ReflTransGen (ParentOf h.parent) node s) :
    ∃ kids', (h.linkLast node s).Represents kids' := by
  have but := rep.unlinkNode s
  rw [← parent_unlinkNode h s] at notBelow
  have other : (h.unlinkNode s).lastChild node ≠ some s := by
    rw [but.last]
    exact fun last => but.away node (List.mem_of_getLast? last)
  rw [linkLast_eq other, but.last]
  exact ⟨_, but.attached (List.append_nil _).symm notBelow⟩

/-! ### The safety check -/

/-- On acyclic parents the way up ends, and tells whether `child` is on it. -/
theorem meetsAncestor_spec (acyclic : Acyclic h.parent) (child : Fin n) (fuel : Nat) (cur : Fin n)
    (enough : depth h.parent cur ≤ fuel) :
    ∃ met, h.meetsAncestor child fuel cur = some met ∧
      (met = true ↔ Relation.ReflTransGen (ParentOf h.parent) cur child) := by
  induction fuel generalizing cur with
  | zero =>
    have positive := depth_pos h.parent cur
    omega
  | succ fuel ih =>
    rw [meetsAncestor]
    by_cases same : cur = child
    · subst same
      exact ⟨true, if_pos rfl, iff_of_true rfl .refl⟩
    · rw [if_neg same]
      match parent : h.parent cur with
      | none =>
        refine ⟨false, rfl, iff_of_false (by simp) fun path => ?_⟩
        obtain rfl | ⟨up, link, _⟩ := path.cases_head
        · exact same rfl
        · rw [ParentOf, parent] at link
          cases link
      | some up =>
        have closer := acyclic.depth_lt parent
        obtain ⟨met, eq, spec⟩ := ih up (by omega)
        refine ⟨met, eq, spec.trans ⟨fun path => path.head parent, fun path => ?_⟩⟩
        obtain rfl | ⟨up', link, rest⟩ := path.cases_head
        · exact absurd rfl same
        · rw [ParentOf, parent] at link
          obtain rfl := Option.some.inj link
          exact rest

/-- The check returns, and accepts only a child that is not above its new parent. -/
theorem canContain_spec (P : Config) (acyclic : Acyclic h.parent) (node child : Option (Fin n)) :
    ∃ accepted, h.canContain P node child = some accepted ∧
      (accepted = true ↔ ∃ a s, node = some a ∧ child = some s ∧ h.mem a = h.mem s ∧
        ¬ Relation.ReflTransGen (ParentOf h.parent) a s ∧
        P.nodeCanContainType (h.data a) (h.data s).type = true) := by
  unfold canContain
  match node, child with
  | none, _ => exact ⟨false, by cases child <;> rfl, by simp⟩
  | some a, none => exact ⟨false, rfl, by simp⟩
  | some a, some s =>
    simp only
    by_cases allocator : h.mem a = h.mem s
    · rw [if_neg (not_not.mpr allocator)]
      have bound : depth h.parent a ≤ n := by
        have := depth_le_card h.parent a
        rwa [Nat.card_eq_fintype_card, Fintype.card_fin] at this
      obtain ⟨met, eq, spec⟩ := meetsAncestor_spec acyclic s n a bound
      rw [eq]
      cases met with
      | true =>
        have path := spec.mp rfl
        refine ⟨false, rfl, iff_of_false (by simp) ?_⟩
        rintro ⟨_, _, ⟨⟩, ⟨⟩, _, notBelow, _⟩
        exact notBelow path
      | false =>
        have notBelow : ¬ Relation.ReflTransGen (ParentOf h.parent) a s := by
          rw [← spec]
          simp
        refine ⟨_, rfl, ?_⟩
        constructor
        · intro accepted
          exact ⟨a, s, rfl, rfl, allocator, notBelow, accepted⟩
        · rintro ⟨_, _, ⟨⟩, ⟨⟩, _, _, accepted⟩
          exact accepted
    · rw [if_pos allocator]
      refine ⟨false, rfl, iff_of_false (by simp) ?_⟩
      rintro ⟨_, _, ⟨⟩, ⟨⟩, same, _⟩
      exact allocator same

/-! ### What a call does -/

/-- `S_can_contain` accepts `child` below `node`. -/
structure Allowed (P : Config) (h : Heap n) (node child : Fin n) : Prop where
  allocator : h.mem node = h.mem child
  notBelow : ¬ Relation.ReflTransGen (ParentOf h.parent) node child
  type : P.nodeCanContainType (h.data node) (h.data child).type = true

/-- The calls and what becomes of the heap. -/
inductive Outcome (P : Config) (h : Heap n) : TreeCall n → Heap n → Bool → Prop
  | refused (c : TreeCall n) : Outcome P h c h false
  | unlinked (node : Fin n) : Outcome P h (.unlink node) (h.nodeUnlink node) true
  | before (node s p : Fin n) (parent : h.parent node = some p) (allowed : h.Allowed P p s) :
      Outcome P h (.insertBefore (some node) (some s)) (h.linkBefore node s) true
  | after (node s p : Fin n) (parent : h.parent node = some p) (allowed : h.Allowed P p s) :
      Outcome P h (.insertAfter (some node) (some s)) (h.linkAfter node s) true
  | replaced (node s p : Fin n) (parent : h.parent node = some p) (allowed : h.Allowed P p s) :
      Outcome P h (.replace (some node) (some s)) ((h.linkBefore node s).nodeUnlink node) true
  | first (node s : Fin n) (allowed : h.Allowed P node s) :
      Outcome P h (.prependChild (some node) (some s)) (h.linkFirst node s) true
  | last (node s : Fin n) (allowed : h.Allowed P node s) :
      Outcome P h (.appendChild (some node) (some s)) (h.linkLast node s) true
  | sameType (node : Fin n) : Outcome P h (.setType node (h.data node).type) h true
  | retyped (node p : Fin n) (type : NodeType) (changed : type ≠ (h.data node).type)
      (parent : h.parent node = some p) (allocator : h.mem p = h.mem node)
      (accepted : P.nodeCanContainType (h.data p) type = true) :
      Outcome P h (.setType node type)
        (h.setData node { h.data node with type := type, as := .empty }) true

theorem canContain_cases (P : Config) (acyclic : Acyclic h.parent) (node child : Option (Fin n)) :
    h.canContain P node child = some false ∨
      ∃ a s, node = some a ∧ child = some s ∧ h.Allowed P a s ∧
        h.canContain P node child = some true := by
  obtain ⟨accepted, eq, spec⟩ := canContain_spec P acyclic node child
  cases accepted with
  | false => exact .inl eq
  | true =>
    obtain ⟨a, s, node, child, allocator, notBelow, type⟩ := spec.mp rfl
    exact .inr ⟨a, s, node, child, ⟨allocator, notBelow, type⟩, eq⟩

theorem insertBefore_cases (P : Config) (acyclic : Acyclic h.parent) (node sibling : Option (Fin n)) :
    h.insertBefore P node sibling = some (h, false) ∨
      ∃ a s p, node = some a ∧ sibling = some s ∧ h.parent a = some p ∧ h.Allowed P p s ∧
        h.insertBefore P node sibling = some (h.linkBefore a s, true) := by
  unfold insertBefore
  match node, sibling with
  | none, _ => exact .inl rfl
  | some a, none => exact .inl rfl
  | some a, some s =>
    simp only
    match parent : h.parent a with
    | none => exact .inl rfl
    | some p =>
      rcases canContain_cases P acyclic (some p) (some s) with no | ⟨_, _, ⟨⟩, ⟨⟩, allowed, yes⟩
      · exact .inl (by simp [no])
      · exact .inr ⟨a, s, p, rfl, rfl, parent, allowed, by simp [yes]⟩

theorem insertAfter_cases (P : Config) (acyclic : Acyclic h.parent) (node sibling : Option (Fin n)) :
    h.insertAfter P node sibling = some (h, false) ∨
      ∃ a s p, node = some a ∧ sibling = some s ∧ h.parent a = some p ∧ h.Allowed P p s ∧
        h.insertAfter P node sibling = some (h.linkAfter a s, true) := by
  unfold insertAfter
  match node, sibling with
  | none, _ => exact .inl rfl
  | some a, none => exact .inl rfl
  | some a, some s =>
    simp only
    match parent : h.parent a with
    | none => exact .inl rfl
    | some p =>
      rcases canContain_cases P acyclic (some p) (some s) with no | ⟨_, _, ⟨⟩, ⟨⟩, allowed, yes⟩
      · exact .inl (by simp [no])
      · exact .inr ⟨a, s, p, rfl, rfl, parent, allowed, by simp [yes]⟩

theorem setType_cases (P : Config) (acyclic : Acyclic h.parent) (node : Fin n) (type : NodeType) :
    h.setType P node type = some (h, false) ∨
      (type = (h.data node).type ∧ h.setType P node type = some (h, true)) ∨
      ∃ p, type ≠ (h.data node).type ∧ h.parent node = some p ∧ h.mem p = h.mem node ∧
        P.nodeCanContainType (h.data p) type = true ∧ h.setType P node type =
          some (h.setData node { h.data node with type := type, as := .empty }, true) := by
  unfold setType
  by_cases same : type = (h.data node).type
  · exact .inr (.inl ⟨same, if_pos same⟩)
  · rw [if_neg same]
    rcases canContain_cases (h := h.setData node { h.data node with type := type }) P acyclic
      (h.parent node) (some node) with no | ⟨p, _, parent, ⟨⟩, allowed, yes⟩
    · refine .inl ?_
      simp [setData] at no ⊢
      simp [no]
    · refine .inr (.inr ⟨p, same, parent, allowed.allocator, ?_, ?_⟩)
      · have other : p ≠ node := by
          rintro rfl
          exact acyclic p (.single parent)
        simpa [setData, other] using allowed.type
      · simp [setData] at yes ⊢
        simp [yes]

/-- A call returns, as long as the parents have no cycle. -/
theorem call_outcome (P : Config) (acyclic : Acyclic h.parent) (c : TreeCall n) :
    ∃ h' result, h.call P c = some (h', result) ∧ h.Outcome P c h' result := by
  cases c with
  | unlink node => exact ⟨_, _, rfl, .unlinked node⟩
  | insertBefore node sibling =>
    rcases insertBefore_cases P acyclic node sibling with
      no | ⟨a, s, p, rfl, rfl, parent, allowed, yes⟩
    · exact ⟨_, _, no, .refused _⟩
    · exact ⟨_, _, yes, .before a s p parent allowed⟩
  | insertAfter node sibling =>
    rcases insertAfter_cases P acyclic node sibling with
      no | ⟨a, s, p, rfl, rfl, parent, allowed, yes⟩
    · exact ⟨_, _, no, .refused _⟩
    · exact ⟨_, _, yes, .after a s p parent allowed⟩
  | replace oldnode newnode =>
    rcases insertBefore_cases P acyclic oldnode newnode with
      no | ⟨a, s, p, rfl, rfl, parent, allowed, yes⟩
    · exact ⟨_, _, by simp [call, replace, no], .refused _⟩
    · exact ⟨_, _, by simp [call, replace, yes], .replaced a s p parent allowed⟩
  | prependChild node child =>
    rcases canContain_cases P acyclic node child with no | ⟨a, s, rfl, rfl, allowed, yes⟩
    · exact ⟨_, _, by simp [call, prependChild, no], .refused _⟩
    · exact ⟨_, _, by simp [call, prependChild, yes], .first a s allowed⟩
  | appendChild node child =>
    rcases canContain_cases P acyclic node child with no | ⟨a, s, rfl, rfl, allowed, yes⟩
    · exact ⟨_, _, by simp [call, appendChild, no], .refused _⟩
    · exact ⟨_, _, by simp [call, appendChild, yes], .last a s allowed⟩
  | setType node type =>
    rcases setType_cases P acyclic node type with 
      no | ⟨rfl, same⟩ | ⟨p, changed, parent, allocator, accepted, yes⟩
    · exact ⟨_, _, no, .refused _⟩
    · exact ⟨_, _, same, .sameType node⟩
    · exact ⟨_, _, yes, .retyped node p type changed parent allocator accepted⟩

/-! ### Runs of calls -/

/-- Freshly created nodes. -/
def new (mem : Fin n → Nat) (data : Fin n → NodeData) : Heap n where
  mem := mem
  data := data
  next _ := none
  prev _ := none
  parent _ := none
  firstChild _ := none
  lastChild _ := none

/-- Node `a` is to be inserted before, after or in place of itself. -/
def NextToItself (a : Fin n) (c : TreeCall n) : Prop :=
  c = .insertBefore (some a) (some a) ∨ c = .insertAfter (some a) (some a) ∨
    c = .replace (some a) (some a)

/-- Such a call goes on if the node has a parent, whose checks it passes. -/
def SelfLinking (P : Config) (h : Heap n) (c : TreeCall n) : Prop :=
  ∃ a p, NextToItself a c ∧ h.parent a = some p ∧ h.mem p = h.mem a ∧
    P.nodeCanContainType (h.data p) (h.data a).type = true

/-- The links describe a forest before, between and after the calls, each call returns, and one
that fails changes nothing. -/
def KeepsForest (P : Config) : Heap n → List (TreeCall n) → Prop
  | h, [] => WellFormed h
  | h, c :: calls => WellFormed h ∧ ∃ h' result, h.call P c = some (h', result) ∧
      (result = false → h' = h) ∧ KeepsForest P h' calls

/-- No call of the run inserts a node next to itself. -/
def NeverSelfLinking (P : Config) : Heap n → List (TreeCall n) → Prop
  | _, [] => True
  | h, c :: calls => ¬ SelfLinking P h c ∧
      ∀ h' result, h.call P c = some (h', result) → NeverSelfLinking P h' calls

theorem represents_new (mem : Fin n → Nat) (data : Fin n → NodeData) :
    (new mem data).Represents fun _ => [] := by
  constructor
  case acyclic =>
    intro a cycle
    obtain ⟨_, link, _⟩ := Relation.TransGen.head'_iff.mp cycle
    cases link
  all_goals simp [new, Linked]

/-- A call that inserts no node next to itself takes a forest to a forest. -/
theorem Represents.step {P : Config} {c : TreeCall n} {h' : Heap n} {result : Bool}
    (rep : h.Represents kids) (outcome : h.Outcome P c h' result)
    (sound : ¬ SelfLinking P h c) : ∃ kids', h'.Represents kids' := by
  cases outcome with
  | refused => exact ⟨kids, rep⟩
  | unlinked node => exact ⟨_, rep.nodeUnlink node⟩
  | before node s p parent allowed =>
    have other : node ≠ s := by
      rintro rfl
      exact sound ⟨node, p, .inl rfl, parent, allowed.allocator, allowed.type⟩
    exact rep.linkBefore parent other allowed.notBelow
  | after node s p parent allowed =>
    have other : node ≠ s := by
      rintro rfl
      exact sound ⟨node, p, .inr (.inl rfl), parent, allowed.allocator, allowed.type⟩
    exact rep.linkAfter parent other allowed.notBelow
  | replaced node s p parent allowed =>
    have other : node ≠ s := by
      rintro rfl
      exact sound ⟨node, p, .inr (.inr rfl), parent, allowed.allocator, allowed.type⟩
    obtain ⟨kids', rep'⟩ := rep.linkBefore parent other allowed.notBelow
    exact ⟨_, rep'.nodeUnlink node⟩
  | first node s allowed => exact rep.linkFirst allowed.notBelow
  | last node s allowed => exact rep.linkLast allowed.notBelow
  | sameType => exact ⟨kids, rep⟩
  | retyped =>
    exact ⟨kids, rep.first, rep.last, rep.parent, rep.nodup, rep.linked, rep.roots, rep.acyclic⟩

theorem not_wellFormed_of_self_next {a : Fin n} (self : h.next a = some a) : ¬ WellFormed h :=
  fun wellFormed => wellFormed.nextAcyclic a (.single self)

theorem next_linkBefore_self (h : Heap n) (a : Fin n) : (h.linkBefore a a).next a = some a := by
  unfold linkBefore
  simp only [setNextIf_eq, setPrev, setNext, setParent, setFirstChild]
  split <;> simp

theorem next_linkAfter_self (h : Heap n) (a : Fin n) : (h.linkAfter a a).next a = some a := by
  unfold linkAfter
  simp only [setPrevIf_eq, setPrev, setNext, setParent, setLastChild]
  split <;> simp

theorem prev_linkBefore_self (h : Heap n) (a : Fin n) : (h.linkBefore a a).prev a = some a := by
  unfold linkBefore
  simp only [setNextIf_eq, setPrev, setNext, setParent, setFirstChild]
  split <;> simp

/-- Replacing a node by itself unlinks it, but not from its neighbour or its parent. -/
theorem Represents.not_wellFormed_replace_self (rep : h.Represents kids) {a p : Fin n}
    (parent : h.parent a = some p) : ¬ WellFormed ((h.linkBefore a a).nodeUnlink a) := by
  intro wellFormed
  have next := next_linkBefore_self h a
  have prev := prev_linkBefore_self h a
  have cleared : ((h.linkBefore a a).nodeUnlink a).prev a = none ∧
      ((h.linkBefore a a).nodeUnlink a).parent a = none := by
    simp [Heap.nodeUnlink, setNext, setPrev, setParent]
  have old : (h.unlinkNode a).prev a = h.prev a := by
    rw [unlinkNode_eq]
    exact ite_self _
  cases before : h.prev a with
  | some b =>
    have other : b ≠ a := by
      rintro rfl
      exact rep.wellFormed.nextAcyclic b (.single (rep.of_prev before))
    have linked : (h.linkBefore a a).next b = some a := by
      unfold Heap.linkBefore
      simp only [setNextIf_eq, setPrev, setNext, setParent, setFirstChild, old, before]
      split <;> simp [other]
    have dangling : ((h.linkBefore a a).nodeUnlink a).next b = some a := by
      simp [Heap.nodeUnlink, setNext, setPrev, setParent, unlinkNode_eq, prev, other, Ne.symm other,
        linked]
    have := (wellFormed.next_iff b a).mp dangling
    rw [cleared.1] at this
    cases this
  | none =>
    have linked : (h.linkBefore a a).firstChild p = some a := by
      unfold Heap.linkBefore
      simp only [setNextIf_eq, setPrev, setNext, setParent, setFirstChild, parent_unlinkNode,
        parent, old, before]
      simp
    have dangling : ((h.linkBefore a a).nodeUnlink a).firstChild p = some a := by
      simp [Heap.nodeUnlink, setNext, setPrev, setParent, unlinkNode_eq, next, linked]
    have := ((wellFormed.firstChild_iff p a).mp dangling).1
    rw [cleared.2] at this
    cases this

theorem canContain_of_allowed {P : Config} (acyclic : Acyclic h.parent) {p s : Fin n}
    (allowed : h.Allowed P p s) : h.canContain P (some p) (some s) = some true := by
  obtain ⟨accepted, eq, spec⟩ := canContain_spec P acyclic (some p) (some s)
  rw [eq, spec.mpr ⟨p, s, rfl, rfl, allowed.allocator, allowed.notBelow, allowed.type⟩]

/-- A call that inserts a node next to itself destroys the forest. -/
theorem Represents.breaks {P : Config} {c : TreeCall n} (rep : h.Represents kids)
    (bad : SelfLinking P h c) : ∃ h', h.call P c = some (h', true) ∧ ¬ WellFormed h' := by
  obtain ⟨a, p, itself, parent, allocator, type⟩ := bad
  have notBelow : ¬ Relation.ReflTransGen (ParentOf h.parent) p a := fun path =>
    rep.acyclic a (Relation.TransGen.head' parent path)
  have accepted := canContain_of_allowed rep.acyclic ⟨allocator, notBelow, type⟩
  rcases itself with rfl | rfl | rfl
  · refine ⟨h.linkBefore a a, ?_, not_wellFormed_of_self_next (next_linkBefore_self h a)⟩
    simp [call, insertBefore, parent, accepted]
  · refine ⟨h.linkAfter a a, ?_, not_wellFormed_of_self_next (next_linkAfter_self h a)⟩
    simp [call, insertAfter, parent, accepted]
  · refine ⟨(h.linkBefore a a).nodeUnlink a, ?_, rep.not_wellFormed_replace_self parent⟩
    simp [call, replace, insertBefore, parent, accepted]

theorem keepsForest_iff_of_represents (P : Config) (calls : List (TreeCall n))
    (rep : h.Represents kids) : KeepsForest P h calls ↔ NeverSelfLinking P h calls := by
  induction calls generalizing h kids with
  | nil => exact iff_of_true rep.wellFormed trivial
  | cons c calls ih =>
    by_cases bad : SelfLinking P h c
    · obtain ⟨h', eq, broken⟩ := rep.breaks bad
      refine iff_of_false ?_ fun sound => sound.1 bad
      rintro ⟨_, h'', result, eq', _, rest⟩
      rw [eq] at eq'
      obtain ⟨rfl, rfl⟩ : h' = h'' ∧ true = result := by simpa using eq'
      cases calls with
      | nil => exact broken rest
      | cons _ _ => exact broken rest.1
    · obtain ⟨h', result, eq, outcome⟩ := call_outcome P rep.acyclic c
      obtain ⟨kids', rep'⟩ := rep.step outcome bad
      have unchanged : result = false → h' = h := by
        rintro rfl
        cases outcome
        rfl
      constructor
      · rintro ⟨_, h'', result', eq', _, rest⟩
        refine ⟨bad, fun h₂ result₂ eq₂ => ?_⟩
        rw [eq'] at eq₂
        obtain ⟨rfl, rfl⟩ : h'' = h₂ ∧ result' = result₂ := by simpa using eq₂
        rw [eq] at eq'
        obtain ⟨rfl, rfl⟩ : h' = h'' ∧ result = result' := by simpa using eq'
        exact (ih rep').mp rest
      · rintro ⟨_, rest⟩
        exact ⟨rep.wellFormed, h', result, eq, unchanged, (ih rep').mpr (rest h' result eq)⟩

end Heap

/-- Over any run of calls on new nodes, the links stay a forest, and calls that fail change
nothing, exactly when no node is inserted next to itself. -/
theorem keepsForest_iff {n : Nat} (P : Config) (mem : Fin n → Nat) (data : Fin n → NodeData)
    (calls : List (TreeCall n)) :
    Heap.KeepsForest P (.new mem data) calls ↔ Heap.NeverSelfLinking P (.new mem data) calls :=
  Heap.keepsForest_iff_of_represents P calls (Heap.represents_new mem data)

/-- A paragraph in a document, which is then inserted before itself. -/
theorem not_keepsForest_of_insert_self :
    ¬ Heap.KeepsForest (n := 2) { tables := asciiTables, options := 0 }
      (.new (fun _ => 0) fun i => { type := if i = 0 then .document else .paragraph })
      [.appendChild (some 0) (some 1), .insertBefore (some 1) (some 1)] := by
  rintro ⟨_, h₁, _, first, _, _, h₂, _, second, _, wellFormed⟩
  have self : h₂.next 1 = some 1 := by
    obtain ⟨rfl, rfl⟩ := Prod.mk.inj (Option.some.inj first)
    obtain ⟨rfl, rfl⟩ := Prod.mk.inj (Option.some.inj second)
    decide
  exact wellFormed.nextAcyclic 1 (.single self)

end CmarkGfm
