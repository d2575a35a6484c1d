import CmarkGfm.Properties.IteratorEvents

/-!
# Freeing nodes, also while the iterator runs

A node is freed with the nodes below it. One that is freed when the iterator returns its last event takes nothing
with it that the iterator still reads, whichever nodes have been freed before.
-/

namespace CmarkGfm

open LinkedForest OrderedTree

namespace Heap

variable {n : Nat} {h h' : Heap n} {kids : Fin n → List (Fin n)} {gone : Fin n → Bool}

/-- The links without those of the nodes that are gone. -/
def without (h : Heap n) (gone : Fin n → Bool) : Heap n :=
  { h with
    next := fun c => if gone c then none else h.next c
    prev := fun c => if gone c then none else h.prev c
    parent := fun c => if gone c then none else h.parent c
    firstChild := fun c => if gone c then none else h.firstChild c
    lastChild := fun c => if gone c then none else h.lastChild c }

/-- Links of nodes that are gone do not matter. -/
theorem without_congr (mem : h'.mem = h.mem) (data : h'.data = h.data)
    (same : ∀ x, gone x = false → h'.next x = h.next x ∧ h'.prev x = h.prev x ∧ h'.parent x = h.parent x ∧
      h'.firstChild x = h.firstChild x ∧ h'.lastChild x = h.lastChild x) :
    h'.without gone = h.without gone := by
  have each {f f' : Fin n → Option (Fin n)} (same : ∀ x, gone x = false → f' x = f x) :
      (fun x => if gone x then none else f' x) = fun x => if gone x then none else f x := by
    funext x
    split
    next => rfl
    next stays => exact same x (by simpa using stays)
  unfold without
  rw [mem, data, each fun x stays => (same x stays).1, each fun x stays => (same x stays).2.1,
    each fun x stays => (same x stays).2.2.1, each fun x stays => (same x stays).2.2.2.1,
    each fun x stays => (same x stays).2.2.2.2]

/-- An unlinked node goes with everything below it. -/
theorem RepresentsBut.without {s : Fin n} (rep : h.RepresentsBut kids s) (goes : gone s = true)
    (below : ∀ p, ∀ c ∈ kids p, gone c = gone p) :
    (h.without gone).Represents fun p => if gone p then [] else kids p := by
  have other {c : Fin n} (stays : gone c = false) : c ≠ s := by
    rintro rfl
    rw [goes] at stays
    cases stays
  constructor
  case first =>
    intro p
    dsimp only [Heap.without]
    split
    next => rfl
    next => exact rep.first p
  case last =>
    intro p
    dsimp only [Heap.without]
    split
    next => rfl
    next => exact rep.last p
  case parent =>
    intro c p
    dsimp only [Heap.without]
    by_cases goneP : gone p = true
    · rw [if_pos goneP]
      refine ⟨fun link => ?_, nofun⟩
      split at link
      next => cases link
      next stays =>
        have child := (rep.parent c (other (by simpa using stays)) p).mp link
        exact absurd (below p c child ▸ goneP) stays
    · rw [if_neg goneP]
      constructor
      · intro link
        split at link
        next => cases link
        next stays => exact (rep.parent c (other (by simpa using stays)) p).mp link
      · intro child
        have stays : ¬ gone c = true := below p c child ▸ goneP
        rw [if_neg stays]
        exact (rep.parent c (other (by simpa using stays)) p).mpr child
  case nodup =>
    intro p
    split
    next => exact List.nodup_nil
    next => exact rep.nodup p
  case linked =>
    intro p
    split
    next => trivial
    next stays =>
      have stay (c : Fin n) (child : c ∈ kids p) : ¬ gone c = true := below p c child ▸ stays
      exact (rep.linked p).congr (fun c child => if_neg (stay c child)) fun c child => if_neg (stay c child)
  case roots =>
    intro c noParent
    dsimp only [Heap.without] at noParent ⊢
    split at noParent
    next goes => exact ⟨if_pos goes, if_pos goes⟩
    next stays =>
      rw [if_neg stays, if_neg stays]
      exact rep.roots c (other (by simpa using stays)) noParent
  case acyclic =>
    apply rep.acyclic.mono
    intro a b link
    dsimp only [Heap.without] at link
    split at link
    next => cases link
    next => exact link

mutual

/-- Other links do not matter, and neither does the one behind the root. -/
theorem Spells.congr : {t : OrderedTree (Fin n)} → h.Spells t →
    (∀ x ∈ t.nodes, h'.firstChild x = h.firstChild x ∧ h'.lastChild x = h.lastChild x) →
    (∀ x ∈ nodesList t.children, h'.next x = h.next x) → h'.Spells t
  | .mk a cs, spells, ends, next => by
    rw [nodes, List.forall_mem_cons] at ends
    have next : ∀ x ∈ nodesList cs, h'.next x = h.next x := next
    refine ⟨ends.1.1.trans spells.1, ends.1.2.trans spells.2.1, spells.2.2.1.congr fun c member => ?_,
      SpellsList.congr spells.2.2.2 ends.2 fun t among x inside => ?_⟩
    · obtain ⟨t, among, rfl⟩ := List.mem_map.mp member
      exact next _ (mem_nodesList.mpr ⟨t, among, root_mem_nodes t⟩)
    · apply next
      rw [mem_nodesList]
      refine ⟨t, among, ?_⟩
      rw [nodes_eq]
      exact List.mem_cons_of_mem _ inside

theorem SpellsList.congr : {ts : List (OrderedTree (Fin n))} → h.SpellsList ts →
    (∀ x ∈ nodesList ts, h'.firstChild x = h.firstChild x ∧ h'.lastChild x = h.lastChild x) →
    (∀ t ∈ ts, ∀ x ∈ nodesList t.children, h'.next x = h.next x) → h'.SpellsList ts
  | [], _, _, _ => trivial
  | t :: ts, spells, ends, next => by
    rw [nodesList, List.forall_mem_append] at ends
    rw [List.forall_mem_cons] at next
    exact ⟨Spells.congr spells.1 ends.1 next.1, SpellsList.congr spells.2 ends.2 next.2⟩

end

theorem spellsList_append {ts us : List (OrderedTree (Fin n))} :
    h.SpellsList (ts ++ us) ↔ h.SpellsList ts ∧ h.SpellsList us := by
  induction ts with
  | nil => simp [SpellsList]
  | cons t ts ih => rw [List.cons_append, SpellsList, SpellsList, ih, and_assoc]

end Heap

namespace Store

variable {n : Nat} {m m' : Store n}

/-! ### Freeing a list of trees -/

/-- These nodes have been freed, and only links of them have been written. -/
structure Freed (m m' : Store n) (l : List (Fin n)) : Prop where
  freed : ∀ x, m'.freed x = true ↔ m.freed x = true ∨ x ∈ l
  heap : ∃ next, m'.heap = { m.heap with next := next } ∧ ∀ x ∉ l, next x = m.heap.next x

/-- The children of the node are put in front of the other ones. -/
theorem freeNodes_cons (fuel : Nat) {a : Fin n} {cs ts : List (OrderedTree (Fin n))}
    (spells : m.heap.SpellsList (.mk a cs :: ts))
    (chained : Chained m.heap.next (((OrderedTree.mk a cs) :: ts).map OrderedTree.root))
    (nodup : (nodesList (.mk a cs :: ts)).Nodup) (live : ∀ x ∈ nodesList (.mk a cs :: ts), m.freed x = false) :
    ∃ next, freeNodes (fuel + 1) m (some a) = freeNodes fuel
        { heap := { m.heap with next := next }, freed := Function.update m.freed a true }
        ((cs ++ ts).map OrderedTree.root).head? ∧
      freedNodes (fuel + 1) m (some a) = (freedNodes fuel
        { heap := { m.heap with next := next }, freed := Function.update m.freed a true }
        ((cs ++ ts).map OrderedTree.root).head?).map (a :: ·) ∧
      (∀ x ≠ a, (cs.map OrderedTree.root).getLast? ≠ some x → next x = m.heap.next x) ∧
      ∀ x, (cs.map OrderedTree.root).getLast? = some x → next x = (ts.map OrderedTree.root).head? := by
  obtain ⟨⟨first, last, _⟩, _⟩ := spells
  have behind : m.heap.next a = (ts.map OrderedTree.root).head? := chained.1
  have alive : ¬ m.freed a = true := by
    rw [live a List.mem_cons_self]
    decide
  rw [freeNodes, freedNodes, if_neg alive, if_neg alive]
  cases isLast : (cs.map OrderedTree.root).getLast? with
  | none =>
    have none : cs = [] := List.map_eq_nil_iff.mp (List.getLast?_eq_none_iff.mp isLast)
    rw [last, isLast, none, List.nil_append, behind]
    exact ⟨m.heap.next, rfl, rfl, fun _ _ _ => rfl, nofun⟩
  | some z =>
    have among : z ∈ cs.map OrderedTree.root := List.mem_of_getLast? isLast
    have below : z ∈ nodesList cs := by
      obtain ⟨t, inside, rfl⟩ := List.mem_map.mp among
      exact mem_nodesList.mpr ⟨t, inside, root_mem_nodes t⟩
    have other : z ≠ a := by
      rintro rfl
      exact (List.nodup_cons.mp nodup).1 (List.mem_append_left _ below)
    have liveLast : m.freed z = false := live z (List.mem_cons_of_mem a (List.mem_append_left _ below))
    have head : ((cs ++ ts).map OrderedTree.root).head? = m.heap.firstChild a := by
      rw [List.map_append, List.head?_append, first]
      cases cs with
      | nil => cases isLast
      | cons t cs => rfl
    rw [last, isLast]
    dsimp only
    have link : ((m.heap.setNext z (m.heap.next a)).setNext a (m.heap.firstChild a)).next a =
        m.heap.firstChild a := Function.update_self ..
    rw [liveLast, if_neg Bool.false_ne_true, if_neg Bool.false_ne_true, head, link]
    refine ⟨Function.update (Function.update m.heap.next z (m.heap.next a)) a (m.heap.firstChild a), rfl, rfl, ?_, ?_⟩
    · intro x notHere notLast
      rw [Function.update_of_ne notHere, Function.update_of_ne fun same => notLast (congrArg some same.symm)]
    · rintro x ⟨⟩
      rw [Function.update_of_ne other, Function.update_self, behind]

theorem freeNodes_spec {fuel : Nat} (ts : List (OrderedTree (Fin n))) (spells : m.heap.SpellsList ts)
    (chained : Chained m.heap.next (ts.map OrderedTree.root)) (nodup : (nodesList ts).Nodup)
    (live : ∀ x ∈ nodesList ts, m.freed x = false) (enough : (nodesList ts).length ≤ fuel) :
    ∃ m', freeNodes fuel m (ts.map OrderedTree.root).head? = some m' ∧
      freedNodes fuel m (ts.map OrderedTree.root).head? = some (nodesList ts) ∧ Freed m m' (nodesList ts) := by
  induction fuel generalizing m ts with
  | zero =>
    cases ts with
    | nil => exact ⟨m, rfl, rfl, ⟨by simp [nodesList], m.heap.next, rfl, fun _ _ => rfl⟩⟩
    | cons t ts =>
      rw [nodesList, nodes_eq] at enough
      cases enough
  | succ fuel ih =>
    match ts with
    | [] => exact ⟨m, rfl, rfl, ⟨by simp [nodesList], m.heap.next, rfl, fun _ _ => rfl⟩⟩
    | .mk a cs :: ts =>
      obtain ⟨next, goesOn, visits, same, last⟩ := freeNodes_cons fuel spells chained nodup live
      have all : nodesList (.mk a cs :: ts) = a :: nodesList (cs ++ ts) := by
        rw [nodesList_append]
        rfl
      rw [all] at nodup live enough
      obtain ⟨notBelow, nodup⟩ := List.nodup_cons.mp nodup
      rw [List.forall_mem_cons] at live
      have other : ∀ x ∈ nodesList (cs ++ ts), x ≠ a := by
        rintro x inside rfl
        exact notBelow inside
      have lastBelow {x : Fin n} (isLast : (cs.map OrderedTree.root).getLast? = some x) :
          ∃ t ∈ cs, t.root = x := List.mem_map.mp (List.mem_of_getLast? isLast)
      have kept : ∀ t ∈ cs ++ ts, ∀ x ∈ nodesList t.children, next x = m.heap.next x := by
        intro t among x inside
        have below : x ∈ nodesList (cs ++ ts) := by
          rw [mem_nodesList]
          refine ⟨t, among, ?_⟩
          rw [nodes_eq]
          exact List.mem_cons_of_mem _ inside
        refine same x (other x below) fun isLast => ?_
        obtain ⟨u, among', rfl⟩ := lastBelow isLast
        exact root_not_mem_children nodup among (List.mem_append_left _ among') inside
      have spells' : Heap.SpellsList { m.heap with next := next } (cs ++ ts) :=
        Heap.SpellsList.congr (Heap.spellsList_append.mpr ⟨spells.1.2.2.2, spells.2⟩)
          (fun _ _ => ⟨rfl, rfl⟩) kept
      have distinct : ((cs ++ ts).map OrderedTree.root).Nodup := nodup.sublist (map_root_sublist _)
      have roots {c : Fin n} (member : c ∈ (cs ++ ts).map OrderedTree.root) : c ≠ a :=
        other c ((map_root_sublist _).subset member)
      have chained' : Chained next ((cs ++ ts).map OrderedTree.root) := by
        rw [List.map_append] at distinct roots ⊢
        obtain ⟨distinct, _, apart⟩ := List.nodup_append.mp distinct
        refine spells.1.2.2.1.append distinct (chained.2.congr fun c member => ?_) (fun c member notLast => ?_) last
        · refine same c (roots (List.mem_append_right _ member)) fun isLast => ?_
          exact apart c (List.mem_of_getLast? isLast) c member rfl
        · exact same c (roots (List.mem_append_left _ member)) notLast
      have liveRest : ∀ x ∈ nodesList (cs ++ ts), Function.update m.freed a true x = false := by
        intro x inside
        rw [Function.update_of_ne (other x inside)]
        exact live.2 x inside
      obtain ⟨m', done, visited, freed, next', heap, unchanged⟩ := @ih
        { heap := { m.heap with next := next }, freed := Function.update m.freed a true } (cs ++ ts) spells' chained'
        nodup liveRest (Nat.le_of_succ_le_succ enough)
      refine ⟨m', goesOn.trans done, ?_, fun x => ?_, next', heap, fun x outside => ?_⟩
      · show freedNodes (fuel + 1) m (some a) = _
        rw [visits, visited, all]
        rfl
      · rw [freed, all, List.mem_cons]
        show Function.update m.freed a true x = true ∨ _ ↔ _
        by_cases here : x = a
        · simp [here]
        · rw [Function.update_of_ne here]
          simp [here]
      · rw [all, List.mem_cons, not_or] at outside
        refine (unchanged x outside.2).trans (same x outside.1 fun isLast => outside.2 ?_)
        obtain ⟨t, among, rfl⟩ := lastBelow isLast
        exact mem_nodesList.mpr ⟨t, List.mem_append_left _ among, root_mem_nodes t⟩

/-! ### Freeing a node -/

/-- The links between the nodes that have not been freed. -/
def forest (m : Store n) : Heap n := m.heap.without m.freed

section

variable {kids : Fin n → List (Fin n)} {s : Fin n}

theorem forest_of_live {x : Fin n} (live : m.freed x = false) : m.forest.next x = m.heap.next x ∧
    m.forest.prev x = m.heap.prev x ∧ m.forest.parent x = m.heap.parent x ∧
      m.forest.firstChild x = m.heap.firstChild x ∧ m.forest.lastChild x = m.heap.lastChild x := by
  simp [forest, Heap.without, live]

theorem live_of_parent {x p : Fin n} (link : m.forest.parent x = some p) : m.freed x = false := by
  by_contra freed
  rw [Bool.not_eq_false] at freed
  simp [forest, Heap.without, freed] at link

theorem live_of_child (rep : m.forest.Represents kids) {c p : Fin n} (child : c ∈ kids p) : m.freed p = false := by
  by_contra freed
  rw [Bool.not_eq_false] at freed
  have first : m.forest.firstChild p = none := by simp [forest, Heap.without, freed]
  rw [rep.first, List.head?_eq_none_iff] at first
  rw [first] at child
  cases child

theorem live_of_below {x : Fin n} (below : Below m.forest.parent x s) (live : m.freed s = false) :
    m.freed x = false := by
  rcases below_iff.mp below with rfl | ⟨p, link, _⟩
  · exact live
  · exact live_of_parent link

/-- The neighbours of a node and its parent have not been freed. -/
theorem live_around (rep : m.forest.Represents kids) (live : m.freed s = false) :
    (m.heap.prev s).any m.freed = false ∧ (m.heap.next s).any m.freed = false ∧
      (m.heap.parent s).any m.freed = false := by
  obtain ⟨next, prev, parent, _, _⟩ := forest_of_live live
  rw [← next, ← prev, ← parent]
  refine ⟨?_, ?_, ?_⟩
  · cases link : m.forest.prev s with
    | none => rfl
    | some b =>
      obtain ⟨_, _, parent⟩ := (rep.of_next (rep.of_prev link)).2
      obtain ⟨_, parent', _⟩ := (rep.of_next (rep.of_prev link)).2
      exact live_of_parent parent'
  · cases link : m.forest.next s with
    | none => rfl
    | some b =>
      obtain ⟨_, _, parent'⟩ := (rep.of_next link).2
      exact live_of_parent parent'
  · cases link : m.forest.parent s with
    | none => rfl
    | some p => exact live_of_child rep ((rep.parent s p).mp link)

theorem not_below_parent (rep : m.forest.Represents kids) {p : Fin n} (link : m.forest.parent s = some p) :
    ¬ Below m.forest.parent p s := by
  intro below
  exact rep.acyclic s (Relation.TransGen.head' link below)

/-- Unlinking a node leaves the links below it alone. -/
theorem unlinkNode_below (rep : m.forest.Represents kids) (live : m.freed s = false) {x : Fin n}
    (below : Below m.forest.parent x s) :
    (m.heap.unlinkNode s).firstChild x = m.forest.firstChild x ∧
      (m.heap.unlinkNode s).lastChild x = m.forest.lastChild x ∧
      (x ≠ s → (m.heap.unlinkNode s).next x = m.forest.next x) := by
  obtain ⟨next, prev, parent, _, _⟩ := forest_of_live live
  obtain ⟨nextX, _, _, firstX, lastX⟩ := forest_of_live (live_of_below below live)
  have notParent : m.heap.parent s ≠ some x := by
    rw [← parent]
    exact fun link => not_below_parent rep link below
  rw [Heap.unlinkNode_eq]
  refine ⟨?_, ?_, fun other => ?_⟩
  · exact (if_neg fun both => notParent both.1).trans firstX.symm
  · exact (if_neg fun both => notParent both.1).trans lastX.symm
  · refine (if_neg fun link => ?_).trans nextX.symm
    -- a sibling is not below
    rw [← prev] at link
    obtain ⟨p, parentX, parentS⟩ := (rep.of_next (rep.of_prev link)).2
    rcases below_iff.mp below with same | ⟨q, link, path⟩
    · exact other same
    · obtain rfl := Option.some.inj (link.symm.trans parentX)
      exact not_below_parent rep parentS path

/-- The nodes below a node are freed once each, and so is the node. -/
theorem nodeFree_freed (rep : m.forest.Represents kids) (live : m.freed s = false) :
    ∃ m' l, m.nodeFree s = some m' ∧ m.nodeFreed s = some l ∧ l.Nodup ∧
      (∀ x, x ∈ l ↔ Below m.forest.parent x s) ∧
      Freed { m with heap := (m.heap.unlinkNode s).setNext s none } m' l := by
  obtain ⟨t, rfl, unfolds⟩ := exists_unfolds rep.parent rep.acyclic s
  have among (x : Fin n) : x ∈ t.nodes ↔ Below m.forest.parent x t.root := mem_nodes_iff rep.parent t unfolds
  obtain ⟨livePrev, liveNext, liveParent⟩ := live_around rep live
  have nodup := nodup_nodes rep.parent rep.acyclic rep.nodup t unfolds
  have spells : ((m.heap.unlinkNode t.root).setNext t.root none).Spells t := by
    refine (rep.spells t unfolds).congr (fun x inside => ?_) fun x inside => ?_
    · obtain ⟨first, last, _⟩ := unlinkNode_below rep live ((among x).mp inside)
      exact ⟨first, last⟩
    · rw [nodes_eq] at among nodup
      have other : x ≠ t.root := fun same => (List.nodup_cons.mp nodup).1 (same ▸ inside)
      obtain ⟨_, _, next⟩ := unlinkNode_below rep live ((among x).mp (List.mem_cons_of_mem _ inside))
      exact (Function.update_of_ne other _ _).trans (next other)
  have liveBelow : ∀ x ∈ nodesList [t], m.freed x = false := by
    intro x inside
    rw [nodesList, nodesList, List.append_nil] at inside
    exact live_of_below ((among x).mp inside) live
  have alone : nodesList [t] = t.nodes := List.append_nil _
  have enough : (nodesList [t]).length ≤ n := by
    rw [alone]
    simpa using nodup.length_le_card
  obtain ⟨m', done, visited, freed⟩ := freeNodes_spec
    (m := { m with heap := (m.heap.unlinkNode t.root).setNext t.root none }) [t] ⟨spells, trivial⟩
    ⟨Function.update_self .., trivial⟩ (alone.symm ▸ nodup) liveBelow enough
  rw [alone] at freed visited
  refine ⟨m', t.nodes, ?_, ?_, nodup, among, freed⟩
  · rw [nodeFree, live, livePrev, liveNext, liveParent]
    exact done
  · rw [nodeFreed, live, livePrev, liveNext, liveParent]
    exact visited

/-- A node is freed with everything below it, and the others stay a forest. -/
theorem nodeFree_spec (rep : m.forest.Represents kids) (live : m.freed s = false) :
    ∃ m', m.nodeFree s = some m' ∧
      (∀ x, m'.freed x = true ↔ m.freed x = true ∨ Below m.forest.parent x s) ∧
      m'.heap.data = m.heap.data ∧
      m'.forest.Represents fun p => if m'.freed p then [] else (kids p).erase s := by
  obtain ⟨m', l, done, _, _, among, freed, next, heap, unchanged⟩ := nodeFree_freed rep live
  have freed : ∀ x, m'.freed x = true ↔ m.freed x = true ∨ Below m.forest.parent x s := by
    intro x
    rw [freed, among]
  refine ⟨m', done, freed, by rw [heap, Heap.unlinkNode_eq]; rfl, ?_⟩
  have forest : m'.forest = (m.forest.unlinkNode s).without m'.freed := by
    apply Heap.without_congr
    · rw [heap, Heap.unlinkNode_eq, Heap.unlinkNode_eq]
      rfl
    · rw [heap, Heap.unlinkNode_eq, Heap.unlinkNode_eq]
      rfl
    · intro x stays
      have outside : ¬ (m.freed x = true ∨ Below m.forest.parent x s) := by
        rw [← freed, stays]
        decide
      rw [not_or] at outside
      obtain ⟨next', prev', parent', first', last'⟩ := forest_of_live (m := m) (by simpa using outside.1)
      obtain ⟨nextS, prevS, parentS, _, _⟩ := forest_of_live live
      have kept : next x = (m.heap.unlinkNode s).next x := by
        rw [unchanged x fun inside => outside.2 ((among x).mp inside)]
        apply Function.update_of_ne
        rintro rfl
        exact outside.2 .refl
      rw [heap]
      dsimp only
      rw [kept, Heap.unlinkNode_eq, Heap.unlinkNode_eq]
      dsimp only [Heap.setNext]
      rw [next', prev', parent', first', last', nextS, prevS, parentS]
      exact ⟨rfl, rfl, rfl, rfl, rfl⟩
  rw [forest]
  apply (rep.unlinkNode s).without ((freed _).mpr (.inr .refl))
  intro p c child
  have other : c ≠ s := by
    rintro rfl
    exact (rep.nodup p).not_mem_erase child
  have child := List.mem_of_mem_erase child
  have link := (rep.parent c p).mpr child
  rw [Bool.eq_iff_iff, freed, freed, live_of_parent link, live_of_child rep child, below_iff]
  simp [other, link]

/-- In a well-formed tree the call frees the nodes below a node and the node, each once and no others. What is left is
well formed, with the children that it had but for the node. -/
theorem nodeFree_once {m : Store n} (wellFormed : WellFormed m.forest) {node : Fin n} (live : m.freed node = false) :
    ∃ m' visits, m.nodeFree node = some m' ∧ m.nodeFreed node = some visits ∧ visits.Nodup ∧
      (∀ x, x ∈ visits ↔ Below m.forest.parent x node) ∧
      (∀ x, m'.freed x = true ↔ m.freed x = true ∨ x ∈ visits) ∧
      WellFormed m'.forest ∧ m'.heap.data = m.heap.data ∧
      ∃ kids, m.forest.Represents kids ∧
        m'.forest.Represents fun p => if m'.freed p then [] else (kids p).erase node := by
  obtain ⟨kids, rep⟩ := Heap.exists_represents wellFormed
  obtain ⟨m', done, freed, data, left⟩ := nodeFree_spec rep live
  obtain ⟨m'', visits, done', visited, once, among, _⟩ := nodeFree_freed rep live
  obtain rfl := Option.some.inj (done.symm.trans done')
  refine ⟨m', visits, done, visited, once, among, fun x => ?_, left.wellFormed, data, kids, rep, left⟩
  rw [freed, among]

theorem nodeFree_twoTexts : ∃ (m : Store 3) (visits : List (Fin 3)),
    nodeFree ⟨Heap.twoTexts, fun _ => false⟩ 0 = some m ∧
    nodeFreed ⟨Heap.twoTexts, fun _ => false⟩ 0 = some visits ∧ visits.Nodup ∧
      (∀ x, x ∈ visits ↔ Below (forest ⟨Heap.twoTexts, fun _ => false⟩).parent x 0) ∧
      (∀ x, m.freed x = true ↔ false = true ∨ x ∈ visits) ∧
      WellFormed m.forest ∧ m.heap.data = Heap.twoTexts.data ∧
      ∃ kids, (forest ⟨Heap.twoTexts, fun _ => false⟩).Represents kids ∧
        m.forest.Represents fun p => if m.freed p then [] else (kids p).erase 0 :=
  nodeFree_once (m := ⟨Heap.twoTexts, fun _ => false⟩) Heap.wellFormed_twoTexts rfl

end

/-! ### What is left of a forest -/

section

variable {h : Heap n} {kids : Fin n → List (Fin n)} {root : Fin n}

/-- Some nodes of the forest have been freed with everything below them. -/
structure Trimmed (h : Heap n) (kids : Fin n → List (Fin n)) (m : Store n) : Prop where
  rep : m.forest.Represents fun p => if m.freed p then [] else (kids p).filter fun c => !m.freed c
  type : ∀ x, (m.heap.data x).type = (h.data x).type
  closed : ∀ p, ∀ c ∈ kids p, m.freed p = true → m.freed c = true

theorem trimmed_self (orig : h.Represents kids) : Trimmed h kids ⟨h, fun _ => false⟩ where
  rep := by
    have all : (fun p => if false = true then [] else (kids p).filter fun _ => !false) = kids := by
      funext p
      simp
    rw [all]
    exact orig
  type := fun _ => rfl
  closed := nofun

theorem trimmed_forest (rep : m.forest.Represents kids) : Trimmed m.forest kids m where
  rep := by
    have all : (fun p => if m.freed p then [] else (kids p).filter fun c => !m.freed c) = kids := by
      funext p
      split
      next freed =>
        refine (List.eq_nil_iff_forall_not_mem.mpr fun c child => ?_).symm
        rw [live_of_child rep child] at freed
        cases freed
      next =>
        rw [List.filter_eq_self]
        intro c child
        rw [live_of_parent ((rep.parent c p).mpr child)]
        rfl
    rw [all]
    exact rep
  type := fun _ => rfl
  closed := by
    intro p c child freed
    rw [live_of_child rep child] at freed
    cases freed

theorem Trimmed.congr {data : Fin n → NodeData} (trim : Trimmed h kids m)
    (type : ∀ x, (data x).type = (h.data x).type) :
    Trimmed h kids { m with heap := { m.heap with data := data } } where
  rep := ⟨trim.rep.first, trim.rep.last, trim.rep.parent, trim.rep.nodup, trim.rep.linked, trim.rep.roots,
    trim.rep.acyclic⟩
  type := type
  closed := trim.closed

theorem Trimmed.live_parent (trim : Trimmed h kids m) {p c : Fin n} (child : c ∈ kids p)
    (live : m.freed c = false) : m.freed p = false := by
  by_contra freed
  rw [Bool.not_eq_false] at freed
  rw [trim.closed p c child freed] at live
  cases live

theorem Trimmed.parent (trim : Trimmed h kids m) {p c : Fin n} :
    m.forest.parent c = some p ↔ c ∈ kids p ∧ m.freed c = false := by
  rw [trim.rep.parent]
  constructor
  · intro inside
    split at inside
    next => cases inside
    next => simpa using inside
  · rintro ⟨child, live⟩
    rw [trim.live_parent child live]
    simp [child, live]

theorem Trimmed.below (trim : Trimmed h kids m) (orig : h.Represents kids) {x s : Fin n} :
    Below m.forest.parent x s ∧ m.freed x = false ↔ Below h.parent x s ∧ m.freed x = false := by
  constructor
  · rintro ⟨below, live⟩
    refine ⟨Relation.ReflTransGen.mono ?_ x s below, live⟩
    intro c p link
    exact (orig.parent c p).mpr (trim.parent.mp link).1
  · rintro ⟨below, live⟩
    refine ⟨?_, live⟩
    induction below using Relation.ReflTransGen.head_induction_on with
    | refl => exact .refl
    | head link _ ih =>
      have child := (orig.parent _ _).mp link
      exact .head (trim.parent.mpr ⟨child, live⟩) (ih (trim.live_parent child live))

/-- The node is freed with everything below it, as it was in the whole forest. -/
theorem Trimmed.nodeFree (trim : Trimmed h kids m) (orig : h.Represents kids) {s : Fin n}
    (live : m.freed s = false) :
    ∃ m', m.nodeFree s = some m' ∧ Trimmed h kids m' ∧ m'.heap.data = m.heap.data ∧
      ∀ x, m'.freed x = true ↔ m.freed x = true ∨ Below h.parent x s := by
  obtain ⟨m', done, freed, data, rep⟩ := nodeFree_spec trim.rep live
  have freed : ∀ x, m'.freed x = true ↔ m.freed x = true ∨ Below h.parent x s := by
    intro x
    rw [freed]
    have below := trim.below orig (x := x) (s := s)
    by_cases gone : m.freed x = true
    · simp [gone]
    · simpa [gone] using below
  refine ⟨m', done, ⟨?_, ?_, ?_⟩, data, freed⟩
  · convert rep using 1
    funext p
    split
    next => rfl
    next stays =>
      rw [freed, not_or] at stays
      rw [if_neg stays.1, ((orig.nodup p).filter _).erase_eq_filter, List.filter_filter]
      apply List.filter_congr
      intro c child
      have link := (orig.parent c p).mpr child
      have freed' := freed c
      rw [below_iff] at freed'
      rw [Bool.eq_iff_iff]
      simp only [link, stays.2, Option.some.injEq, exists_eq_left'] at freed'
      grind
  · intro x
    rw [data]
    exact trim.type x
  · intro p c child
    rw [freed, freed, below_iff (x := c)]
    rintro (gone | below)
    · exact .inl (trim.closed p c child gone)
    · exact .inr (.inr ⟨p, (orig.parent c p).mpr child, below⟩)

/-- The links of a node whose parent is left. -/
theorem Trimmed.split (trim : Trimmed h kids m) (orig : h.Represents kids) {a p : Fin n} (live : m.freed a = false)
    (parent : h.parent a = some p) : m.heap.parent a = some p ∧ ∃ before after : List (Fin n),
      kids p = before ++ a :: after ∧ h.next a = after.head? ∧
        m.heap.next a = (after.filter fun c => !m.freed c).head? := by
  obtain ⟨before, after, split, _, next⟩ := orig.split parent
  obtain ⟨nextA, _, parentA, _, _⟩ := forest_of_live live
  have child := (orig.parent a p).mp parent
  refine ⟨parentA.symm.trans (trim.parent.mpr ⟨child, live⟩), before, after, split, next, nextA.symm.trans ?_⟩
  have linked := trim.rep.linked p
  rw [trim.live_parent child live, if_neg Bool.false_ne_true, split, List.filter_append,
    List.filter_cons_of_pos (by simp [live])] at linked
  exact linked.at.2

theorem Trimmed.next (trim : Trimmed h kids m) (orig : h.Represents kids) {a p : Fin n} (live : m.freed a = false)
    (parent : h.parent a = some p) (stays : (h.next a).any m.freed = false) : m.heap.next a = h.next a := by
  obtain ⟨_, _, after, _, next, nextA⟩ := trim.split orig live parent
  rw [nextA, next]
  cases after with
  | nil => rfl
  | cons b after =>
    rw [next] at stays
    rw [List.filter_cons_of_pos (by simpa using stays)]
    rfl

/-- The iterator rolls forward as before from a node that is left to one that is left. -/
theorem Trimmed.iterForward (trim : Trimmed h kids m) (orig : h.Represents kids) {evType : EventType} {a : Fin n}
    {s : IterState n} (live : m.freed a = false) (stays : s.node.any m.freed = false)
    (forward : h.iterForward root evType a = some s) : m.heap.iterForward root evType a = some s := by
  unfold Heap.iterForward at forward ⊢
  rw [trim.type]
  split at forward
  next inner =>
    rw [if_pos inner]
    obtain ⟨_, _, _, firstA, _⟩ := forest_of_live live
    rw [← firstA, trim.rep.first, live, if_neg Bool.false_ne_true]
    rw [orig.first] at forward
    cases children : kids a with
    | nil =>
      rw [children] at forward
      exact forward
    | cons c cs =>
      rw [children] at forward
      cases forward
      rw [List.filter_cons_of_pos (by simpa using stays)]
      rfl
  next inner =>
    rw [if_neg inner]
    unfold Heap.iterAfter at forward ⊢
    split at forward
    next here => rwa [if_pos here]
    next other =>
      rw [if_neg other]
      cases parent : h.parent a with
      | none =>
        rw [parent, (orig.roots a parent).2] at forward
        cases forward
      | some p =>
        obtain ⟨parentA, _, after, _, next, nextA⟩ := trim.split orig live parent
        rw [parentA, nextA]
        rw [parent, next] at forward
        cases after with
        | nil => exact forward
        | cons b after =>
          cases forward
          rw [List.filter_cons_of_pos (by simpa using stays)]
          rfl

/-! ### Deleting while iterating -/

/-- The next call of the iterator returns the event. -/
theorem Trimmed.iterNext (trim : Trimmed h kids m) (orig : h.Represents kids) (cur : IterState n) {s : IterState n}
    {e : Bool × Fin n} (live : m.freed e.2 = false) (stays : s.node.any m.freed = false)
    (forward : h.iterForward root (walkEvent e).evType e.2 = some s) :
    m.iterNext ⟨root, cur, walkEvent e⟩ = some (⟨root, walkEvent e, s⟩, (walkEvent e).evType) := by
  have read : (walkEvent e).node.any m.freed = false := live
  rw [Store.iterNext, if_neg (by rw [read]; decide), Heap.iterNext, if_neg (Heap.evType_walkEvent e)]
  show (m.heap.iterForward root (walkEvent e).evType e.2).map _ = _
  rw [trim.iterForward orig live stays forward]
  rfl

theorem follows_cons {s s' : IterState n} {e : Bool × Fin n} {l : List (Bool × Fin n)}
    (follows : h.Follows root s ((e :: l).map walkEvent) s') : s = walkEvent e ∧
      ∃ s'', h.iterForward root (walkEvent e).evType e.2 = some s'' ∧ h.Follows root s'' (l.map walkEvent) s' := by
  cases follows with
  | cons forward rest => exact ⟨rfl, _, forward, rest⟩

theorem follows_live {s : IterState n} {l : List (Bool × Fin n)}
    (follows : h.Follows root s (l.map walkEvent) ⟨.done, none⟩) (live : ∀ e ∈ l, m.freed e.2 = false) :
    s.node.any m.freed = false := by
  cases l with
  | nil =>
    cases follows
    rfl
  | cons e l =>
    obtain ⟨rfl, _⟩ := follows_cons follows
    exact live e List.mem_cons_self

theorem iterDelete_next {chosen : Fin n → Bool} {iter iter' : Iter n} {evType : EventType} {a : Fin n} {fuel : Nat}
    (next : m.iterNext iter = some (iter', evType)) (goes : evType ≠ .done) (node : iter'.cur.node = some a) :
    iterDelete chosen (fuel + 1) m iter =
      (if chosen a = true ∧ (evType = .exit ∨ (m.heap.data a).type.isLeaf = true) then m.nodeFree a else some m).bind
        fun m => (iterDelete chosen fuel m iter').map fun r => (iter'.cur :: r.1, r.2) := by
  rw [iterDelete, next]
  cases evType with
  | done => exact absurd rfl goes
  | none | enter | exit =>
    simp only [node, Option.bind_eq_bind, Option.map_eq_bind]
    split <;> rfl

theorem isLast_iff {e : Bool × Fin n} (type : (m.heap.data e.2).type = (h.data e.2).type) :
    ((walkEvent e).evType = .exit ∨ (m.heap.data e.2).type.isLeaf = true) ↔ IsLast h.isLeaf e := by
  rw [type, IsLast, walkEvent, Heap.isLeaf]
  cases e.1 <;> simp

/-- The events that remain are those of the whole forest. -/
theorem Trimmed.iterDelete (orig : h.Represents kids) (chosen : Fin n → Bool) {l : List (Bool × Fin n)}
    {s : IterState n} (trim : Trimmed h kids m)
    (follows : h.Follows root s (l.map walkEvent) ⟨.done, none⟩)
    (apart : l.Pairwise fun e f => IsLast h.isLeaf e → ¬ Below h.parent f.2 e.2)
    (live : ∀ e ∈ l, m.freed e.2 = false) :
    ∃ m', (∀ cur, ∀ fuel > l.length, iterDelete chosen fuel m ⟨root, cur, s⟩ = some (l.map walkEvent, m')) ∧
      Trimmed h kids m' ∧ m'.heap.data = m.heap.data ∧ ∀ x, m'.freed x = true ↔
        m.freed x = true ∨ ∃ e ∈ l, IsLast h.isLeaf e ∧ chosen e.2 = true ∧ Below h.parent x e.2 := by
  induction l generalizing m s with
  | nil =>
    cases follows
    refine ⟨m, fun cur fuel enough => ?_, trim, rfl, by simp⟩
    obtain ⟨fuel, rfl⟩ := Nat.exists_eq_succ_of_ne_zero (Nat.ne_of_gt enough)
    rfl
  | cons e l ih =>
    obtain ⟨rfl, s, forward, follows⟩ := follows_cons follows
    rw [List.forall_mem_cons] at live
    obtain ⟨behind, apart⟩ := List.pairwise_cons.mp apart
    have next cur := trim.iterNext orig cur live.1 (follows_live follows live.2) forward
    have isLast := isLast_iff (e := e) (trim.type e.2)
    by_cases deletes : IsLast h.isLeaf e ∧ chosen e.2 = true
    · obtain ⟨m', done, trim', data', freed'⟩ := trim.nodeFree orig live.1
      have live' : ∀ f ∈ l, m'.freed f.2 = false := by
        intro f later
        rw [← Bool.not_eq_true, freed', not_or, live.2 f later]
        exact ⟨Bool.false_ne_true, behind f later deletes.1⟩
      obtain ⟨m'', events, trim'', data'', freed''⟩ := ih trim' follows apart live'
      refine ⟨m'', fun cur fuel enough => ?_, trim'', data''.trans data', fun x => ?_⟩
      · obtain ⟨fuel, rfl⟩ := Nat.exists_eq_succ_of_ne_zero (Nat.ne_of_gt (Nat.zero_lt_of_lt enough))
        rw [iterDelete_next (next cur) (Heap.evType_walkEvent e) rfl, if_pos ⟨deletes.2, isLast.mpr deletes.1⟩,
          done, Option.bind_some, events _ fuel (Nat.lt_of_succ_lt_succ enough)]
        rfl
      · rw [freed'', freed', or_assoc, List.exists_mem_cons_iff]
        simp [deletes]
    · obtain ⟨m'', events, trim'', data'', freed''⟩ := ih trim follows apart live.2
      refine ⟨m'', fun cur fuel enough => ?_, trim'', data'', fun x => ?_⟩
      · obtain ⟨fuel, rfl⟩ := Nat.exists_eq_succ_of_ne_zero (Nat.ne_of_gt (Nat.zero_lt_of_lt enough))
        rw [iterDelete_next (next cur) (Heap.evType_walkEvent e) rfl,
          if_neg fun both => deletes ⟨isLast.mp both.2, both.1⟩, Option.bind_some,
          events _ fuel (Nat.lt_of_succ_lt_succ enough)]
        rfl
      · rw [freed'', List.exists_mem_cons_iff]
        have skipped : ¬ (IsLast h.isLeaf e ∧ chosen e.2 = true ∧ Below h.parent x e.2) :=
          fun both => deletes ⟨both.1, both.2.1⟩
        simp [skipped]

end

/-- Whichever nodes are freed when they are exited, the iterator gives the events of the whole forest. What
is left has lost these nodes and those below them. -/
theorem iterDelete_eq_iterEvents {h : Heap n} (wellFormed : WellFormed h)
    (childless : ∀ x, h.isLeaf x = true → h.firstChild x = none) (root : Fin n) (chosen : Fin n → Bool) :
    ∃ (events : List (IterState n)) (m : Store n),
      (∀ fuel > events.length, h.iterEvents fuel (iterNew root) = some events ∧
        iterDelete chosen fuel ⟨h, fun _ => false⟩ (iterNew root) = some (events, m)) ∧
      WellFormed m.forest ∧ m.heap.data = h.data ∧
      ∀ x, m.freed x = true ↔ ∃ a, chosen a = true ∧ Below h.parent a root ∧ Below h.parent x a := by
  obtain ⟨kids, orig⟩ := Heap.exists_represents wellFormed
  obtain ⟨t, rfl, unfolds⟩ := exists_unfolds orig.parent orig.acyclic root
  have follows := orig.follows t unfolds
  have apart := pairwise_walk orig.parent h.isLeaf orig.acyclic orig.nodup t unfolds
  have live : ∀ e ∈ t.walk h.isLeaf, (⟨h, fun _ => false⟩ : Store n).freed e.2 = false := fun _ _ => rfl
  obtain ⟨m, deletes, trim, data, freed⟩ := (trimmed_self orig).iterDelete orig chosen follows apart live
  refine ⟨(t.walk h.isLeaf).map walkEvent, m, fun fuel enough => ⟨?_, ?_⟩, trim.rep.wellFormed, data, fun x => ?_⟩
  · apply Heap.iterEvents_of_follows follows rfl _ enough
    exact List.forall_mem_map.mpr fun e _ => Heap.evType_walkEvent e
  · rw [List.length_map] at enough
    exact deletes _ fuel enough
  · rw [freed]
    constructor
    · rintro (impossible | ⟨e, among, _, chooses, below⟩)
      · cases impossible
      · exact ⟨e.2, chooses, (mem_nodes_iff orig.parent t unfolds).mp (mem_walk t among), below⟩
    · rintro ⟨a, chooses, inside, below⟩
      have none (x : Fin n) (leaf : h.isLeaf x = true) : kids x = [] := by
        rw [← List.head?_eq_none_iff, ← orig.first, childless x leaf]
      obtain ⟨e, among, rfl, last⟩ := exists_last none t unfolds ((mem_nodes_iff orig.parent t unfolds).mpr inside)
      exact .inr ⟨e, among, last, chooses, below⟩

theorem iterDelete_twoTexts : ∃ (events : List (IterState 3)) (m : Store 3),
    (∀ fuel > events.length, Heap.twoTexts.iterEvents fuel (iterNew 0) = some events ∧
      iterDelete (· ≠ 0) fuel ⟨Heap.twoTexts, fun _ => false⟩ (iterNew 0) = some (events, m)) ∧
    WellFormed m.forest ∧ m.heap.data = Heap.twoTexts.data ∧
    ∀ x, m.freed x = true ↔ ∃ a, decide (a ≠ 0) = true ∧ Below Heap.twoTexts.parent a 0 ∧
      Below Heap.twoTexts.parent x a :=
  iterDelete_eq_iterEvents Heap.wellFormed_twoTexts (by decide) 0 _

end Store

end CmarkGfm
