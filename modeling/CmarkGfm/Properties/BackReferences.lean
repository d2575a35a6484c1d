import CmarkGfm.Properties.Footnotes

/-!
# Back references

The renderers emit, for a definition with `def_count` references, as many links back to the
references, by their `ref_ix`. The counts are those of the whole tree before definitions without
references are dropped, so that references in what is dropped are still counted.
-/

namespace CmarkGfm

/-- The `ref_ix` of the references to a definition. -/
def refIxes (i : NodeId) (references : List Node) : List Nat :=
  (references.filter fun r => r.data.parentFootnoteDef = some i).map fun r => r.data.refIx

/-- The references to every definition are numbered from 1 to its `def_count`. -/
def BackReferenced (root : Node) : Prop :=
  ∀ d ∈ root.exits .footnoteDefinition,
    (refIxes d.id (root.exits .footnoteReference)).Perm (List.range' 1 d.data.refIx)

/-- No reference that resolves stands in a definition that is dropped: one that has a label and
is not referred to. The definitions below it are not part of it. -/
def NoneLost (T : Tables) (root : Node) : Prop :=
  ∀ d ∈ root.exits .footnoteDefinition, d.id ∈ footnoteIds T root → d.id ∉ footnoteOrder T root →
    ∀ r ∈ exitsList .footnoteReference (unlinkAllList (footnoteIds T root) d.children),
      footnoteFor T (root.exits .footnoteDefinition) r.literal = none

theorem refIxes_append (i : NodeId) (l l' : List Node) :
    refIxes i (l ++ l') = refIxes i l ++ refIxes i l' := by
  rw [refIxes, List.filter_append, List.map_append, refIxes, refIxes]

theorem refIxes_perm {l l' : List Node} (perm : l.Perm l') (i : NodeId) :
    (refIxes i l).Perm (refIxes i l') := (perm.filter _).map _

/-- The uses of a definition are counted one after the other. -/
theorem count_useKeys (i : NodeId) (seen uses : List NodeId) :
    ((useKeys seen uses).filter fun k => k.1 = some i).map (·.2) =
      List.range' (seen.count i + 1) (uses.count i) := by
  induction uses generalizing seen with
  | nil => rfl
  | cons j uses ih =>
    rw [useKeys, List.filter_cons]
    by_cases same : j = i
    · subst same
      rw [if_pos (by simp), List.map_cons, ih, List.count_append, List.count_singleton_self,
        List.count_cons_self, List.range'_succ]
    · rw [if_neg (by simpa using same), ih, List.count_append, List.count_cons_of_ne same]
      simp [List.count_cons_of_ne same]

theorem refIxes_of_keys {references : List Node} {uses : List NodeId}
    (keys : references.map footnoteKey = useKeys [] uses) (i : NodeId) :
    refIxes i references = List.range' 1 (uses.count i) := by
  have counted := count_useKeys i [] uses
  rw [← keys, List.filter_map, List.map_map] at counted
  exact counted

/-! ### What is kept and what is lost -/

section

variable {ids : List NodeId}

/-- The references in a definition that are in no definition below it. -/
def ownReferences (ids : List NodeId) (d : Node) : List Node :=
  exitsList .footnoteReference (unlinkAllList ids d.children)

theorem perm_swap_middle {α : Type} (a b c d : List α) :
    ((a ++ b) ++ (c ++ d)).Perm ((a ++ c) ++ (b ++ d)) := by
  rw [List.append_assoc, List.append_assoc, ← List.append_assoc b, ← List.append_assoc c]
  exact (List.perm_append_comm.append_right d).append_left a

mutual

/-- The references below a node are those left when the definitions are unlinked, and those of the
definitions. -/
theorem references_perm : (n : Node) →
    (leaves : ∀ r ∈ exitsList .footnoteReference n.children, r.children = []) →
    (apart : ∀ m ∈ postorderList n.children, m.id ∈ ids → m.type = .footnoteDefinition) →
    (exitsList .footnoteReference n.children).Perm (ownReferences ids n ++
      ((exitsList .footnoteDefinition n.children).filter fun d => d.id ∈ ids).flatMap
        (ownReferences ids))
  | .mk _ _ cs, leaves, apart => referencesList_perm cs leaves apart

theorem referencesList_perm : (f : Forest) →
    (leaves : ∀ r ∈ exitsList .footnoteReference f, r.children = []) →
    (apart : ∀ m ∈ postorderList f, m.id ∈ ids → m.type = .footnoteDefinition) →
    (exitsList .footnoteReference f).Perm (exitsList .footnoteReference (unlinkAllList ids f) ++
      ((exitsList .footnoteDefinition f).filter fun d => d.id ∈ ids).flatMap (ownReferences ids))
  | [], _, _ => .refl _
  | n :: ns, leaves, apart => by
    have here := apart n (by
      rw [postorderList, Node.postorder_eq]
      simp)
    have rest := referencesList_perm ns
      (fun r after => leaves r (List.mem_append_right _ after))
      (fun m after => apart m (List.mem_append_right _ after))
    have below := references_perm n
      (fun r inside => leaves r (by
        rw [exitsList, Node.exits_eq]
        exact List.mem_append_left _ (List.mem_append_left _ inside)))
      (fun m inside => apart m (by
        rw [postorderList, Node.postorder_eq]
        exact List.mem_append_left _ (List.mem_append_left _ inside)))
    rw [exitsList, exitsList, Node.exits_eq, Node.exits_eq, unlinkAllList, List.filter_append,
      List.filter_append, List.flatMap_append, List.flatMap_append]
    by_cases unlinked : n.id ∈ ids
    · have definition := here unlinked
      rw [if_neg (by rw [definition]; decide), List.append_nil, if_pos definition,
        if_pos (by simpa using unlinked), List.filter_cons_of_pos (by simpa using unlinked),
        List.filter_nil, List.flatMap_singleton]
      refine (below.append rest).trans ?_
      refine (List.Perm.append_right _ List.perm_append_comm).trans ?_
      rw [← List.append_assoc, ← List.append_assoc]
      exact List.perm_append_comm.append_right _
    · have nothing : ((if n.type = .footnoteDefinition then [n] else []).filter fun d =>
          d.id ∈ ids).flatMap (ownReferences ids) = [] := by
        split <;> simp [unlinked]
      have kept : ids.contains n.id = false := by simpa using unlinked
      rw [nothing, kept, if_neg Bool.false_ne_true, exitsList, List.append_nil,
        Node.exits_eq .footnoteReference (n.unlinkAll ids), type_unlinkAll]
      by_cases reference : n.type = .footnoteReference
      · have leaf : n.children = [] := leaves n (by
          rw [exitsList, Node.exits_eq, if_pos reference]
          simp)
        rw [unlinkAll_eq_self leaf, if_pos reference, leaf]
        exact rest.append_left [n]
      · rw [if_neg reference, if_neg reference, List.append_nil, List.append_nil]
        refine (below.append rest).trans ?_
        rw [Node.unlinkAll_eq]
        exact perm_swap_middle _ _ _ _

end

end

/-! ### The counts -/

theorem ownReferences_eq_nil_iff {T : Tables} {definitions : List Node} {order ids : List NodeId}
    {nextId : NodeId} {keep : NodeId → NodeData → NodeData} (keeps : ∀ i d, (keep i d).type = d.type)
    {d d' : Node} (type : d.type ≠ .footnoteReference)
    (leaves : ∀ r ∈ ownReferences ids d, r.children = [])
    (related : (d.unlinkAll ids).InPlace keep (ResolvesTo T definitions order nextId)
      (d'.unlinkAll ids)) :
    ownReferences ids d' = [] ↔
      ∀ r ∈ ownReferences ids d, footnoteFor T definitions r.literal = none := by
  rw [Node.inPlace_iff, if_neg (by rwa [type_unlinkAll]), Node.unlinkAll_eq, Node.unlinkAll_eq]
    at related
  obtain ⟨_, _, related⟩ := related
  constructor
  · intro none_left r member
    obtain ⟨r', resolves, present⟩ := inPlaceList_images _ related leaves member
    by_contra resolved
    obtain ⟨e, found⟩ := Option.ne_none_iff_exists'.mp resolved
    rw [ResolvesTo, found] at resolves
    have left := present resolves.2.1
    rw [ownReferences] at none_left
    rw [Node.children_mk, none_left] at left
    cases left
  · intro unresolved
    rw [List.eq_nil_iff_forall_not_mem]
    intro r' member
    have isReference := type_of_mem_exitsList member
    obtain ⟨r, before, resolves⟩ := inPlaceList_nodes (leafRelation_resolvesTo _ _ _ _) _ related
      (mem_postorderList_of_mem_exitsList member)
    rw [Node.inPlace_iff] at resolves
    split at resolves
    next reference =>
      have none_found := unresolved r (by
        rw [ownReferences, exitsList_eq_filter]
        exact List.mem_filter.mpr ⟨before, by simpa using reference⟩)
      rw [ResolvesTo, none_found] at resolves
      rw [resolves.2.1] at isReference
      cases isReference
    next other =>
      rw [Node.type, resolves.2.1, keeps] at isReference
      exact other isReference

/-- The definitions found by their addresses are those with these addresses. -/
theorem filterMap_find?_perm {nodes : List Node} {order : List NodeId}
    (distinct : (nodes.map Node.id).Nodup) (once : order.Nodup)
    (known : ∀ i ∈ order, i ∈ nodes.map Node.id) :
    (order.filterMap fun i => nodes.find? fun n => n.id = i).Perm
      (nodes.filter fun n => n.id ∈ order) := by
  have found := forall₂_filterMap_find? known
  have ids := map_eq_of_forall₂ (f := Node.id) (found.imp fun _ _ both => both.2)
  refine (List.perm_ext_iff_of_nodup ?_ ?_).mpr fun n => ⟨fun member => ?_, fun member => ?_⟩
  · exact List.Nodup.of_map Node.id (by rwa [ids])
  · exact (List.Nodup.of_map Node.id distinct).filter _
  · obtain ⟨i, used, inside, rfl⟩ := forall₂_mem_right found member
    exact List.mem_filter.mpr ⟨inside, by simpa using used⟩
  · obtain ⟨inside, used⟩ := List.mem_filter.mp member
    have used : n.id ∈ order := by simpa using used
    rw [← ids] at used
    obtain ⟨m, among, same⟩ := List.mem_map.mp used
    obtain ⟨_, _, inside', _⟩ := forall₂_mem_right found among
    rwa [← List.inj_on_of_nodup_map distinct inside' inside same]

theorem exitsList_map_unlinkAll {ids : List NodeId} {f : Forest}
    (others : ∀ d ∈ f, d.type ≠ .footnoteReference) :
    exitsList .footnoteReference (f.map (·.unlinkAll ids)) = f.flatMap (ownReferences ids) := by
  induction f with
  | nil => rfl
  | cons d f ih =>
    rw [List.map_cons, exitsList, List.flatMap_cons, Node.exits_eq, type_unlinkAll,
      if_neg (others d List.mem_cons_self), List.append_nil, Node.unlinkAll_eq,
      ih fun e member => others e (List.mem_cons_of_mem d member)]
    rfl

section

variable {P : Config} {nextId : NodeId} {root mid : Node} (tree : FootnoteTree P nextId root)
  (inPlace : Resolved P nextId root root mid)

/-- The references in the definitions that are dropped. -/
def lostReferences (T : Tables) (root mid : Node) : List Node :=
  ((mid.exits .footnoteDefinition).filter fun d =>
    d.id ∈ footnoteIds T root ∧ d.id ∉ footnoteOrder T root).flatMap
      (ownReferences (footnoteIds T root))

include tree inPlace

theorem exits_moveFootnotes (t : NodeType) (other : t ≠ .document) :
    (moveFootnotes (footnoteIds P.tables root) (footnoteOrder P.tables root) mid).exits t =
      exitsList t (unlinkAllList (footnoteIds P.tables root) mid.children) ++
        exitsList t (((footnoteOrder P.tables root).filterMap fun i =>
          (mid.exits .footnoteDefinition).find? fun d => d.id = i).map
            (·.unlinkAll (footnoteIds P.tables root))) := by
  have document : mid.data.type = .document := resolved_document tree inPlace
  rw [moveFootnotes, Node.exits, exitsList_append, document, if_neg other.symm, List.append_nil]

/-- The references are those of the new tree, and those lost. -/
theorem references_moveFootnotes :
    (mid.exits .footnoteReference).Perm
      ((moveFootnotes (footnoteIds P.tables root) (footnoteOrder P.tables root) mid).exits
        .footnoteReference ++ lostReferences P.tables root mid) := by
  have ids := resolved_ids tree inPlace
  have document := resolved_document tree inPlace
  have known := order_known tree inPlace
  have used := filterMap_find?_perm (ids ▸ tree.distinct) (Numbering.nodup_eraseDups _) known
  have leaves : ∀ r ∈ exitsList .footnoteReference mid.children, r.children = [] := by
    rw [← exits_document document (by decide)]
    exact resolved_leaves tree inPlace
  have below : ∀ m ∈ postorderList mid.children,
      m.id ∈ footnoteIds P.tables root → m.type = .footnoteDefinition := by
    intro m member
    refine resolved_apart tree inPlace ?_
    rw [Node.postorder_eq]
    exact List.mem_append_left _ member
  have moved : (moveFootnotes (footnoteIds P.tables root) (footnoteOrder P.tables root) mid).exits
      .footnoteReference = ownReferences (footnoteIds P.tables root) mid ++
        ((footnoteOrder P.tables root).filterMap fun i =>
          (mid.exits .footnoteDefinition).find? fun d => d.id = i).flatMap
            (ownReferences (footnoteIds P.tables root)) := by
    have found := forall₂_filterMap_find? known
    rw [exits_moveFootnotes tree inPlace _ (by decide)]
    refine congrArg _ (exitsList_map_unlinkAll fun d among => ?_)
    obtain ⟨_, _, inside, _⟩ := forall₂_mem_right found among
    rw [(isDefinition_of_mem inside).2]
    decide
  rw [exits_document document (by decide), moved, List.append_assoc]
  refine (references_perm mid leaves below).trans (List.Perm.append_left _ ?_)
  rw [lostReferences, ← List.flatMap_append, ← exits_document document (by decide)]
  refine List.Perm.flatMap_right _ ?_
  refine (List.filter_append_perm (fun n => n.id ∈ footnoteOrder P.tables root) _).symm.trans ?_
  rw [List.filter_filter, List.filter_filter]
  have labelled : ∀ d ∈ mid.exits .footnoteDefinition,
      (decide (d.id ∈ footnoteOrder P.tables root) && decide (d.id ∈ footnoteIds P.tables root)) =
        decide (d.id ∈ footnoteOrder P.tables root) := by
    intro d _
    by_cases used : d.id ∈ footnoteOrder P.tables root
    · obtain ⟨_, _, e, found, same⟩ := mem_footnoteOrder.mp used
      simpa [used] using same ▸ mem_footnoteIds_of_footnoteFor found
    · simp [used]
  rw [List.filter_congr labelled]
  refine List.Perm.append used.symm (List.Perm.of_eq (List.filter_congr fun d _ => ?_))
  rw [Bool.and_comm, Bool.decide_and, decide_not]

/-- The definitions that are left are definitions of the resolved tree. -/
theorem definition_moveFootnotes {d : Node} (left : d ∈ (moveFootnotes (footnoteIds P.tables root)
      (footnoteOrder P.tables root) mid).exits .footnoteDefinition) :
    ∃ n ∈ mid.exits .footnoteDefinition, d = n.unlinkAll (footnoteIds P.tables root) := by
  have type := (isDefinition_of_mem left).2
  have found {n : Node} (inTree : n ∈ mid.postorder)
      (same : d = n.unlinkAll (footnoteIds P.tables root)) :
      ∃ n ∈ mid.exits .footnoteDefinition, d = n.unlinkAll (footnoteIds P.tables root) := by
    rw [same, type_unlinkAll] at type
    refine ⟨n, ?_, same⟩
    rw [exits_eq_filter]
    exact List.mem_filter.mpr ⟨inTree, by simpa using type⟩
  have below {n m : Node} (inTree : n ∈ mid.postorder) (inside : m ∈ postorderList n.children) :
      m ∈ mid.postorder := by
    refine postorder_trans mid inTree ?_
    rw [Node.postorder_eq]
    exact List.mem_append_left _ inside
  rw [exits_moveFootnotes tree inPlace _ (by decide), List.mem_append] at left
  rcases left with inBody | inNotes
  · obtain ⟨n, inside, same, _⟩ :=
      mem_postorderList_unlinkAllList _ _ (mem_postorderList_of_mem_exitsList inBody)
    refine found (below ?_ inside) same
    rw [Node.postorder_eq]
    simp
  · obtain ⟨note, among, inNote⟩ := mem_exitsList inNotes
    obtain ⟨n, isUsed, rfl⟩ := List.mem_map.mp among
    obtain ⟨_, _, inside, _⟩ := forall₂_mem_right
      (forall₂_filterMap_find? (order_known tree inPlace)) isUsed
    have inTree := (isDefinition_of_mem inside).1
    rw [exits_eq_filter] at inNote
    rcases mem_postorder_unlinkAll _ n (List.mem_filter.mp inNote).1 with same | ⟨m, deeper, same, _⟩
    · exact found inTree same
    · exact found (below inTree deeper) same

/-- A definition that is left has counted the references to it. -/
theorem refIx_moveFootnotes {d : Node} (left : d ∈ (moveFootnotes (footnoteIds P.tables root)
      (footnoteOrder P.tables root) mid).exits .footnoteDefinition) :
    d.data.refIx = (footnoteUses P.tables (root.exits .footnoteDefinition) root.children).count
      d.id := by
  obtain ⟨n, inside, rfl⟩ := definition_moveFootnotes tree inPlace left
  obtain ⟨e, definition, related⟩ := forall₂_mem_right (resolved_definitions tree inPlace) inside
  have type : e.data.type = .footnoteDefinition := (isDefinition_of_mem definition).2
  rw [Node.inPlace_iff, Node.type, if_neg (by rw [type]; decide)] at related
  rw [data_unlinkAll, id_unlinkAll, related.1, related.2.1, countUses, if_pos type]

theorem exists_moveFootnotes {i : NodeId} (used : i ∈ footnoteOrder P.tables root) :
    ∃ d ∈ (moveFootnotes (footnoteIds P.tables root) (footnoteOrder P.tables root) mid).exits
      .footnoteDefinition, d.id = i := by
  obtain ⟨n, among, inside, rfl⟩ := forall₂_mem_right
    (forall₂_filterMap_find? (order_known tree inPlace)).flip used
  refine ⟨n.unlinkAll (footnoteIds P.tables root), ?_, id_unlinkAll _ n⟩
  rw [exits_moveFootnotes tree inPlace _ (by decide)]
  refine List.mem_append_right _ (mem_exitsList_of_mem (List.mem_map_of_mem among) ?_)
  rw [type_unlinkAll]
  exact (isDefinition_of_mem inside).2

/-- Nothing is lost if and only if the references in what is dropped do not resolve. -/
theorem lostReferences_eq_nil_iff :
    lostReferences P.tables root mid = [] ↔ NoneLost P.tables root := by
  have correspond := resolved_definitions tree inPlace
  have step {d d' : Node} (definition : d ∈ root.exits .footnoteDefinition)
      (related : Resolved P nextId root d d') : d'.id = d.id ∧
        (ownReferences (footnoteIds P.tables root) d' = [] ↔
          ∀ r ∈ ownReferences (footnoteIds P.tables root) d,
            footnoteFor P.tables (root.exits .footnoteDefinition) r.literal = none) := by
    have other : d.type ≠ .footnoteReference := by
      rw [(isDefinition_of_mem definition).2]
      decide
    refine ⟨?_, ownReferences_eq_nil_iff (type_countUses _) other ?_
      (resolved_unlinkAll tree definition related)⟩
    · rw [Resolved, Node.inPlace_iff, if_neg other] at related
      exact related.1
    · exact fun r own => leaves_exits tree r (exitsList_unlinkAllList_subset _
        (leaves_exits tree) (isDefinition_of_mem definition).1 own)
  rw [lostReferences, List.flatMap_eq_nil_iff, NoneLost]
  constructor
  · intro nothing d definition labelled unused
    obtain ⟨d', among, related⟩ := forall₂_mem_right correspond.flip definition
    obtain ⟨same, iff⟩ := step definition related
    refine iff.mp (nothing d' (List.mem_filter.mpr ⟨among, ?_⟩))
    simpa [same] using ⟨labelled, unused⟩
  · intro unresolved d' dropped
    obtain ⟨among, dropped⟩ := List.mem_filter.mp dropped
    obtain ⟨d, definition, related⟩ := forall₂_mem_right correspond among
    obtain ⟨same, iff⟩ := step definition related
    have dropped : d.id ∈ footnoteIds P.tables root ∧ d.id ∉ footnoteOrder P.tables root := by
      simpa [same] using dropped
    exact iff.mpr (unresolved d definition dropped.1 dropped.2)

/-- The references that are lost refer to definitions that are left. -/
theorem mem_lostReferences {r : Node} (lost : r ∈ lostReferences P.tables root mid) :
    ∃ i ∈ footnoteOrder P.tables root, r.data.parentFootnoteDef = some i := by
  obtain ⟨d, dropped, own⟩ := List.mem_flatMap.mp lost
  obtain ⟨i, used, parent, _⟩ := literal_resolved tree inPlace
    (exitsList_unlinkAllList_subset _ (resolved_leaves tree inPlace)
    (isDefinition_of_mem (List.mem_filter.mp dropped).1).1 own)
  exact ⟨i, used, parent⟩

end

/-- The links back to the references are right if and only if no reference that resolves is
dropped. -/
theorem processFootnotes_backReferenced_iff {P : Config} {nextId : NodeId} {root : Node}
    (tree : FootnoteTree P nextId root)
    (few : (root.exits .footnoteDefinition).length < 2 ^ 31) :
    BackReferenced (processFootnotes P nextId root) ↔ NoneLost P.tables root := by
  obtain ⟨mid, inPlace, keys, moved⟩ := processFootnotes_eq tree few
  have inPlace : Resolved P nextId root root mid := inPlace
  rw [← lostReferences_eq_nil_iff tree inPlace, moved]
  have counted (i : NodeId) := (refIxes_of_keys keys i).symm ▸
    (refIxes_append i _ _ ▸ refIxes_perm (references_moveFootnotes tree inPlace) i)
  constructor
  · intro backReferenced
    rw [List.eq_nil_iff_forall_not_mem]
    intro r lost
    obtain ⟨i, used, parent⟩ := mem_lostReferences tree inPlace lost
    obtain ⟨d, left, rfl⟩ := exists_moveFootnotes tree inPlace used
    have numbered := backReferenced d left
    rw [refIx_moveFootnotes tree inPlace left] at numbered
    -- the references that are left are already as many as were counted
    have lengths := (counted d.id).length_eq
    rw [List.length_append, ← numbered.length_eq] at lengths
    have none_lost : refIxes d.id (lostReferences P.tables root mid) = [] :=
      List.length_eq_zero_iff.mp (by omega)
    rw [refIxes, List.map_eq_nil_iff, List.filter_eq_nil_iff] at none_lost
    exact none_lost r lost (by simpa using parent)
  · intro nothing d left
    have perm := counted d.id
    rw [nothing] at perm
    rw [refIx_moveFootnotes tree inPlace left]
    simpa [refIxes] using perm.symm

end CmarkGfm
