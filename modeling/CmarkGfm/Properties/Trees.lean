import CmarkGfm.Parser.Document

/-!
# The nodes of a tree

All nodes in the order in which they are left, and what rewriting data and unlinking nodes make
of them.
-/

namespace CmarkGfm

mutual

/-- The nodes of a tree in the order in which they are left. -/
def Node.postorder : Node → List Node
  | .mk i d cs => postorderList cs ++ [.mk i d cs]

def postorderList : Forest → List Node
  | [] => []
  | n :: ns => n.postorder ++ postorderList ns

end

theorem Node.postorder_eq (n : Node) : n.postorder = postorderList n.children ++ [n] := by
  cases n
  rfl

mutual

theorem exits_eq_filter (t : NodeType) : (n : Node) →
    n.exits t = n.postorder.filter fun m => m.type = t
  | .mk i d cs => by
    rw [Node.exits, Node.postorder, List.filter_append, exitsList_eq_filter t cs,
      List.filter_cons]
    by_cases same : d.type = t <;> simp [Node.type, same]

theorem exitsList_eq_filter (t : NodeType) : (f : Forest) →
    exitsList t f = (postorderList f).filter fun m => m.type = t
  | [] => rfl
  | n :: ns => by
    rw [exitsList, postorderList, List.filter_append, exits_eq_filter t n,
      exitsList_eq_filter t ns]

end

theorem type_of_mem_exitsList {t : NodeType} {f : Forest} {n : Node} (member : n ∈ exitsList t f) :
    n.type = t := by
  rw [exitsList_eq_filter] at member
  simpa using (List.mem_filter.mp member).2

theorem mem_postorderList_of_mem_exitsList {t : NodeType} {f : Forest} {n : Node}
    (member : n ∈ exitsList t f) : n ∈ postorderList f := by
  rw [exitsList_eq_filter] at member
  exact (List.mem_filter.mp member).1

theorem Node.exits_eq (t : NodeType) (n : Node) :
    n.exits t = exitsList t n.children ++ if n.type = t then [n] else [] := by
  cases n
  rfl

theorem exitsList_append (t : NodeType) (f g : Forest) :
    exitsList t (f ++ g) = exitsList t f ++ exitsList t g := by
  induction f with
  | nil => rfl
  | cons n ns ih => rw [List.cons_append, exitsList, exitsList, ih, List.append_assoc]

theorem mem_exitsList {t : NodeType} {f : Forest} {m : Node} (member : m ∈ exitsList t f) :
    ∃ n ∈ f, m ∈ n.exits t := by
  induction f with
  | nil => cases member
  | cons n ns ih =>
    rcases List.mem_append.mp member with first | rest
    · exact ⟨n, List.mem_cons_self, first⟩
    · obtain ⟨k, among, inside⟩ := ih rest
      exact ⟨k, List.mem_cons_of_mem n among, inside⟩

theorem mem_exitsList_of_mem {t : NodeType} {f : Forest} {n : Node} (member : n ∈ f)
    (type : n.type = t) : n ∈ exitsList t f := by
  induction f with
  | nil => cases member
  | cons m f ih =>
    rw [exitsList, Node.exits_eq]
    rcases List.mem_cons.mp member with rfl | later
    · rw [if_pos type]
      simp
    · exact List.mem_append_right _ (ih later)

theorem Node.mem_postorder (n : Node) : n ∈ n.postorder := by
  cases n
  simp [Node.postorder]

mutual

/-- The nodes below a node of a tree are nodes of the tree. -/
theorem postorder_trans {m k : Node} : (n : Node) → m ∈ n.postorder → k ∈ m.postorder →
    k ∈ n.postorder
  | .mk i d cs, member, below => by
    rw [Node.postorder, List.mem_append, List.mem_singleton] at member
    rcases member with deeper | rfl
    · rw [Node.postorder]
      exact List.mem_append_left _ (postorderList_trans cs deeper below)
    · exact below

theorem postorderList_trans {m k : Node} : (f : Forest) → m ∈ postorderList f → k ∈ m.postorder →
    k ∈ postorderList f
  | [], member, _ => by cases member
  | n :: ns, member, below => by
    rw [postorderList, List.mem_append] at member
    rcases member with first | rest
    · exact List.mem_append_left _ (postorder_trans n first below)
    · exact List.mem_append_right _ (postorderList_trans ns rest below)

end

theorem postorderList_append (f g : Forest) :
    postorderList (f ++ g) = postorderList f ++ postorderList g := by
  induction f with
  | nil => rfl
  | cons n ns ih => rw [List.cons_append, postorderList, postorderList, ih, List.append_assoc]

theorem mem_postorderList_of_mem {f : Forest} {n : Node} (member : n ∈ f) : n ∈ postorderList f := by
  induction f with
  | nil => cases member
  | cons m ms ih =>
    rw [postorderList, List.mem_append]
    rcases List.mem_cons.mp member with rfl | later
    · left
      rw [Node.postorder_eq]
      simp
    · exact .inr (ih later)

/-! ### Rewriting data -/

theorem Node.mapData_eq (g : NodeId → NodeData → NodeData) (n : Node) :
    n.mapData g = .mk n.id (g n.id n.data) (mapDataList g n.children) := by
  cases n
  rfl

section

variable {g : NodeId → NodeData → NodeData} (types : ∀ i d, (g i d).type = d.type)

include types

omit types in
mutual

/-- Rewriting data without changing types rewrites the nodes of a type. -/
theorem exits_mapData (types : ∀ i d, (g i d).type = d.type) (t : NodeType) : (n : Node) →
    (n.mapData g).exits t = (n.exits t).map (Node.mapData g)
  | .mk i d cs => by
    rw [Node.mapData, Node.exits, Node.exits, exitsList_mapDataList types t cs, List.map_append, types]
    congr 1
    split <;> rfl

theorem exitsList_mapDataList (types : ∀ i d, (g i d).type = d.type) (t : NodeType) : (f : Forest) →
    exitsList t (mapDataList g f) = (exitsList t f).map (Node.mapData g)
  | [] => rfl
  | n :: ns => by
    rw [mapDataList, exitsList, exitsList, exits_mapData types t n, exitsList_mapDataList types t ns,
      List.map_append]

end

end

/-! ### Trees with rewritten data -/

section

variable (g : NodeId → NodeData → NodeData)

theorem mapDataList_eq (f : Forest) : mapDataList g f = f.map (Node.mapData g) := by
  induction f with
  | nil => rfl
  | cons n ns ih => rw [mapDataList, ih, List.map_cons]

theorem mapDataList_append (f f' : Forest) :
    mapDataList g (f ++ f') = mapDataList g f ++ mapDataList g f' := by
  simp [mapDataList_eq]

@[simp] theorem id_mapData (n : Node) : (n.mapData g).id = n.id := by rw [Node.mapData_eq, Node.id_mk]

theorem hasSibling_mapDataList (i : NodeId) (f : Forest) :
    hasSibling i (mapDataList g f) = hasSibling i f := by
  simp [hasSibling, mapDataList_eq, Function.comp_def]

theorem siblingsBefore_mapDataList (i : NodeId) (f : Forest) :
    siblingsBefore i (mapDataList g f) = mapDataList g (siblingsBefore i f) := by
  simp [siblingsBefore, mapDataList_eq, List.takeWhile_map, Function.comp_def]

theorem siblingsFrom_mapDataList (i : NodeId) (f : Forest) :
    siblingsFrom i (mapDataList g f) = mapDataList g (siblingsFrom i f) := by
  simp [siblingsFrom, mapDataList_eq, List.dropWhile_map, Function.comp_def]

theorem siblingsAfter_mapDataList (i : NodeId) (f : Forest) :
    siblingsAfter i (mapDataList g f) = mapDataList g (siblingsAfter i f) := by
  rw [siblingsAfter, siblingsAfter, siblingsFrom_mapDataList, mapDataList_eq, mapDataList_eq,
    List.map_tail]

mutual

theorem find?_mapData (i : NodeId) : (n : Node) →
    (n.mapData g).find? i = (n.find? i).map (Node.mapData g)
  | .mk j d cs => by
    rw [Node.mapData, Node.find?, Node.find?, findNode?_mapDataList i cs]
    split <;> rfl

theorem findNode?_mapDataList (i : NodeId) : (f : Forest) →
    findNode? i (mapDataList g f) = (findNode? i f).map (Node.mapData g)
  | [] => rfl
  | n :: ns => by
    rw [mapDataList, findNode?, findNode?, find?_mapData i n, findNode?_mapDataList i ns]
    cases n.find? i <;> rfl

end

end

section

variable {g : NodeData → NodeData}

mutual

theorem familyOf?_mapData (i : NodeId) : (n : Node) →
    (n.mapData fun _ => g).familyOf? i =
      (n.familyOf? i).map fun family => (g family.1, mapDataList (fun _ => g) family.2)
  | .mk j d cs => by
    rw [Node.mapData, Node.familyOf?, Node.familyOf?, hasSibling_mapDataList,
      familyOfList?_mapDataList i cs]
    split <;> rfl

theorem familyOfList?_mapDataList (i : NodeId) : (f : Forest) →
    familyOfList? i (mapDataList (fun _ => g) f) =
      (familyOfList? i f).map fun family => (g family.1, mapDataList (fun _ => g) family.2)
  | [] => rfl
  | n :: ns => by
    rw [mapDataList, familyOfList?, familyOfList?, familyOf?_mapData i n,
      familyOfList?_mapDataList i ns]
    cases n.familyOf? i <;> rfl

end

end

/-! ### Unlinking -/

mutual

/-- Only which addresses are unlinked matters, not their order. -/
theorem unlinkAll_congr {ids ids' : List NodeId} (same : ∀ i, i ∈ ids ↔ i ∈ ids') : (n : Node) →
    n.unlinkAll ids = n.unlinkAll ids'
  | .mk i d cs => by rw [Node.unlinkAll, Node.unlinkAll, unlinkAllList_congr same cs]

theorem unlinkAllList_congr {ids ids' : List NodeId} (same : ∀ i, i ∈ ids ↔ i ∈ ids') :
    (f : Forest) → unlinkAllList ids f = unlinkAllList ids' f
  | [] => rfl
  | n :: ns => by
    have contains : ids.contains n.id = ids'.contains n.id := by
      rw [Bool.eq_iff_iff, List.contains_iff_mem, List.contains_iff_mem, same]
    rw [unlinkAllList, unlinkAllList, contains, unlinkAll_congr same n, unlinkAllList_congr same ns]

end

section

variable (ids : List NodeId)

theorem Node.unlinkAll_eq (n : Node) :
    n.unlinkAll ids = .mk n.id n.data (unlinkAllList ids n.children) := by
  cases n
  rfl

@[simp] theorem id_unlinkAll (n : Node) : (n.unlinkAll ids).id = n.id := by
  rw [Node.unlinkAll_eq, Node.id_mk]

@[simp] theorem data_unlinkAll (n : Node) : (n.unlinkAll ids).data = n.data := by
  rw [Node.unlinkAll_eq, Node.data_mk]

@[simp] theorem type_unlinkAll (n : Node) : (n.unlinkAll ids).type = n.type := by
  rw [Node.unlinkAll_eq]
  rfl

theorem unlinkAll_eq_self {ids : List NodeId} {n : Node} (leaf : n.children = []) :
    n.unlinkAll ids = n := by
  cases n
  rw [Node.children_mk] at leaf
  rw [leaf]
  rfl

mutual

/-- What is left below a node was there before, and is not unlinked. -/
theorem mem_postorder_unlinkAll {m : Node} : (n : Node) → m ∈ (n.unlinkAll ids).postorder →
    m = n.unlinkAll ids ∨ ∃ m₀ ∈ postorderList n.children, m = m₀.unlinkAll ids ∧ m₀.id ∉ ids
  | .mk i d cs, member => by
    rw [Node.unlinkAll, Node.postorder, List.mem_append, List.mem_singleton] at member
    rcases member with below | rfl
    · exact .inr (mem_postorderList_unlinkAllList cs below)
    · exact .inl rfl

theorem mem_postorderList_unlinkAllList {m : Node} : (f : Forest) →
    m ∈ postorderList (unlinkAllList ids f) →
    ∃ m₀ ∈ postorderList f, m = m₀.unlinkAll ids ∧ m₀.id ∉ ids
  | [], member => by cases member
  | n :: ns, member => by
    rw [unlinkAllList] at member
    split at member
    next =>
      obtain ⟨m₀, before, same, kept⟩ := mem_postorderList_unlinkAllList ns member
      exact ⟨m₀, List.mem_append_right _ before, same, kept⟩
    next stays =>
      rw [postorderList, List.mem_append] at member
      rcases member with first | rest
      · rcases mem_postorder_unlinkAll n first with rfl | ⟨m₀, before, same, kept⟩
        · refine ⟨n, List.mem_append_left _ ?_, rfl, by simpa using stays⟩
          rw [Node.postorder_eq]
          simp
        · refine ⟨m₀, List.mem_append_left _ ?_, same, kept⟩
          rw [Node.postorder_eq]
          exact List.mem_append_left _ before
      · obtain ⟨m₀, before, same, kept⟩ := mem_postorderList_unlinkAllList ns rest
        exact ⟨m₀, List.mem_append_right _ before, same, kept⟩

end

/-- Unlinking leaves leaves of a type as they are. -/
theorem exitsList_unlinkAllList_subset {t : NodeType} {root n m : Node}
    (leaves : ∀ r ∈ root.exits t, r.children = []) (member : n ∈ root.postorder)
    (left : m ∈ exitsList t (unlinkAllList ids n.children)) : m ∈ root.exits t := by
  have type := type_of_mem_exitsList left
  obtain ⟨m₀, before, rfl, _⟩ :=
    mem_postorderList_unlinkAllList ids n.children (mem_postorderList_of_mem_exitsList left)
  rw [type_unlinkAll] at type
  have known : m₀ ∈ root.exits t := by
    rw [exits_eq_filter]
    refine List.mem_filter.mpr ⟨postorder_trans root member ?_, by simpa using type⟩
    rw [Node.postorder_eq]
    exact List.mem_append_left _ before
  rwa [unlinkAll_eq_self (leaves m₀ known)]

/-- No node of a type is left if all nodes of the type are unlinked. -/
theorem exitsList_unlinkAllList_eq_nil {t : NodeType} {f : Forest}
    (all : ∀ n ∈ exitsList t f, n.id ∈ ids) : exitsList t (unlinkAllList ids f) = [] := by
  rw [List.eq_nil_iff_forall_not_mem]
  intro m member
  have isType := type_of_mem_exitsList member
  obtain ⟨m₀, before, rfl, kept⟩ :=
    mem_postorderList_unlinkAllList ids f (mem_postorderList_of_mem_exitsList member)
  rw [type_unlinkAll] at isType
  refine kept (all m₀ ?_)
  rw [exitsList_eq_filter]
  exact List.mem_filter.mpr ⟨before, by simpa using isType⟩

end

end CmarkGfm
