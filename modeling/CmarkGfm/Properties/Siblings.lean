import CmarkGfm.Properties.Trees

/-!
# Editing one list of siblings

While emphasis is matched all work is done in one list of siblings: the last ones of the block,
or the children of a link that was just made. Addresses are distinct, so that an edit at a node of
this list changes nothing else.
-/

namespace CmarkGfm

/-! ### Addresses -/

/-- The addresses of the nodes of a forest. -/
def addresses (f : Forest) : List NodeId := (postorderList f).map Node.id

theorem addresses_append (f g : Forest) : addresses (f ++ g) = addresses f ++ addresses g := by
  rw [addresses, postorderList_append, List.map_append]
  rfl

theorem addresses_prefix (f g : Forest) : (addresses f).Sublist (addresses (f ++ g)) := by
  rw [addresses_append]
  exact List.sublist_append_left _ _

theorem addresses_cons (n : Node) (f : Forest) :
    addresses (n :: f) = addresses n.children ++ n.id :: addresses f := by
  rw [addresses, postorderList, Node.postorder_eq]
  simp [addresses]

@[simp] theorem addresses_nil : addresses [] = [] := rfl

/-- Siblings are among the nodes. -/
theorem ids_sublist_addresses (f : Forest) : (f.map Node.id).Sublist (addresses f) := by
  induction f with
  | nil => exact .slnil
  | cons n f ih =>
    rw [addresses_cons, List.map_cons]
    exact (List.Sublist.cons_cons n.id ih).trans (List.sublist_append_right _ _)

theorem mem_addresses_of_mem {f : Forest} {n : Node} (member : n ∈ f) : n.id ∈ addresses f :=
  (ids_sublist_addresses f).subset (List.mem_map_of_mem member)

theorem hasSibling_iff {i : NodeId} {f : Forest} : hasSibling i f = true ↔ i ∈ f.map Node.id := by
  simp [hasSibling, List.any_eq_true]

/-! ### Edits that do not reach a node -/

mutual

theorem Node.editSiblings_of_not_mem {i : NodeId} {g : Forest → Forest} : (n : Node) →
    i ∉ addresses n.children → n.editSiblings i g = n
  | .mk j d cs, absent => by
    have apart : hasSibling i cs = false := by
      rw [Bool.eq_false_iff, ne_eq, hasSibling_iff]
      exact fun member => absent ((ids_sublist_addresses cs).subset member)
    rw [Node.editSiblings, apart, if_neg Bool.false_ne_true, editSiblingsList_of_not_mem cs absent]

theorem editSiblingsList_of_not_mem {i : NodeId} {g : Forest → Forest} : (f : Forest) →
    i ∉ addresses f → editSiblingsList i g f = f
  | [], _ => rfl
  | n :: ns, absent => by
    rw [addresses_cons, List.mem_append, List.mem_cons, not_or, not_or] at absent
    rw [editSiblingsList, Node.editSiblings_of_not_mem n absent.1,
      editSiblingsList_of_not_mem ns absent.2.2]

end

mutual

theorem Node.find?_of_not_mem {i : NodeId} : (n : Node) → n.id ≠ i → i ∉ addresses n.children →
    n.find? i = none
  | .mk j d cs, apart, absent => by
    rw [Node.find?, if_neg (by simpa using apart), findNode?_of_not_mem cs absent]

theorem findNode?_of_not_mem {i : NodeId} : (f : Forest) → i ∉ addresses f → findNode? i f = none
  | [], _ => rfl
  | n :: ns, absent => by
    rw [addresses_cons, List.mem_append, List.mem_cons, not_or, not_or] at absent
    rw [findNode?, Node.find?_of_not_mem n (Ne.symm absent.2.1) absent.1, Option.none_or,
      findNode?_of_not_mem ns absent.2.2]

end

mutual

theorem Node.find?_of_mem {m : Node} : (n : Node) → (addresses n.children ++ [n.id]).Nodup →
    m ∈ n.postorder → n.find? m.id = some m
  | .mk j d cs, distinct, member => by
    rw [List.nodup_append] at distinct
    rw [Node.postorder, List.mem_append, List.mem_singleton] at member
    rw [Node.find?]
    rcases member with below | rfl
    · have other : ¬ (j == m.id) = true := by
        rw [beq_iff_eq]
        exact fun same => distinct.2.2 m.id (List.mem_map_of_mem below) j (by simp) same.symm
      rw [if_neg other, findNode?_of_mem cs distinct.1 below]
    · rw [if_pos (by simp)]

/-- Every node is found by its address. -/
theorem findNode?_of_mem {m : Node} : (f : Forest) → (addresses f).Nodup → m ∈ postorderList f →
    findNode? m.id f = some m
  | [], _, member => by cases member
  | n :: ns, distinct, member => by
    have parts : addresses (n :: ns) = (addresses n.children ++ [n.id]) ++ addresses ns := by
      rw [addresses_cons, List.append_assoc, List.singleton_append]
    rw [parts, List.nodup_append] at distinct
    rw [postorderList, List.mem_append] at member
    rw [findNode?]
    rcases member with first | rest
    · rw [Node.find?_of_mem n distinct.1 first, Option.some_or]
    · have apart := distinct.2.2
      have later : m.id ∈ addresses ns := List.mem_map_of_mem rest
      have absent : m.id ∉ addresses n.children ++ [n.id] := fun inside =>
        apart m.id inside m.id later rfl
      rw [List.mem_append, List.mem_singleton, not_or] at absent
      rw [Node.find?_of_not_mem n (Ne.symm absent.2) absent.1, Option.none_or,
        findNode?_of_mem ns distinct.2.1 rest]

end

mutual

theorem Node.familyOf?_of_not_mem {i : NodeId} : (n : Node) → i ∉ addresses n.children →
    n.familyOf? i = none
  | .mk j d cs, absent => by
    have apart : hasSibling i cs = false := by
      rw [Bool.eq_false_iff, ne_eq, hasSibling_iff]
      exact fun member => absent ((ids_sublist_addresses cs).subset member)
    rw [Node.familyOf?, apart, if_neg Bool.false_ne_true, familyOfList?_of_not_mem cs absent]

theorem familyOfList?_of_not_mem {i : NodeId} : (f : Forest) → i ∉ addresses f →
    familyOfList? i f = none
  | [], _ => rfl
  | n :: ns, absent => by
    rw [addresses_cons, List.mem_append, List.mem_cons, not_or, not_or] at absent
    rw [familyOfList?, Node.familyOf?_of_not_mem n absent.1, Option.none_or,
      familyOfList?_of_not_mem ns absent.2.2]

end

/-! ### The siblings on the two sides of a node -/

section

variable {i : NodeId} {f g : Forest} {n : Node}

theorem editSibling_of_not_mem (h : NodeData → NodeData) (absent : i ∉ f.map Node.id) :
    editSibling i h f = f := by
  have other : ∀ m ∈ f, (if m.id == i then m.setData (h m.data) else m) = m := by
    intro m member
    rw [if_neg]
    rw [beq_iff_eq]
    rintro rfl
    exact absent (List.mem_map_of_mem member)
  exact (List.map_congr_left other).trans (List.map_id f)

theorem editSibling_split (h : NodeData → NodeData) (here : n.id = i)
    (before : i ∉ f.map Node.id) (after : i ∉ g.map Node.id) :
    editSibling i h (f ++ n :: g) = f ++ n.setData (h n.data) :: g := by
  have parts : editSibling i h (f ++ n :: g) =
      editSibling i h f ++ n.setData (h n.data) :: editSibling i h g := by
    simp [editSibling, here]
  rw [parts, editSibling_of_not_mem h before, editSibling_of_not_mem h after]

theorem editSibling_append (h : NodeData → NodeData) (absent : i ∉ f.map Node.id) :
    editSibling i h (f ++ g) = f ++ editSibling i h g := by
  rw [editSibling, List.map_append]
  exact congrArg (· ++ _) (editSibling_of_not_mem h absent)

theorem filter_of_not_mem (absent : i ∉ f.map Node.id) : f.filter (fun m => m.id != i) = f := by
  refine List.filter_eq_self.mpr fun m member => ?_
  rw [bne_iff_ne]
  rintro rfl
  exact absent (List.mem_map_of_mem member)

theorem passes_of_not_mem (absent : i ∉ f.map Node.id) : ∀ m ∈ f, (m.id != i) = true := by
  intro m member
  rw [bne_iff_ne]
  rintro rfl
  exact absent (List.mem_map_of_mem member)

theorem siblingsBefore_append (absent : i ∉ f.map Node.id) :
    siblingsBefore i (f ++ g) = f ++ siblingsBefore i g :=
  List.takeWhile_append_of_pos (passes_of_not_mem absent)

theorem siblingsFrom_append (absent : i ∉ f.map Node.id) :
    siblingsFrom i (f ++ g) = siblingsFrom i g :=
  List.dropWhile_append_of_pos (passes_of_not_mem absent)

theorem siblings_split (here : n.id = i) (before : i ∉ f.map Node.id) :
    siblingsBefore i (f ++ n :: g) = f ∧ siblingsFrom i (f ++ n :: g) = n :: g := by
  rw [siblingsBefore_append before, siblingsFrom_append before]
  simp [siblingsBefore, siblingsFrom, here]

theorem siblingsBefore_split (here : n.id = i) (before : i ∉ f.map Node.id) :
    siblingsBefore i (f ++ n :: g) = f := (siblings_split here before).1

theorem siblingsFrom_split (here : n.id = i) (before : i ∉ f.map Node.id) :
    siblingsFrom i (f ++ n :: g) = n :: g := (siblings_split here before).2

theorem siblingsAfter_split (here : n.id = i) (before : i ∉ f.map Node.id) :
    siblingsAfter i (f ++ n :: g) = g := by
  rw [siblingsAfter, siblingsFrom_split here before, List.tail_cons]

theorem filter_split (here : n.id = i) (before : i ∉ f.map Node.id) (after : i ∉ g.map Node.id) :
    (f ++ n :: g).filter (fun m => m.id != i) = f ++ g := by
  rw [List.filter_append, List.filter_cons_of_neg (by simp [here]), filter_of_not_mem before,
    filter_of_not_mem after]

theorem exists_split (member : i ∈ f.map Node.id) : ∃ l n r, f = l ++ n :: r ∧ n.id = i := by
  obtain ⟨n, among, here⟩ := List.mem_map.mp member
  obtain ⟨l, r, same⟩ := List.append_of_mem among
  exact ⟨l, n, r, same, here⟩

end

/-! ### Where the siblings are -/

/-- The last siblings of the block, or the children of its last node. -/
structure Zone where
  outer : Forest
  inner : Option (NodeId × NodeData)

namespace Zone

variable (z : Zone) {f : Forest} {i : NodeId} {n : Node}

/-- The forest with these siblings in the place of the zone. -/
def fill (f : Forest) : Forest :=
  match z.inner with
  | none => z.outer ++ f
  | some (i, d) => z.outer ++ [.mk i d f]

/-- The data of the parent of the siblings. -/
def owner (parent : NodeData) : NodeData :=
  match z.inner with
  | none => parent
  | some (_, d) => d

/-- The addresses of the nodes before the zone and of the node around it. -/
def around : List NodeId := addresses z.outer ++ (z.inner.map Prod.fst).toList

theorem addresses_fill_perm (f : Forest) : (addresses (z.fill f)).Perm (z.around ++ addresses f) := by
  obtain ⟨outer, inner⟩ := z
  cases inner with
  | none =>
    rw [fill, around, addresses_append]
    simp
  | some p =>
    obtain ⟨i, d⟩ := p
    rw [fill, around, addresses_append, addresses_cons]
    simp only [Node.children_mk, Node.id_mk, addresses_nil, Option.map_some, Option.toList_some,
      List.append_assoc]
    exact .append_left _ List.perm_append_comm

theorem mem_addresses_fill : i ∈ addresses (z.fill f) ↔ i ∈ z.around ∨ i ∈ addresses f := by
  rw [(z.addresses_fill_perm f).mem_iff, List.mem_append]

theorem nodup_fill : (addresses (z.fill f)).Nodup ↔
    z.around.Nodup ∧ (addresses f).Nodup ∧ ∀ i ∈ z.around, i ∉ addresses f := by
  rw [(z.addresses_fill_perm f).nodup_iff, List.nodup_append]
  refine and_congr_right fun _ => and_congr_right fun _ => forall₂_congr fun i _ => ?_
  exact ⟨fun apart inside => apart i inside rfl, fun absent j inside same => absent (same ▸ inside)⟩

section

variable {z} (distinct : (addresses (z.fill f)).Nodup) (member : i ∈ f.map Node.id)

include distinct member

theorem not_mem_around : i ∉ z.around := fun inside =>
  (z.nodup_fill.mp distinct).2.2 i inside ((ids_sublist_addresses f).subset member)

/-- An edit of the siblings of a node of the zone is an edit of the zone. -/
theorem editSiblings_fill {g : Forest → Forest}
    (within : ∀ l : Forest, i ∉ l.map Node.id → g (l ++ f) = l ++ g f) :
    editSiblings i g (z.fill f) = z.fill (g f) := by
  have apart := not_mem_around distinct member
  obtain ⟨outer, inner⟩ := z
  have outside : i ∉ addresses outer := fun inside => apart (List.mem_append_left _ inside)
  have outsideIds : i ∉ outer.map Node.id := fun inside =>
    outside ((ids_sublist_addresses outer).subset inside)
  cases inner with
  | none =>
    have found : hasSibling i (outer ++ f) = true := by
      rw [hasSibling_iff, List.map_append]
      exact List.mem_append_right _ member
    rw [fill, fill, editSiblings, if_pos found, within outer outsideIds]
  | some p =>
    obtain ⟨j, d⟩ := p
    have other : j ≠ i := by
      rintro rfl
      exact apart (List.mem_append_right _ (by simp))
    have missed : ¬ hasSibling i (outer ++ [.mk j d f]) = true := by
      rw [hasSibling_iff, List.map_append, List.mem_append, not_or]
      exact ⟨outsideIds, by simpa using other.symm⟩
    have passed : ∀ l : Forest, i ∉ addresses l →
        editSiblingsList i g (l ++ [.mk j d f]) = l ++ [.mk j d (g f)] := by
      intro l absent
      induction l with
      | nil =>
        rw [List.nil_append, editSiblingsList, Node.editSiblings,
          if_pos (hasSibling_iff.mpr member)]
        rfl
      | cons m l ih =>
        rw [addresses_cons, List.mem_append, List.mem_cons, not_or, not_or] at absent
        rw [List.cons_append, editSiblingsList, Node.editSiblings_of_not_mem m absent.1,
          ih absent.2.2]
        rfl
    rw [fill, fill, editSiblings, if_neg missed, passed outer outside]

theorem familyOf?_fill (parent : NodeData) :
    (familyOf? i parent (z.fill f)).map Prod.fst = some (z.owner parent) := by
  have apart := not_mem_around distinct member
  obtain ⟨outer, inner⟩ := z
  have outside : i ∉ addresses outer := fun inside => apart (List.mem_append_left _ inside)
  have outsideIds : i ∉ outer.map Node.id := fun inside =>
    outside ((ids_sublist_addresses outer).subset inside)
  cases inner with
  | none =>
    have found : hasSibling i (outer ++ f) = true := by
      rw [hasSibling_iff, List.map_append]
      exact List.mem_append_right _ member
    rw [fill, familyOf?, if_pos found]
    rfl
  | some p =>
    obtain ⟨j, d⟩ := p
    have other : j ≠ i := by
      rintro rfl
      exact apart (List.mem_append_right _ (by simp))
    have missed : ¬ hasSibling i (outer ++ [.mk j d f]) = true := by
      rw [hasSibling_iff, List.map_append, List.mem_append, not_or]
      exact ⟨outsideIds, by simpa using other.symm⟩
    have passed : ∀ l : Forest, i ∉ addresses l →
        familyOfList? i (l ++ [.mk j d f]) = some (d, f) := by
      intro l absent
      induction l with
      | nil =>
        rw [List.nil_append, familyOfList?, Node.familyOf?, if_pos (hasSibling_iff.mpr member)]
        rfl
      | cons m l ih =>
        rw [addresses_cons, List.mem_append, List.mem_cons, not_or, not_or] at absent
        rw [List.cons_append, familyOfList?, Node.familyOf?_of_not_mem m absent.1, Option.none_or,
          ih absent.2.2]
    rw [fill, familyOf?, if_neg missed, passed outer outside]
    rfl

end

theorem mem_postorderList_fill (member : n ∈ f) : n ∈ postorderList (z.fill f) := by
  have inside := mem_postorderList_of_mem member
  obtain ⟨outer, inner⟩ := z
  cases inner with
  | none =>
    rw [fill, postorderList_append]
    exact List.mem_append_right _ inside
  | some p =>
    rw [fill, postorderList_append, postorderList, Node.postorder]
    simp [inside]

theorem findNode?_fill {z : Zone} (distinct : (addresses (z.fill f)).Nodup) (member : n ∈ f) :
    findNode? n.id (z.fill f) = some n :=
  findNode?_of_mem _ distinct (z.mem_postorderList_fill member)

theorem dataOf_fill {z : Zone} (distinct : (addresses (z.fill f)).Nodup) (member : n ∈ f)
    (here : n.id = i) : dataOf i (z.fill f) = n.data := by
  rw [dataOf, ← here, findNode?_fill distinct member]
  rfl

end Zone

/-! ### Edits at a node of the zone -/

section

variable {z : Zone} {i j : NodeId} {n c : Node} {l m r : Forest}

/-- Addresses are not repeated on the two sides of a node. -/
theorem not_mem_sides (distinct : (addresses (z.fill (l ++ n :: r))).Nodup) (here : n.id = i) :
    i ∉ l.map Node.id ∧ i ∉ r.map Node.id := by
  have ids := (ids_sublist_addresses (l ++ n :: r)).nodup (z.nodup_fill.mp distinct).2.1
  rw [List.map_append, List.map_cons, here, List.nodup_append, List.nodup_cons] at ids
  exact ⟨fun inside => ids.2.2 i inside i List.mem_cons_self rfl, ids.2.1.1⟩

theorem mem_ids_split (here : n.id = i) : i ∈ (l ++ n :: r).map Node.id := by
  simp [here]

theorem editData_fill (h : NodeData → NodeData)
    (distinct : (addresses (z.fill (l ++ n :: r))).Nodup) (here : n.id = i) :
    editData i h (z.fill (l ++ n :: r)) = z.fill (l ++ n.setData (h n.data) :: r) := by
  obtain ⟨before, after⟩ := not_mem_sides distinct here
  rw [editData, Zone.editSiblings_fill distinct (mem_ids_split here),
    editSibling_split h here before after]
  exact fun l' outside => editSibling_append h outside

theorem freeNode_fill (distinct : (addresses (z.fill (l ++ n :: r))).Nodup) (here : n.id = i) :
    freeNode i (z.fill (l ++ n :: r)) = z.fill (l ++ r) := by
  obtain ⟨before, after⟩ := not_mem_sides distinct here
  rw [freeNode, Zone.editSiblings_fill distinct (mem_ids_split here),
    filter_split here before after]
  intro l' outside
  rw [List.filter_append, filter_of_not_mem outside]

theorem addresses_setData (d : NodeData) :
    addresses (l ++ n.setData d :: r) = addresses (l ++ n :: r) := by
  rw [addresses_append, addresses_append, addresses_cons, addresses_cons, Node.children_setData,
    Node.id_setData]

theorem nodup_setData (d : NodeData) (distinct : (addresses (z.fill (l ++ n :: r))).Nodup) :
    (addresses (z.fill (l ++ n.setData d :: r))).Nodup := by
  rw [Zone.nodup_fill] at distinct ⊢
  rwa [addresses_setData]

theorem addresses_remove : (addresses (l ++ r)).Sublist (addresses (l ++ n :: r)) := by
  rw [addresses_append, addresses_append, addresses_cons]
  exact .append_left ((List.sublist_cons_self _ _).trans (List.sublist_append_right _ _)) _

theorem nodup_remove (distinct : (addresses (z.fill (l ++ n :: r))).Nodup) :
    (addresses (z.fill (l ++ r))).Nodup := by
  rw [Zone.nodup_fill] at distinct ⊢
  exact ⟨distinct.1, addresses_remove.nodup distinct.2.1,
    fun i around inside => distinct.2.2 i around (addresses_remove.subset inside)⟩

omit i in
theorem addresses_wrap (i : NodeId) (d : NodeData) :
    (addresses (l ++ .mk i d m :: r)).Perm (i :: addresses (l ++ (m ++ r))) := by
  rw [addresses_append, addresses_append, addresses_append, addresses_cons, Node.children_mk,
    Node.id_mk]
  refine (List.Perm.append_left _ List.perm_middle).trans ?_
  exact List.perm_middle

/-- A new node around some of the siblings keeps the addresses distinct. -/
theorem nodup_wrap (d : NodeData) (distinct : (addresses (z.fill (l ++ (m ++ r)))).Nodup)
    (new : i ∉ addresses (z.fill (l ++ (m ++ r)))) :
    (addresses (z.fill (l ++ .mk i d m :: r))).Nodup := by
  rw [Zone.mem_addresses_fill, not_or] at new
  rw [Zone.nodup_fill] at distinct ⊢
  refine ⟨distinct.1, (addresses_wrap i d).nodup_iff.mpr
    (List.nodup_cons.mpr ⟨new.2, distinct.2.1⟩), fun j around inside => ?_⟩
  rcases List.mem_cons.mp ((addresses_wrap i d).mem_iff.mp inside) with rfl | old
  · exact new.1 around
  · exact distinct.2.2 j around old

/-- The siblings between two nodes of the zone. -/
theorem between_split (distinct : (addresses (z.fill (l ++ n :: (m ++ c :: r)))).Nodup)
    (there : c.id = j) :
    (m ++ c :: r).takeWhile (fun n => n.id != j) = m ∧
      (m ++ c :: r).dropWhile (fun n => n.id != j) = c :: r := by
  have regrouped : l ++ n :: (m ++ c :: r) = (l ++ n :: m) ++ c :: r := by simp
  rw [regrouped] at distinct
  have absent := (not_mem_sides distinct there).1
  rw [List.map_append, List.map_cons, List.mem_append, List.mem_cons, not_or, not_or] at absent
  rw [List.takeWhile_append_of_pos (passes_of_not_mem absent.2.2),
    List.dropWhile_append_of_pos (passes_of_not_mem absent.2.2)]
  simp [there]

/-- Move the siblings between two nodes of the zone. -/
theorem wrapBetween_fill (wrap : Forest → Forest)
    (distinct : (addresses (z.fill (l ++ n :: (m ++ c :: r)))).Nodup) (here : n.id = i)
    (there : c.id = j) :
    editSiblings i (wrapBetween i j wrap) (z.fill (l ++ n :: (m ++ c :: r))) =
      z.fill (l ++ n :: (wrap m ++ c :: r)) := by
  have before := (not_mem_sides distinct here).1
  obtain ⟨between, rest⟩ := between_split distinct there
  rw [Zone.editSiblings_fill distinct (mem_ids_split here)]
  · rw [wrapBetween, siblingsBefore_split here before, siblingsFrom_split here before,
      siblingsAfter_split here before, between, rest]
    simp
  · intro l' outside
    rw [wrapBetween, wrapBetween, siblingsAfter, siblingsAfter, siblingsBefore_append outside,
      siblingsFrom_append outside]
    simp only [List.append_assoc]

end

theorem canInsertBeside_fill {P : Config} {parent : NodeData} {z : Zone} {f : Forest} {i : NodeId}
    {t : NodeType} (distinct : (addresses (z.fill f)).Nodup) (member : i ∈ f.map Node.id)
    (accepts : P.nodeCanContainType (z.owner parent) t) :
    canInsertBeside P parent i t (z.fill f) = true := by
  obtain ⟨⟨owner, siblings⟩, found, same⟩ :=
    Option.map_eq_some_iff.mp (Zone.familyOf?_fill distinct member parent)
  obtain rfl : owner = z.owner parent := same
  rw [canInsertBeside, found]
  exact accepts

end CmarkGfm
