import CmarkGfm.Render.Latex

/-!
# Levels of ordered lists in LaTeX

LaTeX numbers the counters of its lists by the `enumerate` environments that are open. The renderer
counts the lists above a node, and asks the node itself, not each list, whether it is ordered.
-/

namespace CmarkGfm

open Call

/-! ### What the renderer counts -/

theorem enumlevelFrom_eq (node : NodeData) (enumlevel : Nat) (above : List NodeData) :
    enumlevelFrom node enumlevel above =
      enumlevel + if node.getListType = .ordered then above.countP (·.type = .list) else 0 := by
  induction above generalizing enumlevel with
  | nil => simp [enumlevelFrom]
  | cons tmp above ih =>
    rw [enumlevelFrom, ih]
    by_cases ordered : node.getListType = .ordered
    · by_cases list : tmp.type = .list
      · simp [ordered, list]
        omega
      · simp [ordered, list]
    · simp [ordered]

/-- The ordered lists among a node and the nodes above it. -/
def orderedLevel (v : Visit) : Nat :=
  (v.node.data :: v.place.ancestors).countP (·.getListType = .ordered)

theorem type_of_ordered {d : NodeData} (ordered : d.getListType = .ordered) : d.type = .list := by
  unfold NodeData.getListType at ordered
  split at ordered
  next list => exact list
  next => cases ordered

/-- All lists are counted, and they are the ordered ones if there are no others. -/
theorem countP_list_eq_iff (ds : List NodeData) :
    ds.countP (·.type = .list) = ds.countP (·.getListType = .ordered) ↔
      ∀ d ∈ ds, d.type = .list → d.getListType = .ordered := by
  induction ds with
  | nil => simp
  | cons d ds ih =>
    have fewer : ds.countP (·.getListType = .ordered) ≤ ds.countP (·.type = .list) := by
      apply List.countP_mono_left
      intro e _ ordered
      exact decide_eq_true (type_of_ordered (of_decide_eq_true ordered))
    rw [List.forall_mem_cons, List.countP_cons, List.countP_cons, ← ih]
    by_cases ordered : d.getListType = .ordered
    · simp [ordered, type_of_ordered ordered]
    · by_cases list : d.type = .list
      · simp only [ordered, list, decide_true, decide_false, if_true, Bool.false_eq_true, if_false,
          forall_const, false_and, iff_false]
        omega
      · simp [ordered, list]

/-! ### The environments that are open -/

/-- A list begins or ends an environment. -/
def enumerateChange (v : Visit) : Int :=
  if v.node.data.getListType = .ordered then if v.entering then 1 else -1 else 0

/-- The events, each with the number of `enumerate` environments that are open before it. -/
def enumerateDepths : Int → List Visit → List (Int × Visit)
  | _, [] => []
  | depth, v :: vs => (depth, v) :: enumerateDepths (depth + enumerateChange v) vs

/-- The change of a sequence of events. -/
def enumerateChanges (vs : List Visit) : Int := (vs.map enumerateChange).sum

theorem enumerateDepths_append (depth : Int) (vs ws : List Visit) :
    enumerateDepths depth (vs ++ ws) =
      enumerateDepths depth vs ++ enumerateDepths (depth + enumerateChanges vs) ws := by
  induction vs generalizing depth with
  | nil => simp [enumerateDepths, enumerateChanges]
  | cons v vs ih =>
    rw [List.cons_append, enumerateDepths, ih, enumerateDepths]
    simp [enumerateChanges, add_assoc]

/-- The calls at a list that is ordered begin or end the environment. -/
theorem latexRenderNode_ordered (options : Options) (r : Renderer) {v : Visit}
    (ordered : v.node.data.getListType = .ordered) :
    latexRenderNode options r v =
      if v.entering then
        [puts "\\begin\x7b", puts "enumerate", puts "\x7d", cr] ++
          if v.node.data.as.getList.start > 1 then
            setcounterCalls (getEnumlevel v) v.node.data.as.getList.start ++ [cr]
          else []
      else [puts "\\end\x7b", puts "enumerate", puts "\x7d", blankline] := by
  unfold latexRenderNode
  dsimp only
  rw [type_of_ordered ordered]
  simp only [listCalls, listEnvironment, ordered, if_true]

theorem not_skipped_of_ordered {v : Visit} (ordered : v.node.data.getListType = .ordered) :
    v.node.data.type.isLeaf = false ∧ latex.skipsContents v = false := by
  have list : v.node.type = .list := type_of_ordered ordered
  constructor
  · rw [type_of_ordered ordered]
    rfl
  · simp [latex, list]

mutual

/-- A node ends what it begins, and is entered at the depth of the ordered lists above it. -/
theorem enumerateDepths_visits (place : Place) (depth : Int)
    (known : depth = place.ancestors.countP (·.getListType = .ordered)) : (n : Node) →
    enumerateChanges (n.visitsSkipping latex.skipsContents place) = 0 ∧
      ∀ p ∈ enumerateDepths depth (n.visitsSkipping latex.skipsContents place), p.2.entering = true →
        p.1 = p.2.place.ancestors.countP (·.getListType = .ordered)
  | .mk i d cs => by
    unfold Node.visitsSkipping
    dsimp only
    split
    next alone =>
      have other : d.getListType ≠ .ordered := by
        intro ordered
        obtain ⟨leaf, skipped⟩ := not_skipped_of_ordered (v := ⟨true, .mk i d cs, place⟩) ordered
        dsimp only [Node.data_mk] at leaf
        rw [leaf, skipped] at alone
        cases alone
      constructor
      · simp [enumerateChanges, enumerateChange, other]
      · intro p member _
        obtain rfl := List.mem_singleton.mp member
        exact known
    next inside =>
      have below := enumerateDepths_visitsFrom place d (depth + enumerateChange ⟨true, .mk i d cs, place⟩) [] (by
        rw [known, List.countP_cons]
        by_cases ordered : d.getListType = .ordered <;> simp [enumerateChange, ordered]) cs
      obtain ⟨closed, entered⟩ := below
      constructor
      · unfold enumerateChanges at closed ⊢
        rw [List.map_cons, List.map_append, List.sum_cons, List.sum_append, closed]
        by_cases ordered : d.getListType = .ordered <;> simp [enumerateChange, ordered]
      · rw [enumerateDepths, enumerateDepths_append]
        intro p member entering
        rcases List.mem_cons.mp member with rfl | member
        · exact known
        rcases List.mem_append.mp member with inner | last
        · exact entered p inner entering
        · obtain rfl := List.mem_singleton.mp last
          cases entering

theorem enumerateDepths_visitsFrom (place : Place) (d : NodeData) (depth : Int) (before : Forest)
    (known : depth = (d :: place.ancestors).countP (·.getListType = .ordered)) : (f : Forest) →
    enumerateChanges (visitsSkippingFrom latex.skipsContents place d before f) = 0 ∧
      ∀ p ∈ enumerateDepths depth (visitsSkippingFrom latex.skipsContents place d before f),
        p.2.entering = true → p.1 = p.2.place.ancestors.countP (·.getListType = .ordered)
  | [] => by
    unfold visitsSkippingFrom
    exact ⟨rfl, fun p member => absurd member List.not_mem_nil⟩
  | n :: ns => by
    unfold visitsSkippingFrom
    obtain ⟨closed, entered⟩ := enumerateDepths_visits (place.below d before ns) depth known n
    obtain ⟨closed', entered'⟩ := enumerateDepths_visitsFrom place d depth (n :: before) known ns
    constructor
    · unfold enumerateChanges at closed closed' ⊢
      rw [List.map_append, List.sum_append, closed, closed']
      rfl
    · rw [enumerateDepths_append, closed, Int.add_zero]
      intro p member entering
      rcases List.mem_append.mp member with here | later
      · exact entered p here entering
      · exact entered' p later entering

end

/-! ### The level -/

/-- The level of an ordered list is the number of ordered lists among the node and its ancestors if
and only if no other list is among them. When it is rendered, that number is the one of the
environment that it begins. -/
theorem getEnumlevel_iff (v : Visit) (ordered : v.node.data.getListType = .ordered) :
    (getEnumlevel v = orderedLevel v ↔ ∀ d ∈ v.place.ancestors, d.type = .list → d.getListType = .ordered) ∧
      ∀ (root : Node) (depth : Int), v.entering = true →
        (depth, v) ∈ enumerateDepths 0 (root.visitsSkipping latex.skipsContents {}) →
        (orderedLevel v : Int) = depth + 1 := by
  constructor
  · unfold getEnumlevel orderedLevel
    rw [enumlevelFrom_eq, if_pos ordered, Nat.zero_add, countP_list_eq_iff, List.forall_mem_cons]
    exact and_iff_right fun _ => ordered
  · intro root depth entering member
    have known : depth = v.place.ancestors.countP (·.getListType = .ordered) :=
      (enumerateDepths_visits {} 0 rfl root).2 (depth, v) member entering
    unfold orderedLevel
    rw [List.countP_cons, if_pos (decide_eq_true ordered), known]
    rfl

def listOf (type : ListType) (start : Nat) : NodeData :=
  { type := .list, as := .list { (default : ListData) with listType := type, start := start } }

/-- The list of `2. a`. -/
def orderedList : Node :=
  .mk 3 (listOf .ordered 2) [.mk 4 { type := .item } [.mk 5 { type := .paragraph }
    [.mk 6 { type := .text, as := .literal (lit "a") } []]]]

/-- The document of `- 2. a`, or one with another type of the outer list. -/
def nestedLists (outer : ListType) : Node :=
  .mk 0 { type := .document } [.mk 1 (listOf outer 1) [.mk 2 { type := .item } [orderedList]]]

/-- The visit of the inner list. -/
def innerList (outer : ListType) : Visit :=
  { entering := true
    node := orderedList
    place := ((({} : Place).below { type := .document } [] []).below (listOf outer 1) [] []).below
      { type := .item } [] [] }

theorem getEnumlevel_ordered :
    (getEnumlevel (innerList .ordered) = orderedLevel (innerList .ordered) ↔
      ∀ d ∈ (innerList .ordered).place.ancestors, d.type = .list → d.getListType = .ordered) ∧
      ∀ (root : Node) (depth : Int), (innerList .ordered).entering = true →
        (depth, innerList .ordered) ∈ enumerateDepths 0 (root.visitsSkipping latex.skipsContents {}) →
        (orderedLevel (innerList .ordered) : Int) = depth + 1 :=
  getEnumlevel_iff (innerList .ordered) (by decide)

/-- In a bullet list the first ordered list is counted as the second one, and the counter of the wrong
level is set. -/
theorem getEnumlevel_bullet :
    (innerList .bullet).node.data.getListType = .ordered ∧ getEnumlevel (innerList .bullet) = 2 ∧
      orderedLevel (innerList .bullet) = 1 ∧
      (renderLatex 0 0 (nestedLists .bullet)).toOption.map (fun out => out.map OutByte.byte) =
        some (lit ("\\begin\x7bitemize\x7d\n\\item \\begin\x7benumerate\x7d\n" ++
          "\\setcounter\x7benumii\x7d\x7b2\x7d\n\\item a\n\n\\end\x7benumerate\x7d\n\n\\end\x7bitemize\x7d\n")) := by
  decide +kernel

end CmarkGfm
