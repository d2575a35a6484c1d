import CmarkGfm.Library.Numbering
import CmarkGfm.Properties.ReferenceMap
import CmarkGfm.Properties.Trees

/-!
# Footnotes

`process_footnotes` numbers the definitions in the order in which the traversal meets the first
references to them. The definitions that are referred to become the last children of the root,
in that order, and the others are dropped.
-/

namespace CmarkGfm

/-! ### What the references of a tree refer to -/

/-- The definition that a label refers to: the first one, in the order in which they are left,
with the same normalized label. -/
def footnoteFor (T : Tables) (definitions : List Node) (label : Bytes) : Option Node :=
  if label.length > maxLinkLabelLength then none
  else (normalizeMapLabel T label).bind fun norm =>
    definitions.find? fun d => normalizeMapLabel T d.literal = some norm

/-- The addresses of the definitions of a tree that have a label. -/
def footnoteIds (T : Tables) (root : Node) : List NodeId :=
  ((root.exits .footnoteDefinition).filter fun d => (normalizeMapLabel T d.literal).isSome).map
    Node.id

/-- The addresses of the definitions that the references below the nodes refer to, in the order
in which the references are left. -/
def footnoteUses (T : Tables) (definitions : List Node) (f : Forest) : List NodeId :=
  (exitsList .footnoteReference f).filterMap fun r =>
    (footnoteFor T definitions r.literal).map Node.id

/-- The definitions that are referred to, in the order in which the traversal first meets a
reference to them. -/
def footnoteOrder (T : Tables) (root : Node) : List NodeId :=
  (footnoteUses T (root.exits .footnoteDefinition) root.children).eraseDups

theorem mem_footnoteOrder {T : Tables} {root : Node} {i : NodeId} :
    i ∈ footnoteOrder T root ↔ ∃ r ∈ exitsList .footnoteReference root.children, ∃ d,
      footnoteFor T (root.exits .footnoteDefinition) r.literal = some d ∧ d.id = i := by
  simp [footnoteOrder, footnoteUses]

/-- What `process_footnotes` may count on: addresses tell the definitions from each other and from
the other nodes, the root is the document, references are leaves, and text may stand where they
are. -/
structure FootnoteTree (P : Config) (nextId : NodeId) (root : Node) : Prop where
  distinct : ((root.exits .footnoteDefinition).map Node.id).Nodup
  apart : ∀ n ∈ root.postorder,
    n.id ∈ (root.exits .footnoteDefinition).map Node.id → n.type = .footnoteDefinition
  fresh : ∀ d ∈ root.exits .footnoteDefinition, d.id < nextId
  document : root.type = .document
  leaves : ∀ r ∈ exitsList .footnoteReference root.children, r.children = []
  text : ∀ n ∈ root.postorder, ∀ r ∈ n.children, r.type = .footnoteReference →
    P.nodeCanContainType n.data .text

/-! ### The map of definitions -/

section

variable (T : Tables) (definitions : List Node)

/-- The map stands for the definitions, and nothing was charged. -/
def FootnoteMap (map : Map NodeId) : Prop :=
  map.refSize = 0 ∧ ∃ entries, Represents entries map ∧ entries.length < 2 ^ 31 ∧
    entries.map MapEntry.definition =
      association T (definitions.map fun d => footnoteDefinition (d.literal, d.id))

variable {T definitions}

/-- The definition that a label refers to is the first definition of the label. -/
theorem firstWins_footnotes (label : Bytes) :
    firstWins T (definitions.map fun d => footnoteDefinition (d.literal, d.id)) label =
      (footnoteFor T definitions label).bind fun d =>
        (normalizeMapLabel T d.literal).map fun norm => ⟨norm, 0, d.id⟩ := by
  unfold firstWins footnoteFor
  split
  next => rfl
  next =>
    cases normalizeMapLabel T label with
    | none => rfl
    | some norm =>
      rw [Option.bind_some, Option.bind_some]
      induction definitions with
      | nil => rfl
      | cons d ds ih =>
        rw [List.find?_cons]
        cases normalized : normalizeMapLabel T d.literal with
        | none => simpa [association, footnoteDefinition, normalized] using ih
        | some norm' =>
          by_cases same : norm' = norm
          · simp [association, footnoteDefinition, normalized, same]
          · simpa [association, footnoteDefinition, normalized, same] using ih

theorem normalized_of_footnoteFor {label : Bytes} {d : Node}
    (found : footnoteFor T definitions label = some d) :
    d ∈ definitions ∧ normalizeMapLabel T d.literal = normalizeMapLabel T label ∧
      (normalizeMapLabel T label).isSome := by
  unfold footnoteFor at found
  split at found
  next => cases found
  next =>
    obtain ⟨norm, normalized, first⟩ := Option.bind_eq_some_iff.mp found
    refine ⟨List.mem_of_find?_eq_some first, ?_, by rw [normalized]; rfl⟩
    rw [normalized]
    simpa using List.find?_some first

theorem value_firstWins_footnotes (label : Bytes) :
    (firstWins T (definitions.map fun d => footnoteDefinition (d.literal, d.id)) label).map
        (·.value) = (footnoteFor T definitions label).map Node.id := by
  rw [firstWins_footnotes]
  cases found : footnoteFor T definitions label with
  | none => rfl
  | some d =>
    obtain ⟨_, same, isSome⟩ := normalized_of_footnoteFor found
    obtain ⟨norm, normalized⟩ := Option.isSome_iff_exists.mp isSome
    simp [same, normalized]

/-- A lookup returns the definition that the label refers to. -/
theorem footnoteMap_mapLookup {map : Map NodeId} (stands : FootnoteMap T definitions map)
    (label : Bytes) :
    (mapLookup T map label).2.map (·.value) = (footnoteFor T definitions label).map Node.id ∧
      FootnoteMap T definitions (mapLookup T map label).1 := by
  obtain ⟨refSize, entries, represents, few, values⟩ := stands
  have first := definition_firstEntry T values label
  have free : charge (firstEntry T entries label) = 0 := by
    cases found : firstEntry T entries label with
    | none => rfl
    | some e =>
      rw [found] at first
      obtain ⟨_, member, size⟩ := firstWins_mem first.symm
      obtain ⟨d, _, rfl⟩ := List.mem_map.mp member
      exact size
  obtain ⟨found, represents', _, refSize'⟩ :=
    mapLookup_spec T represents few label (by rw [free, refSize]; exact Nat.zero_le _)
  constructor
  · rw [found, ← value_firstWins_footnotes, ← first, Option.map_map]
    rfl
  · exact ⟨by rw [refSize', free, refSize], entries, represents', few, values⟩

/-- The definitions are entered in the order in which they are left. -/
theorem collectFootnotes_eq (T : Tables) (root : Node) : collectFootnotes T root =
    Map.new.insertAll T
      ((root.exits .footnoteDefinition).map fun d => footnoteDefinition (d.literal, d.id)) := by
  rw [collectFootnotes, Map.insertAll, List.foldl_map]
  rfl

theorem footnoteMap_collectFootnotes (root : Node)
    (few : (root.exits .footnoteDefinition).length < 2 ^ 31) :
    FootnoteMap T (root.exits .footnoteDefinition) (collectFootnotes T root) := by
  obtain ⟨entries, created, values⟩ := created_insertAll T
    ((root.exits .footnoteDefinition).map fun d => footnoteDefinition (d.literal, d.id))
  rw [collectFootnotes_eq]
  have fewEntries : entries.length ≤ (root.exits .footnoteDefinition).length := by
    have lengths := congrArg List.length values
    rw [List.length_map] at lengths
    rw [lengths]
    exact (List.length_filterMap_le _ _).trans (List.length_map ..).le
  exact ⟨created.refSize, entries,
    .unsorted created.aged created.refs created.size created.sorted, fewEntries.trans_lt few, values⟩

end

/-! ### Resolving the references -/

mutual

/-- The second tree is the first one with something in the place of each footnote reference, and
with the data of the other nodes rewritten. -/
def Node.InPlace (keep : NodeId → NodeData → NodeData) (R : Node → Node → Prop) :
    Node → Node → Prop
  | .mk i d cs, n' =>
    if d.type = .footnoteReference then R (.mk i d cs) n'
    else n'.id = i ∧ n'.data = keep i d ∧ InPlaceList keep R cs n'.children

def InPlaceList (keep : NodeId → NodeData → NodeData) (R : Node → Node → Prop) :
    Forest → Forest → Prop
  | [], f' => f' = []
  | n :: ns, f' => ∃ n' ns', f' = n' :: ns' ∧ n.InPlace keep R n' ∧ InPlaceList keep R ns ns'

end

theorem Node.inPlace_iff {keep : NodeId → NodeData → NodeData} {R : Node → Node → Prop}
    {n n' : Node} : n.InPlace keep R n' ↔ if n.type = .footnoteReference then R n n'
      else n'.id = n.id ∧ n'.data = keep n.id n.data ∧
        InPlaceList keep R n.children n'.children := by
  cases n
  rw [Node.InPlace]
  rfl

/-- The data of every node is kept. -/
def keepData (_ : NodeId) (d : NodeData) : NodeData := d

/-- What becomes of a reference: its literal is the number of its definition, or a new text node
with its source stands in its place. -/
def ResolvesTo (T : Tables) (definitions : List Node) (order : List NodeId) (nextId : NodeId)
    (r n' : Node) : Prop :=
  match footnoteFor T definitions r.literal with
  | some d => n'.id = r.id ∧ n'.type = .footnoteReference ∧ n'.children = [] ∧
      ∃ refIx, n'.data = { r.data with
        parentFootnoteDef := some d.id
        refIx := refIx
        as := .literal (decimal (order.idxOf d.id + 1)) }
  | none => nextId ≤ n'.id ∧ n'.type = .text ∧ n'.children = [] ∧
      n'.literal = lit "[^" ++ r.literal ++ lit "]"

/-- A definition referred to, and the how manieth reference to it this is. -/
def footnoteKey (r : Node) : Option NodeId × Nat := (r.data.parentFootnoteDef, r.data.refIx)

/-- The keys of the references that use these definitions, after those seen before. -/
def useKeys : List NodeId → List NodeId → List (Option NodeId × Nat)
  | _, [] => []
  | seen, i :: uses => (some i, seen.count i + 1) :: useKeys (seen ++ [i]) uses

theorem useKeys_append (seen uses uses' : List NodeId) :
    useKeys seen (uses ++ uses') = useKeys seen uses ++ useKeys (seen ++ uses) uses' := by
  induction uses generalizing seen with
  | nil => simp [useKeys]
  | cons i uses ih => simp [useKeys, ih]

section

variable {P : Config} {definitions : List Node} {nextId : NodeId}

/-- The state after resolving references to the definitions seen. -/
structure Resolving (T : Tables) (definitions : List Node) (nextId : NodeId) (seen : List NodeId)
    (st : FootnoteState) : Prop where
  map : FootnoteMap T definitions st.map
  numbers : (⟨st.ix, st.defCount, st.lastIx⟩ : Numbering.Numbers NodeId) =
    Numbering.numbersOf seen
  fresh : nextId ≤ st.nextId

/-- One reference is resolved. -/
theorem resolveFootnote_spec {seen all : List NodeId} {st : FootnoteState} {owner : NodeData}
    {r : Node} (resolving : Resolving P.tables definitions nextId seen st)
    (text : P.nodeCanContainType owner .text) (reference : r.type = .footnoteReference)
    (ahead : seen ++ ((footnoteFor P.tables definitions r.literal).map Node.id).toList <+: all) :
    ∃ n', (resolveFootnote P st owner r.id r.data).2 = [n'] ∧
      ResolvesTo P.tables definitions all.eraseDups nextId r n' ∧
      Resolving P.tables definitions nextId
        (seen ++ ((footnoteFor P.tables definitions r.literal).map Node.id).toList)
        (resolveFootnote P st owner r.id r.data).1 ∧
      (exitsList .footnoteReference [n']).map footnoteKey =
        useKeys seen ((footnoteFor P.tables definitions r.literal).map Node.id).toList := by
  obtain ⟨found, stands⟩ := footnoteMap_mapLookup resolving.map r.literal
  have literal : r.literal = r.data.as.getLiteral := rfl
  unfold resolveFootnote ResolvesTo
  rw [← literal]
  generalize mapLookup P.tables st.map r.literal = looked at found stands
  obtain ⟨map, entry⟩ := looked
  cases entry with
  | none =>
    have nothing : footnoteFor P.tables definitions r.literal = none := by simpa using found.symm
    simp only [nothing, text, if_true, Option.map_none, Option.toList_none, List.append_nil]
    refine ⟨_, rfl, ⟨resolving.fresh, rfl, rfl, rfl⟩, ⟨stands, resolving.numbers, ?_⟩, rfl⟩
    exact resolving.fresh.trans (Nat.le_succ _)
  | some entry =>
    obtain ⟨d, some_d, id_d⟩ := Option.map_eq_some_iff.mp found.symm
    have id_d : d.id = entry.value := id_d
    have numbers := resolving.numbers
    have used := Numbering.numbersOf_append_singleton seen entry.value
    rw [← numbers] at used
    simp only [some_d, Option.map_some, Option.toList_some, id_d] at ahead ⊢
    have number : (if st.ix entry.value = 0 then st.lastIx + 1 else st.ix entry.value) =
        all.eraseDups.idxOf entry.value + 1 := by
      have member : entry.value ∈ seen ++ [entry.value] := by simp
      have place := (Numbering.numbersOf_spec (seen ++ [entry.value])).1 entry.value
      rw [used, if_pos member] at place
      obtain ⟨later, rfl⟩ := ahead
      rw [Numbering.idxOf_eraseDups_append member, ← place]
      simp [Numbering.Numbers.use]
    have count : st.defCount entry.value = seen.count entry.value := by
      rw [← (Numbering.numbersOf_spec seen).2.1, ← numbers]
    refine ⟨_, rfl, ⟨rfl, reference, rfl, st.defCount entry.value + 1, ?data⟩, ⟨stands, used.symm, resolving.fresh⟩, ?keys⟩
    case data => rw [← number]; rfl
    case keys =>
      have type : r.data.type = .footnoteReference := reference
      simp [exitsList, Node.exits, Node.leaf, type, footnoteKey, useKeys, count]

theorem footnoteUses_cons (T : Tables) (definitions : List Node) (n : Node) (ns : Forest) :
    footnoteUses T definitions (n :: ns) = footnoteUses T definitions n.children ++
      (if n.type = .footnoteReference then
        ((footnoteFor T definitions n.literal).map Node.id).toList else []) ++
      footnoteUses T definitions ns := by
  unfold footnoteUses
  rw [exitsList, Node.exits_eq, List.filterMap_append, List.filterMap_append]
  congr 2
  by_cases reference : n.type = .footnoteReference
  · rw [if_pos reference, if_pos reference]
    cases found : (footnoteFor T definitions n.literal).map Node.id <;> simp [found]
  · rw [if_neg reference, if_neg reference, List.filterMap_nil]

mutual

/-- The references below a node are resolved one after the other. -/
theorem resolveFootnotes_spec {seen all : List NodeId} {st : FootnoteState}
    (resolving : Resolving P.tables definitions nextId seen st) : (n : Node) →
    (leaves : ∀ r ∈ exitsList .footnoteReference n.children, r.children = []) →
    (text : ∀ m ∈ n.postorder, ∀ r ∈ m.children, r.type = .footnoteReference →
      P.nodeCanContainType m.data .text) →
    (ahead : seen ++ footnoteUses P.tables definitions n.children <+: all) →
    ∃ children, (resolveFootnotes P st n).2 = .mk n.id n.data children ∧
      InPlaceList keepData (ResolvesTo P.tables definitions all.eraseDups nextId) n.children children ∧
      Resolving P.tables definitions nextId
        (seen ++ footnoteUses P.tables definitions n.children) (resolveFootnotes P st n).1 ∧
      (exitsList .footnoteReference children).map footnoteKey =
        useKeys seen (footnoteUses P.tables definitions n.children)
  | .mk i d cs, leaves, text, ahead => by
    have owner : ∀ r ∈ cs, r.type = .footnoteReference → P.nodeCanContainType d .text :=
      text (.mk i d cs) (by simp [Node.postorder])
    have below : ∀ m ∈ postorderList cs, ∀ r ∈ m.children, r.type = .footnoteReference →
        P.nodeCanContainType m.data .text :=
      fun m member => text m (by rw [Node.postorder]; exact List.mem_append_left _ member)
    obtain ⟨inPlace, resolving', keys⟩ :=
      resolveFootnotesList_spec resolving d cs leaves owner below ahead
    exact ⟨_, rfl, inPlace, resolving', keys⟩

theorem resolveFootnotesList_spec {seen all : List NodeId} {st : FootnoteState}
    (resolving : Resolving P.tables definitions nextId seen st) (owner : NodeData) : (f : Forest) →
    (leaves : ∀ r ∈ exitsList .footnoteReference f, r.children = []) →
    (accepts : ∀ r ∈ f, r.type = .footnoteReference → P.nodeCanContainType owner .text) →
    (text : ∀ m ∈ postorderList f, ∀ r ∈ m.children, r.type = .footnoteReference →
      P.nodeCanContainType m.data .text) →
    (ahead : seen ++ footnoteUses P.tables definitions f <+: all) →
    InPlaceList keepData (ResolvesTo P.tables definitions all.eraseDups nextId) f
        (resolveFootnotesList P owner st f).2 ∧
      Resolving P.tables definitions nextId
        (seen ++ footnoteUses P.tables definitions f) (resolveFootnotesList P owner st f).1 ∧
      (exitsList .footnoteReference (resolveFootnotesList P owner st f).2).map footnoteKey =
        useKeys seen (footnoteUses P.tables definitions f)
  | [], _, _, _, _ => by
    rw [resolveFootnotesList]
    refine ⟨rfl, ?_, rfl⟩
    simpa [footnoteUses, exitsList] using resolving
  | n :: ns, leaves, accepts, text, ahead => by
    rw [footnoteUses_cons] at ahead ⊢
    generalize found : (if n.type = .footnoteReference then
      ((footnoteFor P.tables definitions n.literal).map Node.id).toList else []) = here at ahead ⊢
    rw [← List.append_assoc, ← List.append_assoc] at ahead
    have leavesBelow : ∀ r ∈ exitsList .footnoteReference n.children, r.children = [] :=
      fun r member => leaves r (by
        rw [exitsList, Node.exits_eq]
        exact List.mem_append_left _ (List.mem_append_left _ member))
    have leavesAfter : ∀ r ∈ exitsList .footnoteReference ns, r.children = [] :=
      fun r member => leaves r (List.mem_append_right _ member)
    -- the references below the node, the node itself, and those after it
    obtain ⟨children, resolved, inPlace, resolving₁, keys⟩ := resolveFootnotes_spec resolving n
      leavesBelow (fun m member => text m (List.mem_append_left _ member))
      (((List.prefix_append ..).trans (List.prefix_append ..)).trans ahead)
    rw [resolveFootnotesList]
    generalize resolveFootnotes P st n = r at resolved resolving₁ ⊢
    obtain ⟨st₁, n₁⟩ := r
    obtain rfl : n₁ = .mk n.id n.data children := resolved
    simp only [show (Node.mk n.id n.data children).type = n.type from rfl, Node.id_mk, Node.data_mk]
    have rest (st₂ : FootnoteState)
        (resolving₂ : Resolving P.tables definitions nextId
          (seen ++ footnoteUses P.tables definitions n.children ++ here) st₂) :=
      resolveFootnotesList_spec resolving₂ owner ns leavesAfter
        (fun r member => accepts r (List.mem_cons_of_mem n member))
        (fun m member => text m (List.mem_append_right _ member)) ahead
    by_cases reference : n.type = .footnoteReference
    · rw [if_pos reference] at found ⊢
      subst found
      obtain ⟨n', single, resolvesTo, resolving₂, keyHere⟩ :=
        resolveFootnote_spec resolving₁ (accepts n List.mem_cons_self reference) reference
          ((List.prefix_append ..).trans ahead)
      have leaf : n.children = [] := leaves n (by
        rw [exitsList, Node.exits_eq, if_pos reference]
        simp)
      obtain ⟨inPlaceRest, resolvingRest, keysRest⟩ := rest _ resolving₂
      rw [single]
      refine ⟨⟨n', _, rfl, ?_, inPlaceRest⟩, ?_, ?_⟩
      · rwa [Node.inPlace_iff, if_pos reference]
      · rwa [← List.append_assoc, ← List.append_assoc]
      · have nothing : footnoteUses P.tables definitions n.children = [] := by
          rw [leaf]
          rfl
        simp only [nothing, List.append_nil, List.nil_append] at keyHere keysRest ⊢
        rw [exitsList_append, List.map_append, keyHere, keysRest, useKeys_append]
    · rw [if_neg reference] at found ⊢
      subst found
      obtain ⟨inPlaceRest, resolvingRest, keysRest⟩ := rest st₁ (by simpa using resolving₁)
      refine ⟨⟨_, _, rfl, ?_, inPlaceRest⟩, ?_, ?_⟩
      · rw [Node.inPlace_iff, if_neg reference]
        exact ⟨rfl, rfl, inPlace⟩
      · simpa using resolvingRest
      · simp only [List.append_nil] at keysRest ⊢
        rw [exitsList_append, List.map_append, keysRest, useKeys_append, ← keys]
        congr 1
        rw [exitsList, Node.exits_eq]
        simp [exitsList, Node.type, show ¬ n.data.type = .footnoteReference from reference]

end

end

/-! ### The tree with the references resolved -/

section

variable {keep : NodeId → NodeData → NodeData} {R : Node → Node → Prop}

/-- What stands in the place of a reference has no children and is no definition. -/
def LeafRelation (R : Node → Node → Prop) : Prop :=
  ∀ r r', R r r' → r'.children = [] ∧ r'.type ≠ .footnoteDefinition

mutual

/-- Rewriting the data of definitions leaves what stands in the place of references alone. -/
theorem inPlace_mapData {g : NodeId → NodeData → NodeData} (leafy : LeafRelation R)
    (others : ∀ i d, d.type ≠ .footnoteDefinition → g i d = d) : (n : Node) → {n' : Node} →
    n.InPlace keepData R n' → n.InPlace g R (n'.mapData g)
  | .mk i d cs, n', inPlace => by
    rw [Node.InPlace] at inPlace ⊢
    rw [Node.mapData_eq]
    split at inPlace
    next reference =>
      rw [if_pos reference]
      obtain ⟨leaf, other⟩ := leafy _ _ inPlace
      rw [others n'.id n'.data other, leaf]
      have same : Node.mk n'.id n'.data (mapDataList g []) = n' := by
        cases n'
        rw [Node.children_mk] at leaf
        rw [leaf]
        rfl
      rwa [same]
    next kept =>
      rw [if_neg kept]
      obtain ⟨id_eq, data_eq, children⟩ := inPlace
      refine ⟨id_eq, ?_, inPlaceList_mapData leafy others cs children⟩
      rw [Node.data_mk, id_eq, data_eq]
      rfl

theorem inPlaceList_mapData {g : NodeId → NodeData → NodeData} (leafy : LeafRelation R)
    (others : ∀ i d, d.type ≠ .footnoteDefinition → g i d = d) : (f : Forest) → {f' : Forest} →
    InPlaceList keepData R f f' → InPlaceList g R f (mapDataList g f')
  | [], _, inPlace => by
    rw [InPlaceList] at inPlace
    rw [inPlace]
    rfl
  | n :: ns, _, inPlace => by
    rw [InPlaceList] at inPlace
    obtain ⟨n', ns', rfl, first, rest⟩ := inPlace
    exact ⟨_, _, rfl, inPlace_mapData leafy others n first,
      inPlaceList_mapData leafy others ns rest⟩

end

mutual

/-- In the place of every reference stands something that it is related to. -/
theorem inPlace_images {r : Node} : (n : Node) → {n' : Node} → n.InPlace keep R n' →
    (leaves : ∀ r ∈ n.exits .footnoteReference, r.children = []) →
    r ∈ n.exits .footnoteReference →
    ∃ r', R r r' ∧ (r'.type = .footnoteReference → r' ∈ n'.exits .footnoteReference)
  | .mk i d cs, n', inPlace, leaves, member => by
    rw [Node.exits_eq .footnoteReference n']
    rw [Node.exits] at member
    rw [Node.InPlace] at inPlace
    split at inPlace
    next reference =>
      have leaf : cs = [] := leaves (.mk i d cs) (by simp [Node.exits, reference])
      refine ⟨n', ?_, fun type => by simp [type]⟩
      obtain rfl : r = .mk i d cs := by simpa [leaf, exitsList, reference] using member
      exact inPlace
    next kept =>
      rw [if_neg kept, List.append_nil] at member
      obtain ⟨r', related, present⟩ := inPlaceList_images cs inPlace.2.2
        (fun r below => leaves r (by rw [Node.exits]; exact List.mem_append_left _ below)) member
      exact ⟨r', related, fun type => List.mem_append_left _ (present type)⟩

theorem inPlaceList_images {r : Node} : (f : Forest) → {f' : Forest} → InPlaceList keep R f f' →
    (leaves : ∀ r ∈ exitsList .footnoteReference f, r.children = []) →
    r ∈ exitsList .footnoteReference f →
    ∃ r', R r r' ∧ (r'.type = .footnoteReference → r' ∈ exitsList .footnoteReference f')
  | [], _, _, _, member => by cases member
  | n :: ns, _, inPlace, leaves, member => by
    rw [InPlaceList] at inPlace
    obtain ⟨n', ns', rfl, first, rest⟩ := inPlace
    rw [exitsList, List.mem_append] at member
    rcases member with here | later
    · obtain ⟨r', related, present⟩ := inPlace_images n first
        (fun r below => leaves r (List.mem_append_left _ below)) here
      exact ⟨r', related, fun type => List.mem_append_left _ (present type)⟩
    · obtain ⟨r', related, present⟩ := inPlaceList_images ns rest
        (fun r below => leaves r (List.mem_append_right _ below)) later
      exact ⟨r', related, fun type => List.mem_append_right _ (present type)⟩

end

variable (keeps : ∀ i d, (keep i d).type = d.type) (leafy : LeafRelation R)

include leafy

omit leafy in
mutual

/-- Every node of the second tree stands in the place of a node of the first. -/
theorem inPlace_nodes (leafy : LeafRelation R) {m' : Node} : (n : Node) → {n' : Node} → n.InPlace keep R n' →
    m' ∈ n'.postorder → ∃ m ∈ n.postorder, m.InPlace keep R m'
  | .mk i d cs, n', inPlace, member => by
    rw [Node.postorder_eq, List.mem_append, List.mem_singleton] at member
    rw [Node.postorder]
    rcases member with below | rfl
    · rw [Node.InPlace] at inPlace
      split at inPlace
      next =>
        rw [(leafy _ _ inPlace).1] at below
        cases below
      next =>
        obtain ⟨m, before, related⟩ := inPlaceList_nodes leafy cs inPlace.2.2 below
        exact ⟨m, List.mem_append_left _ before, related⟩
    · exact ⟨_, List.mem_append_right _ List.mem_cons_self, inPlace⟩

theorem inPlaceList_nodes (leafy : LeafRelation R) {m' : Node} : (f : Forest) → {f' : Forest} →
    InPlaceList keep R f f' →
    m' ∈ postorderList f' → ∃ m ∈ postorderList f, m.InPlace keep R m'
  | [], _, inPlace, member => by
    rw [InPlaceList] at inPlace
    rw [inPlace] at member
    cases member
  | n :: ns, _, inPlace, member => by
    rw [InPlaceList] at inPlace
    obtain ⟨n', ns', rfl, first, rest⟩ := inPlace
    rw [postorderList, List.mem_append] at member
    rcases member with here | later
    · obtain ⟨m, before, related⟩ := inPlace_nodes leafy n first here
      exact ⟨m, List.mem_append_left _ before, related⟩
    · obtain ⟨m, before, related⟩ := inPlaceList_nodes leafy ns rest later
      exact ⟨m, List.mem_append_right _ before, related⟩

end

omit leafy in
mutual

/-- Unlinking nodes that are no references keeps the trees in step. -/
theorem inPlace_unlinkAll (leafy : LeafRelation R) {ids : List NodeId} : (n : Node) → {n' : Node} →
    n.InPlace keep R n' →
    (leaves : ∀ r ∈ n.exits .footnoteReference, r.children = []) →
    (outside : ∀ r ∈ n.exits .footnoteReference, r.id ∉ ids ∧ ∀ r', R r r' → r'.id ∉ ids) →
    (n.unlinkAll ids).InPlace keep R (n'.unlinkAll ids)
  | .mk i d cs, n', inPlace, leaves, outside => by
    rw [Node.InPlace] at inPlace
    rw [Node.unlinkAll, Node.InPlace, Node.unlinkAll_eq ids n']
    split at inPlace
    next reference =>
      have leaf : cs = [] := leaves (.mk i d cs) (by simp [Node.exits, reference])
      obtain ⟨leaf', _⟩ := leafy _ _ inPlace
      rw [if_pos reference, leaf', leaf]
      rw [leaf] at inPlace
      cases n'
      rw [Node.children_mk] at leaf'
      rwa [leaf'] at inPlace
    next kept =>
      rw [if_neg kept]
      obtain ⟨id_eq, data_eq, children⟩ := inPlace
      refine ⟨id_eq, data_eq, inPlaceList_unlinkAllList leafy cs children ?_ ?_⟩
      · exact fun r below => leaves r (by rw [Node.exits]; exact List.mem_append_left _ below)
      · exact fun r below => outside r (by rw [Node.exits]; exact List.mem_append_left _ below)

theorem inPlaceList_unlinkAllList (leafy : LeafRelation R) {ids : List NodeId} : (f : Forest) → {f' : Forest} →
    InPlaceList keep R f f' →
    (leaves : ∀ r ∈ exitsList .footnoteReference f, r.children = []) →
    (outside : ∀ r ∈ exitsList .footnoteReference f, r.id ∉ ids ∧ ∀ r', R r r' → r'.id ∉ ids) →
    InPlaceList keep R (unlinkAllList ids f) (unlinkAllList ids f')
  | [], _, inPlace, _, _ => by
    rw [InPlaceList] at inPlace
    rw [inPlace]
    rfl
  | n :: ns, _, inPlace, leaves, outside => by
    rw [InPlaceList] at inPlace
    obtain ⟨n', ns', rfl, first, rest⟩ := inPlace
    have same : n.id ∈ ids ↔ n'.id ∈ ids := by
      rw [Node.inPlace_iff] at first
      split at first
      next reference =>
        have here : n ∈ exitsList .footnoteReference (n :: ns) := by
          rw [exitsList, Node.exits_eq, if_pos reference]
          simp
        obtain ⟨out, out'⟩ := outside n here
        exact iff_of_false out (out' n' first)
      next => rw [first.1]
    have rest' := inPlaceList_unlinkAllList leafy ns rest
      (fun r below => leaves r (List.mem_append_right _ below))
      (fun r below => outside r (List.mem_append_right _ below))
    rw [unlinkAllList, unlinkAllList]
    by_cases removed : n.id ∈ ids
    · rw [if_pos (by simpa using removed), if_pos (by simpa using same.mp removed)]
      exact rest'
    · rw [if_neg (by simpa using removed), if_neg (by simpa using mt same.mpr removed)]
      exact ⟨_, _, rfl, inPlace_unlinkAll leafy n first
        (fun r below => leaves r (List.mem_append_left _ below))
        (fun r below => outside r (List.mem_append_left _ below)), rest'⟩

end

include keeps

omit keeps leafy in
mutual

/-- The definitions of the two trees correspond. -/
theorem inPlace_definitions (keeps : ∀ i d, (keep i d).type = d.type) (leafy : LeafRelation R) : (n : Node) →
    {n' : Node} → n.InPlace keep R n' →
    (leaves : ∀ r ∈ n.exits .footnoteReference, r.children = []) →
    List.Forall₂ (Node.InPlace keep R) (n.exits .footnoteDefinition) (n'.exits .footnoteDefinition)
  | .mk i d cs, n', inPlace, leaves => by
    rw [Node.exits_eq .footnoteDefinition n', Node.exits]
    have whole := inPlace
    rw [Node.InPlace] at inPlace
    split at inPlace
    next reference =>
      obtain ⟨leaf, other⟩ := leafy _ _ inPlace
      have leaf₀ : cs = [] := leaves (.mk i d cs) (by simp [Node.exits, reference])
      rw [leaf, leaf₀, if_neg other, if_neg (by simp [reference])]
      exact .nil
    next kept =>
      obtain ⟨_, data_eq, children⟩ := inPlace
      have type_eq : n'.type = d.type := by rw [Node.type, data_eq, keeps]
      rw [type_eq]
      refine List.rel_append (inPlaceList_definitions keeps leafy cs children fun r member => leaves r ?_) ?_
      · rw [Node.exits]
        exact List.mem_append_left _ member
      · split
        next => exact .cons whole .nil
        next => exact .nil

theorem inPlaceList_definitions (keeps : ∀ i d, (keep i d).type = d.type) (leafy : LeafRelation R) : (f : Forest) →
    {f' : Forest} → InPlaceList keep R f f' →
    (leaves : ∀ r ∈ exitsList .footnoteReference f, r.children = []) →
    List.Forall₂ (Node.InPlace keep R) (exitsList .footnoteDefinition f)
      (exitsList .footnoteDefinition f')
  | [], _, inPlace, _ => by
    rw [InPlaceList] at inPlace
    rw [inPlace]
    exact .nil
  | n :: ns, _, inPlace, leaves => by
    rw [InPlaceList] at inPlace
    obtain ⟨n', ns', rfl, first, rest⟩ := inPlace
    exact List.rel_append
      (inPlace_definitions keeps leafy n first fun r member => leaves r (List.mem_append_left _ member))
      (inPlaceList_definitions keeps leafy ns rest fun r member => leaves r (List.mem_append_right _ member))

end

end

/-! ### Moving the definitions -/

/-- The `def_count` of every definition is the number of the uses of it. -/
def countUses (uses : List NodeId) (i : NodeId) (d : NodeData) : NodeData :=
  if d.type = .footnoteDefinition then { d with refIx := uses.count i } else d

/-- Unlink the definitions, and append those that are used to the root. -/
def moveFootnotes (ids order : List NodeId) (root : Node) : Node :=
  .mk root.id root.data (unlinkAllList ids root.children ++
    (order.filterMap fun i => (root.exits .footnoteDefinition).find? fun d => d.id = i).map
      (·.unlinkAll ids))

theorem type_countUses (uses : List NodeId) (i : NodeId) (d : NodeData) :
    (countUses uses i d).type = d.type := by
  unfold countUses
  split <;> rfl

theorem leafRelation_resolvesTo (T : Tables) (definitions : List Node) (order : List NodeId)
    (nextId : NodeId) : LeafRelation (ResolvesTo T definitions order nextId) := by
  intro r r' related
  unfold ResolvesTo at related
  split at related
  next =>
    obtain ⟨_, type, leaf, _⟩ := related
    exact ⟨leaf, by rw [type]; decide⟩
  next =>
    obtain ⟨_, type, leaf, _⟩ := related
    exact ⟨leaf, by rw [type]; decide⟩

/-- The map has an entry for every definition that has a label. -/
theorem mem_values_collectFootnotes {T : Tables} {root : Node} {i : NodeId} :
    i ∈ (collectFootnotes T root).refs.map (·.value) ↔ i ∈ footnoteIds T root := by
  obtain ⟨entries, created, values⟩ := created_insertAll T
    ((root.exits .footnoteDefinition).map fun d => footnoteDefinition (d.literal, d.id))
  have ids : entries.map (·.value) = footnoteIds T root := by
    have values' := congrArg (List.map (·.value)) values
    rw [List.map_map] at values'
    refine values'.trans ?_
    unfold footnoteIds
    induction root.exits .footnoteDefinition with
    | nil => rfl
    | cons d ds ih =>
      cases normalized : normalizeMapLabel T d.literal <;>
        simpa [association, footnoteDefinition, normalized] using ih
  rw [collectFootnotes_eq, created.refs, List.map_reverse, List.mem_reverse, ids]

theorem mem_footnoteIds_of_footnoteFor {T : Tables} {root d : Node} {label : Bytes}
    (found : footnoteFor T (root.exits .footnoteDefinition) label = some d) :
    d.id ∈ footnoteIds T root := by
  obtain ⟨definition, same, isSome⟩ := normalized_of_footnoteFor found
  rw [← same] at isSome
  exact List.mem_map_of_mem (List.mem_filter.mpr ⟨definition, isSome⟩)

theorem footnoteIds_subset {T : Tables} {root : Node} {i : NodeId} (known : i ∈ footnoteIds T root) :
    i ∈ (root.exits .footnoteDefinition).map Node.id := by
  obtain ⟨d, labelled, rfl⟩ := List.mem_map.mp known
  exact List.mem_map_of_mem (List.mem_filter.mp labelled).1

theorem footnoteIds_eq {T : Tables} {root : Node}
    (labelled : ∀ d ∈ root.exits .footnoteDefinition, (normalizeMapLabel T d.literal).isSome) :
    footnoteIds T root = (root.exits .footnoteDefinition).map Node.id := by
  rw [footnoteIds, List.filter_eq_self.mpr labelled]

/-- Nodes found by their addresses. -/
theorem filterMap_find?_map_id {definitions used : List Node}
    (distinct : (definitions.map Node.id).Nodup) (among : ∀ n ∈ used, n ∈ definitions) :
    ((used.map Node.id).filterMap fun i => definitions.find? fun d => d.id = i) = used := by
  have found : ∀ n ∈ used, definitions.find? (fun d => d.id = n.id) = some n := by
    intro n member
    cases search : definitions.find? (fun d => d.id = n.id) with
    | none =>
      have differs := List.find?_eq_none.mp search n (among n member)
      simp at differs
    | some m =>
      have same : m.id = n.id := by simpa using List.find?_some search
      exact congrArg some (List.inj_on_of_nodup_map distinct (List.mem_of_find?_eq_some search)
        (among n member) same)
  rw [List.filterMap_map]
  induction used with
  | nil => rfl
  | cons n used ih =>
    rw [List.filterMap_cons]
    simp only [Function.comp_apply, found n List.mem_cons_self]
    congr 1
    exact ih (fun m member => among m (List.mem_cons_of_mem n member))
      fun m member => found m (List.mem_cons_of_mem n member)

/-- The used definitions are sorted into the order of the first uses. -/
theorem map_id_usedFootnotes {st : FootnoteState} {definitions : List Node} {uses : List NodeId}
    (distinct : (definitions.map Node.id).Nodup)
    (numbers : st.ix = (Numbering.numbersOf uses).number)
    (defined : ∀ i ∈ uses, i ∈ definitions.map Node.id) :
    (usedFootnotes st definitions).map Node.id = uses.eraseDups := by
  have number := (Numbering.numbersOf_spec uses).1
  have used_iff : ∀ i, st.ix i ≠ 0 ↔ i ∈ uses := by
    intro i
    rw [numbers, number]
    split <;> simp_all
  have perm : ((usedFootnotes st definitions).map Node.id).Perm uses.eraseDups := by
    have sorted := (List.mergeSort_perm (definitions.filter fun n => st.ix n.id != 0)
      fun a b => st.ix a.id ≤ st.ix b.id).map Node.id
    refine sorted.trans ((List.perm_ext_iff_of_nodup ?_ (Numbering.nodup_eraseDups uses)).mpr ?_)
    · exact distinct.sublist (List.filter_sublist.map Node.id)
    · intro i
      rw [List.mem_eraseDups]
      constructor
      · intro member
        obtain ⟨n, inside, rfl⟩ := List.mem_map.mp member
        exact (used_iff n.id).mp (by simpa using (List.mem_filter.mp inside).2)
      · intro used
        obtain ⟨n, inside, rfl⟩ := List.mem_map.mp (defined i used)
        exact List.mem_map_of_mem (List.mem_filter.mpr
          ⟨inside, by simpa using (used_iff n.id).mpr used⟩)
  refine @List.Perm.eq_of_pairwise _ (fun i j => st.ix i ≤ st.ix j) _ _ ?_ ?_ ?_ perm
  · intro i j memberI memberJ le ge
    have usedI : i ∈ uses := List.mem_eraseDups.mp (perm.mem_iff.mp memberI)
    have usedJ : j ∈ uses := List.mem_eraseDups.mp memberJ
    have same : st.ix i = st.ix j := Nat.le_antisymm le ge
    rw [numbers, number, number, if_pos usedI, if_pos usedJ] at same
    exact (List.idxOf_inj (List.mem_eraseDups.mpr usedI)).mp (by omega)
  · rw [List.pairwise_map]
    refine (List.pairwise_mergeSort ?_ ?_ _).imp (by simp)
    · intro a b c first second
      simp only [decide_eq_true_eq] at first second ⊢
      exact first.trans second
    · intro a b
      simpa using Nat.le_total (st.ix a.id) (st.ix b.id)
  · rw [numbers]
    exact (Numbering.pairwise_number_eraseDups uses).imp Nat.le_of_lt

theorem exits_document {t : NodeType} {root : Node} (document : root.type = .document)
    (other : t ≠ .document) : root.exits t = exitsList t root.children := by
  rw [Node.exits_eq, if_neg (by rw [document]; exact other.symm), List.append_nil]

theorem inPlace_ids {keep : NodeId → NodeData → NodeData} {R : Node → Node → Prop}
    {l l' : List Node} (corresponding : List.Forall₂ (Node.InPlace keep R) l l')
    (kept : ∀ d ∈ l, d.type ≠ .footnoteReference) : l'.map Node.id = l.map Node.id := by
  induction corresponding with
  | nil => rfl
  | cons first _ ih =>
    rw [Node.inPlace_iff, if_neg (kept _ List.mem_cons_self)] at first
    rw [List.map_cons, List.map_cons, first.1, ih fun d member => kept d (List.mem_cons_of_mem _ member)]

/-- `process_footnotes` resolves the references in their places, writes the counts, and moves
the definitions. -/
theorem processFootnotes_eq {P : Config} {nextId : NodeId} {root : Node}
    (tree : FootnoteTree P nextId root)
    (few : (root.exits .footnoteDefinition).length < 2 ^ 31) :
    let definitions := root.exits .footnoteDefinition
    let uses := footnoteUses P.tables definitions root.children
    let order := footnoteOrder P.tables root
    ∃ mid, root.InPlace (countUses uses) (ResolvesTo P.tables definitions order nextId) mid ∧
      (mid.exits .footnoteReference).map footnoteKey = useKeys [] uses ∧
      processFootnotes P nextId root = moveFootnotes (footnoteIds P.tables root) order mid := by
  intro definitions uses order
  have start : Resolving P.tables definitions nextId []
      { map := collectFootnotes P.tables root, nextId := nextId } :=
    ⟨footnoteMap_collectFootnotes root few, rfl, Nat.le_refl _⟩
  obtain ⟨children, resolved, inPlace, resolving, keys⟩ := @resolveFootnotes_spec _ _ _ _ uses _ start
    root tree.leaves tree.text (List.prefix_refl _)
  have other : root.type ≠ .footnoteReference := by rw [tree.document]; decide
  generalize resolution : resolveFootnotes P
    { map := collectFootnotes P.tables root, nextId := nextId } root = r at resolved resolving
  obtain ⟨st, resolvedRoot⟩ := r
  obtain rfl : resolvedRoot = .mk root.id root.data children := resolved
  have numbers : (⟨st.ix, st.defCount, st.lastIx⟩ : Numbering.Numbers NodeId) =
      Numbering.numbersOf uses := resolving.numbers
  have counts : st.writeDefCount = countUses uses := by
    funext i d
    have count : st.defCount i = uses.count i := by
      rw [← (Numbering.numbersOf_spec uses).2.1, ← numbers]
    rw [FootnoteState.writeDefCount, countUses, count]
  have rootData : countUses uses root.id root.data = root.data := by
    rw [countUses, if_neg (by rw [show root.data.type = root.type from rfl, tree.document]; decide)]
  have inPlaceMid : root.InPlace (countUses uses) (ResolvesTo P.tables definitions order nextId)
      ((Node.mk root.id root.data children).mapData (countUses uses)) := by
    refine inPlace_mapData (leafRelation_resolvesTo _ _ _ _) ?_ root ?_
    · exact fun i d notDefinition => if_neg notDefinition
    · rw [Node.inPlace_iff, if_neg other]
      exact ⟨rfl, rfl, inPlace⟩
  refine ⟨_, inPlaceMid, ?keys, ?moved⟩
  case keys =>
    rw [exits_mapData (type_countUses uses), List.map_map,
      @exits_document _ (.mk root.id root.data children) tree.document (by decide)]
    refine Eq.trans (List.map_congr_left fun r member => ?_) keys
    have type := type_of_mem_exitsList member
    rw [Function.comp_apply, Node.mapData_eq, footnoteKey, Node.data_mk, countUses,
      if_neg (by rw [show r.data.type = r.type from rfl, type]; decide)]
    rfl
  case moved =>
    have leaves : ∀ r ∈ root.exits .footnoteReference, r.children = [] := by
      rw [exits_document tree.document (by decide)]
      exact tree.leaves
    have definitions_mid := inPlace_ids
      (inPlace_definitions (type_countUses uses) (leafRelation_resolvesTo _ _ _ _) root inPlaceMid
        leaves)
      (by
        rw [exits_document tree.document (by decide)]
        intro d member
        rw [type_of_mem_exitsList member]
        decide)
    have distinct : (definitions.map Node.id).Nodup := tree.distinct
    unfold processFootnotes moveFootnotes
    simp only [resolution, counts]
    generalize (Node.mk root.id root.data children).mapData (countUses uses) = mid
      at definitions_mid ⊢
    have ids : ∀ i, i ∈ (collectFootnotes P.tables root).refs.map (·.value) ↔
        i ∈ footnoteIds P.tables root := fun i => mem_values_collectFootnotes
    generalize kept : (mid.exits .footnoteDefinition).filter (fun n =>
      ((collectFootnotes P.tables root).refs.map (·.value)).contains n.id) = labelled
    have sublist : labelled.Sublist (mid.exits .footnoteDefinition) :=
      kept ▸ List.filter_sublist
    have order_eq : (usedFootnotes st labelled).map Node.id = order := by
      refine map_id_usedFootnotes ((definitions_mid ▸ distinct).sublist (sublist.map Node.id))
        (congrArg (·.number) numbers) ?_
      intro i used
      obtain ⟨r, _, refers⟩ := List.mem_filterMap.mp used
      obtain ⟨d, found, rfl⟩ := Option.map_eq_some_iff.mp refers
      have known : d.id ∈ (mid.exits .footnoteDefinition).map Node.id := by
        rw [definitions_mid]
        exact List.mem_map_of_mem (normalized_of_footnoteFor found).1
      obtain ⟨n, inside, same⟩ := List.mem_map.mp known
      rw [← kept, ← same]
      refine List.mem_map_of_mem (List.mem_filter.mpr ⟨inside, ?_⟩)
      rw [List.contains_iff_mem, ids, same]
      exact mem_footnoteIds_of_footnoteFor found
    have among : ∀ n ∈ usedFootnotes st labelled, n ∈ mid.exits .footnoteDefinition := by
      intro n member
      exact sublist.subset (List.mem_of_mem_filter ((List.mergeSort_perm _ _).mem_iff.mp member))
    rw [← order_eq, filterMap_find?_map_id (definitions_mid ▸ distinct) among,
      unlinkAllList_congr ids, funext (unlinkAll_congr ids)]

/-! ### The numbered footnotes -/

theorem forall₂_mem_right {α β : Type} {R : α → β → Prop} {l : List α} {l' : List β}
    (related : List.Forall₂ R l l') {b : β} (member : b ∈ l') : ∃ a ∈ l, R a b := by
  induction related with
  | nil => cases member
  | cons first _ ih =>
    rcases List.mem_cons.mp member with rfl | later
    · exact ⟨_, List.mem_cons_self, first⟩
    · obtain ⟨a, among, holds⟩ := ih later
      exact ⟨a, List.mem_cons_of_mem _ among, holds⟩

theorem map_eq_of_forall₂ {α β : Type} {f : β → α} {l : List α} {l' : List β}
    (related : List.Forall₂ (fun a b => f b = a) l l') : l'.map f = l := by
  induction related with
  | nil => rfl
  | cons first _ ih => rw [List.map_cons, first, ih]

/-- Every address is found among the nodes. -/
theorem forall₂_filterMap_find? {nodes : List Node} {order : List NodeId}
    (known : ∀ i ∈ order, i ∈ nodes.map Node.id) :
    List.Forall₂ (fun i n => n ∈ nodes ∧ n.id = i) order
      (order.filterMap fun i => nodes.find? fun n => n.id = i) := by
  induction order with
  | nil => exact .nil
  | cons i order ih =>
    have rest := ih fun j member => known j (List.mem_cons_of_mem i member)
    rw [List.filterMap_cons]
    cases found : nodes.find? (fun n => n.id = i) with
    | none =>
      obtain ⟨n, member, same⟩ := List.mem_map.mp (known i List.mem_cons_self)
      have differs := List.find?_eq_none.mp found n member
      simp [same] at differs
    | some n =>
      exact .cons ⟨List.mem_of_find?_eq_some found, by simpa using List.find?_some found⟩ rest

theorem isDefinition_of_mem {root d : Node} (member : d ∈ root.exits .footnoteDefinition) :
    d ∈ root.postorder ∧ d.type = .footnoteDefinition := by
  rw [exits_eq_filter] at member
  simpa using List.mem_filter.mp member

section

variable {P : Config} {nextId : NodeId} {root mid : Node} {order : List NodeId}

theorem exits_of_footnoteTree (tree : FootnoteTree P nextId root) (t : NodeType)
    (other : t ≠ .document) : root.exits t = exitsList t root.children :=
  exits_document tree.document other

variable (tree : FootnoteTree P nextId root)
  (inPlace : root.InPlace (countUses order) (ResolvesTo P.tables (root.exits .footnoteDefinition)
    (footnoteOrder P.tables root) nextId) mid)

include tree

theorem leaves_exits : ∀ r ∈ root.exits .footnoteReference, r.children = [] := by
  rw [exits_of_footnoteTree tree _ (by decide)]
  exact tree.leaves

include inPlace

theorem resolved_definitions : List.Forall₂ (Node.InPlace (countUses order)
      (ResolvesTo P.tables (root.exits .footnoteDefinition) (footnoteOrder P.tables root) nextId))
    (root.exits .footnoteDefinition) (mid.exits .footnoteDefinition) :=
  inPlace_definitions (type_countUses _) (leafRelation_resolvesTo _ _ _ _) root inPlace
    (leaves_exits tree)

theorem resolved_ids : (mid.exits .footnoteDefinition).map Node.id =
    (root.exits .footnoteDefinition).map Node.id := by
  refine inPlace_ids (resolved_definitions tree inPlace) fun d member => ?_
  rw [(isDefinition_of_mem member).2]
  decide

theorem resolved_root : mid.id = root.id ∧ mid.data = root.data := by
  rw [Node.inPlace_iff, if_neg (by rw [tree.document]; decide)] at inPlace
  refine ⟨inPlace.1, inPlace.2.1.trans (if_neg ?_)⟩
  rw [show root.data.type = root.type from rfl, tree.document]
  decide

theorem resolved_document : mid.type = .document := by
  rw [Node.type, (resolved_root tree inPlace).2]
  exact tree.document

omit inPlace in
/-- Neither a reference nor what stands in its place has the address of a definition. -/
theorem outside_exits : ∀ r ∈ root.exits .footnoteReference,
    r.id ∉ footnoteIds P.tables root ∧
    ∀ r', ResolvesTo P.tables (root.exits .footnoteDefinition) (footnoteOrder P.tables root) nextId
      r r' → r'.id ∉ footnoteIds P.tables root := by
  intro r member
  rw [exits_eq_filter] at member
  obtain ⟨inTree, type⟩ := List.mem_filter.mp member
  have outside : r.id ∉ footnoteIds P.tables root := by
    intro known
    rw [tree.apart r inTree (footnoteIds_subset known)] at type
    cases type
  refine ⟨outside, fun r' related => ?_⟩
  unfold ResolvesTo at related
  split at related
  next => rwa [related.1]
  next =>
    intro known
    obtain ⟨d, among, same⟩ := List.mem_map.mp (footnoteIds_subset known)
    exact absurd (same ▸ tree.fresh d among) (Nat.not_lt.mpr related.1)

omit inPlace in
/-- Unlinking the definitions below a definition keeps it in step with what it becomes. -/
theorem resolved_unlinkAll {uses : List NodeId} {d d' : Node}
    (definition : d ∈ root.exits .footnoteDefinition)
    (related : d.InPlace (countUses uses) (ResolvesTo P.tables (root.exits .footnoteDefinition)
      (footnoteOrder P.tables root) nextId) d') :
    (d.unlinkAll (footnoteIds P.tables root)).InPlace (countUses uses)
      (ResolvesTo P.tables (root.exits .footnoteDefinition) (footnoteOrder P.tables root) nextId)
      (d'.unlinkAll (footnoteIds P.tables root)) := by
  have below : ∀ r ∈ d.exits .footnoteReference, r ∈ root.exits .footnoteReference := by
    intro r member
    rw [exits_eq_filter] at definition member ⊢
    obtain ⟨inNote, type⟩ := List.mem_filter.mp member
    exact List.mem_filter.mpr ⟨postorder_trans root (List.mem_filter.mp definition).1 inNote, type⟩
  exact inPlace_unlinkAll (leafRelation_resolvesTo _ _ _ _) d related
    (fun r member => leaves_exits tree r (below r member))
    fun r member => outside_exits tree r (below r member)

/-- The addresses of the definitions still tell them from the other nodes. -/
theorem resolved_apart {n' : Node} (member : n' ∈ mid.postorder)
    (known : n'.id ∈ footnoteIds P.tables root) : n'.type = .footnoteDefinition := by
  obtain ⟨n, before, related⟩ :=
    inPlace_nodes (leafRelation_resolvesTo _ _ _ _) root inPlace member
  rw [Node.inPlace_iff] at related
  split at related
  next reference =>
    have isReference : n ∈ root.exits .footnoteReference := by
      rw [exits_eq_filter]
      exact List.mem_filter.mpr ⟨before, by simpa using reference⟩
    exact absurd known ((outside_exits tree n isReference).2 n' related)
  next =>
    rw [related.1] at known
    have isDefinition := tree.apart n before (footnoteIds_subset known)
    rw [Node.type, related.2.1, type_countUses]
    exact isDefinition

/-- No definition is left below a node when all are unlinked. -/
theorem definitions_unlinkAllList
    (labelled : ∀ d ∈ root.exits .footnoteDefinition, (normalizeMapLabel P.tables d.literal).isSome)
    {n' : Node} (member : n' ∈ mid.postorder) :
    exitsList .footnoteDefinition (unlinkAllList (footnoteIds P.tables root) n'.children) = [] := by
  refine exitsList_unlinkAllList_eq_nil _ fun d below => ?_
  rw [footnoteIds_eq labelled, ← resolved_ids tree inPlace, exits_eq_filter]
  refine List.mem_map_of_mem (List.mem_filter.mpr ⟨postorder_trans mid member ?_, ?_⟩)
  · rw [Node.postorder_eq]
    exact List.mem_append_left _ (mem_postorderList_of_mem_exitsList below)
  · simpa using type_of_mem_exitsList below

/-- A reference of the resolved tree stands in the place of one that resolves. -/
theorem resolved_reference {r' : Node} (member : r' ∈ mid.exits .footnoteReference) :
    ∃ r ∈ exitsList .footnoteReference root.children,
      ResolvesTo P.tables (root.exits .footnoteDefinition) (footnoteOrder P.tables root) nextId
        r r' := by
  rw [exits_eq_filter] at member
  obtain ⟨inTree, type⟩ := List.mem_filter.mp member
  have type : r'.type = .footnoteReference := by simpa using type
  obtain ⟨r, before, related⟩ :=
    inPlace_nodes (leafRelation_resolvesTo _ _ _ _) root inPlace inTree
  rw [Node.inPlace_iff] at related
  split at related
  next reference =>
    refine ⟨r, ?_, related⟩
    rw [← exits_of_footnoteTree tree _ (by decide), exits_eq_filter]
    exact List.mem_filter.mpr ⟨before, by simpa using reference⟩
  next other =>
    have same : r'.type = r.type := by rw [Node.type, related.2.1, type_countUses]; rfl
    exact absurd (same ▸ type) other

theorem resolved_leaves : ∀ r ∈ mid.exits .footnoteReference, r.children = [] := by
  intro r' member
  obtain ⟨r, _, related⟩ := resolved_reference tree inPlace member
  exact (leafRelation_resolvesTo _ _ _ _ _ _ related).1

/-- A reference of the resolved tree has the number of its definition. -/
theorem literal_resolved {r' : Node} (member : r' ∈ mid.exits .footnoteReference) :
    ∃ i ∈ footnoteOrder P.tables root, r'.data.parentFootnoteDef = some i ∧
      r'.literal = decimal ((footnoteOrder P.tables root).idxOf i + 1) := by
  obtain ⟨r, below, related⟩ := resolved_reference tree inPlace member
  rw [exits_eq_filter] at member
  have type : r'.type = .footnoteReference := by simpa using (List.mem_filter.mp member).2
  unfold ResolvesTo at related
  split at related
  next d found =>
    obtain ⟨_, _, _, refIx, data⟩ := related
    refine ⟨d.id, mem_footnoteOrder.mpr ⟨r, below, d, found, rfl⟩, by rw [data], ?_⟩
    rw [Node.literal, data]
    rfl
  next =>
    rw [related.2.1] at type
    cases type

/-- Every definition that is referred to is there. -/
theorem order_known : ∀ i ∈ footnoteOrder P.tables root,
    i ∈ (mid.exits .footnoteDefinition).map Node.id := by
  intro i used
  obtain ⟨r, _, d, found, rfl⟩ := mem_footnoteOrder.mp used
  rw [resolved_ids tree inPlace]
  exact List.mem_map_of_mem (normalized_of_footnoteFor found).1

end

/-- What a node of the tree becomes: its references are resolved, and its definitions have counts. -/
def Resolved (P : Config) (nextId : NodeId) (root : Node) : Node → Node → Prop :=
  Node.InPlace (countUses (footnoteUses P.tables (root.exits .footnoteDefinition) root.children))
    (ResolvesTo P.tables (root.exits .footnoteDefinition) (footnoteOrder P.tables root) nextId)

def ResolvedList (P : Config) (nextId : NodeId) (root : Node) : Forest → Forest → Prop :=
  InPlaceList (countUses (footnoteUses P.tables (root.exits .footnoteDefinition) root.children))
    (ResolvesTo P.tables (root.exits .footnoteDefinition) (footnoteOrder P.tables root) nextId)

/-- The children of the root after `process_footnotes`: the body, in which no definition is left,
and the notes, which are the definitions referred to in the order of the first references. -/
structure FootnotesNumbered (P : Config) (nextId : NodeId) (root : Node) (body notes : Forest) :
    Prop where
  bodyResolved : ResolvedList P nextId root (unlinkAllList (footnoteIds P.tables root) root.children) body
  notesResolved : List.Forall₂ (fun i note => ∃ d ∈ root.exits .footnoteDefinition, d.id = i ∧
    Resolved P nextId root (d.unlinkAll (footnoteIds P.tables root)) note) (footnoteOrder P.tables root) notes
  moved : exitsList .footnoteDefinition body = []
  notNested : ∀ note ∈ notes,
    note.type = .footnoteDefinition ∧ exitsList .footnoteDefinition note.children = []
  order : notes.map Node.id = footnoteOrder P.tables root
  referredTo : ∀ i, i ∈ notes.map Node.id ↔ ∃ r ∈ root.exits .footnoteReference, ∃ d,
    footnoteFor P.tables (root.exits .footnoteDefinition) r.literal = some d ∧ d.id = i
  literals : ∀ r ∈ exitsList .footnoteReference (body ++ notes), ∃ i ∈ notes.map Node.id,
    r.data.parentFootnoteDef = some i ∧ r.literal = decimal ((notes.map Node.id).idxOf i + 1)

/-- `process_footnotes` leaves the definitions referred to at the end of the document, in the order
of the first references, and numbers the references. -/
theorem processFootnotes_numbered {P : Config} {nextId : NodeId} {root : Node}
    (tree : FootnoteTree P nextId root)
    (labelled : ∀ d ∈ root.exits .footnoteDefinition, (normalizeMapLabel P.tables d.literal).isSome)
    (few : (root.exits .footnoteDefinition).length < 2 ^ 31) :
    ∃ body notes, processFootnotes P nextId root = .mk root.id root.data (body ++ notes) ∧
      FootnotesNumbered P nextId root body notes := by
  obtain ⟨mid, inPlace, _, moved⟩ := processFootnotes_eq tree few
  have rooted := resolved_root tree inPlace
  have leafy := leafRelation_resolvesTo P.tables (root.exits .footnoteDefinition)
    (footnoteOrder P.tables root) nextId
  have found := forall₂_filterMap_find? (order_known tree inPlace)
  have outside := outside_exits tree
  have whole : mid ∈ mid.postorder := by
    rw [Node.postorder_eq]
    simp
  refine ⟨_, _, by rw [moved, moveFootnotes, rooted.1, rooted.2], ?_⟩
  have order : ((((footnoteOrder P.tables root).filterMap fun i =>
      (mid.exits .footnoteDefinition).find? fun d => d.id = i).map
        (·.unlinkAll (footnoteIds P.tables root))).map Node.id) = footnoteOrder P.tables root := by
    rw [List.map_map]
    exact map_eq_of_forall₂ (found.imp fun _ _ both => (id_unlinkAll _ _).trans both.2)
  refine ⟨?bodyResolved, ?notesResolved, ?moved, ?notNested, order, ?referredTo, ?literals⟩
  case bodyResolved =>
    rw [Node.inPlace_iff, if_neg (by rw [tree.document]; decide)] at inPlace
    rw [exits_of_footnoteTree tree _ (by decide)] at outside
    exact inPlaceList_unlinkAllList leafy root.children inPlace.2.2 tree.leaves outside
  case notesResolved =>
    rw [List.forall₂_map_right_iff]
    refine found.imp fun i n both => ?_
    obtain ⟨inside, rfl⟩ := both
    obtain ⟨d, definition, related⟩ := forall₂_mem_right (resolved_definitions tree inPlace) inside
    refine ⟨d, definition, ?_, resolved_unlinkAll tree definition related⟩
    rw [Node.inPlace_iff, if_neg (by rw [(isDefinition_of_mem definition).2]; decide)] at related
    exact related.1.symm
  case moved => exact definitions_unlinkAllList tree inPlace labelled whole
  case notNested =>
    intro note member
    obtain ⟨n, among, rfl⟩ := List.mem_map.mp member
    obtain ⟨_, _, inside, _⟩ := forall₂_mem_right found among
    obtain ⟨inTree, type⟩ := isDefinition_of_mem inside
    rw [type_unlinkAll, Node.unlinkAll_eq]
    exact ⟨type, definitions_unlinkAllList tree inPlace labelled inTree⟩
  case referredTo =>
    intro i
    rw [order, mem_footnoteOrder, ← exits_of_footnoteTree tree _ (by decide)]
  case literals =>
    rw [order]
    intro r member
    refine literal_resolved tree inPlace ?_
    rw [exitsList_append, List.mem_append] at member
    rcases member with inBody | inNotes
    · exact exitsList_unlinkAllList_subset _ (resolved_leaves tree inPlace) whole inBody
    · obtain ⟨note, among, inNote⟩ := mem_exitsList inNotes
      obtain ⟨n, isUsed, rfl⟩ := List.mem_map.mp among
      obtain ⟨_, _, inside, _⟩ := forall₂_mem_right found isUsed
      obtain ⟨inTree, type⟩ := isDefinition_of_mem inside
      rw [Node.exits_eq, if_neg (by rw [type_unlinkAll, type]; decide), List.append_nil,
        Node.unlinkAll_eq] at inNote
      exact exitsList_unlinkAllList_subset _ (resolved_leaves tree inPlace) inTree inNote

/-- The tree of `[^a] [^b]` with a definition of `a`. -/
def oneFootnote : Node :=
  .mk 0 { type := .document } [
    .mk 1 { type := .paragraph } [
      .leaf 4 { type := .footnoteReference, as := .literal (lit "a") },
      .leaf 5 { type := .footnoteReference, as := .literal (lit "b") }],
    .mk 2 { type := .footnoteDefinition, as := .literal (lit "a") } [
      .leaf 3 { type := .paragraph }]]

theorem processFootnotes_oneFootnote :
    ∃ body notes, processFootnotes { tables := asciiTables, options := optFootnotes } 6 oneFootnote =
        .mk oneFootnote.id oneFootnote.data (body ++ notes) ∧
      FootnotesNumbered { tables := asciiTables, options := optFootnotes } 6 oneFootnote body notes :=
  processFootnotes_numbered
    ⟨by decide +kernel, by decide +kernel, by decide +kernel, rfl, by decide +kernel, by decide +kernel⟩
    (by decide +kernel) (by decide +kernel)

end CmarkGfm
