import CmarkGfm.Map

/-!
# Looking up definitions

A map is meant as an association list in which the first definition of a label wins. The
main result is `lookups_eq_firstWins`: sorting, removing duplicates and binary search look
up the same definitions, as long as the expansion limit is not exceeded.
-/

namespace CmarkGfm

/-! ### The association list -/

/-- A definition of a label, whatever it is a definition of. -/
structure Definition (α : Type) where
  label : Bytes
  size : Nat
  value : α
  deriving DecidableEq

section

variable {α : Type}

/-- The definitions with a label, which becomes the normalized one, in order. -/
def association (T : Tables) (defs : List (Definition α)) : List (Definition α) :=
  defs.filterMap fun d => (normalizeMapLabel T d.label).map fun norm => { d with label := norm }

/-- The definition a label refers to. -/
def firstWins (T : Tables) (defs : List (Definition α)) (label : Bytes) : Option (Definition α) :=
  if label.length > maxLinkLabelLength then none
  else (normalizeMapLabel T label).bind fun norm => (association T defs).find? (·.label = norm)

/-- Insert definitions in order. -/
def Map.insertAll (T : Tables) (map : Map α) (defs : List (Definition α)) : Map α :=
  defs.foldl (fun map d => map.create T d.label d.size d.value) map

/-- A sequence of lookups: the map after them, and what they return. -/
def lookups (T : Tables) : Map α → List Bytes → Map α × List (Option (MapEntry α))
  | map, [] => (map, [])
  | map, label :: labels =>
    let (map, found) := mapLookup T map label
    let (map, rest) := lookups T map labels
    (map, found :: rest)

def MapEntry.definition (e : MapEntry α) : Definition α := ⟨e.label, e.size, e.value⟩

end

/-! ### The comparisons -/

theorem strcmp_eq_compare (a b : Bytes) : strcmp a b = compare a b := by
  induction a generalizing b with
  | nil => cases b <;> rfl
  | cons x xs ih =>
    cases b with
    | nil => rfl
    | cons y ys =>
      rw [List.compare_eq_compareLex, List.compareLex_cons_cons, ← List.compare_eq_compareLex,
        ← ih ys]
      simp only [strcmp, compare, compareOfLessAndEq]
      split
      next => rfl
      next above =>
        split
        next after =>
          have differ : x ≠ y := by
            rintro rfl
            exact above after
          simp [differ]
        next below =>
          have equal : x = y := UInt8.le_antisymm (UInt8.not_lt.mp below) (UInt8.not_lt.mp above)
          simp [equal]

theorem strcmp_eq_iff {a b : Bytes} : strcmp a b = .eq ↔ a = b := by
  rw [strcmp_eq_compare, Std.LawfulEqOrd.compare_eq_iff_eq]

section

variable {α : Type}

/-- The order of the sorted table: by label, then by age. -/
def entryCompare : MapEntry α → MapEntry α → Ordering :=
  compareLex (compareOn (·.label)) (compareOn (·.age))

instance : Std.TransCmp (entryCompare (α := α)) :=
  inferInstanceAs (Std.TransCmp (compareLex _ _))

def EntryLe (a b : MapEntry α) : Prop := (entryCompare a b).isLE

instance : DecidableRel (EntryLe (α := α)) :=
  fun a b => inferInstanceAs (Decidable ((entryCompare a b).isLE = true))

instance : IsTrans (MapEntry α) EntryLe := ⟨fun _ _ _ => Std.TransCmp.isLE_trans⟩

instance : Std.Total (EntryLe (α := α)) := by
  refine ⟨fun a b => ?_⟩
  unfold EntryLe
  have swap : entryCompare b a = (entryCompare a b).swap := Std.OrientedCmp.eq_swap
  rw [swap]
  cases entryCompare a b <;> simp

theorem toInt_of_lt {n : Nat} (bound : n < 2 ^ 31) : toInt n = n := by
  unfold toInt
  rw [Int.bmod_eq_of_le] <;> omega

/-- The difference of two ages does not overflow. -/
theorem refLe_iff {a b : MapEntry α} (boundA : a.age < 2 ^ 31) (boundB : b.age < 2 ^ 31) :
    refLe a b = true ↔ EntryLe a b := by
  have difference : ((a.age : Int) - b.age).bmod (2 ^ 32) = (a.age : Int) - b.age := by
    rw [Int.bmod_eq_of_le] <;> omega
  unfold EntryLe entryCompare refLe compareLex compareOn
  rw [toInt_of_lt boundA, toInt_of_lt boundB, difference, strcmp_eq_compare]
  cases compare a.label b.label with
  | lt => simp
  | gt => simp
  | eq =>
    simp only [Ordering.then, decide_eq_true_eq, Nat.isLE_compare]
    omega

/-! ### The sorted table -/

/-- What `sort_map` makes of the entries: sorted by label without duplicates, and with the
first entry of each label. -/
structure SortedTable (entries table : List (MapEntry α)) : Prop where
  increasing : table.Pairwise fun a b => strcmp a.label b.label = .lt
  finds : ∀ label, table.find? (·.label = label) = entries.find? (·.label = label)

theorem find?_dropDuplicates (label : Bytes) (last : MapEntry α) (rest : List (MapEntry α)) :
    (dropDuplicates last rest).find? (·.label = label) = (last :: rest).find? (·.label = label) := by
  induction rest generalizing last with
  | nil => rfl
  | cons r rest ih =>
    simp only [dropDuplicates]
    split
    next =>
      conv_rhs => rw [List.find?_cons]
      rw [List.find?_cons, ih r]
    next same =>
      have same : r.label = last.label := strcmp_eq_iff.mp (by simpa using same)
      rw [ih last, List.find?_cons, List.find?_cons, List.find?_cons, same]
      split <;> simp_all

theorem mem_dropDuplicates {last e : MapEntry α} {rest : List (MapEntry α)}
    (member : e ∈ dropDuplicates last rest) : e ∈ last :: rest := by
  induction rest generalizing last with
  | nil => exact member
  | cons r rest ih =>
    simp only [dropDuplicates] at member
    split at member
    next =>
      rcases List.mem_cons.mp member with rfl | later
      · exact List.mem_cons_self
      · exact List.mem_cons_of_mem _ (ih later)
    next =>
      rcases List.mem_cons.mp (ih member) with rfl | later
      · exact List.mem_cons_self
      · exact List.mem_cons_of_mem _ (List.mem_cons_of_mem _ later)

theorem strcmp_ne_gt_of_entryLe {a b : MapEntry α} (le : EntryLe a b) :
    strcmp a.label b.label ≠ .gt := by
  intro greater
  rw [strcmp_eq_compare] at greater
  simp [EntryLe, entryCompare, compareLex, compareOn, greater] at le

theorem strcmp_lt_of_lt_of_entryLe {a b c : MapEntry α} (lt : strcmp a.label b.label = .lt)
    (le : EntryLe b c) : strcmp a.label c.label = .lt := by
  rw [strcmp_eq_compare] at lt ⊢
  have notGreater := strcmp_ne_gt_of_entryLe le
  rw [strcmp_eq_compare] at notGreater
  exact Std.TransCmp.lt_of_lt_of_isLE lt (Ordering.ne_gt_iff_isLE.mp notGreater)

theorem increasing_dropDuplicates {last : MapEntry α} {rest : List (MapEntry α)}
    (sorted : (last :: rest).Pairwise EntryLe) :
    (dropDuplicates last rest).Pairwise fun a b => strcmp a.label b.label = .lt := by
  induction rest generalizing last with
  | nil => exact List.pairwise_singleton _ _
  | cons r rest ih =>
    obtain ⟨lastLe, sortedRest⟩ := List.pairwise_cons.mp sorted
    simp only [dropDuplicates]
    split
    next differ =>
      refine List.pairwise_cons.mpr ⟨fun e member => ?_, ih sortedRest⟩
      have below : strcmp last.label r.label = .lt := by
        have notGreater := strcmp_ne_gt_of_entryLe (lastLe r List.mem_cons_self)
        have notEqual : strcmp last.label r.label ≠ .eq := fun equal => by
          simp [strcmp_eq_iff.mp equal, strcmp_eq_iff] at differ
        cases order : strcmp last.label r.label <;> simp_all
      rcases List.mem_cons.mp (mem_dropDuplicates member) with rfl | later
      · exact below
      · exact strcmp_lt_of_lt_of_entryLe below ((List.pairwise_cons.mp sortedRest).1 e later)
    next =>
      refine ih (List.pairwise_cons.mpr ⟨fun e member => ?_, (List.pairwise_cons.mp sortedRest).2⟩)
      exact lastLe e (List.mem_cons_of_mem _ member)

/-- Entries in the order of their creation: the ages are below the number of entries. -/
structure Aged (entries : List (MapEntry α)) : Prop where
  increasing : entries.Pairwise fun a b => a.age < b.age
  bound : ∀ e ∈ entries, e.age < entries.length

theorem insertionSort_refLe {refs : List (MapEntry α)} (bound : ∀ e ∈ refs, e.age < 2 ^ 31) :
    refs.insertionSort (fun a b => refLe a b) = refs.insertionSort EntryLe := by
  have agree : ∀ a ∈ refs, ∀ b ∈ refs, refLe a b = true ↔ EntryLe a b :=
    fun a memberA b memberB => refLe_iff (bound a memberA) (bound b memberB)
  simpa using List.map_insertionSort (fun a b => refLe a b = true) EntryLe id refs agree

/-- Entries of one label are sorted by age. -/
theorem age_lt_of_entryLe {a b : MapEntry α} {label : Bytes} (le : EntryLe a b)
    (labelA : a.label = label) (labelB : b.label = label) (differ : a.age ≠ b.age) :
    a.age < b.age := by
  simp only [EntryLe, entryCompare, compareLex, compareOn, labelA, labelB] at le
  simp only [Std.ReflCmp.compare_self, Ordering.then, Nat.isLE_compare] at le
  omega

theorem sortedTable_sortedEntries {entries : List (MapEntry α)} (aged : Aged entries)
    (few : entries.length < 2 ^ 31) : SortedTable entries (sortedEntries entries.reverse) := by
  have bound : ∀ e ∈ entries.reverse, e.age < 2 ^ 31 := fun e member =>
    (aged.bound e (List.mem_reverse.mp member)).trans few
  have perm : (entries.reverse.insertionSort EntryLe).Perm entries :=
    (List.perm_insertionSort _ _).trans entries.reverse_perm
  have sorted := List.pairwise_insertionSort EntryLe entries.reverse
  have distinct : (entries.reverse.insertionSort EntryLe).Pairwise fun a b => a.age ≠ b.age :=
    perm.symm.pairwise (aged.increasing.imp Nat.ne_of_lt) Ne.symm
  have finds : ∀ label, (entries.reverse.insertionSort EntryLe).find? (·.label = label) =
      entries.find? (·.label = label) := fun label => by
    refine Search.find?_eq_of_perm perm (fun _ _ => Nat.lt_asymm) ?_ (aged.increasing.filter _)
    refine List.Pairwise.imp_of_mem ?_ ((sorted.and distinct).filter _)
    intro a b memberA memberB ⟨le, differ⟩
    exact age_lt_of_entryLe le (by simpa using (List.mem_filter.mp memberA).2)
      (by simpa using (List.mem_filter.mp memberB).2) differ
  rw [sortedEntries, insertionSort_refLe bound]
  cases arranged : entries.reverse.insertionSort EntryLe with
  | nil => exact ⟨List.Pairwise.nil, fun label => by rw [← finds label, arranged]⟩
  | cons first rest =>
    refine ⟨increasing_dropDuplicates (arranged ▸ sorted), fun label => ?_⟩
    rw [find?_dropDuplicates, ← arranged, finds label]

/-! ### Lookups -/

/-- A map that stands for the entries: before or after the first lookup. -/
inductive Represents (entries : List (MapEntry α)) (map : Map α) : Prop where
  | unsorted (aged : Aged entries) (refs : map.refs = entries.reverse)
      (size : map.size = entries.length) (sorted : map.sorted = none)
  | sorted (table : List (MapEntry α)) (correct : SortedTable entries table)
      (sorted : map.sorted = some table) (size : map.size ≠ 0)

/-- The entry that a label refers to. -/
def firstEntry (T : Tables) (entries : List (MapEntry α)) (label : Bytes) : Option (MapEntry α) :=
  if label.length > maxLinkLabelLength then none
  else (normalizeMapLabel T label).bind fun norm => entries.find? (·.label = norm)

/-- What a lookup charges. -/
def charge (found : Option (MapEntry α)) : Nat := found.elim 0 (·.size)

theorem ensureSorted_spec {entries : List (MapEntry α)} {map : Map α}
    (represents : Represents entries map) (few : entries.length < 2 ^ 31) (size : map.size ≠ 0) :
    ∃ table, SortedTable entries table ∧ (ensureSorted map).sorted = some table ∧
      (ensureSorted map).size ≠ 0 ∧ (ensureSorted map).refSize = map.refSize ∧
      (ensureSorted map).maxRefSize = map.maxRefSize := by
  cases represents with
  | unsorted aged refs _ sorted =>
    refine ⟨_, sortedTable_sortedEntries aged few, ?_⟩
    simp [ensureSorted, sorted, sortMap, refs]
  | sorted table correct sorted _ =>
    exact ⟨table, correct, by simp [ensureSorted, sorted, size]⟩

theorem partitioned_of_increasing {table : List (MapEntry α)} (norm : Bytes)
    (increasing : table.Pairwise fun a b => strcmp a.label b.label = .lt) :
    Search.Partitioned (fun ref => strcmp norm ref.label) table := by
  refine increasing.imp fun {a b} lt => ?_
  simp only [strcmp_eq_compare] at lt ⊢
  cases order : compare norm a.label with
  | lt => exact Or.inr (Std.TransCmp.lt_trans order lt)
  | eq => exact Or.inr (Std.LawfulEqOrd.compare_eq_iff_eq.mp order ▸ lt)
  | gt => exact Or.inl rfl

/-- The end of a lookup finds the first entry and charges it, if it can be charged. -/
theorem searchSorted_spec {entries : List (MapEntry α)} {map : Map α}
    (represents : Represents entries map) (few : entries.length < 2 ^ 31) (size : map.size ≠ 0)
    (norm : Bytes)
    (budget : map.refSize + charge (entries.find? (·.label = norm)) ≤ map.maxRefSize) :
    (searchSorted map norm).2 = entries.find? (·.label = norm) ∧
      Represents entries (searchSorted map norm).1 ∧
      (searchSorted map norm).1.maxRefSize = map.maxRefSize ∧
      (searchSorted map norm).1.refSize =
        map.refSize + charge (entries.find? (·.label = norm)) := by
  obtain ⟨table, correct, sorted, size', refSize, maxRefSize⟩ :=
    ensureSorted_spec represents few size
  have found : Search.bsearch (fun ref => strcmp norm ref.label) table =
      entries.find? (·.label = norm) := by
    rw [Search.bsearch_eq_find? (partitioned_of_increasing norm correct.increasing),
      ← correct.finds norm]
    congr 1
    funext ref
    simp only [strcmp_eq_iff]
    exact decide_eq_decide.mpr eq_comm
  unfold searchSorted
  simp only [sorted, Option.getD_some, found]
  cases first : entries.find? (·.label = norm) with
  | none => exact ⟨rfl, .sorted table correct sorted size', maxRefSize, by simp [charge, refSize]⟩
  | some r =>
    simp only [first, charge, Option.elim_some] at budget
    have fits : ¬ r.size > sizeSub (ensureSorted map).maxRefSize (ensureSorted map).refSize := by
      rw [sizeSub, refSize, maxRefSize, if_pos (by omega)]
      omega
    simp only [fits, if_false]
    exact ⟨trivial, .sorted table correct rfl size', maxRefSize, by simp [charge, refSize]⟩

theorem mapLookup_spec (T : Tables) {entries : List (MapEntry α)} {map : Map α}
    (represents : Represents entries map) (few : entries.length < 2 ^ 31) (label : Bytes)
    (budget : map.refSize + charge (firstEntry T entries label) ≤ map.maxRefSize) :
    (mapLookup T map label).2 = firstEntry T entries label ∧
      Represents entries (mapLookup T map label).1 ∧
      (mapLookup T map label).1.maxRefSize = map.maxRefSize ∧
      (mapLookup T map label).1.refSize = map.refSize + charge (firstEntry T entries label) := by
  by_cases long : label.length > maxLinkLabelLength
  · simp [mapLookup, firstEntry, long, represents, charge]
  cases normalized : normalizeMapLabel T label with
  | none =>
    have same : mapLookup T map label = (map, none) := by
      simp [mapLookup, normalized]
    simp [same, firstEntry, normalized, represents, charge]
  | some norm =>
    have nonempty : ¬ label.length < 1 := by
      intro empty
      simp [normalizeMapLabel, Nat.lt_one_iff.mp empty] at normalized
    have first : firstEntry T entries label = entries.find? (·.label = norm) := by
      simp [firstEntry, long, normalized]
    by_cases empty : map.size = 0
    · have same : mapLookup T map label = (map, none) := by simp [mapLookup, empty]
      have noEntry : entries = [] := by
        cases represents with
        | unsorted _ _ size _ => exact List.length_eq_zero_iff.mp (size ▸ empty)
        | sorted _ _ _ size => exact absurd empty size
      subst noEntry
      simp [same, first, represents, charge]
    · have searched : mapLookup T map label = searchSorted map norm := by
        simp [mapLookup, nonempty, long, empty, normalized]
      rw [first] at budget ⊢
      rw [searched]
      exact searchSorted_spec represents few empty norm budget

theorem lookups_spec (T : Tables) {entries : List (MapEntry α)} (few : entries.length < 2 ^ 31)
    (labels : List Bytes) {map : Map α} (represents : Represents entries map)
    (budget : map.refSize + (labels.map fun l => charge (firstEntry T entries l)).sum ≤
      map.maxRefSize) :
    (lookups T map labels).2 = labels.map (firstEntry T entries) := by
  induction labels generalizing map with
  | nil => rfl
  | cons label labels ih =>
    simp only [List.map_cons, List.sum_cons] at budget
    obtain ⟨found, represents', maxRefSize, refSize⟩ :=
      mapLookup_spec T represents few label (by omega)
    simp only [lookups, List.map_cons, found]
    rw [ih represents' (by rw [maxRefSize, refSize]; omega)]

/-! ### Insertions -/

/-- A map that only insertions have touched. -/
structure Created (entries : List (MapEntry α)) (map : Map α) : Prop where
  aged : Aged entries
  refs : map.refs = entries.reverse
  size : map.size = entries.length
  sorted : map.sorted = none
  refSize : map.refSize = 0

theorem created_create (T : Tables) {entries : List (MapEntry α)} {map : Map α}
    (created : Created entries map) (d : Definition α) :
    ∃ entries', Created entries' (map.create T d.label d.size d.value) ∧
      entries'.map MapEntry.definition =
        entries.map MapEntry.definition ++ association T [d] := by
  cases normalized : normalizeMapLabel T d.label with
  | none => exact ⟨entries, by simpa [Map.create, normalized] using created,
      by simp [association, normalized]⟩
  | some norm =>
    refine ⟨entries ++ [⟨norm, map.size, d.size, d.value⟩], ?_,
      by simp [association, normalized, MapEntry.definition]⟩
    obtain ⟨⟨increasing, bound⟩, refs, size, sorted, refSize⟩ := created
    have older : ∀ e ∈ entries, e.age < map.size := fun e member => size ▸ bound e member
    refine ⟨⟨?_, ?_⟩, ?_, ?_, ?_, ?_⟩
    · exact List.pairwise_append.mpr ⟨increasing, List.pairwise_singleton _ _, by simpa using older⟩
    · intro e member
      rcases List.mem_append.mp member with old | new
      · have := bound e old
        rw [List.length_append]
        omega
      · simp_all
    all_goals simp_all [Map.create]

/-- The entries that inserting the definitions creates. -/
theorem created_insertAll (T : Tables) (defs : List (Definition α)) :
    ∃ entries, Created entries (Map.new.insertAll T defs) ∧
      entries.map MapEntry.definition = association T defs := by
  induction defs using List.reverseRecOn with
  | nil => exact ⟨[], ⟨⟨List.Pairwise.nil, by simp⟩, rfl, rfl, rfl, rfl⟩, rfl⟩
  | append_singleton defs d ih =>
    obtain ⟨entries, created, definitions⟩ := ih
    obtain ⟨entries', created', definitions'⟩ := created_create T created d
    refine ⟨entries', by simpa [Map.insertAll] using created', ?_⟩
    rw [definitions', definitions, association, association, association, List.filterMap_append]

/-- The first entry of a label comes from its first definition. -/
theorem definition_firstEntry (T : Tables) {entries : List (MapEntry α)} {defs : List (Definition α)}
    (definitions : entries.map MapEntry.definition = association T defs) (label : Bytes) :
    (firstEntry T entries label).map MapEntry.definition = firstWins T defs label := by
  unfold firstEntry firstWins
  split
  next => rfl
  next =>
    rw [← definitions]
    cases normalizeMapLabel T label with
    | none => rfl
    | some norm =>
      rw [Option.bind_some, Option.bind_some, List.find?_map]
      rfl

/-- The bytes charged for the definitions that labels refer to. -/
def totalCharge (T : Tables) (defs : List (Definition α)) (labels : List Bytes) : Nat :=
  (labels.map fun l => (firstWins T defs l).elim 0 (·.size)).sum

/-- Insertions and lookups refine the association list, within the expansion limit. -/
theorem lookups_eq_firstWins (T : Tables) (defs : List (Definition α)) (maxRefSize : Nat)
    (labels : List Bytes) (few : defs.length < 2 ^ 31)
    (budget : totalCharge T defs labels ≤ maxRefSize) :
    (lookups T { Map.new.insertAll T defs with maxRefSize := maxRefSize } labels).2.map
        (Option.map MapEntry.definition) = labels.map (firstWins T defs) := by
  obtain ⟨entries, ⟨aged, refs, size, sorted, refSize⟩, definitions⟩ := created_insertAll T defs
  have fewEntries : entries.length < 2 ^ 31 := by
    have lengths := congrArg List.length definitions
    rw [List.length_map] at lengths
    exact (lengths.trans_le (List.length_filterMap_le _ _)).trans_lt few
  have charges : ∀ l, charge (firstEntry T entries l) = (firstWins T defs l).elim 0 (·.size) :=
    fun l => by
      rw [← definition_firstEntry T definitions l]
      cases firstEntry T entries l <;> rfl
  have represents : Represents entries
      { Map.new.insertAll T defs with maxRefSize := maxRefSize } := .unsorted aged refs size sorted
  rw [lookups_spec T fewEntries labels represents
    (by simpa [refSize, charges, totalCharge] using budget), List.map_map]
  exact List.map_congr_left fun l _ => definition_firstEntry T definitions l

/-- A label refers to one of the definitions. -/
theorem firstWins_mem {T : Tables} {defs : List (Definition α)} {label : Bytes} {d : Definition α}
    (found : firstWins T defs label = some d) : ∃ e ∈ defs, d.size = e.size := by
  unfold firstWins at found
  split at found
  next => simp at found
  next =>
    obtain ⟨norm, _, first⟩ := Option.bind_eq_some_iff.mp found
    obtain ⟨e, member, normalized⟩ := List.mem_filterMap.mp (List.mem_of_find?_eq_some first)
    obtain ⟨_, _, rfl⟩ := Option.map_eq_some_iff.mp normalized
    exact ⟨e, member, rfl⟩

end

/-! ### Definitions of links, attributes and footnotes -/

/-- A definition that `cmark_reference_create` or `cmark_reference_create_attributes` is given. -/
inductive ReferenceDefinition where
  | link (label url title : Bytes)
  | attributes (label attributes : Bytes)

/-- Create a reference of either kind. -/
def createReference (T : Tables) (map : Map Reference) : ReferenceDefinition → Map Reference
  | .link label url title => referenceCreate T map label url title
  | .attributes label attributes => referenceCreateAttributes T map label attributes

/-- What is stored of a reference definition. -/
def ReferenceDefinition.definition (T : Tables) : ReferenceDefinition → Definition Reference
  | .link label url title =>
    ⟨label, (cleanUrl T url).length + (cleanTitle T title).length,
      ⟨false, cleanUrl T url, cleanTitle T title, []⟩⟩
  | .attributes label attrs => ⟨label, 0, ⟨true, [], [], cleanAttributes T attrs⟩⟩

/-- What is stored of a footnote definition: a label and the node. -/
def footnoteDefinition (d : Bytes × Nat) : Definition Nat := ⟨d.1, 0, d.2⟩

theorem foldl_createReference (T : Tables) (map : Map Reference)
    (defs : List ReferenceDefinition) :
    defs.foldl (createReference T) map = map.insertAll T (defs.map (·.definition T)) := by
  rw [Map.insertAll, List.foldl_map]
  congr 1
  funext map d
  cases d <;> rfl

/-- Lookups in a map of references, and in a map of footnotes, return the first definition whose
normalized label is that of the label looked up. -/
theorem reference_and_footnote_lookups (T : Tables) (maxRefSize : Nat) (labels : List Bytes) :
    (∀ defs : List ReferenceDefinition, defs.length < 2 ^ 31 →
      totalCharge T (defs.map (·.definition T)) labels ≤ maxRefSize →
      (lookups T { defs.foldl (createReference T) .new with maxRefSize := maxRefSize } labels).2.map
          (Option.map MapEntry.definition) =
        labels.map (firstWins T (defs.map (·.definition T)))) ∧
    (∀ defs : List (Bytes × Nat), defs.length < 2 ^ 31 →
      (lookups T { defs.foldl (fun map d => footnoteCreate T map d.1 d.2) .new with
            maxRefSize := maxRefSize } labels).2.map (Option.map MapEntry.definition) =
        labels.map (firstWins T (defs.map footnoteDefinition))) := by
  constructor
  · intro defs few budget
    rw [foldl_createReference]
    exact lookups_eq_firstWins T _ maxRefSize labels (by simpa using few) budget
  · intro defs few
    have inserted : defs.foldl (fun map d => footnoteCreate T map d.1 d.2) .new =
        Map.new.insertAll T (defs.map footnoteDefinition) := by
      rw [Map.insertAll, List.foldl_map]
      rfl
    have free : totalCharge T (defs.map footnoteDefinition) labels = 0 := by
      have charges : ∀ l ∈ labels,
          (firstWins T (defs.map footnoteDefinition) l).elim 0 (·.size) = 0 := fun l _ => by
        cases found : firstWins T (defs.map footnoteDefinition) l with
        | none => rfl
        | some d =>
          obtain ⟨e, defined, size⟩ := firstWins_mem found
          obtain ⟨_, _, rfl⟩ := List.mem_map.mp defined
          exact size
      rw [totalCharge, List.map_congr_left charges]
      simp
    rw [inserted]
    exact lookups_eq_firstWins T _ maxRefSize labels (by simpa using few) (by omega)

/-- The second definition of a label is never found, whatever the case of its letters. -/
theorem lookups_of_twice_defined_label :
    (lookups asciiTables
        { [ReferenceDefinition.link (lit "Foo") (lit "/a") [], .link (lit "foo") (lit "/b") []].foldl
            (createReference asciiTables) .new with maxRefSize := 4 }
        [lit "FOO", lit "bar", lit "foo"]).2.map (Option.map MapEntry.definition) =
      [some ⟨lit "foo", 2, ⟨false, lit "/a", [], []⟩⟩, none,
        some ⟨lit "foo", 2, ⟨false, lit "/a", [], []⟩⟩] := by
  rw [(reference_and_footnote_lookups asciiTables 4 _).1 _ (by decide) (by decide +kernel)]
  decide +kernel

end CmarkGfm
