import CmarkGfm.Properties.Definitions
import CmarkGfm.Properties.InlineFrames
import CmarkGfm.Properties.Reuse

/-!
# The limit on what references expand to

`cmark_map_lookup` charges the size of the entry it returns to the map and refuses an entry for
which the limit does not suffice. What the inline parser copies out of the map is therefore
bounded by the limit, as far as the sizes of the entries tell how many bytes there are to copy.
-/

namespace CmarkGfm

/-! ### Counting the copies -/

/-- The bytes of a copy if it is of a url and a title. -/
def Clone.linkBytes : Clone → Nat
  | link n => n
  | attributes _ => 0

/-- The bytes of a copy if it is of attributes. -/
def Clone.attributeBytes : Clone → Nat
  | link _ => 0
  | attributes n => n

/-- The bytes of the urls and titles copied, with multiplicity. -/
def linkBytes (clones : List Clone) : Nat := (clones.map Clone.linkBytes).sum

/-- The bytes of the attributes copied, with multiplicity. -/
def attributeBytes (clones : List Clone) : Nat := (clones.map Clone.attributeBytes).sum

/-- The bytes of all copies, with multiplicity. -/
def copiedBytes (clones : List Clone) : Nat := (clones.map Clone.bytes).sum

theorem attributeBytes_append (clones clones' : List Clone) :
    attributeBytes (clones ++ clones') = attributeBytes clones + attributeBytes clones' := by
  simp [attributeBytes]

theorem copiedBytes_eq (clones : List Clone) :
    copiedBytes clones = linkBytes clones + attributeBytes clones := by
  induction clones with
  | nil => rfl
  | cons clone clones ih =>
    unfold copiedBytes linkBytes attributeBytes at *
    simp only [List.map_cons, List.sum_cons, ih]
    cases clone with
    | link n => simp only [Clone.bytes, Clone.linkBytes, Clone.attributeBytes]; omega
    | attributes n => simp only [Clone.bytes, Clone.linkBytes, Clone.attributeBytes]; omega

/-- What is copied out of an entry when a reference to it is resolved. -/
def Reference.clone (ref : Reference) : Clone :=
  if ref.isAttributesReference then .attributes ref.attributes.length
  else .link (ref.url.length + ref.title.length)

/-- The entries that lookups in a map can return. -/
def Map.table {α : Type} (map : Map α) : List (MapEntry α) := (ensureSorted map).sorted.getD []

/-- The state of the map and the copies within a limit: the entries of links have a size that
covers url and title, and the sizes charged cover the urls and titles copied. -/
structure WithinLimit (limit : Nat) (map : Map Reference) (clones : List Clone) : Prop where
  priced : ∀ e ∈ map.table, e.value.clone.linkBytes ≤ e.size
  maximum : map.maxRefSize = limit
  charged : map.refSize ≤ limit
  covered : linkBytes clones ≤ map.refSize

/-! ### Lookups -/

section

variable {α : Type}

/-- The table is built once. -/
theorem sorted_ensureSorted (map : Map α) : (ensureSorted map).sorted = some map.table := by
  unfold Map.table ensureSorted
  cases sorted : map.sorted with
  | some table => simp [sorted]
  | none => rfl

theorem table_of_sorted {map : Map α} {table : List (MapEntry α)}
    (sorted : map.sorted = some table) : map.table = table := by
  simp [Map.table, ensureSorted, sorted]

theorem limits_ensureSorted (map : Map α) :
    (ensureSorted map).maxRefSize = map.maxRefSize ∧ (ensureSorted map).refSize = map.refSize := by
  unfold ensureSorted
  split <;> exact ⟨rfl, rfl⟩

/-- What a lookup does: it returns nothing and charges nothing, or it charges an entry of the
table for which the limit suffices. -/
theorem mapLookup_cases (T : Tables) (map : Map α) (label : Bytes)
    (within : map.refSize ≤ map.maxRefSize) :
    (mapLookup T map label).1.table = map.table ∧
      (mapLookup T map label).1.maxRefSize = map.maxRefSize ∧
      (((mapLookup T map label).2 = none ∧ (mapLookup T map label).1.refSize = map.refSize) ∨
        ∃ e ∈ map.table, (mapLookup T map label).2 = some e ∧
          (mapLookup T map label).1.refSize = map.refSize + e.size ∧
          map.refSize + e.size ≤ map.maxRefSize) := by
  unfold mapLookup
  split
  next => exact ⟨rfl, rfl, .inl ⟨rfl, rfl⟩⟩
  next =>
    split
    next => exact ⟨rfl, rfl, .inl ⟨rfl, rfl⟩⟩
    next =>
      split
      next => exact ⟨rfl, rfl, .inl ⟨rfl, rfl⟩⟩
      next norm _ =>
        obtain ⟨sameLimit, sameSize⟩ := limits_ensureSorted map
        have sorted := sorted_ensureSorted map
        unfold searchSorted
        simp only
        split
        next => exact ⟨table_of_sorted sorted, sameLimit, .inl ⟨rfl, sameSize⟩⟩
        next e found =>
          split
          next => exact ⟨table_of_sorted sorted, sameLimit, .inl ⟨rfl, sameSize⟩⟩
          next fits =>
            have member : e ∈ map.table := (Search.bsearchFrom_sound found).1
            have room : map.refSize + e.size ≤ map.maxRefSize := by
              rw [sameLimit, sameSize] at fits
              unfold sizeSub at fits
              rw [if_pos within] at fits
              omega
            exact ⟨table_of_sorted sorted, sameLimit, .inr ⟨e, member, rfl, by rw [sameSize], room⟩⟩

end

section

variable {limit : Nat}

/-- A lookup keeps within the limit, also if the data of the entry it returns is then copied. -/
theorem WithinLimit.mapLookup {map : Map Reference} {clones : List Clone}
    (within : WithinLimit limit map clones) (T : Tables) (label : Bytes) :
    WithinLimit limit (mapLookup T map label).1 clones ∧
      ∀ e, (mapLookup T map label).2 = some e →
        WithinLimit limit (mapLookup T map label).1 (e.value.clone :: clones) := by
  have charged : map.refSize ≤ map.maxRefSize := by
    rw [within.maximum]
    exact within.charged
  obtain ⟨table, maxRefSize, outcome⟩ := mapLookup_cases T map label charged
  have priced : ∀ e ∈ (CmarkGfm.mapLookup T map label).1.table, e.value.clone.linkBytes ≤ e.size := by
    rw [table]
    exact within.priced
  have covered := within.covered
  rcases outcome with ⟨nothing, refSize⟩ | ⟨e, member, found, refSize, room⟩
  · refine ⟨⟨priced, maxRefSize.trans within.maximum, refSize ▸ within.charged,
      refSize ▸ covered⟩, ?_⟩
    intro e found
    rw [nothing] at found
    cases found
  · rw [within.maximum] at room
    have price := within.priced e member
    refine ⟨⟨priced, maxRefSize.trans within.maximum, refSize ▸ room, by omega⟩, ?_⟩
    intro e' found'
    rw [found] at found'
    cases found'
    refine ⟨priced, maxRefSize.trans within.maximum, refSize ▸ room, ?_⟩
    rw [refSize]
    simp only [linkBytes, List.map_cons, List.sum_cons] at covered ⊢
    omega

end

/-! ### What leaves the map and the copies alone -/

/-- The states have the same reference map and the same copies. -/
structure SameReferences (subj subj' : Subject) : Prop where
  refmap : subj'.refmap = subj.refmap
  clones : subj'.clones = subj.clones

namespace SameReferences

theorem refl (subj : Subject) : SameReferences subj subj := ⟨rfl, rfl⟩

theorem trans {subj subj' subj'' : Subject} (first : SameReferences subj subj')
    (second : SameReferences subj' subj'') : SameReferences subj subj'' :=
  ⟨second.refmap.trans first.refmap, second.clones.trans first.clones⟩

end SameReferences

theorem SameStacks.sameReferences {subj subj' : Subject} (same : SameStacks subj subj') :
    SameReferences subj subj' := ⟨same.refmap, same.clones⟩

/-- The callbacks that an extension has for inlines do not resolve references. -/
structure Extension.KeepsReferences (e : Extension) : Prop where
  matchInline : ∀ f, e.matchInline = some f → ∀ options subj c,
    SameReferences subj (f options subj c).1
  insertInlineFromDelim : ∀ f, e.insertInlineFromDelim = some f →
    ∀ options subj below opener between closer later,
      SameReferences subj (f options subj below opener between closer later).subj

theorem sameReferences_handleDelim (chars : CharTables) (smart : Bool) (subj : Subject)
    (c : UInt8) : SameReferences subj (handleDelim chars smart subj c).1 := by
  obtain ⟨subj', text, same | ⟨canOpen, canClose, pushed⟩⟩ := handleDelim_cases subj chars smart c
  · rw [same]
    exact text.sameReferences
  · rw [pushed]
    exact text.sameReferences.trans ⟨rfl, rfl⟩

section

variable (P : Config) (extensions : ∀ e ∈ P.syntaxExtensions, e.KeepsReferences)

include extensions

theorem emphasisFrame_sameReferences : EmphasisFrame P SameReferences where
  trans := .trans
  nodes _ _ _ _ := ⟨rfl, rfl⟩
  insert ext member := (extensions ext member).insertInlineFromDelim

theorem sameReferences_processEmphasis (subj : Subject) (stackBottom : Nat) :
    SameReferences subj (processEmphasis P subj stackBottom) :=
  (emphasisFrame_sameReferences P extensions).processEmphasis subj stackBottom

theorem sameReferences_matchLink (subj : Subject) (opener : Bracket) (url title : Bytes) :
    SameReferences subj (matchLink P subj opener url title) := by
  unfold matchLink
  simp only
  refine .trans ?_ (.trans (sameReferences_processEmphasis P extensions _ _) ⟨rfl, rfl⟩)
  exact ⟨rfl, rfl⟩

theorem sameReferences_matchAttribute (subj : Subject) (opener : Bracket) (attributes : Bytes) :
    SameReferences subj (matchAttribute P subj opener attributes) := by
  unfold matchAttribute
  simp only
  refine .trans ?_ (.trans (sameReferences_processEmphasis P extensions _ _) ⟨rfl, rfl⟩)
  exact ⟨rfl, rfl⟩

theorem sameReferences_makeFootnoteReference (subj : Subject) (opener : Bracket) (next : Node) :
    SameReferences subj (makeFootnoteReference P subj opener next) := by
  unfold makeFootnoteReference
  simp only
  refine .trans ?_ (.trans (sameReferences_processEmphasis P extensions _ _) ⟨rfl, rfl⟩)
  exact ⟨rfl, rfl⟩

theorem sameReferences_noMatch (subj : Subject) (opener : Bracket) (initialPos : Nat) :
    SameReferences subj (noMatch P subj opener initialPos).1 := by
  have rewound : SameReferences subj { subj with pos := initialPos } := ⟨rfl, rfl⟩
  unfold noMatch
  simp only
  split
  next next _ =>
    exact rewound.trans (sameReferences_makeFootnoteReference P extensions _ opener next)
  next => exact ⟨rfl, rfl⟩

omit extensions in
theorem sameReferences_tryExtensions (c : UInt8) (exts : List Extension)
    (among : ∀ e ∈ exts, e.KeepsReferences) (subj : Subject) :
    SameReferences subj (tryExtensions P.options c exts subj).1 := by
  induction exts generalizing subj with
  | nil => exact .refl _
  | cons ext rest ih =>
    have later := ih fun e member => among e (List.mem_cons_of_mem ext member)
    unfold tryExtensions
    split
    next => exact later subj
    next matchInline callback =>
      have step := (among ext List.mem_cons_self).matchInline matchInline callback P.options subj c
      generalize matchInline P.options subj c = r at step ⊢
      obtain ⟨subj', node⟩ := r
      cases node with
      | some node => exact step
      | none => exact step.trans (later subj')

end

/-! ### Resolving references -/

section

/-- The map, the copies of this subject and those of the blocks before keep within the limit. -/
abbrev Subject.WithinLimit (limit : Nat) (earlier : List Clone)
    (subj : Subject) : Prop :=
  CmarkGfm.WithinLimit limit subj.refmap (subj.clones ++ earlier)

variable {limit : Nat} {earlier : List Clone}

theorem SameReferences.within {subj subj' : Subject} (same : SameReferences subj subj')
    (within : subj.WithinLimit limit earlier) : subj'.WithinLimit limit earlier := by
  unfold Subject.WithinLimit
  rw [same.refmap, same.clones]
  exact within

theorem within_lookupReference {subj : Subject} (within : subj.WithinLimit limit earlier)
    (T : Tables) (label : Bytes) :
    (lookupReference T subj label).1.WithinLimit limit earlier := (within.mapLookup T label).1

/-- What may be copied when a lookup returns a reference. -/
theorem within_of_lookupReference {subj subj' : Subject} {ref : Reference} {T : Tables}
    {label : Bytes} (within : subj.WithinLimit limit earlier)
    (found : lookupReference T subj label = (subj', some ref)) :
    WithinLimit limit subj'.refmap
      (ref.clone :: (subj'.clones ++ earlier)) := by
  obtain ⟨rfl, value⟩ := Prod.mk.inj found
  obtain ⟨e, returned, rfl⟩ := Option.map_eq_some_iff.mp value
  exact (within.mapLookup T label).2 e returned

variable (P : Config) (extensions : ∀ e ∈ P.syntaxExtensions, e.KeepsReferences)

theorem within_referenceAttributes {subj : Subject} (within : subj.WithinLimit limit earlier)
    (T : Tables) (attributes : Option Bytes) :
    (referenceAttributes T subj attributes).1.WithinLimit limit earlier := by
  unfold referenceAttributes
  split
  next => exact within
  next pos rawLabel _ =>
    have advanced : Subject.WithinLimit limit earlier { subj with pos := pos } := within
    have looked := within_lookupReference advanced T rawLabel
    split
    next subj' missing =>
      rw [missing] at looked
      exact looked
    next subj' ref found =>
      have room := within_of_lookupReference advanced found
      rw [found] at looked
      split
      next isAttributes =>
        rw [Reference.clone, if_pos isAttributes] at room
        exact room
      next => exact looked

include extensions

theorem within_closeReference {subj : Subject} (within : subj.WithinLimit limit earlier)
    (opener : Bracket) (initialPos : Nat) :
    (closeReference P subj opener initialPos).1.WithinLimit limit earlier := by
  unfold closeReference
  generalize referenceLabel subj opener initialPos = r
  obtain ⟨pos, label⟩ := r
  simp only
  have advanced : Subject.WithinLimit limit earlier { subj with pos := pos } := within
  cases label with
  | none => exact (sameReferences_noMatch P extensions _ opener initialPos).within advanced
  | some label =>
    have looked := within_lookupReference advanced P.tables label
    simp only
    split
    next subj' missing =>
      rw [missing] at looked
      exact (sameReferences_noMatch P extensions subj' opener initialPos).within looked
    next subj' ref found =>
      have room := within_of_lookupReference advanced found
      rw [found] at looked
      split
      next => exact (sameReferences_noMatch P extensions subj' opener initialPos).within looked
      next isLink =>
        rw [Reference.clone, if_neg isLink] at room
        exact (sameReferences_matchLink P extensions _ opener ref.url ref.title).within room

theorem within_handleCloseBracketAttribute {subj : Subject}
    (within : subj.WithinLimit limit earlier) (opener : Bracket) :
    (handleCloseBracketAttribute P subj opener).1.WithinLimit limit earlier := by
  rw [handleCloseBracketAttribute_eq]
  have advanced : Subject.WithinLimit limit earlier { subj with pos := attributesEnd subj } := within
  have looked := within_referenceAttributes advanced P.tables
    ((scanInlineAttributes subj.input subj.pos).map (·.2))
  generalize referenceAttributes P.tables { subj with pos := attributesEnd subj } _ = r at looked ⊢
  obtain ⟨subj', attributes⟩ := r
  cases attributes with
  | none => exact looked
  | some attributes => exact (sameReferences_matchAttribute P extensions subj' opener attributes).within looked

theorem within_handleCloseBracket {subj : Subject} (within : subj.WithinLimit limit earlier) :
    (handleCloseBracket P subj).1.WithinLimit limit earlier := by
  have advanced : Subject.WithinLimit limit earlier (subj.advance 1) := within
  unfold handleCloseBracket
  extract_lets subj'
  split
  next => exact within
  next opener rest _ =>
    split
    next => exact within_handleCloseBracketAttribute P extensions advanced opener
    next =>
      split
      next => exact within
      next =>
        split
        next pos url title _ =>
          exact (sameReferences_matchLink P extensions { subj' with pos := pos } opener url title).within
            advanced
        next => exact within_closeReference P extensions advanced opener subj'.pos

theorem within_dispatchInline (chars : CharTables) {subj : Subject}
    (within : subj.WithinLimit limit earlier) (c : UInt8) :
    (dispatchInline P chars subj c).1.WithinLimit limit earlier := by
  refine dispatchInline_cases subj P chars c (motive := fun r => r.1.WithinLimit limit earlier)
    ?simple ?delim ?openBracket ?closeBracket ?nothing
  case simple => exact fun r same => same.sameReferences.within within
  case delim => exact fun _ => (sameReferences_handleDelim chars _ subj c).within within
  case openBracket => exact fun _ _ _ => within
  case closeBracket => exact fun _ => within_handleCloseBracket P extensions within
  case nothing => exact within

theorem within_nextInline (chars : CharTables) {subj : Subject}
    (within : subj.WithinLimit limit earlier) (c : UInt8) :
    (nextInline P chars subj c).1.WithinLimit limit earlier := by
  have dispatched := within_dispatchInline P extensions chars within c
  unfold nextInline
  extract_lets initpos
  split
  next subj' node result =>
    rw [result] at dispatched
    exact dispatched
  next subj' result =>
    rw [result] at dispatched
    split
    next =>
      have tried := (sameReferences_tryExtensions P c P.inlineSyntaxExtensions
        (fun e member => extensions e (mem_syntaxExtensions member)) subj').within dispatched
      split
      next subj'' node result =>
        rw [result] at tried
        exact tried
      next subj'' result =>
        rw [result] at tried
        exact (sameStacks_makeText subj'' P chars).sameReferences.within tried
    next => exact dispatched

theorem within_parseInline (chars : CharTables) {subj subj' : Subject}
    (within : subj.WithinLimit limit earlier) (parsed : parseInline P chars subj = some subj') :
    subj'.WithinLimit limit earlier := by
  unfold parseInline at parsed
  simp only at parsed
  split at parsed
  next => cases parsed
  next =>
    have next := within_nextInline P extensions chars within subj.peekChar
    obtain rfl := Option.some.inj parsed
    generalize nextInline P chars subj subj.peekChar = r at next ⊢
    obtain ⟨subj', newInl⟩ := r
    cases newInl <;> exact next

theorem within_parseInlinesLoop (chars : CharTables) (fuel : Nat) {subj : Subject}
    (within : subj.WithinLimit limit earlier) :
    (parseInlinesLoop P chars fuel subj).WithinLimit limit earlier := by
  induction fuel generalizing subj with
  | zero => exact within
  | succ fuel ih =>
    unfold parseInlinesLoop
    split
    next => exact within
    next =>
      split
      next => exact within
      next subj' parsed => exact ih (within_parseInline P extensions chars within parsed)

theorem within_parseInlines (chars : CharTables) {subj : Subject}
    (within : subj.WithinLimit limit earlier) :
    (parseInlines P chars subj).WithinLimit limit earlier := by
  have loop := within_parseInlinesLoop P extensions chars subj.input.length within
  exact (sameReferences_processEmphasis P extensions _ 0).within loop

/-! ### The blocks of the document -/

theorem within_parseBlockInlines (chars : CharTables) {st : InlineState}
    (within : WithinLimit limit st.refmap st.clones) (d : NodeData) (children : Forest) :
    WithinLimit limit (parseBlockInlines P chars st d children).1.refmap
      (parseBlockInlines P chars st d children).1.clones := by
  have start : (inlineSubject P d children st.refmap st.nextId).WithinLimit limit
      st.clones := within
  have parsed := within_parseInlines P extensions chars start
  unfold parseBlockInlines
  generalize parseInlines P chars (inlineSubject P d children st.refmap st.nextId) = subj
    at parsed ⊢
  exact parsed

omit extensions in
mutual

theorem within_processInlines (extensions : ∀ e ∈ P.syntaxExtensions, e.KeepsReferences) (chars : CharTables)
    {st : InlineState} (within : WithinLimit limit st.refmap st.clones) : (n : Node) →
    WithinLimit limit (processInlines P chars st n).1.refmap
      (processInlines P chars st n).1.clones
  | .mk i d children => by
    unfold processInlines
    split
    next => exact within_parseBlockInlines P extensions chars within d children
    next => exact within_processInlinesList extensions chars within children

theorem within_processInlinesList (extensions : ∀ e ∈ P.syntaxExtensions, e.KeepsReferences) (chars : CharTables)
    {st : InlineState} (within : WithinLimit limit st.refmap st.clones) : (f : Forest) →
    WithinLimit limit (processInlinesList P chars st f).1.refmap
      (processInlinesList P chars st f).1.clones
  | [] => within
  | n :: ns => by
    unfold processInlinesList
    exact within_processInlinesList extensions chars (within_processInlines extensions chars within n) ns

end

end

/-! ### Attributes -/

/-- The bytes of the attributes definition that a label at the position refers to. -/
def labelAttributes (T : Tables) (subj : Subject) : Nat :=
  match linkLabel subj.input subj.pos false with
  | none => 0
  | some (_, rawLabel) =>
    match (mapLookup T subj.refmap rawLabel).2 with
    | none => 0
    | some e => e.value.clone.attributeBytes

/-- The bytes of attributes that the next closing bracket copies out of the map: it closes an
attribute bracket, and the label after it refers to an attributes definition. -/
def nextAttributes (T : Tables) (subj : Subject) : Nat :=
  match subj.brackets with
  | [] => 0
  | opener :: _ =>
    if subj.peekChar = chr ']' ∧ opener.type = .attribute then
      match scanInlineAttributes subj.input (subj.pos + 1) with
      | some (pos, _) => labelAttributes T { subj with pos := pos }
      | none => labelAttributes T { subj with pos := subj.pos + 1 }
    else 0

theorem nextAttributes_of_other (T : Tables) {subj : Subject} (other : subj.peekChar ≠ chr ']') :
    nextAttributes T subj = 0 := by
  unfold nextAttributes
  split
  next => rfl
  next => rw [if_neg fun both => other both.1]

/-- A lookup for a link copies no attributes. -/
theorem attributeBytes_link (n : Nat) (clones : List Clone) :
    attributeBytes (.link n :: clones) = attributeBytes clones := Nat.zero_add _

theorem attributeBytes_referenceAttributes (T : Tables) (subj : Subject)
    (attributes : Option Bytes) :
    attributeBytes (referenceAttributes T subj attributes).1.clones =
      attributeBytes subj.clones + labelAttributes T subj := by
  unfold referenceAttributes labelAttributes lookupReference
  cases linkLabel subj.input subj.pos false with
  | none => rfl
  | some r =>
    obtain ⟨pos, rawLabel⟩ := r
    simp only
    generalize mapLookup T subj.refmap rawLabel = found
    obtain ⟨refmap, entry⟩ := found
    cases entry with
    | none => rfl
    | some e =>
      simp only [Option.map_some, Reference.clone]
      split
      next => exact Nat.add_comm _ _
      next => rfl

section

variable (P : Config) (extensions : ∀ e ∈ P.syntaxExtensions, e.KeepsReferences)

include extensions

theorem attributeBytes_closeReference (subj : Subject) (opener : Bracket) (initialPos : Nat) :
    attributeBytes (closeReference P subj opener initialPos).1.clones =
      attributeBytes subj.clones := by
  unfold closeReference
  generalize referenceLabel subj opener initialPos = r
  obtain ⟨pos, label⟩ := r
  simp only
  cases label with
  | none => rw [(sameReferences_noMatch P extensions _ opener initialPos).clones]
  | some label =>
    simp only
    split
    next subj' missing =>
      obtain ⟨rfl, _⟩ := Prod.mk.inj missing
      rw [(sameReferences_noMatch P extensions _ opener initialPos).clones]
    next subj' ref found =>
      obtain ⟨rfl, _⟩ := Prod.mk.inj found
      split
      next => rw [(sameReferences_noMatch P extensions _ opener initialPos).clones]
      next =>
        rw [(sameReferences_matchLink P extensions _ opener ref.url ref.title).clones]
        exact attributeBytes_link _ _

theorem attributeBytes_handleCloseBracketAttribute (subj : Subject) (opener : Bracket) :
    attributeBytes (handleCloseBracketAttribute P subj opener).1.clones =
      attributeBytes subj.clones + labelAttributes P.tables { subj with pos := attributesEnd subj } := by
  rw [handleCloseBracketAttribute_eq]
  have counted := attributeBytes_referenceAttributes P.tables { subj with pos := attributesEnd subj }
    ((scanInlineAttributes subj.input subj.pos).map (·.2))
  generalize referenceAttributes P.tables { subj with pos := attributesEnd subj } _ = r at counted ⊢
  obtain ⟨subj', attributes⟩ := r
  cases attributes with
  | none => exact counted
  | some attributes =>
    rw [← counted]
    exact congrArg attributeBytes (sameReferences_matchAttribute P extensions subj' opener attributes).clones

theorem attributeBytes_handleCloseBracket (subj : Subject) (closes : subj.peekChar = chr ']') :
    attributeBytes (handleCloseBracket P subj).1.clones =
      attributeBytes subj.clones + nextAttributes P.tables subj := by
  unfold handleCloseBracket nextAttributes
  extract_lets subj'
  have brackets : subj'.brackets = subj.brackets := rfl
  rw [brackets]
  cases subj.brackets with
  | nil => rfl
  | cons opener rest =>
    simp only [closes, true_and]
    split
    next =>
      refine (attributeBytes_handleCloseBracketAttribute P extensions subj' opener).trans ?_
      have scanned : scanInlineAttributes subj'.input subj'.pos = scanInlineAttributes subj.input (subj.pos + 1) :=
        rfl
      unfold attributesEnd
      rw [scanned]
      cases scanInlineAttributes subj.input (subj.pos + 1) <;> rfl
    next =>
      split
      next => rfl
      next =>
        split
        next pos url title _ =>
          exact congrArg attributeBytes
            (sameReferences_matchLink P extensions _ opener url title).clones
        next => exact attributeBytes_closeReference P extensions subj' opener subj'.pos

theorem attributeBytes_dispatchInline (chars : CharTables) (subj : Subject) :
    attributeBytes (dispatchInline P chars subj subj.peekChar).1.clones =
      attributeBytes subj.clones + nextAttributes P.tables subj := by
  by_cases closes : subj.peekChar = chr ']'
  · have closing : dispatchInline P chars subj subj.peekChar = handleCloseBracket P subj := by
      rw [closes]
      rfl
    rw [closing]
    exact attributeBytes_handleCloseBracket P extensions subj closes
  · rw [nextAttributes_of_other P.tables closes]
    refine dispatchInline_cases subj P chars subj.peekChar
      (motive := fun r => attributeBytes r.1.clones = attributeBytes subj.clones + 0)
      ?simple ?delim ?openBracket ?closeBracket ?nothing
    case simple => exact fun r same => congrArg attributeBytes same.clones
    case delim =>
      exact fun _ => congrArg attributeBytes (sameReferences_handleDelim chars _ subj _).clones
    case openBracket => exact fun _ _ _ => rfl
    case closeBracket => exact fun isBracket => absurd isBracket closes
    case nothing => rfl

/-- What follows the `switch` of `parse_inline` leaves the references alone. -/
theorem sameReferences_nextInline (chars : CharTables) (subj : Subject) (c : UInt8) :
    SameReferences (dispatchInline P chars subj c).1 (nextInline P chars subj c).1 := by
  unfold nextInline
  extract_lets initpos
  generalize dispatchInline P chars subj c = r
  obtain ⟨subj', node⟩ := r
  cases node with
  | some node => exact .refl _
  | none =>
    simp only
    split
    next =>
      have tried := sameReferences_tryExtensions P c P.inlineSyntaxExtensions
        (fun e member => extensions e (mem_syntaxExtensions member)) subj'
      split
      next subj'' node result =>
        rw [result] at tried
        exact tried
      next subj'' result =>
        rw [result] at tried
        exact tried.trans (sameStacks_makeText subj'' P chars).sameReferences
    next => exact .refl _

theorem attributeBytes_parseInline (chars : CharTables) {subj subj' : Subject}
    (parsed : parseInline P chars subj = some subj') :
    attributeBytes subj'.clones = attributeBytes subj.clones + nextAttributes P.tables subj := by
  unfold parseInline at parsed
  simp only at parsed
  split at parsed
  next => cases parsed
  next =>
    have same := sameReferences_nextInline P extensions chars subj subj.peekChar
    rw [← attributeBytes_dispatchInline P extensions chars subj, ← same.clones]
    obtain rfl := Option.some.inj parsed
    cases (nextInline P chars subj subj.peekChar).2 <;> rfl

/-- The attributes copied while the inlines of a block are parsed. -/
theorem attributeBytes_parseInlinesLoop (chars : CharTables) (fuel : Nat) (subj : Subject) :
    attributeBytes (parseInlinesLoop P chars fuel subj).clones =
      attributeBytes subj.clones +
        ((inlineStates P chars fuel subj).map (nextAttributes P.tables)).sum := by
  induction fuel generalizing subj with
  | zero => rfl
  | succ fuel ih =>
    unfold parseInlinesLoop inlineStates
    split
    next => rfl
    next =>
      rw [List.map_cons, List.sum_cons]
      cases parsed : parseInline P chars subj with
      | none =>
        have other : subj.peekChar ≠ chr ']' := by
          intro closes
          simp [parseInline, closes, show chr ']' ≠ 0 by decide] at parsed
        rw [nextAttributes_of_other P.tables other]
        rfl
      | some subj' =>
        simp only
        rw [ih subj', attributeBytes_parseInline P extensions chars parsed]
        omega

theorem attributeBytes_parseInlines (chars : CharTables) (subj : Subject) :
    attributeBytes (parseInlines P chars subj).clones =
      attributeBytes subj.clones +
        ((inlineStates P chars subj.input.length subj).map (nextAttributes P.tables)).sum := by
  rw [← attributeBytes_parseInlinesLoop P extensions chars]
  exact congrArg attributeBytes (sameReferences_processEmphasis P extensions _ 0).clones

omit extensions in
mutual

theorem attributeBytes_processInlines (extensions : ∀ e ∈ P.syntaxExtensions, e.KeepsReferences) (chars : CharTables)
    (st : InlineState) : (n : Node) →
    attributeBytes (processInlines P chars st n).1.clones =
      attributeBytes st.clones + (((blockSubjects P chars st n).flatMap fun subj =>
        inlineStates P chars subj.input.length subj).map (nextAttributes P.tables)).sum
  | .mk i d children => by
    unfold processInlines blockSubjects
    split
    next =>
      have parsed := attributeBytes_parseInlines P extensions chars
        (inlineSubject P d children st.refmap st.nextId)
      have start : attributeBytes (inlineSubject P d children st.refmap st.nextId).clones = 0 := rfl
      unfold parseBlockInlines
      rw [List.flatMap_singleton]
      rw [start, Nat.zero_add] at parsed
      rw [← parsed, Nat.add_comm, ← attributeBytes_append]
    next => exact attributeBytes_processInlinesList extensions chars st children

theorem attributeBytes_processInlinesList (extensions : ∀ e ∈ P.syntaxExtensions, e.KeepsReferences) (chars : CharTables)
    (st : InlineState) : (f : Forest) →
    attributeBytes (processInlinesList P chars st f).1.clones =
      attributeBytes st.clones + (((blockSubjectsList P chars st f).flatMap fun subj =>
        inlineStates P chars subj.input.length subj).map (nextAttributes P.tables)).sum
  | [] => rfl
  | n :: ns => by
    unfold processInlinesList blockSubjectsList
    have first := attributeBytes_processInlines extensions chars st n
    have rest := attributeBytes_processInlinesList extensions chars (processInlines P chars st n).1 ns
    generalize processInlines P chars st n = r at first rest ⊢
    rw [List.flatMap_append, List.map_append, List.sum_append, ← Nat.add_assoc, ← first, ← rest]

end

end

/-! ### The document -/

/-- What is priced when links are defined. -/
theorem priced_of_defined {T : Tables} {map : Map Reference} (defined : Defined T .new map) :
    map.sorted = none ∧ map.refSize = 0 ∧ ∀ e ∈ map.refs, e.value.clone.linkBytes ≤ e.size := by
  obtain ⟨defs, rfl⟩ := defined
  induction defs using List.reverseRecOn with
  | nil => exact ⟨rfl, rfl, by simp [Map.new]⟩
  | append_singleton defs d ih =>
    rw [List.foldl_append, List.foldl_cons, List.foldl_nil]
    generalize defs.foldl (createReference T) Map.new = map at ih ⊢
    have created (label : Bytes) (size : Nat) (value : Reference)
        (price : value.clone.linkBytes ≤ size) :
        (map.create T label size value).sorted = none ∧
          (map.create T label size value).refSize = 0 ∧
          ∀ e ∈ (map.create T label size value).refs, e.value.clone.linkBytes ≤ e.size := by
      unfold Map.create
      split
      next => exact ih
      next => exact ⟨ih.1, ih.2.1, List.forall_mem_cons.mpr ⟨price, ih.2.2⟩⟩
    cases d with
    | link label url title => exact created label _ _ (Nat.le_refl _)
    | attributes label attributes => exact created label _ _ (Nat.zero_le _)

theorem mem_sortedEntries {α : Type} {refs : List (MapEntry α)} {e : MapEntry α}
    (member : e ∈ sortedEntries refs) : e ∈ refs := by
  have perm := List.perm_insertionSort (fun a b : MapEntry α => refLe a b) refs
  unfold sortedEntries at member
  generalize refs.insertionSort (fun a b => refLe a b) = sorted at member perm
  cases sorted with
  | nil => cases member
  | cons first rest => exact perm.mem_iff.mp (mem_dropDuplicates member)

/-- The parser when it has processed the last line of a document. -/
def flushedParser (P : Config) (callback : Option (UInt8 → Bool)) (chunks : List Bytes) : Parser :=
  flushParser (chunks.foldl cmarkParserFeed (parserNew P callback))

theorem defined_flushedParser (P : Config)
    (adds : ∀ e ∈ P.syntaxExtensions, e.AddsDefinitions P.tables)
    (callback : Option (UInt8 → Bool)) (chunks : List Bytes) :
    Defined P.tables .new (flushedParser P callback chunks).state.refmap := by
  rw [flushedParser, flushedState_eq]
  generalize processedLines (P.options.has optPreserveWhitespace) chunks = lines
  induction lines using List.reverseRecOn with
  | nil => exact .refl _
  | append_singleton lines line ih =>
    unfold replay at ih ⊢
    rw [List.foldl_append]
    exact ih.trans (defined_processLine P adds _ line.1 line.2)

/-- The limit is kept when the inlines of a document begin. -/
theorem within_finalizedDocument (P : Config)
    (adds : ∀ e ∈ P.syntaxExtensions, e.AddsDefinitions P.tables)
    (callback : Option (UInt8 → Bool)) (chunks : List Bytes) :
    WithinLimit (maxRefSize (flushedParser P callback chunks).feed.totalSize)
      (finalizedDocument (flushedParser P callback chunks)).1.refmap [] := by
  have config : (flushedParser P callback chunks).config = P := flushedConfig_eq P callback chunks
  have defined := (defined_flushedParser P adds callback chunks).trans
    (defined_finalizeBlocks P (flushedParser P callback chunks).state)
  obtain ⟨unsorted, nothing, priced⟩ := priced_of_defined defined
  unfold finalizedDocument
  rw [config]
  generalize finalizeBlocks P (flushedParser P callback chunks).state = p at unsorted nothing priced ⊢
  refine ⟨fun e member => priced e ?_, rfl, nothing ▸ Nat.zero_le _, Nat.zero_le _⟩
  have table : (ensureSorted { p.refmap with
      maxRefSize := maxRefSize (flushedParser P callback chunks).feed.totalSize }).sorted =
        some (sortedEntries p.refmap.refs) := by
    unfold ensureSorted
    simp only [unsorted, sortMap]
  rw [show Map.table _ = sortedEntries p.refmap.refs by rw [Map.table, table, Option.getD_some]]
    at member
  exact mem_sortedEntries member

/-- The copies made while the document is parsed. -/
def documentClones (P : Config) (callback : Option (UInt8 → Bool)) (chunks : List Bytes) :
    List Clone :=
  (finalizeDocument (flushedParser P callback chunks)).1.clones

/-- The limit for a document. -/
def documentLimit (P : Config) (callback : Option (UInt8 → Bool)) (chunks : List Bytes) : Nat :=
  max 100000 (flushedParser P callback chunks).feed.totalSize

/-- No closing bracket of the document copies attributes out of the map: where an attribute
bracket is closed, the label after it refers to no definition of attributes with data. -/
def NoAttributesCopied (P : Config) (callback : Option (UInt8 → Bool)) (chunks : List Bytes) :
    Prop :=
  ∀ subj ∈ finishStates (flushedParser P callback chunks), nextAttributes P.tables subj = 0

instance (P : Config) (callback : Option (UInt8 → Bool)) (chunks : List Bytes) :
    Decidable (NoAttributesCopied P callback chunks) := inferInstanceAs (Decidable (∀ s ∈ _, _))

/-- The urls and titles copied stay within the limit. All copies do as long as no attributes are
copied, and beyond that exactly if the attributes found fit in what the links leave. -/
theorem copiedBytes_le_limit (P : Config)
    (adds : ∀ e ∈ P.syntaxExtensions, e.AddsDefinitions P.tables)
    (keeps : ∀ e ∈ P.syntaxExtensions, e.KeepsReferences)
    (callback : Option (UInt8 → Bool)) (chunks : List Bytes) :
    let clones := documentClones P callback chunks
    let limit := documentLimit P callback chunks
    linkBytes clones ≤ limit ∧ (NoAttributesCopied P callback chunks → copiedBytes clones ≤ limit) ∧
      (copiedBytes clones ≤ limit ↔
        ((finishStates (flushedParser P callback chunks)).map (nextAttributes P.tables)).sum ≤
          limit - linkBytes clones) := by
  intro clones limit
  have config : (flushedParser P callback chunks).config = P := flushedConfig_eq P callback chunks
  have limit_eq : maxRefSize (flushedParser P callback chunks).feed.totalSize = limit := by
    unfold maxRefSize limit documentLimit
    split <;> omega
  have start := within_finalizedDocument P adds callback chunks
  rw [limit_eq] at start
  have links : linkBytes clones ≤ limit := by
    have within := within_processInlines P keeps
      (manageExtensionsSpecialCharacters P true (flushedParser P callback chunks).chars) start
      (finalizedDocument (flushedParser P callback chunks)).2
    have covered := within.covered.trans within.charged
    unfold clones documentClones finalizeDocument
    simp only [config]
    exact covered
  have attributes : attributeBytes clones =
      ((finishStates (flushedParser P callback chunks)).map (nextAttributes P.tables)).sum := by
    have counted := attributeBytes_processInlines P keeps
      (manageExtensionsSpecialCharacters P true (flushedParser P callback chunks).chars)
      (finalizedDocument (flushedParser P callback chunks)).1
      (finalizedDocument (flushedParser P callback chunks)).2
    unfold clones documentClones finalizeDocument finishStates
    simp only [config]
    rw [counted]
    exact Nat.zero_add _
  rw [← attributes, copiedBytes_eq]
  refine ⟨links, fun uncopied => ?_, by omega⟩
  have nothing : attributeBytes clones = 0 := by
    rw [attributes]
    exact List.sum_eq_zero_iff_forall_eq_nat.mpr (List.forall_mem_map.mpr uncopied)
  omega

/-- A link is copied, attributes are defined but not used. -/
theorem copiedBytes_of_link :
    copiedBytes (documentClones { tables := asciiTables, options := 0 } none
        [lit "[a]: u\n^[b]: x\n\n[a] ^[c][a]"]) ≤
      documentLimit { tables := asciiTables, options := 0 } none
        [lit "[a]: u\n^[b]: x\n\n[a] ^[c][a]"] :=
  (copiedBytes_le_limit { tables := asciiTables, options := 0 } (by simp) (by simp) none
    [lit "[a]: u\n^[b]: x\n\n[a] ^[c][a]"]).2.1 (by decide +kernel)

/-- A definition of 2500 bytes of attributes and 41 references to it. -/
def manyAttributes : Bytes :=
  lit "^[a]: " ++ List.replicate 2500 (chr 'x') ++ lit "\n\n" ++
    (List.replicate 41 (lit "^[][a]")).flatten

theorem copiedBytes_exceeds_limit :
    ¬ copiedBytes (documentClones { tables := asciiTables, options := 0 } none [manyAttributes]) ≤
      documentLimit { tables := asciiTables, options := 0 } none [manyAttributes] := by
  have limit : documentLimit { tables := asciiTables, options := 0 } none [manyAttributes] =
      100000 := by decide +kernel
  have copied : 100000 <
      copiedBytes (documentClones { tables := asciiTables, options := 0 } none [manyAttributes]) := by
    decide +kernel
  omega

end CmarkGfm
