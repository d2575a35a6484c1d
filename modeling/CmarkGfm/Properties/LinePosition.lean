import Mathlib.Logic.Function.Iterate
import CmarkGfm.Parser.Document
import CmarkGfm.Properties.BlockFrames

/-!
# The position in the line

The parser reads a line at a byte offset and at a virtual column, which tabs move to the next tab
stop. Whatever advances the position does so column by column or byte by byte, so what one column
and one byte keep, reading a line keeps.
-/

namespace CmarkGfm

/-! ### Advancing by one -/

/-- `S_advance_offset` by one column. -/
def advanceColumn (input : Bytes) (p : ParserState) : ParserState := advanceOffset input 1 true p

/-- `S_advance_offset` by one byte. -/
def advanceByte (input : Bytes) (p : ParserState) : ParserState := advanceOffset input 1 false p

section

variable (input : Bytes) (p : ParserState)

/-- One column: a tab is passed once the tab stop is reached. -/
theorem advanceColumn_eq : advanceColumn input p =
    if byteAt input p.offset = 0 then p
    else if byteAt input p.offset = 9 then
      { p with
        partiallyConsumedTab := decide (1 < tabStop - p.column % tabStop)
        column := p.column + 1
        offset := p.offset + if 1 < tabStop - p.column % tabStop then 0 else 1 }
    else { p with partiallyConsumedTab := false, offset := p.offset + 1, column := p.column + 1 } := by
  have stop : min 1 (tabStop - p.column % tabStop) = 1 := by
    have := Nat.mod_lt p.column (show 0 < tabStop by decide)
    omega
  unfold advanceColumn advanceOffset
  simp [advanceLoop, stop]

/-- One byte: a tab is passed as a whole. -/
theorem advanceByte_eq : advanceByte input p =
    if byteAt input p.offset = 0 then p
    else
      { p with
        partiallyConsumedTab := false
        column := p.column + if byteAt input p.offset = 9 then tabStop - p.column % tabStop else 1
        offset := p.offset + 1 } := by
  unfold advanceByte advanceOffset
  simp only [Int.toNat_one, advanceLoop]
  split
  next stop =>
    have nul : byteAt input p.offset = 0 := by simpa using stop
    rw [if_pos nul]
  next going =>
    have some : byteAt input p.offset ≠ 0 := by simpa using going
    rw [if_neg some]
    by_cases tab : byteAt input p.offset = 9 <;> simp [tab]

variable {input p}

/-- The first columns of a tab. -/
theorem iterate_advanceColumn_tab (tab : byteAt input p.offset = 9) {k : Nat} (some : 0 < k)
    (within : k ≤ tabStop - p.column % tabStop) :
    (advanceColumn input)^[k] p =
      { p with
        partiallyConsumedTab := decide (k < tabStop - p.column % tabStop)
        column := p.column + k
        offset := p.offset + if k < tabStop - p.column % tabStop then 0 else 1 } := by
  induction k with
  | zero => exact absurd some (lt_irrefl 0)
  | succ k ih =>
    rw [Function.iterate_succ_apply']
    rcases Nat.eq_zero_or_pos k with rfl | more
    · rw [Function.iterate_zero_apply, advanceColumn_eq, tab]
      rfl
    · rw [ih more (by omega), advanceColumn_eq]
      -- the tab is not passed before its last column
      have inside : k < tabStop - p.column % tabStop := within
      have left : tabStop - (p.column + k) % tabStop = tabStop - p.column % tabStop - k := by
        unfold tabStop at inside ⊢
        omega
      simp only [inside, if_true, Nat.add_zero, tab, left]
      have last : 1 < tabStop - p.column % tabStop - k ↔ k + 1 < tabStop - p.column % tabStop := by
        omega
      simp [last, Nat.add_assoc]

variable (input p)

theorem advanceLoop_columns (fuel count : Nat) (enough : count ≤ fuel) :
    advanceLoop input true fuel count p = (advanceColumn input)^[count] p := by
  induction fuel generalizing count p with
  | zero =>
    rw [Nat.le_zero.mp enough]
    rfl
  | succ fuel ih =>
    cases count with
    | zero => rfl
    | succ count =>
      unfold advanceLoop
      by_cases nul : byteAt input p.offset = 0
      · have still : advanceColumn input p = p := by rw [advanceColumn_eq, if_pos nul]
        simp [nul, Function.iterate_fixed still]
      · by_cases tab : byteAt input p.offset = 9
        · -- the turn of the loop is that many columns
          have some : 0 < min (count + 1) (tabStop - p.column % tabStop) := by
            have := Nat.mod_lt p.column (show 0 < tabStop by decide)
            omega
          have steps := iterate_advanceColumn_tab tab some (Nat.min_le_right _ _)
          have split : count + 1 = (count + 1 - min (count + 1) (tabStop - p.column % tabStop)) +
              min (count + 1) (tabStop - p.column % tabStop) := by omega
          conv_rhs => rw [split, Function.iterate_add_apply, steps]
          have under : min (count + 1) (tabStop - p.column % tabStop) < tabStop - p.column % tabStop ↔
              count + 1 < tabStop - p.column % tabStop := by omega
          simp only [tab, under]
          rw [← ih _ _ (by omega)]
          simp
        · rw [Function.iterate_succ_apply, advanceColumn_eq, if_neg nul, if_neg tab,
            ← ih _ _ (Nat.le_of_succ_le_succ enough)]
          simp [nul, tab]

theorem advanceLoop_bytes (fuel count : Nat) (enough : count ≤ fuel) :
    advanceLoop input false fuel count p = (advanceByte input)^[count] p := by
  induction fuel generalizing count p with
  | zero =>
    rw [Nat.le_zero.mp enough]
    rfl
  | succ fuel ih =>
    cases count with
    | zero => rfl
    | succ count =>
      unfold advanceLoop
      by_cases nul : byteAt input p.offset = 0
      · have still : advanceByte input p = p := by rw [advanceByte_eq, if_pos nul]
        simp [nul, Function.iterate_fixed still]
      · rw [Function.iterate_succ_apply, advanceByte_eq, if_neg nul,
          ← ih _ _ (Nat.le_of_succ_le_succ enough)]
        by_cases tab : byteAt input p.offset = 9 <;> simp [nul, tab]

theorem advanceOffset_columns (count : Int) :
    advanceOffset input count true p = (advanceColumn input)^[count.toNat] p :=
  advanceLoop_columns input p _ _ le_rfl

theorem advanceOffset_bytes (count : Int) :
    advanceOffset input count false p = (advanceByte input)^[count.toNat] p :=
  advanceLoop_bytes input p _ _ le_rfl

variable {p}

/-- What one column and one byte keep, `S_advance_offset` keeps. -/
theorem advanceOffset_keeps {I : ParserState → Prop}
    (column : ∀ q, I q → I (advanceColumn input q)) (byte : ∀ q, I q → I (advanceByte input q))
    (count : Int) (columns : Bool) (holds : I p) : I (advanceOffset input count columns p) := by
  cases columns with
  | true =>
    rw [advanceOffset_columns]
    exact Function.Iterate.rec I holds column count.toNat
  | false =>
    rw [advanceOffset_bytes]
    exact Function.Iterate.rec I holds byte count.toNat

/-- No block is touched. -/
theorem nodes_advanceOffset (count : Int) (columns : Bool) (p : ParserState) :
    (advanceOffset input count columns p).nodes = p.nodes := by
  apply advanceOffset_keeps input (I := fun q => q.nodes = p.nodes)
  · intro q same
    rw [advanceColumn_eq]
    split_ifs <;> exact same
  · intro q same
    rw [advanceByte_eq]
    split_ifs <;> exact same
  · rfl

end

/-! ### Columns and tab stops -/

/-- The column behind a byte: a tab goes on to the next tab stop. -/
def nextColumn (column : Nat) (c : UInt8) : Nat :=
  if c = 9 then column + (tabStop - column % tabStop) else column + 1

/-- The virtual column of an offset. -/
def virtualColumn (input : Bytes) (offset : Nat) : Nat := (input.take offset).foldl nextColumn 0

/-- The column is that of the offset and `part` columns of a tab at the offset. -/
structure PartOfTab (input : Bytes) (p : ParserState) (part : Nat) : Prop where
  column : p.column = virtualColumn input p.offset + part
  flag : p.partiallyConsumedTab = true ↔ part ≠ 0
  tab : part ≠ 0 → byteAt input p.offset = 9 ∧
    part < tabStop - virtualColumn input p.offset % tabStop

section

variable {input : Bytes} {p : ParserState}

theorem virtualColumn_succ {offset : Nat} (some : byteAt input offset ≠ 0) :
    virtualColumn input (offset + 1) = nextColumn (virtualColumn input offset) (byteAt input offset) := by
  have inside := lt_length_of_byteAt some
  unfold virtualColumn
  rw [List.take_succ_eq_append_getElem inside, List.foldl_append, byteAt_eq_getElem inside]
  rfl

/-- The tab stop behind a tab is the same from every column inside it. -/
theorem add_tabStop_sub_mod {v part : Nat} (inside : part < tabStop - v % tabStop) :
    v + part + (tabStop - (v + part) % tabStop) = v + (tabStop - v % tabStop) := by
  unfold tabStop at inside ⊢
  omega

theorem partOfTab_advanceColumn (on : ∃ part, PartOfTab input p part) :
    ∃ part, PartOfTab input (advanceColumn input p) part := by
  obtain ⟨part, column, flag, inTab⟩ := on
  rw [advanceColumn_eq]
  split
  next => exact ⟨part, column, flag, inTab⟩
  next some =>
    split
    next tab =>
      -- one column of the tab is consumed, or the last one, and the tab is passed
      have inside : part < tabStop - virtualColumn input p.offset % tabStop := by
        rcases Nat.eq_zero_or_pos part with rfl | more
        · have := Nat.mod_lt (virtualColumn input p.offset) (show 0 < tabStop by decide)
          omega
        · exact (inTab (Nat.ne_of_gt more)).2
      have stop := add_tabStop_sub_mod inside
      by_cases last : 1 < tabStop - p.column % tabStop
      · refine ⟨part + 1, ?_, ?_, ?_⟩
        · rw [if_pos last, Nat.add_zero, ← Nat.add_assoc, ← column]
        · simp [last]
        · intro _
          rw [column] at last
          simp only [column, if_pos last, Nat.add_zero]
          exact ⟨tab, by omega⟩
      · refine ⟨0, ?_, ?_, fun more => absurd rfl more⟩
        · simp only [if_neg last]
          rw [virtualColumn_succ some, nextColumn, if_pos tab]
          rw [column] at last ⊢
          omega
        · simp [last]
    next other =>
      have none : part = 0 := by
        by_contra more
        exact other (inTab more).1
      refine ⟨0, ?_, ?_, fun more => absurd rfl more⟩
      · simp only [Nat.add_zero]
        rw [virtualColumn_succ some, nextColumn, if_neg other, column, none, Nat.add_zero]
      · simp

theorem partOfTab_advanceByte (on : ∃ part, PartOfTab input p part) :
    ∃ part, PartOfTab input (advanceByte input p) part := by
  obtain ⟨part, column, flag, inTab⟩ := on
  rw [advanceByte_eq]
  split
  next => exact ⟨part, column, flag, inTab⟩
  next some =>
    refine ⟨0, ?_, ?_, fun more => absurd rfl more⟩
    · simp only [Nat.add_zero]
      rw [virtualColumn_succ some, nextColumn, column]
      rcases Nat.eq_zero_or_pos part with rfl | more
      · split
        next => rfl
        next => rfl
      · obtain ⟨tab, inside⟩ := inTab (Nat.ne_of_gt more)
        rw [if_pos tab, if_pos tab, add_tabStop_sub_mod inside]
    · simp

variable (input p)

/-- Columns add up. -/
theorem advanceOffset_add (m n : Nat) :
    advanceOffset input n true (advanceOffset input m true p) = advanceOffset input (m + n) true p := by
  have sum : ((m : Int) + n).toNat = n + m := by omega
  rw [advanceOffset_columns, advanceOffset_columns, advanceOffset_columns, sum,
    Function.iterate_add_apply]
  rfl

/-- The calls of `S_advance_offset` on a line, each with its count and its mode. -/
def advanceOffsets (calls : List (Int × Bool)) : ParserState :=
  calls.foldl (fun p call => advanceOffset input call.1 call.2 p) p

theorem partOfTab_advanceOffsets (calls : List (Int × Bool)) (on : ∃ part, PartOfTab input p part) :
    ∃ part, PartOfTab input (advanceOffsets input p calls) part := by
  induction calls generalizing p with
  | nil => exact on
  | cons call rest ih =>
    apply ih
    apply advanceOffset_keeps input (I := fun q => ∃ part, PartOfTab input q part)
    · intro q
      exact partOfTab_advanceColumn
    · intro q
      exact partOfTab_advanceByte
    · exact on

/-- From the start of the line, the column is always the virtual column of the offset and what is
consumed of a tab there, the flag says whether that is anything, and columns add up. -/
theorem advanceOffsets_columns (calls : List (Int × Bool)) :
    (∃ part, PartOfTab input
      (advanceOffsets input { p with offset := 0, column := 0, partiallyConsumedTab := false } calls)
        part) ∧
    ∀ m n : Nat,
      advanceOffset input n true (advanceOffset input m true
        (advanceOffsets input { p with offset := 0, column := 0, partiallyConsumedTab := false }
          calls)) =
      advanceOffset input (m + n) true
        (advanceOffsets input { p with offset := 0, column := 0, partiallyConsumedTab := false }
          calls) := by
  constructor
  · apply partOfTab_advanceOffsets
    exact ⟨0, rfl, by simp, fun more => absurd rfl more⟩
  · intro m n
    apply advanceOffset_add

end

/-! ### What the blocks do not move -/

/-- The fields of the parser about the line that is read. -/
structure LinePlace where
  offset : Nat
  column : Nat
  partiallyConsumedTab : Bool
  firstNonspace : Nat
  firstNonspaceColumn : Nat
  thematicBreakKillPos : Nat
  indent : Int
  blank : Bool

def ParserState.place (p : ParserState) : LinePlace where
  offset := p.offset
  column := p.column
  partiallyConsumedTab := p.partiallyConsumedTab
  firstNonspace := p.firstNonspace
  firstNonspaceColumn := p.firstNonspaceColumn
  thematicBreakKillPos := p.thematicBreakKillPos
  indent := p.indent
  blank := p.blank

section

variable (P : Config) (p : ParserState)

theorem place_endsWithBlankLineFrom (fuel : Nat) (node : NodeId) :
    (endsWithBlankLineFrom fuel node p).1.place = p.place := by
  induction fuel generalizing node p with
  | zero => rfl
  | succ fuel ih =>
    unfold endsWithBlankLineFrom
    split
    next => rfl
    next =>
      extract_lets checked
      split
      next =>
        split
        next => exact ih checked _
        next => rfl
      next => rfl

theorem place_looseSubitems (itemHasNext : Bool) (subitems : List NodeId) :
    (looseSubitems itemHasNext subitems p).1.place = p.place := by
  induction subitems generalizing p with
  | nil => rfl
  | cons subitem rest ih =>
    have blank := place_endsWithBlankLineFrom p p.nextId subitem
    unfold looseSubitems
    split
    next =>
      unfold endsWithBlankLine
      generalize endsWithBlankLineFrom p.nextId subitem p = r at blank
      obtain ⟨p', ends⟩ := r
      cases ends with
      | true => exact blank
      | false => exact (ih p').trans blank
    next => exact ih p

theorem place_looseItems (items : List NodeId) : (looseItems items p).1.place = p.place := by
  induction items generalizing p with
  | nil => rfl
  | cons item rest ih =>
    have subitems := place_looseSubitems p (!rest.isEmpty) (p.childrenOf item)
    unfold looseItems
    split
    next => rfl
    next =>
      generalize looseSubitems (!rest.isEmpty) (p.childrenOf item) p = r at subitems
      obtain ⟨p', loose⟩ := r
      cases loose with
      | true => exact subitems
      | false => exact (ih p').trans subitems

theorem place_freeBlock (b : NodeId) : (p.freeBlock b).place = p.place := by
  unfold ParserState.freeBlock
  split <;> rfl

theorem place_finalizeContent (b : NodeId) : (finalizeContent P b p).place = p.place := by
  unfold finalizeContent
  split
  next =>
    unfold resolveReferenceLinkDefinitions
    extract_lets content
    generalize resolveReferences P.tables content.length content p.refmap = r
    obtain ⟨rest, refmap⟩ := r
    dsimp only
    split
    next => exact place_freeBlock _ b
    next => rfl
  next =>
    unfold finalizeCode
    extract_lets
    split <;> rfl
  next => rfl
  next =>
    have items := place_looseItems p (p.childrenOf b)
    generalize looseItems (p.childrenOf b) p = r at items
    obtain ⟨q, loose⟩ := r
    exact items
  next => rfl

theorem place_finalize (b : NodeId) : (finalize P b p).1.place = p.place :=
  place_finalizeContent P
    (setEnd b ((p.assert (p.isOpen b)).modifyData b fun d => { d with isOpen := false })) b

theorem place_acceptingParent (blockType : NodeType) (fuel : Nat) (parent : NodeId) :
    (acceptingParent P blockType fuel parent p).1.place = p.place := by
  induction fuel generalizing parent p with
  | zero => rfl
  | succ fuel ih =>
    unfold acceptingParent
    split
    next => rfl
    next =>
      have closed := place_finalize P p parent
      generalize finalize P parent p = r at closed ⊢
      obtain ⟨q, grandparent⟩ := r
      cases grandparent with
      | some grandparent => exact (ih q grandparent).trans closed
      | none => exact closed

theorem place_addChild (parent : NodeId) (blockType : NodeType) (startColumn : Int) :
    (addChild P parent blockType startColumn p).1.place = p.place :=
  place_acceptingParent P p blockType (p.nextId + 1) parent

theorem place_resolveReferenceLinkDefinitions (T : Tables) (b : NodeId) :
    (resolveReferenceLinkDefinitions T b p).1.place = p.place := rfl

end

/-! ### Advancing through the line -/

/-- The second state comes from the first by `S_advance_offset`, whatever happens to the
blocks. -/
inductive ReadsOn (input : Bytes) : ParserState → ParserState → Prop
  | still {p p' : ParserState} : p'.place = p.place → ReadsOn input p p'
  | advance (count : Int) (columns : Bool) (p : ParserState) :
      ReadsOn input p (advanceOffset input count columns p)
  | trans {p p' p'' : ParserState} : ReadsOn input p p' → ReadsOn input p' p'' →
      ReadsOn input p p''

/-- The callbacks of an extension move in the line by `S_advance_offset` alone. -/
structure Extension.AdvancesOnly (ext : Extension) : Prop where
  lastBlockMatches : ∀ f, ext.lastBlockMatches = some f →
    ∀ options p input container, ReadsOn input p (f options p input container).1
  tryOpeningBlock : ∀ f, ext.tryOpeningBlock = some f →
    ∀ options indented p container input, ReadsOn input p (f options indented p container input).1

/-- What one column and one byte keep of the line, advancing keeps. -/
theorem ReadsOn.keeps {input : Bytes} {p p' : ParserState} (moved : ReadsOn input p p')
    {I : ParserState → Prop} (frame : ∀ {q q'}, q'.place = q.place → I q → I q')
    (column : ∀ q, I q → I (advanceColumn input q)) (byte : ∀ q, I q → I (advanceByte input q))
    (holds : I p) : I p' := by
  induction moved with
  | still same => exact frame same holds
  | advance count columns p => exact advanceOffset_keeps input column byte count columns holds
  | trans _ _ first second => exact second (first holds)

section

variable {P : Config} (input : Bytes) (p : ParserState) (container : NodeId)

theorem ReadsOn.refl : ReadsOn input p p := .still rfl

theorem readsOn_advanceTo (pos : Nat) : ReadsOn input p (advanceTo input pos p) :=
  .advance _ _ p

theorem readsOn_advanceOptionalSpace : ReadsOn input p (advanceOptionalSpace input p) := by
  unfold advanceOptionalSpace
  split
  next => exact .advance _ _ p
  next => exact .refl input p

theorem readsOn_skipFenceOffset (n : Nat) : ReadsOn input p (skipFenceOffset input n p) := by
  induction n generalizing p with
  | zero => exact .refl input p
  | succ n ih =>
    unfold skipFenceOffset
    split
    next => exact .trans (.advance _ _ p) (ih _)
    next => exact .refl input p

theorem readsOn_skipMarkerSpaces (saveColumn fuel : Nat) :
    ReadsOn input p (skipMarkerSpaces input saveColumn fuel p) := by
  induction fuel generalizing p with
  | zero => exact .refl input p
  | succ fuel ih =>
    unfold skipMarkerSpaces
    split
    next => exact .trans (.advance _ _ p) (ih _)
    next => exact .refl input p

/-- The rewind gives back the position behind the marker, so it is as if the spaces had not been
looked at. -/
theorem readsOn_markerPadding (matched : Nat) :
    ReadsOn input p (markerPadding input matched p).1 := by
  unfold markerPadding
  simp only
  split
  next =>
    dsimp only
    split
    next => exact .advance _ _ p
    next => exact .refl input p
  next => exact readsOn_skipMarkerSpaces input p _ _

/-! ### Prefixes and block starts -/

theorem readsOn_parseBlockPrefix
    (extensions : ∀ ext ∈ P.syntaxExtensions, ext.AdvancesOnly) :
    ReadsOn input p (parseBlockPrefix P input container p).1 := by
  unfold parseBlockPrefix
  split
  next ext found =>
    obtain ⟨i, _, here⟩ := Option.bind_eq_some_iff.mp found
    have only := extensions ext (List.mem_of_getElem? here)
    unfold parseExtensionBlock
    split
    next f callback => exact only.lastBlockMatches f callback P.options p input container
    next => exact .refl input p
  next =>
    split
    next =>
      unfold parseBlockQuotePrefix
      split
      next => exact .trans (.advance _ _ p) (readsOn_advanceOptionalSpace input _)
      next => exact .refl input p
    next =>
      unfold parseNodeItemPrefix
      extract_lets list
      split
      next => exact .advance _ _ p
      next =>
        split
        next => exact readsOn_advanceTo input p _
        next => exact .refl input p
    next =>
      unfold parseCodeBlockPrefix
      extract_lets code matched
      split
      next =>
        split
        next => exact .advance _ _ p
        next =>
          split
          next => exact readsOn_advanceTo input p _
          next => exact .refl input p
      next =>
        split
        next => exact .trans (.advance _ _ p) (.still (place_finalize P _ container))
        next => exact readsOn_skipFenceOffset input p _
    next => exact .refl input p
    next => exact .still rfl
    next => exact .refl input p
    next =>
      unfold parseFootnoteDefinitionBlockPrefix
      split
      next => exact .advance _ _ p
      next => exact .refl input p
    next => exact .refl input p

/-- Behind the marker, only the padding is read. -/
theorem readsOn_openListItem (matched : Nat) (data : ListData) :
    ReadsOn input (advanceTo input (p.firstNonspace + matched) p)
      (openListItem P input matched data container p).1 := by
  unfold openListItem
  extract_lets contType startColumn
  have padded := readsOn_markerPadding input (advanceTo input (p.firstNonspace + matched) p) matched
  generalize markerPadding input matched _ = r at padded ⊢
  obtain ⟨q, padding⟩ := r
  refine .trans padded ?_
  dsimp only
  split
  next =>
    have listed := place_addChild P q container .list startColumn
    generalize addChild P container .list startColumn q = r at listed ⊢
    exact .still ((place_addChild P _ _ .item startColumn).trans listed)
  next => exact .still (place_addChild P q container .item startColumn)

theorem readsOn_openBlock (start : BlockStart) :
    ReadsOn input p (openBlock P input container p start).1 := by
  have added (q : ParserState) (t : NodeType) (startColumn : Int) (f : NodeData → NodeData) :
      ReadsOn input q ((addChild P container t startColumn q).1.modifyData
        (addChild P container t startColumn q).2 f) :=
    .still (place_addChild P q container t startColumn)
  cases start with
  | blockQuote =>
    refine .trans ?_ (.still (place_addChild P _ container .blockQuote _))
    exact .trans (readsOn_advanceTo input p _) (readsOn_advanceOptionalSpace input _)
  | atxHeading matched =>
    refine .trans (readsOn_advanceTo input p (p.firstNonspace + matched)) ?_
    exact added _ .heading (p.firstNonspace + 1) fun d =>
      { d with
        as := .heading ((input.drop p.firstNonspace).takeWhile (· == chr '#')).length false
        internalOffset := matched }
  | fencedCode matched => exact .trans (added p .codeBlock _ _) (readsOn_advanceTo input _ _)
  | htmlBlock matched =>
    exact added p .htmlBlock (p.firstNonspace + 1) fun d => { d with as := .htmlBlockType matched }
  | setextHeading lev =>
    show ReadsOn input p (setextHeading P input lev container p)
    have resolved := place_resolveReferenceLinkDefinitions p P.tables container
    unfold setextHeading
    generalize resolveReferenceLinkDefinitions P.tables container p = r at resolved ⊢
    obtain ⟨q, hasContent⟩ := r
    cases hasContent with
    | true =>
      have retyped : ReadsOn input p (q.modifyData container fun d =>
          { d with type := .heading, as := .heading lev true }) := .still resolved
      exact .trans retyped (readsOn_advanceTo input _ _)
    | false => exact .still resolved
  | thematicBreak =>
    have opened : ReadsOn input p (addChild P container .thematicBreak (p.firstNonspace + 1) p).1 :=
      .still (place_addChild P p container _ _)
    exact .trans opened (readsOn_advanceTo input _ _)
  | footnoteDefinition matched =>
    refine .trans (readsOn_advanceTo input p (p.firstNonspace + matched)) ?_
    exact .still (place_addChild P _ container .footnoteDefinition (p.firstNonspace + matched + 1))
  | listItem matched data =>
    exact .trans (readsOn_advanceTo input p _) (readsOn_openListItem input p container matched data)
  | indentedCode =>
    refine .trans (.advance codeIndent true p) ?_
    exact .still (place_addChild P _ container .codeBlock
      ((advanceOffset input codeIndent true p).offset + 1))

end

/-! ### The cache of the first character that is not a space -/

/-- The scan of `S_find_first_nonspace` from the position of the parser. -/
def freshNonspace (input : Bytes) (p : ParserState) : Nat × Nat :=
  skipIndent (input.drop p.offset) p.offset p.column (tabStop - p.column % tabStop)

/-- `S_find_first_nonspace` without the cache: it always scans. -/
def scanFirstNonspace (input : Bytes) (p : ParserState) : ParserState :=
  let (firstNonspace, firstNonspaceColumn) := freshNonspace input p
  { p with
    firstNonspace := firstNonspace
    firstNonspaceColumn := firstNonspaceColumn
    indent := (firstNonspaceColumn : Int) - p.column
    blank := isLineEndChar (byteAt input firstNonspace) }

/-- A cached position that is still ahead is where a scan would end. -/
def CacheValid (input : Bytes) (p : ParserState) : Prop :=
  p.offset < p.firstNonspace → freshNonspace input p = (p.firstNonspace, p.firstNonspaceColumn)

/-- The states in which `S_process_line` looks for the first character that is not a space: it
starts a line, checks the prefix of a block, or opens a block. -/
inductive InLine (P : Config) (input : Bytes) : ParserState → Prop
  | start (p : ParserState) : InLine P input (startLine input p)
  | prefixed {p : ParserState} (container : NodeId) : InLine P input p →
      InLine P input (parseBlockPrefix P input container (findFirstNonspace input p)).1
  | opened {p : ParserState} (allMatched maybeLazy : Bool) (depth : Nat) (container : NodeId) :
      InLine P input p →
      InLine P input (openNewBlock P input allMatched maybeLazy depth container p).1

section

variable {P : Config} {input : Bytes} {p q : ParserState}

theorem drop_eq_byteAt_cons {i : Nat} (some : byteAt input i ≠ 0) :
    input.drop i = byteAt input i :: input.drop (i + 1) := by
  have inside := lt_length_of_byteAt some
  rw [byteAt_eq_getElem inside, ← List.drop_eq_getElem_cons inside]

/-- At a byte that is no space or tab the scan ends at once. -/
theorem freshNonspace_of_not_space (other : isSpaceOrTab (byteAt input p.offset) = false) :
    freshNonspace input p = (p.offset, p.column) := by
  obtain ⟨notSpace, notTab⟩ := Bool.or_eq_false_iff.mp other
  unfold freshNonspace
  cases rest : input.drop p.offset with
  | nil => rfl
  | cons c rest' =>
    have here : byteAt input p.offset = c := by
      rw [byteAt, List.getD_eq_getElem?_getD, ← List.head?_drop, rest]
      rfl
    rw [skipIndent, ← here, notSpace, notTab]
    rfl

/-- In front of a space or tab, one column or one byte does not change where the scan ends. -/
theorem freshNonspace_advanceColumn (space : isSpaceOrTab (byteAt input p.offset) = true) :
    freshNonspace input (advanceColumn input p) = freshNonspace input p := by
  have some : byteAt input p.offset ≠ 0 := by
    intro nul
    rw [nul] at space
    cases space
  have cons := drop_eq_byteAt_cons some
  rw [advanceColumn_eq, if_neg some]
  by_cases tab : byteAt input p.offset = 9
  · rw [if_pos tab]
    rw [tab] at cons
    unfold freshNonspace
    by_cases last : 1 < tabStop - p.column % tabStop
    · -- the tab is still there, and its tab stop is the same
      have stop := add_tabStop_sub_mod last
      simp only [if_pos last, Nat.add_zero]
      rw [cons, skipIndent, skipIndent]
      simp [stop]
    · have one : tabStop - p.column % tabStop = 1 := by
        have := Nat.mod_lt p.column (show 0 < tabStop by decide)
        omega
      have next : tabStop - (p.column + 1) % tabStop = tabStop := by
        unfold tabStop at one ⊢
        omega
      simp only [if_neg last]
      rw [cons, skipIndent]
      simp [one, next]
  · have blank : byteAt input p.offset = 32 := by
      simpa [isSpaceOrTab, tab] using space
    rw [if_neg tab]
    rw [blank] at cons
    unfold freshNonspace
    have next : tabStop - (p.column + 1) % tabStop =
        if tabStop - p.column % tabStop - 1 = 0 then tabStop
        else tabStop - p.column % tabStop - 1 := by
      unfold tabStop
      split <;> omega
    dsimp only
    conv_rhs => rw [cons, skipIndent]
    simp [next]

theorem freshNonspace_advanceByte (space : isSpaceOrTab (byteAt input p.offset) = true) :
    freshNonspace input (advanceByte input p) = freshNonspace input p := by
  have some : byteAt input p.offset ≠ 0 := by
    intro nul
    rw [nul] at space
    cases space
  have cons := drop_eq_byteAt_cons some
  rw [advanceByte_eq, if_neg some]
  unfold freshNonspace
  dsimp only
  by_cases tab : byteAt input p.offset = 9
  · have next : tabStop - (p.column + (tabStop - p.column % tabStop)) % tabStop = tabStop := by
      unfold tabStop
      omega
    rw [tab] at cons
    conv_rhs => rw [cons, skipIndent]
    simp [tab, next]
  · have blank : byteAt input p.offset = 32 := by
      simpa [isSpaceOrTab, tab] using space
    have next : tabStop - (p.column + 1) % tabStop =
        if tabStop - p.column % tabStop - 1 = 0 then tabStop
        else tabStop - p.column % tabStop - 1 := by
      unfold tabStop
      split <;> omega
    rw [blank] at cons
    conv_rhs => rw [cons, skipIndent]
    simp [blank, next]

/-- Whatever passes over a space or tab without moving the end of the scan keeps the cache. -/
theorem CacheValid.advance (valid : CacheValid input p) (forward : p.offset ≤ q.offset)
    (nonspace : q.firstNonspace = p.firstNonspace)
    (column : q.firstNonspaceColumn = p.firstNonspaceColumn)
    (same : isSpaceOrTab (byteAt input p.offset) = true →
      freshNonspace input q = freshNonspace input p) : CacheValid input q := by
  intro ahead
  have before : p.offset < p.firstNonspace := by omega
  have scanned := valid before
  rw [nonspace, column, ← scanned]
  apply same
  -- otherwise the scan would have ended at the offset
  by_contra other
  rw [freshNonspace_of_not_space (Bool.eq_false_iff.mpr other)] at scanned
  exact absurd (congrArg Prod.fst scanned) (Nat.ne_of_lt before)

theorem cacheValid_advanceColumn (valid : CacheValid input p) :
    CacheValid input (advanceColumn input p) := by
  apply valid.advance
  · rw [advanceColumn_eq]
    split
    next => exact le_rfl
    next => split <;> exact Nat.le_add_right _ _
  · rw [advanceColumn_eq]
    split
    next => rfl
    next => split <;> rfl
  · rw [advanceColumn_eq]
    split
    next => rfl
    next => split <;> rfl
  · exact freshNonspace_advanceColumn

theorem cacheValid_advanceByte (valid : CacheValid input p) :
    CacheValid input (advanceByte input p) := by
  apply valid.advance
  · rw [advanceByte_eq]
    split
    next => exact le_rfl
    next => exact Nat.le_succ _
  · rw [advanceByte_eq]
    split <;> rfl
  · rw [advanceByte_eq]
    split <;> rfl
  · exact freshNonspace_advanceByte

theorem CacheValid.of_place (valid : CacheValid input p) (same : q.place = p.place) :
    CacheValid input q := by
  have offset : q.offset = p.offset := congrArg LinePlace.offset same
  have column : q.column = p.column := congrArg LinePlace.column same
  apply valid.advance
  · exact offset.ge
  · exact congrArg LinePlace.firstNonspace same
  · exact congrArg LinePlace.firstNonspaceColumn same
  · intro _
    unfold freshNonspace
    rw [offset, column]

theorem ReadsOn.cacheValid (moved : ReadsOn input p q) (valid : CacheValid input p) :
    CacheValid input q :=
  moved.keeps (fun same valid => valid.of_place same) (fun _ => cacheValid_advanceColumn)
    (fun _ => cacheValid_advanceByte) valid

/-- With a valid cache the test for it changes nothing. -/
theorem CacheValid.scan_eq (valid : CacheValid input p) :
    findFirstNonspace input p = scanFirstNonspace input p := by
  unfold findFirstNonspace scanFirstNonspace
  by_cases behind : p.firstNonspace ≤ p.offset
  · simp only [if_pos behind]
    rfl
  · simp only [if_neg behind, valid (Nat.lt_of_not_le behind)]

theorem cacheValid_findFirstNonspace (valid : CacheValid input p) :
    CacheValid input (findFirstNonspace input p) := by
  rw [valid.scan_eq]
  intro _
  rfl

/-- The extensions are asked in turn, and each of them only advances. -/
theorem readsOn_tryOpeningBlocks (p : ParserState) (indented : Bool) (container : NodeId)
    (exts : List Extension) (only : ∀ ext ∈ exts, ext.AdvancesOnly) :
    ReadsOn input p (tryOpeningBlocks P indented input container exts p).1 := by
  induction exts generalizing p with
  | nil => exact .refl input p
  | cons ext rest ih =>
    have later (q : ParserState) := ih q fun e member => only e (List.mem_cons_of_mem ext member)
    unfold tryOpeningBlocks
    split
    next => exact later p
    next f callback =>
      have here := (only ext List.mem_cons_self).tryOpeningBlock f callback P.options indented p
        container input
      generalize f P.options indented p container input = r at here ⊢
      obtain ⟨q, opened⟩ := r
      cases opened with
      | some newContainer => exact here
      | none => exact here.trans (later q)

theorem cacheValid_openNewBlock (extensions : ∀ ext ∈ P.syntaxExtensions, ext.AdvancesOnly)
    (allMatched maybeLazy : Bool) (depth : Nat) (container : NodeId) (valid : CacheValid input p) :
    CacheValid input (openNewBlock P input allMatched maybeLazy depth container p).1 := by
  unfold openNewBlock
  extract_lets p' indented
  have found : CacheValid input p' := cacheValid_findFirstNonspace valid
  obtain ⟨killPos, searched⟩ := findBlockStart_fst input p' P allMatched maybeLazy depth container
  generalize findBlockStart P input allMatched maybeLazy depth container p' = r at searched ⊢
  obtain ⟨q, start⟩ := r
  dsimp only at searched
  have valid' : CacheValid input q := by
    rw [searched]
    exact found
  cases start with
  | some start => exact (readsOn_openBlock input q container start).cacheValid valid'
  | none => exact (readsOn_tryOpeningBlocks q indented container _ extensions).cacheValid valid'

/-- In every state in which the line is looked at, the cache is valid. -/
theorem InLine.cacheValid (extensions : ∀ ext ∈ P.syntaxExtensions, ext.AdvancesOnly)
    (reached : InLine P input p) : CacheValid input p := by
  induction reached with
  | start p => exact fun ahead => absurd ahead (Nat.not_lt_zero _)
  | prefixed container _ ih =>
    exact (readsOn_parseBlockPrefix input _ container extensions).cacheValid
      (cacheValid_findFirstNonspace ih)
  | opened allMatched maybeLazy depth container _ ih =>
    exact cacheValid_openNewBlock extensions allMatched maybeLazy depth container ih

theorem le_skipIndent (bytes : Bytes) (offset column charsToTab : Nat) :
    offset ≤ (skipIndent bytes offset column charsToTab).1 := by
  induction bytes generalizing offset column charsToTab with
  | nil => exact le_rfl
  | cons c rest ih =>
    unfold skipIndent
    split
    next => exact (Nat.le_succ offset).trans (ih _ _ _)
    next =>
      split
      next => exact (Nat.le_succ offset).trans (ih _ _ _)
      next => exact le_rfl

theorem offset_le_firstNonspace (input : Bytes) (p : ParserState) :
    (findFirstNonspace input p).offset ≤ (findFirstNonspace input p).firstNonspace := by
  show p.offset ≤ (if p.firstNonspace ≤ p.offset then
      skipIndent (input.drop p.offset) p.offset p.column (tabStop - p.column % tabStop)
    else (p.firstNonspace, p.firstNonspaceColumn)).1
  split
  next => exact le_skipIndent _ _ _ _
  next ahead => exact Nat.le_of_not_le ahead

theorem le_skipIndent_column (bytes : Bytes) (offset column charsToTab : Nat) :
    column ≤ (skipIndent bytes offset column charsToTab).2 := by
  induction bytes generalizing offset column charsToTab with
  | nil => exact le_rfl
  | cons c rest ih =>
    unfold skipIndent
    split
    next => exact (Nat.le_succ column).trans (ih _ _ _)
    next =>
      split
      next => exact (Nat.le_add_right column charsToTab).trans (ih _ _ _)
      next => exact le_rfl

/-- Whatever the line was read with before, `S_find_first_nonspace` leaves what a fresh scan gives,
and the indentation is not negative. -/
theorem InLine.findFirstNonspace_eq (extensions : ∀ ext ∈ P.syntaxExtensions, ext.AdvancesOnly)
    (reached : InLine P input p) :
    findFirstNonspace input p = scanFirstNonspace input p ∧
      0 ≤ (findFirstNonspace input p).indent := by
  have fresh := (reached.cacheValid extensions).scan_eq
  refine ⟨fresh, ?_⟩
  rw [fresh]
  have right : p.column ≤ (freshNonspace input p).2 := le_skipIndent_column _ _ _ _
  show (0 : Int) ≤ (freshNonspace input p).2 - p.column
  omega

/-- Behind the marker of a block quote that has consumed a part of a tab. -/
theorem findFirstNonspace_eq_in_tab :
    let p := (openNewBlock ⟨asciiTables, 0, []⟩ (lit ">\t\tb\n") true false 1 0
      (startLine (lit ">\t\tb\n") initialState)).1
    findFirstNonspace (lit ">\t\tb\n") p = scanFirstNonspace (lit ">\t\tb\n") p ∧
      0 ≤ (findFirstNonspace (lit ">\t\tb\n") p).indent :=
  InLine.findFirstNonspace_eq (P := ⟨asciiTables, 0, []⟩) nofun (.opened _ _ _ _ (.start initialState))

/-! ### The states of a line are those of its run -/

theorem InLine.checkOpenBlocksFrom (fuel : Nat) (container : NodeId)
    (reached : InLine P input p) :
    InLine P input (checkOpenBlocksFrom P input fuel container p).1 := by
  induction fuel generalizing container p with
  | zero => exact reached
  | succ fuel ih =>
    unfold CmarkGfm.checkOpenBlocksFrom
    split
    next => exact reached
    next child _ =>
      have checked := InLine.prefixed child reached
      generalize parseBlockPrefix P input child (findFirstNonspace input p) = r at checked ⊢
      obtain ⟨q, result⟩ := r
      cases result with
      | matched => exact ih child checked
      | unmatched => exact checked
      | closed => exact checked

theorem InLine.openNewBlocksFrom (allMatched : Bool) (fuel : Nat) (maybeLazy : Bool)
    (depth : Nat) (container : NodeId) (reached : InLine P input p) :
    InLine P input (openNewBlocksFrom P input allMatched fuel maybeLazy depth container p).1 := by
  induction fuel generalizing maybeLazy depth container p with
  | zero => exact reached
  | succ fuel ih =>
    unfold CmarkGfm.openNewBlocksFrom
    split
    next => exact reached
    next =>
      have opened := InLine.opened allMatched maybeLazy (depth + 1) container reached
      generalize openNewBlock P input allMatched maybeLazy (depth + 1) container p = r at opened ⊢
      obtain ⟨q, newContainer⟩ := r
      cases newContainer with
      | none => exact opened
      | some newContainer =>
        dsimp only
        split
        next => exact opened
        next => exact ih false (depth + 1) newContainer opened

end

end CmarkGfm
