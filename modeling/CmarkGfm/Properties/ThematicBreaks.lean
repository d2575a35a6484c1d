import CmarkGfm.Properties.LinePosition

/-!
# Thematic breaks that a line has ruled out

A scan for a thematic break that fails records where it failed, and no scan starts before that
position again. `FailsFrom` says that such a scan would fail at the same place, so opening blocks
does the same with the guard and without it.
-/

namespace CmarkGfm

/-! ### The loop of the scan -/

/-- What the loop passes: the marker, spaces and tabs. -/
def passesBreak (c x : UInt8) : Bool := x != 0 && (x == c || isSpaceOrTab x)

/-- The loop passes the longest run it may pass, counts the markers in it, and reads the byte
behind it. -/
theorem thematicBreakLoop_eq (c : UInt8) (bytes : Bytes) (n count : Nat) :
    thematicBreakLoop c bytes n count =
      (n + (bytes.takeWhile (passesBreak c)).length,
        count + (bytes.takeWhile (passesBreak c)).count c,
        byteAt bytes (bytes.takeWhile (passesBreak c)).length) := by
  induction bytes generalizing n count with
  | nil => rfl
  | cons x rest ih =>
    unfold thematicBreakLoop
    by_cases nul : x = 0
    · simp [nul, passesBreak, byteAt]
    · by_cases marker : x = c
      · -- the marker is counted
        have notNul : c ≠ 0 := marker ▸ nul
        have passes : passesBreak c x = true := by simp [passesBreak, marker, notNul]
        rw [List.takeWhile_cons_of_pos passes]
        simp [marker, notNul, ih, byteAt, Nat.add_assoc, Nat.add_comm 1]
      · by_cases space : isSpaceOrTab x = true
        · have passes : passesBreak c x = true := by simp [passesBreak, nul, space]
          have other : (x != 32 && x != 9) = false := by
            simp only [isSpaceOrTab, Bool.or_eq_true, beq_iff_eq] at space
            rcases space with rfl | rfl <;> rfl
          rw [List.takeWhile_cons_of_pos passes]
          simp [nul, marker, other, ih, byteAt, Nat.add_assoc, Nat.add_comm 1]
        · have stops : passesBreak c x = false := by simp [passesBreak, marker, space]
          have other : (x != 32 && x != 9) = true := by
            simpa [isSpaceOrTab, not_or] using space
          rw [List.takeWhile_cons_of_neg (by simp [stops])]
          simp [nul, marker, other, byteAt]

theorem takeWhile_drop {α : Type} (f : α → Bool) (l : List α) {k : Nat}
    (within : k ≤ (l.takeWhile f).length) :
    (l.drop k).takeWhile f = (l.takeWhile f).drop k := by
  induction k generalizing l with
  | zero => rfl
  | succ k ih =>
    cases l with
    | nil => rfl
    | cons x rest =>
      by_cases holds : f x = true
      · rw [List.takeWhile_cons_of_pos holds] at within ⊢
        exact ih rest (Nat.le_of_succ_le_succ within)
      · rw [List.takeWhile_cons_of_neg holds] at within
        exact absurd within (Nat.not_succ_le_zero k)

/-! ### The positions that failed -/

/-- From every position in the interval that is not a space, the scan fails at the end of the
interval. -/
def FailsFrom (input : Bytes) (lo hi : Nat) : Prop :=
  ∀ q : ParserState, lo ≤ q.firstNonspace → q.firstNonspace < hi →
    isSpaceOrTab (byteAt input q.firstNonspace) = false →
    scanThematicBreak input q = ({ q with thematicBreakKillPos := hi }, 0)

/-- `thematic_break_kill_pos` is where a scan failed that may start again. -/
def KillValid (input : Bytes) (p : ParserState) : Prop :=
  FailsFrom input p.firstNonspace p.thematicBreakKillPos

section

variable {input : Bytes} {p q : ParserState}

theorem FailsFrom.mono {lo lo' hi : Nat} (fails : FailsFrom input lo hi) (later : lo ≤ lo') :
    FailsFrom input lo' hi := fun q from_lo => fails q (later.trans from_lo)

/-- The scan at a marker, by the run behind it. -/
theorem scanThematicBreak_marker {c : UInt8} (here : byteAt input p.firstNonspace = c)
    (marker : c = chr '*' ∨ c = chr '_' ∨ c = chr '-') :
    scanThematicBreak input p =
      let passed := (input.drop (p.firstNonspace + 1)).takeWhile (passesBreak c)
      let stop := p.firstNonspace + 1 + passed.length
      if 3 ≤ 1 + passed.count c ∧ isLineEndChar (byteAt input stop) = true then
        (p, stop - p.firstNonspace + 1)
      else ({ p with thematicBreakKillPos := stop }, 0) := by
  have known : (c == chr '*' || c == chr '_' || c == chr '-') = true := by
    rcases marker with rfl | rfl | rfl <;> rfl
  unfold scanThematicBreak
  simp only [here, known, Bool.not_true, Bool.false_eq_true, if_false]
  rw [thematicBreakLoop_eq]
  have behind (i : Nat) : byteAt (input.drop (p.firstNonspace + 1)) i =
      byteAt input (p.firstNonspace + 1 + i) := by
    simp [byteAt, List.getD_eq_getElem?_getD]
  simp only [Nat.zero_add, behind, isLineEndChar]
  simp [or_comm]

/-- A scan that fails fails for all the markers that it has passed: they are fewer, and the byte
behind them is the same. -/
theorem failsFrom_scanThematicBreak (failed : (scanThematicBreak input p).2 = 0) :
    FailsFrom input p.firstNonspace (scanThematicBreak input p).1.thematicBreakKillPos := by
  by_cases marker : byteAt input p.firstNonspace = chr '*' ∨
      byteAt input p.firstNonspace = chr '_' ∨ byteAt input p.firstNonspace = chr '-'
  · obtain ⟨c, here⟩ : ∃ c, byteAt input p.firstNonspace = c := ⟨_, rfl⟩
    rw [here] at marker
    generalize result : scanThematicBreak input p = r at failed ⊢
    rw [scanThematicBreak_marker here marker] at result
    extract_lets passed stop at result
    split at result
    next =>
      subst result
      exact absurd failed (by simp)
    next fails =>
      subst result
      intro q from_pos before other
      dsimp only [stop] at before
      -- the byte at the later position was passed, so it is the marker
      obtain ⟨k, later⟩ := Nat.le.dest from_pos
      have again : byteAt input q.firstNonspace = c := by
        cases k with
        | zero => rw [← later, Nat.add_zero, here]
        | succ k =>
          have inside : k < passed.length := by omega
          have passes := List.all_eq_true.mp
            (List.all_takeWhile (l := input.drop (p.firstNonspace + 1)) (p := passesBreak c)) _
            (List.getElem_mem inside)
          have same : passed[k] = byteAt input q.firstNonspace := by
            have inDrop := (List.takeWhile_prefix (l := input.drop (p.firstNonspace + 1))
              (passesBreak c)).getElem inside
            rw [inDrop, List.getElem_drop, byteAt_eq_getElem]
            · congr 1
              omega
            · have := (List.takeWhile_sublist (l := input.drop (p.firstNonspace + 1))
                (passesBreak c)).length_le
              rw [List.length_drop] at this
              change passed.length ≤ _ at this
              omega
          rw [show _ = passed[k] from rfl, same] at passes
          simpa [passesBreak, other] using (Bool.and_eq_true_iff.mp passes).2
      rw [scanThematicBreak_marker again marker]
      have within : k ≤ passed.length := by omega
      have rest : (input.drop (q.firstNonspace + 1)).takeWhile (passesBreak c) = passed.drop k := by
        rw [← takeWhile_drop _ _ within, List.drop_drop]
        congr 2
        omega
      have samePlace : q.firstNonspace + 1 + (passed.drop k).length = stop := by
        rw [List.length_drop]
        dsimp only [stop]
        omega
      have fewer : (passed.drop k).count c ≤ passed.count c := (List.drop_sublist k passed).count_le c
      dsimp only
      rw [rest, samePlace, if_neg]
      rintro ⟨enough, lineEnd⟩
      exact fails ⟨by omega, lineEnd⟩
  · have killed : (scanThematicBreak input p).1.thematicBreakKillPos = p.firstNonspace := by
      simp only [not_or] at marker
      unfold scanThematicBreak
      simp [marker]
    rw [killed]
    intro q from_pos before
    exact absurd before (Nat.not_lt_of_le from_pos)

/-! ### The states of a line -/

theorem ReadsOn.killValid (moved : ReadsOn input p q) (valid : KillValid input p) :
    KillValid input q := by
  have same : q.firstNonspace = p.firstNonspace ∧
      q.thematicBreakKillPos = p.thematicBreakKillPos := by
    refine moved.keeps (I := fun q => q.firstNonspace = p.firstNonspace ∧
      q.thematicBreakKillPos = p.thematicBreakKillPos) ?_ ?_ ?_ ⟨rfl, rfl⟩
    · intro q q' place kept
      exact ⟨(congrArg LinePlace.firstNonspace place).trans kept.1,
        (congrArg LinePlace.thematicBreakKillPos place).trans kept.2⟩
    · intro q kept
      rw [advanceColumn_eq]
      split
      next => exact kept
      next => split <;> exact kept
    · intro q kept
      rw [advanceByte_eq]
      split <;> exact kept
  unfold KillValid
  rw [same.1, same.2]
  exact valid

/-- `first_nonspace` only moves on. -/
theorem firstNonspace_le_findFirstNonspace (valid : CacheValid input p) :
    p.firstNonspace ≤ (findFirstNonspace input p).firstNonspace := by
  rcases Nat.lt_or_ge p.offset p.firstNonspace with ahead | behind
  · rw [valid.scan_eq]
    exact (congrArg Prod.fst (valid ahead)).ge
  · refine behind.trans ?_
    rw [valid.scan_eq]
    exact le_skipIndent _ _ _ _

theorem killValid_findFirstNonspace (cached : CacheValid input p) (valid : KillValid input p) :
    KillValid input (findFirstNonspace input p) :=
  FailsFrom.mono valid (firstNonspace_le_findFirstNonspace cached)

/-- The first character that is not a space is none. -/
theorem isSpaceOrTab_skipIndent (bytes : Bytes) (offset column charsToTab : Nat) :
    isSpaceOrTab (byteAt bytes ((skipIndent bytes offset column charsToTab).1 - offset)) = false := by
  induction bytes generalizing offset column charsToTab with
  | nil => rfl
  | cons c rest ih =>
    have later (column' charsToTab' : Nat) : isSpaceOrTab (byteAt (c :: rest)
        ((skipIndent rest (offset + 1) column' charsToTab').1 - offset)) = false := by
      have right := le_skipIndent rest (offset + 1) column' charsToTab'
      have found := ih (offset + 1) column' charsToTab'
      obtain ⟨k, eq⟩ := Nat.le.dest right
      rw [← eq] at found ⊢
      rw [Nat.add_sub_cancel_left] at found
      rw [Nat.add_assoc, Nat.add_sub_cancel_left, Nat.add_comm]
      exact found
    unfold skipIndent
    split
    next => exact later _ _
    next notSpace =>
      split
      next => exact later _ _
      next notTab =>
        rw [Nat.sub_self]
        simpa [isSpaceOrTab, byteAt] using And.intro notSpace notTab

theorem isSpaceOrTab_findFirstNonspace (valid : CacheValid input p) :
    isSpaceOrTab (byteAt input (findFirstNonspace input p).firstNonspace) = false := by
  have found := isSpaceOrTab_skipIndent (input.drop p.offset) p.offset p.column
    (tabStop - p.column % tabStop)
  have right := le_skipIndent (input.drop p.offset) p.offset p.column (tabStop - p.column % tabStop)
  rw [valid.scan_eq]
  show isSpaceOrTab (byteAt input (freshNonspace input p).1) = false
  obtain ⟨k, eq⟩ := Nat.le.dest right
  unfold freshNonspace
  rw [← eq] at found ⊢
  rw [Nat.add_sub_cancel_left] at found
  simpa [byteAt, List.getD_eq_getElem?_getD] using found

end

/-! ### Block opening without the guard -/

/-- `findBlockStart` with the guard on `thematic_break_kill_pos`, or without it. -/
def findBlockStartWith (guarded : Bool) (P : Config) (input : Bytes) (allMatched maybeLazy : Bool)
    (depth : Nat) (container : NodeId) (p : ParserState) : ParserState × Option BlockStart :=
  let indented := p.indent ≥ codeIndent
  let contType := p.typeOf container
  let pos := p.firstNonspace
  let atx := Scanners.scanAt Scanners.atxHeadingStart input pos
  let fence := Scanners.scanAt Scanners.openCodeFence input pos
  let html := scanHtmlBlock input pos contType
  let lev := Scanners.scanAt Scanners.setextHeadingLine input pos
  let footnote := Scanners.scanAt Scanners.footnoteDefinition input pos
  if !indented && byteAt input pos == chr '>' then (p, some .blockQuote)
  else if !indented && atx > 0 then (p, some (.atxHeading atx))
  else if !indented && fence > 0 then (p, some (.fencedCode fence))
  else if !indented && html > 0 then (p, some (.htmlBlock html))
  else if !indented && contType = .paragraph && lev > 0 then (p, some (.setextHeading lev))
  else
    let (p, thematic) :=
      if !indented && !(contType = .paragraph && !allMatched) &&
          (!guarded || p.thematicBreakKillPos ≤ pos) then
        scanThematicBreak input p
      else (p, 0)
    if thematic > 0 then (p, some .thematicBreak)
    else if !indented && P.options.has optFootnotes && depth < maxListDepth && footnote > 0 then
      (p, some (.footnoteDefinition footnote))
    else
      let marker :=
        if (!indented || contType = .list) && p.indent < 4 && depth < maxListDepth then
          parseListMarker input pos (contType = .paragraph)
        else none
      match marker with
      | some (matched, data) => (p, some (.listItem matched data))
      | none =>
        if indented && !maybeLazy && !p.blank then (p, some .indentedCode) else (p, none)

def openNewBlockWith (guarded : Bool) (P : Config) (input : Bytes) (allMatched maybeLazy : Bool)
    (depth : Nat) (container : NodeId) (p : ParserState) : ParserState × Option NodeId :=
  let p := findFirstNonspace input p
  let indented : Bool := p.indent ≥ codeIndent
  match findBlockStartWith guarded P input allMatched maybeLazy depth container p with
  | (p, some start) =>
    let (p, newContainer) := openBlock P input container p start
    (p, some newContainer)
  | (p, none) => tryOpeningBlocks P indented input container P.syntaxExtensions p

def openNewBlocksFromWith (guarded : Bool) (P : Config) (input : Bytes) (allMatched : Bool) :
    Nat → Bool → Nat → NodeId → ParserState → ParserState × NodeId
  | 0, _, _, container, p => (p, container)
  | fuel + 1, maybeLazy, depth, container, p =>
    if p.typeOf container = .codeBlock || p.typeOf container = .htmlBlock then (p, container)
    else
      match openNewBlockWith guarded P input allMatched maybeLazy (depth + 1) container p with
      | (p, none) => (p, container)
      | (p, some container) =>
        if acceptsLines (p.typeOf container) then (p, container)
        else openNewBlocksFromWith guarded P input allMatched fuel false (depth + 1) container p

def openNewBlocksWith (guarded : Bool) (P : Config) (input : Bytes) (allMatched : Bool)
    (container : NodeId) (p : ParserState) : ParserState × NodeId :=
  openNewBlocksFromWith guarded P input allMatched (input.length + 2)
    (p.typeOf p.current = .paragraph) 0 container p

section

variable {P : Config} {input : Bytes} {p : ParserState}

/-- With the guard they are the functions of the parser. -/
theorem findBlockStartWith_true : findBlockStartWith true = findBlockStart := rfl

theorem openNewBlockWith_true : openNewBlockWith true = openNewBlock := rfl

/-- Where a scan would fail again, it does not matter whether it is made. -/
theorem findBlockStartWith_false (allMatched maybeLazy : Bool) (depth : Nat) (container : NodeId)
    (valid : KillValid input p) (other : isSpaceOrTab (byteAt input p.firstNonspace) = false) :
    findBlockStartWith false P input allMatched maybeLazy depth container p =
      findBlockStart P input allMatched maybeLazy depth container p := by
  have guard (c : Bool) :
      (if (c && (!false || decide (p.thematicBreakKillPos ≤ p.firstNonspace))) = true then
        scanThematicBreak input p else (p, 0)) =
      if (c && (!true || decide (p.thematicBreakKillPos ≤ p.firstNonspace))) = true then
        scanThematicBreak input p else (p, 0) := by
    by_cases open_ : p.thematicBreakKillPos ≤ p.firstNonspace
    · simp [open_]
    · have fails := valid p le_rfl (Nat.lt_of_not_le open_) other
      cases c with
      | false => rfl
      | true => simp [open_, fails]
  rw [← findBlockStartWith_true]
  unfold findBlockStartWith
  dsimp only
  rw [guard]

theorem killValid_findBlockStart (allMatched maybeLazy : Bool) (depth : Nat) (container : NodeId)
    (valid : KillValid input p) :
    KillValid input (findBlockStart P input allMatched maybeLazy depth container p).1 := by
  rcases (findBlockStart_found input p P allMatched maybeLazy depth container).1 with same | scanned
  · rw [same]
    exact valid
  · rw [scanned]
    by_cases failed : (scanThematicBreak input p).2 = 0
    · have fails := failsFrom_scanThematicBreak failed
      obtain ⟨killPos, eq⟩ := scanThematicBreak_fst input p
      unfold KillValid
      rw [eq] at fails ⊢
      exact fails
    · -- a scan that succeeds records nothing
      have same : (scanThematicBreak input p).1 = p := by
        unfold scanThematicBreak at failed ⊢
        extract_lets at failed ⊢
        split
        next none => exact absurd (by rw [if_pos none]) failed
        next some =>
          rw [if_neg some] at failed
          generalize thematicBreakLoop _ _ 0 1 = r at failed ⊢
          obtain ⟨n, count, nextc⟩ := r
          dsimp only at failed ⊢
          split
          next => rfl
          next none => exact absurd (by rw [if_neg none]) failed
      rw [same]
      exact valid

theorem killValid_openNewBlock (extensions : ∀ ext ∈ P.syntaxExtensions, ext.AdvancesOnly)
    (allMatched maybeLazy : Bool) (depth : Nat) (container : NodeId) (cached : CacheValid input p)
    (valid : KillValid input p) :
    KillValid input (openNewBlock P input allMatched maybeLazy depth container p).1 := by
  unfold openNewBlock
  extract_lets p' indented
  have found : KillValid input p' := killValid_findFirstNonspace cached valid
  have searched := killValid_findBlockStart (P := P) allMatched maybeLazy depth container found
  generalize findBlockStart P input allMatched maybeLazy depth container p' = r at searched ⊢
  obtain ⟨q, start⟩ := r
  cases start with
  | some start => exact (readsOn_openBlock input q container start).killValid searched
  | none => exact (readsOn_tryOpeningBlocks q indented container _ extensions).killValid searched

theorem InLine.killValid (extensions : ∀ ext ∈ P.syntaxExtensions, ext.AdvancesOnly)
    (reached : InLine P input p) : KillValid input p := by
  induction reached with
  | start p => exact fun q _ before => absurd before (Nat.not_lt_zero _)
  | prefixed container before ih =>
    exact (readsOn_parseBlockPrefix input _ container extensions).killValid
      (killValid_findFirstNonspace (before.cacheValid extensions) ih)
  | opened allMatched maybeLazy depth container before ih =>
    exact killValid_openNewBlock extensions allMatched maybeLazy depth container
      (before.cacheValid extensions) ih

theorem openNewBlockWith_false (extensions : ∀ ext ∈ P.syntaxExtensions, ext.AdvancesOnly)
    (reached : InLine P input p) (allMatched maybeLazy : Bool) (depth : Nat) (container : NodeId) :
    openNewBlockWith false P input allMatched maybeLazy depth container p =
      openNewBlock P input allMatched maybeLazy depth container p := by
  have cached := reached.cacheValid extensions
  have same := findBlockStartWith_false (P := P) allMatched maybeLazy depth container
    (killValid_findFirstNonspace cached (reached.killValid extensions))
    (isSpaceOrTab_findFirstNonspace cached)
  rw [← openNewBlockWith_true]
  unfold openNewBlockWith
  dsimp only
  rw [same, findBlockStartWith_true]

theorem openNewBlocksFromWith_false
    (extensions : ∀ ext ∈ P.syntaxExtensions, ext.AdvancesOnly) (reached : InLine P input p)
    (allMatched : Bool) (fuel : Nat) (maybeLazy : Bool) (depth : Nat) (container : NodeId) :
    openNewBlocksFromWith false P input allMatched fuel maybeLazy depth container p =
      openNewBlocksFrom P input allMatched fuel maybeLazy depth container p := by
  induction fuel generalizing maybeLazy depth container p with
  | zero => rfl
  | succ fuel ih =>
    have opened := InLine.opened allMatched maybeLazy (depth + 1) container reached
    unfold openNewBlocksFromWith openNewBlocksFrom
    rw [openNewBlockWith_false extensions reached]
    generalize openNewBlock P input allMatched maybeLazy (depth + 1) container p = r at opened ⊢
    obtain ⟨q, newContainer⟩ := r
    cases newContainer with
    | none => rfl
    | some newContainer =>
      dsimp only
      rw [ih opened]

/-- At every point of a line, the guard keeps the parser from a scan only where the scan would fail,
and new blocks are opened as without it. -/
theorem openNewBlocksWith_false (extensions : ∀ ext ∈ P.syntaxExtensions, ext.AdvancesOnly)
    (reached : InLine P input p) :
    ((findFirstNonspace input p).firstNonspace < (findFirstNonspace input p).thematicBreakKillPos →
      (scanThematicBreak input (findFirstNonspace input p)).2 = 0) ∧
    (∀ allMatched maybeLazy depth container,
      openNewBlockWith false P input allMatched maybeLazy depth container p =
        openNewBlock P input allMatched maybeLazy depth container p) ∧
    ∀ allMatched container,
      openNewBlocksWith false P input allMatched container p =
        openNewBlocks P input allMatched container p := by
  refine ⟨?_, openNewBlockWith_false extensions reached, ?_⟩
  · intro suppressed
    have cached := reached.cacheValid extensions
    have valid := killValid_findFirstNonspace cached (reached.killValid extensions)
    rw [valid _ le_rfl suppressed (isSpaceOrTab_findFirstNonspace cached)]
  · intro allMatched container
    exact openNewBlocksFromWith_false extensions reached allMatched _ _ 0 container

/-- Behind the first marker of a line that is no thematic break. -/
theorem openNewBlocksWith_false_marker :
    let p := (openNewBlock ⟨asciiTables, 0, []⟩ (lit "* * a\n") true false 1 0
      (startLine (lit "* * a\n") initialState)).1
    (findFirstNonspace (lit "* * a\n") p).firstNonspace <
        (findFirstNonspace (lit "* * a\n") p).thematicBreakKillPos ∧
    ((findFirstNonspace (lit "* * a\n") p).firstNonspace <
        (findFirstNonspace (lit "* * a\n") p).thematicBreakKillPos →
      (scanThematicBreak (lit "* * a\n") (findFirstNonspace (lit "* * a\n") p)).2 = 0) ∧
    (∀ allMatched maybeLazy depth container,
      openNewBlockWith false ⟨asciiTables, 0, []⟩ (lit "* * a\n") allMatched maybeLazy depth
          container p =
        openNewBlock ⟨asciiTables, 0, []⟩ (lit "* * a\n") allMatched maybeLazy depth container p) ∧
    ∀ allMatched container,
      openNewBlocksWith false ⟨asciiTables, 0, []⟩ (lit "* * a\n") allMatched container p =
        openNewBlocks ⟨asciiTables, 0, []⟩ (lit "* * a\n") allMatched container p :=
  ⟨by decide +kernel, openNewBlocksWith_false (P := ⟨asciiTables, 0, []⟩) nofun
    (.opened _ _ _ _ (.start initialState))⟩

end

end CmarkGfm
