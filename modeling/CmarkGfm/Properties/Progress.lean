import CmarkGfm.Properties.CloseBracket

/-!
# Progress of the inline parser

Every call of `parse_inline` made before the end of the content passes at least one byte and
stays within the content, whatever it tries and takes back on the way. So the loop of
`cmark_parse_inlines` ends at the end of the content.
-/

namespace CmarkGfm

/-! ### How far the scanners read -/

theorem scan_le (r : Scanners.Re) (input : Bytes) : Scanners.scan r input ≤ input.length := by
  unfold Scanners.scan
  cases found : Regex.longestMatch CharClass.mem r input with
  | none => exact Nat.zero_le _
  | some n => exact (Regex.longestMatch_sound CharClass.mem r input n found).1

/-- A match found at a position ends within the content. -/
theorem add_scanAt_le (r : Scanners.Re) {input : Bytes} {pos : Nat} (inside : pos ≤ input.length) :
    pos + Scanners.scanAt (Scanners.scan r) input pos ≤ input.length := by
  have bound := scan_le r (input.drop pos)
  rw [List.length_drop] at bound
  unfold Scanners.scanAt
  omega

theorem unescapeNamed_le {T : Tables} {src rest bytes : Bytes} {i n : Nat}
    (found : unescapeNamed T src rest i = some (bytes, n)) : n ≤ i + rest.length := by
  induction rest generalizing i with
  | nil => cases found
  | cons c rest ih =>
    rw [unescapeNamed] at found
    rw [List.length_cons]
    split at found
    next => cases found
    next =>
      split at found
      next =>
        obtain ⟨_, _, same⟩ := Option.map_eq_some_iff.mp found
        have n_eq := (Prod.mk.inj same).2
        omega
      next =>
        have := ih found
        omega

/-- An entity ends within the text. -/
theorem unescapeEnt_le {T : Tables} {src bytes : Bytes} {n : Nat}
    (found : unescapeEnt T src = some (bytes, n)) : n ≤ src.length := by
  unfold unescapeEnt at found
  split at found
  next =>
    dsimp only at found
    generalize (if isdigit (byteAt src 1) then
      ((scanDigits isdigit 10 (fun d => d.toNat - 48) (src.drop 1) 0 0).1,
        (scanDigits isdigit 10 (fun d => d.toNat - 48) (src.drop 1) 0 0).2,
        (scanDigits isdigit 10 (fun d => d.toNat - 48) (src.drop 1) 0 0).2 + 1)
      else if byteAt src 1 == chr 'x' || byteAt src 1 == chr 'X' then
        ((scanDigits isxdigit 16 (fun d => (d.toNat ||| 32) % 39 - 9) (src.drop 2) 0 0).1,
          (scanDigits isxdigit 16 (fun d => (d.toNat ||| 32) % 39 - 9) (src.drop 2) 0 0).2,
          (scanDigits isxdigit 16 (fun d => (d.toNat ||| 32) % 39 - 9) (src.drop 2) 0 0).2 + 2)
      else (0, 0, 0)) = r at found
    obtain ⟨codepoint, numDigits, i⟩ := r
    dsimp only at found
    split at found
    next complete =>
      simp only [Bool.and_eq_true, decide_eq_true_eq] at complete
      have n_eq := (Prod.mk.inj (Option.some.inj found)).2
      omega
    next => cases found
  next =>
    have within := unescapeNamed_le found
    rw [List.length_drop] at within
    have cut : (src.take 32).length ≤ src.length := List.length_take_le' _ _
    by_cases short : (src.take 32).length < 2
    · -- nothing is left to look at, so nothing was found
      dsimp only at found
      rw [List.drop_of_length_le (by omega), unescapeNamed] at found
      cases found
    · omega

theorem le_of_skipLineEnd {input : Bytes} {pos stop : Nat} (inside : pos ≤ input.length)
    (passed : skipLineEnd input pos = some stop) : pos ≤ stop ∧ stop ≤ input.length := by
  unfold skipLineEnd at passed
  extract_lets afterCr afterLf at passed
  obtain ⟨_, same⟩ := Option.ite_none_right_eq_some.mp passed
  obtain rfl := Option.some.inj same
  have cr : pos ≤ afterCr ∧ afterCr ≤ input.length := by
    unfold afterCr
    split
    next here =>
      have := lt_length_of_byteAt_eq (beq_iff_eq.mp here) (by decide)
      omega
    next => exact ⟨Nat.le_refl _, inside⟩
  unfold afterLf
  split
  next here =>
    have := lt_length_of_byteAt_eq (beq_iff_eq.mp here) (by decide)
    omega
  next => exact cr

theorem linkLabelLoop_le {length stop : Nat} {s : Bytes}
    (found : linkLabelLoop length s = some stop) : stop + 1 ≤ length + s.length := by
  fun_induction linkLabelLoop length s with
  | case1 => cases found
  | case2 =>
    obtain rfl := Option.some.inj found
    simp
  | case3 => cases found
  | case4 => cases found
  | case5 =>
    obtain rfl := Option.some.inj found
    simp
  | case6 => cases found
  | case7 length c d rest _ _ _ _ ih =>
    have := ih found
    simp only [List.length_cons]
    omega
  | case8 => cases found
  | case9 length c d rest _ _ _ _ ih =>
    have := ih found
    simp only [List.length_cons] at this ⊢
    omega

theorem linkLabel_le {input label : Bytes} {start stop : Nat}
    (scanned : linkLabel input start false = some (stop, label)) : stop ≤ input.length := by
  unfold linkLabel at scanned
  simp only [Bool.false_and, Bool.false_eq_true, if_false, Option.ite_none_left_eq_some] at scanned
  obtain ⟨length, found, same⟩ := Option.map_eq_some_iff.mp scanned.2
  have stop_eq := (Prod.mk.inj same).1
  have bound := linkLabelLoop_le found
  rw [List.length_drop] at bound
  omega

theorem scanInlineLink_le {T : Tables} {input url title : Bytes} {pos stop : Nat}
    (scanned : scanInlineLink T input pos = some (stop, url, title)) :
    pos < stop ∧ stop ≤ input.length := by
  unfold scanInlineLink at scanned
  extract_lets starturl at scanned
  split at scanned
  next =>
    split at scanned
    next n url' _ =>
      extract_lets endurl starttitle endtitle endall at scanned
      obtain ⟨closed, same⟩ := Option.ite_none_right_eq_some.mp scanned
      have stop_eq := (Prod.mk.inj (Option.some.inj same)).1
      have bound := lt_length_of_byteAt_eq (beq_iff_eq.mp closed) (by decide)
      have title : starttitle ≤ endtitle := by
        unfold endtitle
        split <;> omega
      omega
    next => cases scanned
  next => cases scanned

theorem scanInlineAttributes_le {input attributes : Bytes} {pos stop : Nat}
    (scanned : scanInlineAttributes input pos = some (stop, attributes)) :
    pos < stop ∧ stop ≤ input.length := by
  unfold scanInlineAttributes at scanned
  split at scanned
  next =>
    split at scanned
    next n _ =>
      obtain ⟨closed, same⟩ := Option.ite_none_right_eq_some.mp scanned
      have stop_eq := (Prod.mk.inj (Option.some.inj same)).1
      have bound := lt_length_of_byteAt_eq (beq_iff_eq.mp closed) (by decide)
      omega
    next => cases scanned
  next => cases scanned

/-- A closing run of backticks ends within the content. -/
theorem scanClosingRuns_le {input : Bytes} {openticklength fuel pos stop : Nat}
    {backticks : Nat → Nat}
    (found : (scanClosingRuns input openticklength fuel pos backticks).1 = some stop) :
    pos ≤ stop ∧ stop ≤ input.length := by
  induction fuel generalizing pos backticks with
  | zero => cases found
  | succ fuel ih =>
    rw [scanClosingRuns] at found
    cases next : nextBacktickRun input pos with
    | none => simp [next] at found
    | some run =>
      obtain ⟨start, runEnd⟩ := run
      unfold nextBacktickRun at next
      obtain ⟨inside, same⟩ := Option.ite_none_left_eq_some.mp next
      obtain ⟨rfl, rfl⟩ := Prod.mk.inj (Option.some.inj same)
      rw [not_le] at inside
      have before := le_skipWhile isNonBacktick input pos
      have beyond := le_skipWhile isbacktick input (skipWhile isNonBacktick input pos)
      have within := skipWhile_le_length isbacktick input _ inside.le
      unfold nextBacktickRun at found
      rw [if_neg (by omega)] at found
      dsimp only at found
      generalize (if _ ≤ maxBackticks then _ else backticks) = updated at found
      split at found
      next =>
        obtain rfl := Option.some.inj found
        omega
      next =>
        have rest := ih found
        omega

theorem scanToClosingBackticks_le {subj : Subject} {openticklength stop : Nat}
    (found : (scanToClosingBackticks subj openticklength).2 = some stop) :
    subj.pos ≤ stop ∧ stop ≤ subj.input.length := by
  unfold scanToClosingBackticks at found
  split at found
  next => cases found
  next =>
    split at found
    next => cases found
    next =>
      split at found
      next endpos backticks scanned =>
        obtain rfl := Option.some.inj found
        exact scanClosingRuns_le (congrArg Prod.fst scanned)
      next => cases found

theorem lt_skipWhile {p : UInt8 → Bool} {input : Bytes} {pos : Nat} (inside : pos < input.length)
    (here : p (byteAt input pos) = true) : pos < skipWhile p input pos := by
  by_contra stays
  have stopped : skipWhile p input pos = pos := by
    have := le_skipWhile p input pos
    omega
  have fails := not_holds_at_skipWhile (p := p) (stopped.trans_lt inside)
  rw [stopped, here] at fails
  cases fails

/-- An HTML construct ends within the content, and is only looked for. -/
theorem scanHtml_le {subj : Subject} (inside : subj.pos ≤ subj.input.length) :
    (scanHtml subj).1.pos = subj.pos ∧
      subj.pos + (scanHtml subj).2 ≤ subj.input.length := by
  have comment := @add_scanAt_le Scanners.htmlcomment subj.input (subj.pos + 1)
  have tag := add_scanAt_le Scanners.htmltag inside
  unfold scanHtml
  extract_lets input pos c c' commentLen cdataLen declarationLen piLen
  split
  next room =>
    split
    next =>
      split
      next =>
        split
        next here =>
          exact ⟨rfl, lt_length_of_byteAt_eq (beq_iff_eq.mp here) (by decide)⟩
        next =>
          split
          next here =>
            simp only [Bool.and_eq_true, beq_iff_eq] at here
            exact ⟨rfl, lt_length_of_byteAt_eq here.2 (by decide)⟩
          next =>
            split
            next =>
              have room' : subj.pos + 1 ≤ subj.input.length := (Nat.le_succ _).trans room
              exact ⟨rfl, (Nat.add_right_comm _ _ _).trans_le (comment room')⟩
            next => exact ⟨rfl, inside⟩
      next =>
        split
        next =>
          split
          next => exact ⟨rfl, inside⟩
          next =>
            split
            next =>
              split
              next => exact ⟨rfl, inside⟩
              next fits => exact ⟨rfl, not_lt.mp fits⟩
            next => exact ⟨rfl, inside⟩
        next =>
          split
          next => exact ⟨rfl, inside⟩
          next =>
            split
            next =>
              split
              next => exact ⟨rfl, inside⟩
              next fits => exact ⟨rfl, not_lt.mp fits⟩
            next => exact ⟨rfl, inside⟩
    next =>
      split
      next =>
        split
        next => exact ⟨rfl, inside⟩
        next =>
          split
          next => exact ⟨rfl, inside⟩
          next fits => exact ⟨rfl, not_lt.mp fits⟩
      next => exact ⟨rfl, tag⟩
  next => exact ⟨rfl, inside⟩

/-! ### Handlers -/

/-- The second state has passed bytes of the content. -/
structure Advances (subj subj' : Subject) : Prop where
  input : subj'.input = subj.input
  beyond : subj.pos < subj'.pos
  within : subj'.pos ≤ subj.input.length

namespace Advances

theorem andThen {subj subj' subj'' : Subject} (first : Advances subj subj')
    (input : subj''.input = subj'.input) (forward : subj'.pos ≤ subj''.pos)
    (within : subj''.pos ≤ subj'.input.length) : Advances subj subj'' where
  input := input.trans first.input
  beyond := first.beyond.trans_le forward
  within := first.input ▸ within

theorem same {subj subj' subj'' : Subject} (first : Advances subj subj')
    (input : subj''.input = subj'.input) (pos : subj''.pos = subj'.pos) : Advances subj subj'' :=
  first.andThen input pos.ge (pos.trans_le (first.input ▸ first.within))

end Advances

section

variable {subj : Subject} (inside : subj.pos < subj.input.length)

include inside

theorem advances_one : Advances subj (subj.advance 1) := ⟨rfl, Nat.lt_succ_self _, inside⟩

theorem advances_handleHyphen (smart : Bool) : Advances subj (handleHyphen smart subj).1 := by
  unfold handleHyphen
  extract_lets startpos subj'
  have one : Advances subj subj' := advances_one inside
  split
  next => exact one.same rfl rfl
  next => exact one.andThen rfl (le_skipWhile _ _ _) (skipWhile_le_length _ _ _ one.within)

theorem advances_handlePeriod (smart : Bool) : Advances subj (handlePeriod smart subj).1 := by
  unfold handlePeriod
  extract_lets subj' subj'' subj'''
  have one : Advances subj subj' := advances_one inside
  split
  next second =>
    simp only [Bool.and_eq_true] at second
    have two : Advances subj subj'' := one.andThen rfl (Nat.le_succ _)
      (lt_length_of_byteAt_eq (beq_iff_eq.mp second.2) (by decide))
    split
    next third =>
      have within := lt_length_of_byteAt_eq (beq_iff_eq.mp third) (by decide)
      exact two.andThen rfl (Nat.le_add_right _ 1) within
    next => exact two.same rfl rfl
  next => exact one.same rfl rfl

omit inside in
/-- Going on in the next line stays within the content. -/
theorem advances_startLine {subj' : Subject} (first : Advances subj subj') :
    Advances subj subj'.startLine :=
  first.andThen rfl (le_skipWhile _ _ _) (skipWhile_le_length _ _ _ (first.input ▸ first.within))

theorem advances_handleBackslash (chars : CharTables)
    (notNul : chars.backslashIspunct.getD ispunct 0 = false) :
    Advances subj (handleBackslash chars subj).1 := by
  unfold handleBackslash
  extract_lets subj' subj''
  have one : Advances subj subj' := advances_one inside
  split
  next escapes =>
    have : subj'.peekChar ≠ 0 := fun nul => by simp [nul, notNul] at escapes
    exact one.andThen rfl (Nat.le_succ _) (lt_length_of_byteAt this)
  next =>
    split
    next pos passed =>
      obtain ⟨_, passed⟩ := Option.ite_none_left_eq_some.mp passed
      have bounds := le_of_skipLineEnd one.within passed
      have line : Advances subj { subj' with pos := pos } := one.andThen rfl bounds.1 bounds.2
      exact (advances_startLine line).same rfl rfl
    next => exact one.same rfl rfl

theorem advances_handleEntity (T : Tables) : Advances subj (handleEntity T subj).1 := by
  unfold handleEntity
  extract_lets subj'
  have one : Advances subj subj' := advances_one inside
  split
  next => exact one.same rfl rfl
  next ent len found =>
    have bound := unescapeEnt_le found
    rw [List.length_drop] at bound
    have within : subj'.pos ≤ subj'.input.length := one.within
    exact one.andThen rfl (Nat.le_add_right _ _) (by show subj'.pos + len ≤ _; omega)

theorem advances_handleNewline (newline : isLineEndChar subj.peekChar = true) :
    Advances subj (handleNewline subj).1 := by
  unfold handleNewline
  extract_lets nlpos afterCr afterLf subj'
  have passed : Advances subj { subj with pos := afterLf } := by
    have here : byteAt subj.input nlpos = subj.peekChar := rfl
    have cr : nlpos ≤ afterCr ∧ afterCr ≤ nlpos + 1 := by
      unfold afterCr
      split <;> omega
    refine ⟨rfl, ?_, ?_⟩
    · show nlpos < afterLf
      unfold afterLf
      split
      next => omega
      next notLf =>
        unfold afterCr at notLf ⊢
        rw [here] at notLf ⊢
        split
        next => omega
        next notCr =>
          rw [if_neg notCr, here] at notLf
          simp [isLineEndChar, notCr, notLf] at newline
    · show afterLf ≤ subj.input.length
      unfold afterLf
      split
      next lf =>
        have := lt_length_of_byteAt_eq (beq_iff_eq.mp lf) (by decide)
        omega
      next => exact cr.2.trans inside
  split <;> exact (advances_startLine passed).same rfl rfl

omit inside in
theorem advances_adjustNodeNewlines {subj' : Subject} (first : Advances subj subj')
    (options : Options) (node : Node) (matchlen extra : Nat) :
    Advances subj (subj'.adjustNodeNewlines options node matchlen extra).1 := by
  unfold Subject.adjustNodeNewlines
  extract_lets count
  split
  next => exact first
  next =>
    dsimp only
    split
    next => exact first
    next => exact first.same rfl rfl

theorem advances_handleBackticks (options : Options) (backtick : isbacktick subj.peekChar = true) :
    Advances subj (handleBackticks options subj).1 := by
  unfold handleBackticks
  extract_lets initpos startpos openticks
  have opening : Advances subj { subj with pos := startpos } :=
    ⟨rfl, lt_skipWhile inside backtick, skipWhile_le_length _ _ _ inside.le⟩
  have same := sameStacks_scanToClosingBackticks { subj with pos := startpos } openticks
  have bounds := fun stop => @scanToClosingBackticks_le { subj with pos := startpos } openticks stop
  have stays : (scanToClosingBackticks { subj with pos := startpos } openticks).1.pos = startpos := by
    unfold scanToClosingBackticks
    split
    next => rfl
    next =>
      split
      next => rfl
      next => split <;> rfl
  generalize scanToClosingBackticks { subj with pos := startpos } openticks = r at same bounds stays ⊢
  obtain ⟨subj', found⟩ := r
  cases found with
  | none => exact opening.same same.input stays
  | some endpos =>
    obtain ⟨forward, within⟩ := bounds endpos rfl
    have closed : Advances subj { subj' with pos := endpos } :=
      opening.andThen same.input forward within
    refine advances_adjustNodeNewlines ?_ options _ _ _
    exact closed.same rfl rfl

omit inside in
theorem advances_makeRawHtml (options : Options) {subj' : Subject} (first : Advances subj subj')
    {matchlen : Nat} (within : subj'.pos + matchlen ≤ subj'.input.length) :
    Advances subj (makeRawHtml options subj' matchlen).1 := by
  unfold makeRawHtml
  extract_lets contents subj''
  have passed : Advances subj subj'' := first.andThen rfl (Nat.le_add_right _ _) within
  refine advances_adjustNodeNewlines ?_ options _ _ _
  exact passed.same rfl rfl

theorem advances_handlePointyBrace (P : Config) : Advances subj (handlePointyBrace P subj).1 := by
  unfold handlePointyBrace
  extract_lets subj' autolink uri email
  have one : Advances subj subj' := advances_one inside
  have inside' : subj'.pos ≤ subj'.input.length := one.within
  have link : ∀ n isEmail, subj'.pos + n ≤ subj'.input.length →
      Advances subj (autolink n isEmail).1 := by
    intro n isEmail within
    exact one.andThen rfl (Nat.le_add_right _ _) within
  split
  next => exact link uri false (add_scanAt_le _ inside')
  next =>
    split
    next => exact link email true (add_scanAt_le _ inside')
    next =>
      have same := sameStacks_scanHtml subj'
      have bounds := scanHtml_le inside'
      generalize scanHtml subj' = r at same bounds ⊢
      obtain ⟨subj'', matchlen⟩ := r
      dsimp only at same bounds ⊢
      have scanned : Advances subj subj'' := one.same same.input bounds.1
      split
      next => exact advances_makeRawHtml P.options scanned (by rw [same.input, bounds.1]; exact bounds.2)
      next =>
        have inside'' : subj''.pos ≤ subj''.input.length := by
          rw [same.input, bounds.1]
          exact inside'
        have liberal : subj''.pos + (if P.options.has optLiberalHtmlTag then
            Scanners.scanAt Scanners.liberalHtmlTag subj''.input subj''.pos else 0) ≤
            subj''.input.length := by
          split
          next => exact add_scanAt_le _ inside''
          next => exact inside''
        generalize (if P.options.has optLiberalHtmlTag then
          Scanners.scanAt Scanners.liberalHtmlTag subj''.input subj''.pos else 0) = n at liberal ⊢
        split
        next => exact advances_makeRawHtml P.options scanned liberal
        next => exact scanned.same rfl rfl

omit inside in
theorem scanDelims_fst (chars : CharTables) (input : Bytes) (pos : Nat) (c : UInt8) :
    (scanDelims chars input pos c).1 =
      if isQuote c then 1 else skipWhile (· == c) input pos - pos := by
  unfold scanDelims
  dsimp only
  split
  next => rfl
  next => split <;> rfl

/-- A run of delimiters is passed as a whole. -/
theorem advances_handleDelim (chars : CharTables) (smart : Bool) :
    Advances subj (handleDelim chars smart subj subj.peekChar).1 := by
  have length := scanDelims_fst chars subj.input subj.pos subj.peekChar
  unfold handleDelim
  generalize scanDelims chars subj.input subj.pos subj.peekChar = run at length ⊢
  obtain ⟨numdelims, canOpen, canClose⟩ := run
  dsimp -zeta only at length ⊢
  extract_lets start subj' stop
  have passed : Advances subj subj' := by
    have forward := lt_skipWhile (p := (· == subj.peekChar)) inside (beq_self_eq_true _)
    have within := skipWhile_le_length (· == subj.peekChar) subj.input subj.pos inside.le
    refine ⟨rfl, ?_, ?_⟩
    · show subj.pos < subj.pos + numdelims
      rw [length]
      split <;> omega
    · show subj.pos + numdelims ≤ subj.input.length
      rw [length]
      split <;> omega
  have text : Advances subj
      (if subj.peekChar == chr '\'' && smart then subj'.makeStr start stop rightSingleQuote
        else if subj.peekChar == chr '"' && smart then
          subj'.makeStr start stop (if canClose then rightDoubleQuote else leftDoubleQuote)
        else subj'.makeStrAt start stop start (chunkDup subj'.input start numdelims)).1 := by
    split
    next => exact passed.same rfl rfl
    next =>
      split
      next => exact passed.same rfl rfl
      next => exact passed.same rfl rfl
  split
  next => exact text.same rfl rfl
  next => exact text

theorem advances_makeText (P : Config) (chars : CharTables) :
    Advances subj (makeText P chars subj).1 := by
  have forward : subj.pos + 1 ≤ findSpecialChar P chars subj := le_skipWhile _ _ _
  have within : findSpecialChar P chars subj ≤ subj.input.length :=
    skipWhile_le_length _ _ _ inside
  unfold makeText
  extract_lets startpos endpos one contents passed trimmed
  split
  next => exact (advances_one inside).same rfl rfl
  next => exact ⟨rfl, forward, within⟩

end

/-! ### Closing brackets -/

/-- The state after a closing bracket and what was read to see whether it closes something. -/
def Subject.lookAhead (subj : Subject) (pos : Nat) (refmap : Map Reference) (clones : List Clone) :
    Subject :=
  { subj with pos := pos, refmap := refmap, clones := clones }

/-- A position after the current one. -/
def Subject.Ahead (subj : Subject) (pos : Nat) : Prop := subj.pos < pos ∧ pos ≤ subj.input.length

/-- The bracket can be that of a link, an image or a footnote reference. -/
structure Bracket.Active (subj : Subject) (b : Bracket) : Prop where
  kind : b.type ≠ .attribute
  unguarded : b.type = .link → subj.noLinkOpeners = false

section

variable (P : Config) {subj : Subject} {motive : Subject × Option Node → Prop}
  (literal : subj.brackets = [] → motive (literalCloseBracket (subj.advance 1)))
  (popped : ∀ pos refmap clones, subj.Ahead pos →
    motive (literalCloseBracket (popBracket (subj.lookAhead pos refmap clones))))
  (link : ∀ pos refmap clones opener url title, subj.Ahead pos → opener ∈ subj.brackets.head? →
    opener.Active subj →
    motive (matchLink P (subj.lookAhead pos refmap clones) opener url title, none))
  (footnote : ∀ refmap clones opener next, opener ∈ subj.brackets.head? →
    opener.Active subj →
    footnoteText P (subj.lookAhead (subj.pos + 1) refmap clones) opener = some next →
    motive (makeFootnoteReference P (subj.lookAhead (subj.pos + 1) refmap clones) opener next, none))
  («attribute» : ∀ pos refmap clones opener attributes, subj.Ahead pos →
    opener ∈ subj.brackets.head? → opener.type = .attribute →
    motive (matchAttribute P (subj.lookAhead pos refmap clones) opener attributes, none))

include popped footnote in
theorem noMatch_cases {opener : Bracket} (inside : subj.pos < subj.input.length)
    (top : opener ∈ subj.brackets.head?) (active : opener.Active subj) (pos : Nat)
    (refmap : Map Reference) (clones : List Clone) :
    motive (noMatch P (subj.lookAhead pos refmap clones) opener (subj.pos + 1)) := by
  unfold noMatch
  extract_lets rewound
  split
  next next found => exact footnote refmap clones opener next top active found
  next => exact popped (subj.pos + 1) refmap clones ⟨Nat.lt_succ_self _, inside⟩

include popped link footnote in
theorem closeReference_cases {opener : Bracket} (inside : subj.pos < subj.input.length)
    (top : opener ∈ subj.brackets.head?) (active : opener.Active subj) :
    motive (closeReference P (subj.advance 1) opener (subj.pos + 1)) := by
  have ahead : subj.Ahead (referenceLabel (subj.advance 1) opener (subj.pos + 1)).1 := by
    have here : subj.Ahead (subj.pos + 1) := ⟨Nat.lt_succ_self _, inside⟩
    unfold referenceLabel
    cases found : linkLabel (subj.advance 1).input (subj.advance 1).pos false with
    | none =>
      dsimp only
      split <;> exact here
    | some label =>
      have further : subj.Ahead label.1 := ⟨(lt_linkLabel found).le, linkLabel_le found⟩
      dsimp only
      split <;> exact further
  unfold closeReference
  generalize referenceLabel (subj.advance 1) opener (subj.pos + 1) = r at ahead ⊢
  obtain ⟨pos, label⟩ := r
  have fails := noMatch_cases P popped footnote inside top active pos
  cases label with
  | none => exact fails subj.refmap subj.clones
  | some label =>
    dsimp only [lookupReference]
    generalize mapLookup P.tables (subj.advance 1).refmap label = found
    obtain ⟨refmap, entry⟩ := found
    cases entry with
    | none => exact fails refmap subj.clones
    | some entry =>
      dsimp only [Option.map_some]
      split
      next => exact fails refmap subj.clones
      next => exact link pos refmap _ opener _ _ ahead top active

include popped «attribute» in
theorem handleCloseBracketAttribute_cases {opener : Bracket} (inside : subj.pos < subj.input.length)
    (top : opener ∈ subj.brackets.head?) (isAttribute : opener.type = .attribute) :
    motive (handleCloseBracketAttribute P (subj.advance 1) opener) := by
  have ahead : subj.Ahead (attributesEnd (subj.advance 1)) := by
    unfold attributesEnd
    split
    next pos attributes scanned =>
      have bounds := scanInlineAttributes_le scanned
      exact ⟨Nat.lt_of_succ_lt bounds.1, bounds.2⟩
    next => exact ⟨Nat.lt_succ_self _, inside⟩
  have closes : ∀ pos refmap clones attributes, subj.Ahead pos →
      motive (closeAttribute P opener (subj.lookAhead pos refmap clones, attributes)) := by
    intro pos refmap clones attributes ahead
    cases attributes with
    | none => exact popped pos refmap clones ahead
    | some attributes => exact «attribute» pos refmap clones opener attributes ahead top isAttribute
  rw [handleCloseBracketAttribute_eq]
  generalize attributesEnd (subj.advance 1) = pos at ahead ⊢
  unfold referenceAttributes
  split
  next => exact closes pos subj.refmap subj.clones _ ahead
  next after rawLabel found =>
    have further : subj.Ahead after := ⟨ahead.1.trans (lt_linkLabel found), linkLabel_le found⟩
    dsimp only [lookupReference]
    generalize mapLookup P.tables (subj.advance 1).refmap rawLabel = found
    obtain ⟨refmap, entry⟩ := found
    cases entry with
    | none => exact closes after refmap subj.clones _ further
    | some entry =>
      dsimp only [Option.map_some]
      split
      next => exact closes after refmap _ _ further
      next => exact closes after refmap subj.clones _ further

include literal popped link footnote «attribute» in
/-- What `handle_close_bracket` can do. -/
theorem handleCloseBracket_cases (inside : subj.pos < subj.input.length) :
    motive (handleCloseBracket P subj) := by
  unfold handleCloseBracket
  extract_lets subj'
  have here : subj.Ahead (subj.pos + 1) := ⟨Nat.lt_succ_self _, inside⟩
  split
  next none => exact literal none
  next opener below found =>
    have top : opener ∈ subj.brackets.head? := by
      rw [show subj.brackets = opener :: below from found]
      rfl
    split
    next isAttribute =>
      exact handleCloseBracketAttribute_cases P popped «attribute» inside top isAttribute
    next kind =>
      split
      next => exact popped (subj.pos + 1) subj.refmap subj.clones here
      next unguarded =>
        have active : opener.Active subj := ⟨kind, fun isLink => by simpa [isLink, subj', Subject.advance] using unguarded⟩
        split
        next pos url title scanned =>
          have bounds := scanInlineLink_le scanned
          exact link pos subj.refmap subj.clones opener url title
            ⟨Nat.lt_of_succ_lt bounds.1, bounds.2⟩ top active
        next => exact closeReference_cases P popped link footnote inside top active

end

/-! ### One inline after the other -/

/-- Either nothing is done or some of the content is passed. -/
def Proceeds (subj : Subject) (r : Subject × Option Node) : Prop :=
  r = (subj, none) ∨ Advances subj r.1

/-- The callbacks of an extension read the content from the current position on, and leave it
alone while delimiters are matched. -/
structure Extension.Reads (e : Extension) : Prop where
  inline : ∀ f, e.matchInline = some f → ∀ options subj, subj.pos < subj.input.length →
    f options subj subj.peekChar = (subj, none) ∨
      (f options subj subj.peekChar).2.isSome ∧ Advances subj (f options subj subj.peekChar).1
  emphasis : ∀ f, e.insertInlineFromDelim = some f →
    ∀ options subj below opener between closer later,
      (f options subj below opener between closer later).subj.input = subj.input ∧
      (f options subj below opener between closer later).subj.pos = subj.pos

section

variable {P : Config} {chars : CharTables} {subj : Subject}
  (reads : ∀ e ∈ P.syntaxExtensions, e.Reads)

include reads

theorem emphasisFrame_reads :
    EmphasisFrame P fun subj subj' => subj'.input = subj.input ∧ subj'.pos = subj.pos where
  trans first second := ⟨second.1.trans first.1, second.2.trans first.2⟩
  nodes _ _ _ _ := ⟨rfl, rfl⟩
  insert e member f callback options subj below opener between closer later :=
    (reads e member).emphasis f callback options subj below opener between closer later

theorem reads_matchLink (opener : Bracket) (url title : Bytes) :
    (matchLink P subj opener url title).input = subj.input ∧
      (matchLink P subj opener url title).pos = subj.pos :=
  (emphasisFrame_reads reads).processEmphasis _ _

theorem reads_matchAttribute (opener : Bracket) (attributes : Bytes) :
    (matchAttribute P subj opener attributes).input = subj.input ∧
      (matchAttribute P subj opener attributes).pos = subj.pos :=
  (emphasisFrame_reads reads).processEmphasis _ _

theorem reads_makeFootnoteReference (opener : Bracket) (next : Node) :
    (makeFootnoteReference P subj opener next).input = subj.input ∧
      (makeFootnoteReference P subj opener next).pos = subj.pos :=
  (emphasisFrame_reads reads).processEmphasis _ _

variable (inside : subj.pos < subj.input.length)

include inside

theorem advances_handleCloseBracket : Advances subj (handleCloseBracket P subj).1 := by
  have ahead : ∀ pos refmap clones, subj.Ahead pos →
      Advances subj (subj.lookAhead pos refmap clones) := fun _ _ _ ahead => ⟨rfl, ahead.1, ahead.2⟩
  have one : subj.Ahead (subj.pos + 1) := ⟨Nat.lt_succ_self _, inside⟩
  refine handleCloseBracket_cases P (motive := fun r => Advances subj r.1) ?literal ?popped ?link
    ?footnote ?«attribute» inside
  case literal => exact fun _ => (advances_one inside).same rfl rfl
  case popped =>
    intro pos refmap clones after
    exact (ahead pos refmap clones after).same rfl rfl
  case link =>
    intro pos refmap clones opener url title after _ _
    have same := @reads_matchLink _ (subj.lookAhead pos refmap clones) reads opener url title
    exact (ahead pos refmap clones after).same same.1 same.2
  case footnote =>
    intro refmap clones opener next _ _ _
    have same := @reads_makeFootnoteReference _
      (subj.lookAhead (subj.pos + 1) refmap clones) reads opener next
    exact (ahead _ refmap clones one).same same.1 same.2
  case «attribute» =>
    intro pos refmap clones opener attributes after _ _
    have same := @reads_matchAttribute _ (subj.lookAhead pos refmap clones) reads opener
      attributes
    exact (ahead pos refmap clones after).same same.1 same.2

variable (notNul : chars.backslashIspunct.getD ispunct 0 = false)

include notNul

omit notNul reads inside in
theorem advances_openBracket (type : BracketType) {s : Bytes} (some : s ≠ [])
    (fits : subj.pos + s.length ≤ subj.input.length) :
    Advances subj (openBracket subj type s).1 :=
  ⟨rfl, Nat.lt_add_of_pos_right (List.length_pos_of_ne_nil some), fits⟩

/-- The `switch` of `parse_inline` leaves what it does not handle alone. -/
theorem proceeds_dispatchInline : Proceeds subj (dispatchInline P chars subj subj.peekChar) := by
  have second : subj.peekCharN 1 == chr '[' → subj.pos + 2 ≤ subj.input.length := fun bracket =>
    lt_length_of_byteAt_eq (beq_iff_eq.mp bracket) (by decide)
  unfold dispatchInline
  extract_lets smart advanced
  generalize same : subj.peekChar = c
  refine iteInduction (fun newline => ?_) fun _ => ?_
  · refine iteInduction (fun _ => .inr ((advances_one inside).same rfl rfl)) fun _ => .inr ?_
    refine advances_handleNewline inside ?_
    rw [same]
    simpa [isLineEndChar, or_comm] using newline
  refine iteInduction (fun backtick => .inr ?_) fun _ => ?_
  · exact advances_handleBackticks inside P.options (same ▸ backtick)
  refine iteInduction (fun _ => .inr (advances_handleBackslash inside chars notNul)) fun _ => ?_
  refine iteInduction (fun _ => .inr (advances_handleEntity inside P.tables)) fun _ => ?_
  refine iteInduction (fun _ => .inr (advances_handlePointyBrace inside P)) fun _ => ?_
  refine iteInduction (fun _ => .inr (same ▸ advances_handleDelim inside chars smart)) fun _ => ?_
  refine iteInduction (fun _ => .inr (advances_handleHyphen inside smart)) fun _ => ?_
  refine iteInduction (fun _ => .inr (advances_handlePeriod inside smart)) fun _ => ?_
  refine iteInduction (fun _ => .inr (advances_openBracket .link (by decide) inside)) fun _ => ?_
  refine iteInduction (fun _ => .inr (advances_handleCloseBracket reads inside)) fun _ => ?_
  refine iteInduction (fun image => .inr ?_) fun _ => ?_
  · simp only [Bool.and_eq_true] at image
    exact advances_openBracket .image (by decide) (second image.1.2)
  refine iteInduction (fun «attribute» => .inr ?_) fun _ => .inl rfl
  simp only [Bool.and_eq_true] at «attribute»
  exact advances_openBracket .attribute (by decide) (second «attribute».2)

omit notNul in
theorem advances_tryExtensions : ∀ {l : List Extension}, (∀ e ∈ l, e ∈ P.syntaxExtensions) →
    tryExtensions P.options subj.peekChar l subj = (subj, none) ∨
      (tryExtensions P.options subj.peekChar l subj).2.isSome ∧
        Advances subj (tryExtensions P.options subj.peekChar l subj).1
  | [], _ => .inl rfl
  | e :: rest, attached => by
    have later := advances_tryExtensions fun e' member => attached e' (List.mem_cons_of_mem e member)
    rw [tryExtensions]
    split
    next => exact later
    next f callback =>
      have here := (reads e (attached e List.mem_cons_self)).inline f callback P.options subj inside
      generalize f P.options subj subj.peekChar = r at here ⊢
      obtain ⟨subj', newInl⟩ := r
      rcases here with same | ⟨made, passes⟩
      · cases same
        exact later
      · obtain ⟨node, rfl⟩ := Option.isSome_iff_exists.mp made
        exact .inr ⟨rfl, passes⟩

theorem advances_nextInline : Advances subj (nextInline P chars subj subj.peekChar).1 := by
  have dispatched := proceeds_dispatchInline reads inside notNul
  unfold nextInline
  extract_lets initpos
  generalize dispatchInline P chars subj subj.peekChar = r at dispatched ⊢
  obtain ⟨subj', newInl⟩ := r
  cases newInl with
  | some node =>
    rcases dispatched with nothing | passes
    · cases nothing
    · exact passes
  | none =>
    dsimp only
    split
    next stays =>
      rcases dispatched with same | passes
      · obtain rfl : subj' = subj := (Prod.mk.inj same).1
        have tried := advances_tryExtensions reads inside fun e member => mem_syntaxExtensions member
        generalize tryExtensions P.options subj'.peekChar P.inlineSyntaxExtensions subj' = r at tried ⊢
        obtain ⟨subj'', newInl⟩ := r
        rcases tried with same | ⟨made, passes⟩
        · cases same
          exact advances_makeText inside P chars
        · obtain ⟨node, rfl⟩ := Option.isSome_iff_exists.mp made
          exact passes
      · exact absurd stays passes.beyond.ne'
    next moved =>
      rcases dispatched with same | passes
      · exact absurd (congrArg (fun r => r.1.pos) same) moved
      · exact passes

/-- `parse_inline` passes some of the content. -/
theorem advances_parseInline (nulFree : 0 ∉ subj.input) :
    ∃ subj', parseInline P chars subj = some subj' ∧ Advances subj subj' := by
  have passes := advances_nextInline reads inside notNul
  have notEnd : ¬ (subj.peekChar == 0) = true := by
    rw [beq_iff_eq]
    intro nul
    refine nulFree ?_
    rw [← nul]
    show byteAt subj.input subj.pos ∈ _
    rw [byteAt_eq_getElem inside]
    exact List.getElem_mem inside
  unfold parseInline
  dsimp only
  rw [if_neg notEnd]
  generalize nextInline P chars subj subj.peekChar = r at passes ⊢
  obtain ⟨subj', newInl⟩ := r
  refine ⟨_, rfl, ?_⟩
  cases newInl with
  | none => exact passes
  | some node => exact passes.same rfl rfl

omit inside in
/-- The loop of `cmark_parse_inlines` ends at the end of the content. -/
theorem pos_parseInlinesLoop (nulFree : 0 ∉ subj.input) {fuel : Nat}
    (within : subj.pos ≤ subj.input.length) (enough : subj.input.length ≤ subj.pos + fuel) :
    (parseInlinesLoop P chars fuel subj).pos = subj.input.length := by
  induction fuel generalizing subj with
  | zero => exact Nat.le_antisymm within enough
  | succ fuel ih =>
    rw [parseInlinesLoop]
    by_cases atEnd : subj.input.length ≤ subj.pos
    · rw [if_pos (by simpa [Subject.isEof] using atEnd)]
      exact Nat.le_antisymm within atEnd
    · rw [if_neg (by simpa [Subject.isEof] using atEnd)]
      obtain ⟨subj', parsed, passes⟩ := advances_parseInline reads (by omega) notNul nulFree
      rw [parsed]
      have beyond := passes.beyond
      rw [← passes.input]
      refine ih (passes.input ▸ nulFree) (passes.input ▸ passes.within) ?_
      rw [passes.input]
      omega

end

end CmarkGfm
