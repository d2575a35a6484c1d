import CmarkGfm.Inlines.Brackets

/-!
# Link destinations

The grammar of link destinations, and what `manual_scan_link_url` takes instead: inside pointy
braces it passes over carriage returns and escaped newlines, and it ends a bare destination at a
space whether or not its parentheses are closed.
-/

namespace CmarkGfm

/-! ### The grammar -/

/-- What follows an opening pointy brace, up to the first closing brace that is not escaped. The
plain bytes are those allowed, without braces and backslashes. -/
inductive PointyBody (allowed : UInt8 → Bool) : Bytes → Prop
  | close : PointyBody allowed [chr '>']
  | escaped (c : UInt8) {s : Bytes} : PointyBody allowed s →
      PointyBody allowed (chr '\\' :: c :: s)
  | plain {c : UInt8} {s : Bytes} : c ≠ chr '\\' → c ≠ chr '<' → c ≠ chr '>' →
      allowed c = true → PointyBody allowed s → PointyBody allowed (c :: s)

/-- A backslash in front of punctuation. -/
def StartsEscape (c : UInt8) (rest : Bytes) : Prop :=
  c = chr '\\' ∧ rest.head?.elim false ispunct = true

/-- A bare sequence without spaces that takes the number of open parentheses from one value to
another and never above 32, in front of the rest of the input. -/
inductive Bare (rest : Bytes) : Nat → Bytes → Nat → Prop
  | done (d : Nat) : Bare rest d [] d
  | escaped {c : UInt8} {s : Bytes} {d e : Nat} : ispunct c = true → Bare rest d s e →
      Bare rest d (chr '\\' :: c :: s) e
  | opens {s : Bytes} {d e : Nat} : d < 32 → Bare rest (d + 1) s e → Bare rest d (chr '(' :: s) e
  | closes {s : Bytes} {d e : Nat} : Bare rest d s e → Bare rest (d + 1) (chr ')' :: s) e
  | plain {c : UInt8} {s : Bytes} {d e : Nat} : ¬ StartsEscape c (s ++ rest) → c ≠ chr '(' →
      c ≠ chr ')' → isspace c = false → Bare rest d s e → Bare rest d (c :: s) e

/-- The first `n` bytes are a link destination: they are in pointy braces without a line ending,
or they are bare with balanced parentheses. -/
def IsDestination (rest : Bytes) (n : Nat) : Prop :=
  n ≤ rest.length ∧
    ((∃ s, rest.take n = chr '<' :: s ∧ PointyBody (fun _ => true) s ∧
        ∀ c ∈ s, isLineEndChar c = false) ∨
      (rest.head? ≠ some (chr '<') ∧ Bare (rest.drop n) 0 (rest.take n) 0))

/-- What is behind a destination delimits it: behind pointy braces that is anything, behind a bare
destination a closing parenthesis, a space that is not its first byte, or the end. -/
def Delimited (rest : Bytes) (n : Nat) : Prop :=
  rest.head? = some (chr '<') ∨ rest.drop n = [] ∨ (rest.drop n).head? = some (chr ')') ∨
    (0 < n ∧ (rest.drop n).head?.elim false isspace = true)

/-- What `manual_scan_link_url` takes is a destination, and it refuses only what does not start
with one, or with one that goes on to the end. -/
def ScansDestination (input : Bytes) (offset : Nat) : Prop :=
  (∀ n url, manualScanLinkUrl input offset = some (n, url) → IsDestination (input.drop offset) n) ∧
    (manualScanLinkUrl input offset = none → ∀ n, IsDestination (input.drop offset) n →
      Delimited (input.drop offset) n → n = (input.drop offset).length)

/-- The pointy braces are closed, and not at the end, but there is a line ending inside that is
a carriage return or escaped. -/
def PointyLineEnding (rest : Bytes) : Prop :=
  ∃ s more, rest = chr '<' :: (s ++ more) ∧ more ≠ [] ∧ PointyBody (· != 10) s ∧
    ∃ c ∈ s, isLineEndChar c = true

/-- A bare sequence has open parentheses where a space ends it. -/
def UnclosedAtSpace (rest : Bytes) : Prop :=
  rest.head? ≠ some (chr '<') ∧
    ∃ s space more depth, rest = s ++ space :: more ∧ isspace space = true ∧
      Bare (space :: more) 0 s (depth + 1)

/-! ### The loops -/

section

variable {rest s more : Bytes} {n m d e : Nat}

/-- The loop for pointy braces ends behind the closing brace. -/
theorem pointyUrlLoop_iff :
    pointyUrlLoop n rest = some m ↔
      ∃ s more, rest = s ++ more ∧ PointyBody (· != 10) s ∧ n + s.length = m + 1 := by
  constructor
  · intro found
    fun_induction pointyUrlLoop n rest with
    | case1 => cases found
    | case2 n c closes =>
      cases found
      obtain rfl : c = chr '>' := by simpa using closes
      exact ⟨[chr '>'], [], rfl, .close, rfl⟩
    | case3 n c => cases found
    | case4 n c d rest closes =>
      cases found
      obtain rfl : c = chr '>' := by simpa using closes
      exact ⟨[chr '>'], d :: rest, rfl, .close, rfl⟩
    | case5 n c d rest _ escape ih =>
      obtain rfl : c = chr '\\' := by simpa using escape
      obtain ⟨s, more, rfl, body, length⟩ := ih found
      refine ⟨chr '\\' :: d :: s, more, rfl, .escaped d body, ?_⟩
      simp only [List.length_cons]
      omega
    | case6 => cases found
    | case7 n c d rest noClose noEscape inside ih =>
      obtain ⟨s, more, eq, body, length⟩ := ih found
      refine ⟨c :: s, more, congrArg (c :: ·) eq, ?_, ?_⟩
      · simp only [Bool.or_eq_true, beq_iff_eq, not_or] at inside noClose noEscape
        exact .plain noEscape inside.2 noClose (by simpa using inside.1) body
      · simp only [List.length_cons]
        omega
  · rintro ⟨s, more, rfl, body, length⟩
    induction body generalizing n with
    | close =>
      have same : n = m := by simpa using length
      subst same
      cases more <;> rfl
    | @escaped c s body ih =>
      have shorter := ih (n := n + 2) (by simp only [List.length_cons] at length; omega)
      show pointyUrlLoop n (chr '\\' :: c :: (s ++ more)) = some m
      rw [pointyUrlLoop]
      simpa [chr] using shorter
    | @plain c s noEscape noOpen noClose allowed body ih =>
      have shorter := ih (n := n + 1) (by simp only [List.length_cons] at length; omega)
      show pointyUrlLoop n (c :: (s ++ more)) = some m
      cases left : s ++ more with
      | nil =>
        rw [left] at shorter
        cases shorter
      | cons x rest =>
        rw [left] at shorter
        rw [pointyUrlLoop]
        have notNewline : c ≠ 10 := by simpa using allowed
        simpa [noEscape, noOpen, noClose, notNewline] using shorter

/-- What stops the loop for bare destinations. -/
def StopsBare (stop : UInt8) (depth n : Nat) : Prop :=
  (stop = chr ')' ∧ depth = 0) ∨ (isspace stop = true ∧ 0 < n)

theorem startsEscape_iff {c : UInt8} :
    StartsEscape c rest ↔ (c == chr '\\' && rest.head?.elim false ispunct) = true := by
  rw [StartsEscape, Bool.and_eq_true, beq_iff_eq]

/-- The turn of the loop at a byte that is not a backslash in front of punctuation. -/
theorem parenthesizedLoop_cons {c : UInt8} (noEscape : ¬ StartsEscape c rest) :
    parenthesizedLoop true d n (c :: rest) =
      if c == chr '(' then
        if d + 1 > 32 then none else parenthesizedLoop true (d + 1) (n + 1) rest
      else if c == chr ')' then
        if d = 0 then some n else parenthesizedLoop true (d - 1) (n + 1) rest
      else if isspace c then
        if n = 0 then none else some n
      else parenthesizedLoop true d (n + 1) rest := by
  rw [parenthesizedLoop.eq_def]
  dsimp only
  rw [if_neg (mt startsEscape_iff.mpr noEscape), Bool.true_and]

theorem parenthesizedLoop_stop {stop : UInt8} (stops : StopsBare stop d n) :
    parenthesizedLoop true d n (stop :: more) = some n := by
  rcases stops with ⟨rfl, rfl⟩ | ⟨space, positive⟩
  · rw [parenthesizedLoop_cons fun escape => absurd escape.1 (by decide)]
    rfl
  · have differs {c : UInt8} (other : isspace c = false) : stop ≠ c := by
      rintro rfl
      rw [space] at other
      cases other
    rw [parenthesizedLoop_cons fun escape => differs rfl escape.1]
    simp [differs (c := chr '(') rfl, differs (c := chr ')') rfl, space, Nat.ne_of_gt positive]

/-- The loop for bare destinations ends in front of what stops it. -/
theorem parenthesizedLoop_iff :
    parenthesizedLoop true d n rest = some m ↔
      ∃ s stop more e, rest = s ++ stop :: more ∧ n + s.length = m ∧
        Bare (stop :: more) d s e ∧ StopsBare stop e m := by
  constructor
  · intro found
    fun_induction parenthesizedLoop true d n rest with
    | case1 | case2 | case4 | case8 => cases found
    | case3 d n c x rest escape ih =>
      obtain ⟨rfl, punct⟩ := startsEscape_iff.mpr escape
      obtain ⟨s, stop, more, e, rfl, length, bare, stops⟩ := ih found
      refine ⟨chr '\\' :: x :: s, stop, more, e, rfl, ?_, .escaped punct bare, stops⟩
      simp only [List.length_cons]
      omega
    | case5 d n c rest _ opens shallow ih =>
      obtain rfl : c = chr '(' := by simpa using opens
      obtain ⟨s, stop, more, e, rfl, length, bare, stops⟩ := ih found
      refine ⟨chr '(' :: s, stop, more, e, rfl, ?_, .opens (by omega) bare, stops⟩
      simp only [List.length_cons]
      omega
    | case6 n c rest _ _ closes =>
      cases found
      exact ⟨[], c, rest, 0, rfl, rfl, .done 0, .inl ⟨by simpa using closes, rfl⟩⟩
    | case7 d n c rest _ _ closes deep ih =>
      obtain rfl : c = chr ')' := by simpa using closes
      obtain ⟨s, stop, more, e, rfl, length, bare, stops⟩ := ih found
      obtain ⟨d, rfl⟩ := Nat.exists_eq_succ_of_ne_zero deep
      refine ⟨chr ')' :: s, stop, more, e, rfl, ?_, .closes bare, stops⟩
      simp only [List.length_cons]
      omega
    | case9 d n c rest _ _ _ space positive =>
      cases found
      exact ⟨[], c, rest, d, rfl, rfl, .done d, .inr ⟨by simpa using space, Nat.pos_of_ne_zero positive⟩⟩
    | case10 d n c rest noEscape noOpen noClose noSpace ih =>
      obtain ⟨s, stop, more, e, rfl, length, bare, stops⟩ := ih found
      refine ⟨c :: s, stop, more, e, rfl, ?_, ?_, stops⟩
      · simp only [List.length_cons]
        omega
      · exact .plain (mt startsEscape_iff.mp noEscape) (by simpa using noOpen)
          (by simpa using noClose) (by simpa using noSpace) bare
  · rintro ⟨s, stop, more, e, rfl, length, bare, stops⟩
    induction bare generalizing n with
    | done d =>
      obtain rfl : n = m := by simpa using length
      exact parenthesizedLoop_stop stops
    | @escaped c s d e punct bare ih =>
      have shorter := ih (n := n + 2) (by simp only [List.length_cons] at length; omega) stops
      rw [List.cons_append, List.cons_append, parenthesizedLoop]
      simpa [punct] using shorter
    | @opens s d e shallow bare ih =>
      have shorter := ih (n := n + 1) (by simp only [List.length_cons] at length; omega) stops
      rw [List.cons_append, parenthesizedLoop_cons fun escape => absurd escape.1 (by decide),
        if_pos (by decide), if_neg (by omega)]
      exact shorter
    | @closes s d e bare ih =>
      have shorter := ih (n := n + 1) (by simp only [List.length_cons] at length; omega) stops
      rw [List.cons_append, parenthesizedLoop_cons fun escape => absurd escape.1 (by decide),
        if_neg (by decide), if_pos (by decide), if_neg (by omega)]
      exact shorter
    | @plain c s d e noEscape noOpen noClose noSpace bare ih =>
      have shorter := ih (n := n + 1) (by simp only [List.length_cons] at length; omega) stops
      rw [List.cons_append, parenthesizedLoop_cons noEscape, if_neg (by simpa using noOpen),
        if_neg (by simpa using noClose), if_neg (by simpa using noSpace)]
      exact shorter

theorem PointyBody.of_forall {p q : UInt8 → Bool} (body : PointyBody p s)
    (all : ∀ c ∈ s, q c = true) : PointyBody q s := by
  induction body with
  | close => exact .close
  | escaped c _ ih =>
    exact .escaped c (ih fun x member => all x (List.mem_cons_of_mem _ (List.mem_cons_of_mem _ member)))
  | plain noEscape noOpen noClose _ _ ih =>
    exact .plain noEscape noOpen noClose (all _ List.mem_cons_self)
      (ih fun x member => all x (List.mem_cons_of_mem _ member))

theorem PointyBody.ne_nil {p : UInt8 → Bool} (body : PointyBody p s) : s ≠ [] := by
  cases body <;> exact List.cons_ne_nil _ _

theorem Bare.depth_unique (first : Bare rest d s e) {e' : Nat} (second : Bare rest d s e') :
    e = e' := by
  induction first with
  | done d =>
    cases second
    rfl
  | escaped punct _ ih =>
    cases second with
    | escaped _ second => exact ih second
    | plain noEscape => exact absurd ⟨rfl, punct⟩ noEscape
  | opens _ _ ih =>
    cases second with
    | opens _ second => exact ih second
    | plain _ noOpen => exact absurd rfl noOpen
  | closes _ ih =>
    cases second with
    | closes second => exact ih second
    | plain _ _ noClose => exact absurd rfl noClose
  | plain noEscape noOpen noClose _ _ ih =>
    cases second with
    | escaped punct _ => exact absurd ⟨rfl, punct⟩ noEscape
    | opens => exact absurd rfl noOpen
    | closes => exact absurd rfl noClose
    | plain _ _ _ _ second => exact ih second

end

/-! ### Scanning a destination -/

section

variable {input : Bytes} {offset n : Nat} {url : Bytes}

theorem head?_drop_eq_brace :
    (input.drop offset).head? = some (chr '<') ↔ byteAt input offset = chr '<' :=
  head?_drop_iff (by decide)

/-- In pointy braces, the destination ends behind the closing brace, which is not the last byte. -/
theorem manualScanLinkUrl_pointy (brace : (input.drop offset).head? = some (chr '<')) :
    manualScanLinkUrl input offset = some (n, url) ↔
      ∃ s more, input.drop offset = chr '<' :: (s ++ more) ∧ more ≠ [] ∧
        PointyBody (· != 10) s ∧ n = s.length + 1 ∧ url = chunkDup input (offset + 1) (n - 2) := by
  have here := head?_drop_eq_brace.mp brace
  have inside := lt_length_of_byteAt_eq here (by decide)
  have cons : input.drop offset = chr '<' :: input.drop (offset + 1) := by
    rw [List.drop_eq_getElem_cons inside, ← byteAt_eq_getElem inside, here]
  unfold manualScanLinkUrl
  rw [if_pos (by simpa using here), cons]
  constructor
  · intro found
    split at found
    next m ends =>
      obtain ⟨s, more, eq, body, length⟩ := pointyUrlLoop_iff.mp ends
      have lengths := congrArg List.length eq
      rw [List.length_append, List.length_drop] at lengths
      split at found
      next => cases found
      next goesOn =>
        cases found
        refine ⟨s, more, congrArg _ eq, ?_, body, by omega, rfl⟩
        rintro rfl
        simp only [List.length_nil] at lengths
        omega
    next => cases found
  · rintro ⟨s, more, eq, goesOn, body, rfl, rfl⟩
    have eq := (List.cons.inj eq).2
    have lengths := congrArg List.length eq
    rw [List.length_append, List.length_drop] at lengths
    have positive := List.length_pos_of_ne_nil body.ne_nil
    have some := List.length_pos_of_ne_nil goesOn
    have ends : pointyUrlLoop 0 (input.drop (offset + 1)) = .some (s.length - 1) :=
      pointyUrlLoop_iff.mpr ⟨s, more, eq, body, by omega⟩
    rw [ends]
    dsimp only
    rw [if_neg (by omega)]
    rw [show s.length - 1 + 2 = s.length + 1 by omega,
      show s.length + 1 - 2 = s.length - 1 by omega]

/-- A bare destination ends in front of what stops it. -/
theorem manualScanLinkUrl_bare (noBrace : (input.drop offset).head? ≠ some (chr '<')) :
    manualScanLinkUrl input offset = some (n, url) ↔
      ∃ s stop more e, input.drop offset = s ++ stop :: more ∧ n = s.length ∧
        Bare (stop :: more) 0 s e ∧ StopsBare stop e n ∧ url = chunkDup input offset n := by
  have other := mt head?_drop_eq_brace.mpr noBrace
  unfold manualScanLinkUrl
  rw [if_neg (by simpa using other), manualScanLinkUrl2, Option.map_eq_some_iff]
  constructor
  · rintro ⟨m, found, eq⟩
    cases eq
    obtain ⟨s, stop, more, e, eq, length, bare, stops⟩ := parenthesizedLoop_iff.mp found
    exact ⟨s, stop, more, e, eq, by omega, bare, stops, rfl⟩
  · rintro ⟨s, stop, more, e, eq, rfl, bare, stops, rfl⟩
    exact ⟨s.length, parenthesizedLoop_iff.mpr ⟨s, stop, more, e, eq, by omega, bare, stops⟩, rfl⟩

/-- What is scanned is a destination, unless there is a line ending in the braces or a space with
open parentheses. -/
theorem isDestination_of_scan (noLineEnding : ¬ PointyLineEnding (input.drop offset))
    (closed : ¬ UnclosedAtSpace (input.drop offset))
    (found : manualScanLinkUrl input offset = some (n, url)) :
    IsDestination (input.drop offset) n := by
  by_cases brace : (input.drop offset).head? = some (chr '<')
  · obtain ⟨s, more, eq, goesOn, body, rfl, _⟩ := (manualScanLinkUrl_pointy brace).mp found
    rw [eq] at noLineEnding ⊢
    refine ⟨by simp, .inl ⟨s, by simp, body.of_forall fun _ _ => rfl, ?_⟩⟩
    intro c member
    by_contra lineEnd
    exact noLineEnding ⟨s, more, rfl, goesOn, body, c, member, by simpa using lineEnd⟩
  · obtain ⟨s, stop, more, e, eq, rfl, bare, stops, _⟩ := (manualScanLinkUrl_bare brace).mp found
    rw [eq] at closed brace ⊢
    refine ⟨by simp, .inr ⟨brace, ?_⟩⟩
    rw [List.drop_left, List.take_left]
    rcases stops with ⟨_, rfl⟩ | ⟨space, _⟩
    · exact bare
    · cases e with
      | zero => exact bare
      | succ depth => exact absurd ⟨brace, s, stop, more, depth, rfl, space, bare⟩ closed

/-- Nothing is refused that is delimited before the end. -/
theorem length_of_isDestination (refused : manualScanLinkUrl input offset = none)
    (destination : IsDestination (input.drop offset) n)
    (delimited : Delimited (input.drop offset) n) : n = (input.drop offset).length := by
  by_contra differs
  obtain ⟨bound, shape⟩ := destination
  have before : n < (input.drop offset).length := Nat.lt_of_le_of_ne bound differs
  have goesOn : (input.drop offset).drop n ≠ [] :=
    mt List.drop_eq_nil_iff.mp (Nat.not_le_of_lt before)
  rcases shape with ⟨s, eq, body, noLineEnd⟩ | ⟨brace, bare⟩
  · have split : input.drop offset = chr '<' :: (s ++ (input.drop offset).drop n) := by
      rw [← List.cons_append, ← eq, List.take_append_drop]
    have brace : (input.drop offset).head? = some (chr '<') := by
      rw [split]
      rfl
    have strict : PointyBody (· != 10) s := by
      apply body.of_forall
      intro c member
      have other := noLineEnd c member
      simp only [isLineEndChar, Bool.or_eq_false_iff] at other
      simpa using other.1
    have taken := (manualScanLinkUrl_pointy brace).mpr ⟨s, _, split, goesOn, strict, rfl, rfl⟩
    rw [refused] at taken
    cases taken
  · cases left : (input.drop offset).drop n with
    | nil => exact goesOn left
    | cons stop more =>
      have stops : StopsBare stop 0 n := by
        rw [Delimited, left] at delimited
        rcases delimited with absent | absent | closes | ⟨positive, space⟩
        · exact absurd absent brace
        · cases absent
        · exact .inl ⟨by simpa using closes, rfl⟩
        · exact .inr ⟨space, positive⟩
      have split : input.drop offset = (input.drop offset).take n ++ stop :: more := by
        rw [← left, List.take_append_drop]
      rw [left] at bare
      have taken := (manualScanLinkUrl_bare brace).mpr
        ⟨_, stop, more, 0, split, (List.length_take_of_le bound).symm, bare, stops, rfl⟩
      rw [refused] at taken
      cases taken

/-- `manual_scan_link_url` takes exactly the destinations, unless there is a line ending in the
braces or a space with open parentheses. -/
theorem scansDestination_iff (input : Bytes) (offset : Nat) :
    ScansDestination input offset ↔
      ¬ PointyLineEnding (input.drop offset) ∧ ¬ UnclosedAtSpace (input.drop offset) := by
  constructor
  · intro ⟨sound, _⟩
    constructor
    · rintro ⟨s, more, eq, goesOn, body, c, member, lineEnd⟩
      have brace : (input.drop offset).head? = some (chr '<') := by
        rw [eq]
        rfl
      obtain ⟨_, ⟨s', pointy, _, noLineEnd⟩ | ⟨noBrace, _⟩⟩ := sound _ _
        ((manualScanLinkUrl_pointy brace).mpr ⟨s, more, eq, goesOn, body, rfl, rfl⟩)
      · rw [eq, List.take_succ_cons, List.take_left] at pointy
        rw [(List.cons.inj pointy).2] at member
        rw [noLineEnd c member] at lineEnd
        cases lineEnd
      · exact noBrace brace
    · rintro ⟨noBrace, s, space, more, depth, eq, isSpace, bare⟩
      have positive : 0 < s.length := by
        cases bare
        all_goals exact Nat.succ_pos _
      obtain ⟨_, ⟨s', pointy, _⟩ | ⟨_, balanced⟩⟩ := sound _ _
        ((manualScanLinkUrl_bare noBrace).mpr
          ⟨s, space, more, _, eq, rfl, bare, .inr ⟨isSpace, positive⟩, rfl⟩)
      · apply noBrace
        rw [eq, List.take_left] at pointy
        rw [eq, pointy]
        rfl
      · rw [eq, List.drop_left, List.take_left] at balanced
        exact absurd (bare.depth_unique balanced) (Nat.succ_ne_zero depth)
  · rintro ⟨noLineEnding, closed⟩
    exact ⟨fun n url => isDestination_of_scan noLineEnding closed,
      fun refused n => length_of_isDestination refused⟩

/-- A space ends a destination with an open parenthesis, and a carriage return is passed over. -/
theorem not_scansDestination :
    ¬ ScansDestination (lit "(a b") 0 ∧ ¬ ScansDestination (lit "<a\rb> c") 0 := by
  constructor
  · intro scans
    obtain ⟨_, ⟨s, pointy, _⟩ | ⟨_, balanced⟩⟩ := scans.1 2 (lit "(a") (by decide)
    · exact absurd (List.cons.inj pointy).1 (by decide)
    · have noEscape : ¬ StartsEscape (chr 'a') (lit " b") := fun escape => absurd escape.1 (by decide)
      have plain : Bare (lit " b") 1 [chr 'a'] 1 :=
        .plain noEscape (by decide) (by decide) (by decide) (.done 1)
      have one : Bare (lit " b") 0 (lit "(a") 1 := .opens (by decide) plain
      exact absurd (balanced.depth_unique one) (by decide)
  · intro scans
    obtain ⟨_, ⟨s, pointy, _, noLineEnd⟩ | ⟨noBrace, _⟩⟩ := scans.1 5 (lit "a\rb") (by decide)
    · have inside : (13 : UInt8) ∈ s := by
        rw [← (List.cons.inj (show lit "<a\rb>" = chr '<' :: s from pointy)).2]
        decide
      exact absurd (noLineEnd 13 inside) (by decide)
    · exact noBrace rfl

end

end CmarkGfm
