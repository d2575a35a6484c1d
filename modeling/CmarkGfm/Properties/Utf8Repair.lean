import CmarkGfm.Library.Utf8
import CmarkGfm.Utf8

/-!
# Repairing UTF-8

What `cmark_utf8proc_check` appends is always a text without NUL, and a text without NUL stays as
it is. What it replaces holds no character, except where a byte near the end announces more bytes
than remain: there everything up to the end is replaced.
-/

namespace CmarkGfm

open Utf8

/-! ### One character -/

section

variable {c : UInt8} {s rest : Bytes} {n : Nat}

theorem isContinuation_iff : isContinuation c = true ↔ Tail c := by
  have table : ∀ n < 256, (UInt8.ofNat n &&& 0xC0 == 0x80) = decide (0x80 ≤ n ∧ n ≤ 0xBF) := by
    decide +kernel
  have here := table c.toNat c.toNat_lt
  rw [UInt8.ofNat_toNat] at here
  rw [isContinuation, here, decide_eq_true_eq, Tail, UInt8.le_iff_toNat_le, UInt8.le_iff_toNat_le]
  rfl

theorem utf8Class_cases (high : 0x80 ≤ c) :
    utf8Class c = 0 ∨ (utf8Class c = 2 ∧ c < 0xE0) ∨ (utf8Class c = 3 ∧ 0xE0 ≤ c ∧ c < 0xF0) ∨
      (utf8Class c = 4 ∧ 0xF0 ≤ c) := by
  unfold utf8Class
  grind

/-- The test of a character of two bytes. -/
theorem utf8Valid_two {b : UInt8} (two : utf8Class c = 2) :
    utf8Valid (c :: b :: rest) =
      if !isContinuation b then .error 1 else if c < 0xC2 then .error 2 else .ok 2 := by
  simp [utf8Valid, byteAt, two]

theorem utf8Valid_three {b d : UInt8} (three : utf8Class c = 3) :
    utf8Valid (c :: b :: d :: rest) =
      if !isContinuation b then .error 1
      else if !isContinuation d then .error 2
      else if c == 0xE0 && b < 0xA0 then .error 3
      else if c == 0xED && b ≥ 0xA0 then .error 3
      else .ok 3 := by
  simp [utf8Valid, byteAt, three]

theorem utf8Valid_four {b d e : UInt8} (four : utf8Class c = 4) :
    utf8Valid (c :: b :: d :: e :: rest) =
      if !isContinuation b then .error 1
      else if !isContinuation d then .error 2
      else if !isContinuation e then .error 3
      else if c == 0xF0 && b < 0x90 then .error 4
      else if c ≥ 0xF4 && (c > 0xF4 || b ≥ 0x90) then .error 4
      else .ok 4 := by
  simp [utf8Valid, byteAt, four]

/-- Where a first byte announces more bytes than there are, all of them are to be skipped. -/
theorem utf8Valid_truncated (truncated : (c :: rest).length < utf8Class c) :
    utf8Valid (c :: rest) = .error (c :: rest).length := by
  have some : utf8Class c ≠ 0 := Nat.ne_of_gt (Nat.zero_lt_of_lt truncated)
  unfold utf8Valid
  extract_lets byte length
  have announces : length = utf8Class c := rfl
  rw [if_neg (by simpa [announces] using some), if_pos (announces ▸ truncated)]

/-- What the test says of the bytes at a position. -/
inductive Tested (c : UInt8) (rest : Bytes) : Except Nat Nat → Prop
  | character {s more : Bytes} : rest = s ++ more → Character (c :: s) → Tested c rest (.ok (s.length + 1))
  | truncated : (c :: rest).length < utf8Class c → Tested c rest (.error (c :: rest).length)
  | illFormed {s more : Bytes} : rest = s ++ more → (∀ b ∈ s, Tail b) →
      utf8Class c ≤ (c :: rest).length → Tested c rest (.error (s.length + 1))

theorem tested_utf8Valid (high : 0x80 ≤ c) : Tested c rest (utf8Valid (c :: rest)) := by
  by_cases truncated : (c :: rest).length < utf8Class c
  · rw [utf8Valid_truncated truncated]
    exact .truncated truncated
  have enough := Nat.le_of_not_lt truncated
  have ill (s more : Bytes) (eq : rest = s ++ more) (tails : ∀ b ∈ s, Tail b) :
      Tested c rest (.error (s.length + 1)) := .illFormed eq tails enough
  rcases utf8Class_cases high with none | ⟨two, below⟩ | ⟨three, low, below⟩ | ⟨four, low⟩
  · have first : utf8Valid (c :: rest) = .error 1 := by simp [utf8Valid, byteAt, none]
    rw [first]
    exact ill [] rest rfl nofun
  · match rest, two ▸ enough with
    | b :: more, _ =>
      rw [utf8Valid_two two]
      split
      next => exact ill [] _ rfl nofun
      next cont =>
        have tail : Tail b := isContinuation_iff.mp (by simpa using cont)
        split
        next => exact ill [b] more rfl (by simpa using tail)
        next overlong => exact .character (s := [b]) rfl (.two (UInt8.not_lt.mp overlong) (by grind) tail)
  · match rest, three ▸ enough with
    | b :: d :: more, _ =>
      rw [utf8Valid_three three]
      split
      next => exact ill [] _ rfl nofun
      next contB =>
        have tailB : Tail b := isContinuation_iff.mp (by simpa using contB)
        split
        next => exact ill [b] _ rfl (by simpa using tailB)
        next contD =>
          have tailD : Tail d := isContinuation_iff.mp (by simpa using contD)
          have tails : ∀ x ∈ [b, d], Tail x := by simpa using ⟨tailB, tailD⟩
          split
          next => exact ill [b, d] more rfl tails
          next overlong =>
            split
            next => exact ill [b, d] more rfl tails
            next surrogate =>
              exact .character (s := [b, d]) rfl
                (.three low (by grind) tailB tailD (by grind) (by grind))
  · match rest, four ▸ enough with
    | b :: d :: e :: more, _ =>
      rw [utf8Valid_four four]
      split
      next => exact ill [] _ rfl nofun
      next contB =>
        have tailB : Tail b := isContinuation_iff.mp (by simpa using contB)
        split
        next => exact ill [b] _ rfl (by simpa using tailB)
        next contD =>
          have tailD : Tail d := isContinuation_iff.mp (by simpa using contD)
          split
          next => exact ill [b, d] _ rfl (by simpa using ⟨tailB, tailD⟩)
          next contE =>
            have tailE : Tail e := isContinuation_iff.mp (by simpa using contE)
            have tails : ∀ x ∈ [b, d, e], Tail x := by simpa using ⟨tailB, tailD, tailE⟩
            split
            next => exact ill [b, d, e] more rfl tails
            next overlong =>
              split
              next => exact ill [b, d, e] more rfl tails
              next excess =>
                exact .character (s := [b, d, e]) rfl
                  (.four low (by grind) tailB tailD tailE (by grind) (by grind))

/-- The test accepts every character. -/
theorem utf8Valid_character (high : 0x80 ≤ c) (character : Character (c :: s)) :
    utf8Valid (c :: (s ++ rest)) = .ok (s.length + 1) := by
  cases character with
  | one ascii => exact absurd ascii (UInt8.not_lt.mpr high)
  | @two _ b low below tail =>
    have cont := isContinuation_iff.mpr tail
    have two : utf8Class c = 2 := by grind [utf8Class]
    rw [List.cons_append, utf8Valid_two two]
    simp [cont, UInt8.not_lt.mpr low]
  | @three _ b d low below tailB tailD noOverlong noSurrogate =>
    have contB := isContinuation_iff.mpr tailB
    have contD := isContinuation_iff.mpr tailD
    have three : utf8Class c = 3 := by grind [utf8Class]
    rw [List.cons_append, List.cons_append, utf8Valid_three three]
    simp only [contB, contD]
    grind
  | @four _ b d e low below tailB tailD tailE noOverlong noExcess =>
    have contB := isContinuation_iff.mpr tailB
    have contD := isContinuation_iff.mpr tailD
    have contE := isContinuation_iff.mpr tailE
    have four : utf8Class c = 4 := by grind [utf8Class]
    rw [List.cons_append, List.cons_append, List.cons_append, utf8Valid_four four]
    simp only [contB, contD, contE]
    grind

theorem utf8Class_of_character (high : 0x80 ≤ c) (character : Character (c :: s)) :
    utf8Class c = s.length + 1 := by
  cases character with
  | one ascii => exact absurd ascii (UInt8.not_lt.mpr high)
  | two => grind [utf8Class]
  | three => grind [utf8Class]
  | four => grind [utf8Class]

theorem utf8Class_tail (tail : Tail c) : utf8Class c = 0 := by
  grind [utf8Class, Tail]

end

/-! ### The loop -/

section

variable {c : UInt8} {line s rest : Bytes} {n fuel : Nat}

theorem utf8CheckFuel_nul : utf8CheckFuel (fuel + 1) (0 :: rest) =
    encodeUnknown ++ utf8CheckFuel fuel rest := rfl

theorem utf8CheckFuel_ascii (notNul : c ≠ 0) (ascii : c < 0x80) :
    utf8CheckFuel (fuel + 1) (c :: rest) = c :: utf8CheckFuel fuel rest := by
  rw [utf8CheckFuel, if_neg (by simpa using notNul), if_pos ascii]

theorem utf8CheckFuel_valid (high : 0x80 ≤ c) (valid : utf8Valid (c :: rest) = .ok n) :
    utf8CheckFuel (fuel + 1) (c :: rest) =
      (c :: rest).take n ++ utf8CheckFuel fuel ((c :: rest).drop n) := by
  have notNul : c ≠ 0 := by grind
  rw [utf8CheckFuel, if_neg (by simpa using notNul), if_neg (UInt8.not_lt.mpr high), valid]

theorem utf8CheckFuel_invalid (high : 0x80 ≤ c) (invalid : utf8Valid (c :: rest) = .error n) :
    utf8CheckFuel (fuel + 1) (c :: rest) =
      encodeUnknown ++ utf8CheckFuel fuel ((c :: rest).drop n) := by
  have notNul : c ≠ 0 := by grind
  rw [utf8CheckFuel, if_neg (by simpa using notNul), if_neg (UInt8.not_lt.mpr high), invalid]

theorem character_encodeUnknown : Character encodeUnknown :=
  .three (by decide) (by decide) (by decide) (by decide) (by decide) (by decide)

/-- What a turn of the loop appends, and what it passes: a character other than NUL, or U+FFFD for a
NUL, for all that is left, or for a byte and the tails behind it. -/
inductive Turn : Bytes → Bytes → Bytes → Prop
  | keep {s rest : Bytes} : Character s → 0 ∉ s → Turn s rest s
  | nul {rest : Bytes} : Turn [0] rest encodeUnknown
  | truncated {c : UInt8} {s : Bytes} : (c :: s).length < utf8Class c → Turn (c :: s) [] encodeUnknown
  | illFormed {c : UInt8} {s rest : Bytes} : 0x80 ≤ c → (∀ b ∈ s, Tail b) →
      utf8Class c ≤ (c :: (s ++ rest)).length →
      (∀ t more, s ++ rest = t ++ more → ¬ Character (c :: t)) → Turn (c :: s) rest encodeUnknown

/-- One turn of the loop. -/
theorem turn_utf8CheckFuel (fuel : Nat) (c : UInt8) (line : Bytes) :
    ∃ s rest out, c :: line = s ++ rest ∧ s ≠ [] ∧ Turn s rest out ∧
      utf8CheckFuel (fuel + 1) (c :: line) = out ++ utf8CheckFuel fuel rest := by
  by_cases nul : c = 0
  · subst nul
    exact ⟨[0], line, _, rfl, by simp, .nul, utf8CheckFuel_nul⟩
  by_cases ascii : c < 0x80
  · exact ⟨[c], line, [c], rfl, by simp, .keep (.one ascii) (by simpa using Ne.symm nul),
      utf8CheckFuel_ascii nul ascii⟩
  have high := UInt8.not_lt.mp ascii
  have tested : Tested c line (utf8Valid (c :: line)) := tested_utf8Valid high
  generalize outcome : utf8Valid (c :: line) = r at tested
  cases tested with
  | @character s more eq character =>
    refine ⟨c :: s, more, c :: s, by rw [eq]; rfl, by simp, .keep character ?_, ?_⟩
    · intro member
      rcases List.mem_cons.mp member with zero | inTails
      · exact nul zero.symm
      · exact absurd (character.tail_of_mem inTails) (by decide)
    · rw [utf8CheckFuel_valid high outcome, eq]
      simp
  | truncated short =>
    refine ⟨c :: line, [], encodeUnknown, (List.append_nil _).symm, by simp, .truncated short, ?_⟩
    rw [utf8CheckFuel_invalid high outcome, List.drop_length]
  | @illFormed s more eq tails enough =>
    refine ⟨c :: s, more, encodeUnknown, by rw [eq]; rfl, by simp, .illFormed high tails ?_ ?_, ?_⟩
    · rw [← eq]
      exact enough
    · intro t behind same character
      rw [eq, same, utf8Valid_character high character] at outcome
      cases outcome
    · rw [utf8CheckFuel_invalid high outcome, eq]
      simp

/-- A statement about what is read and what is appended that holds of every turn holds of the
whole. -/
theorem utf8CheckFuel_induction {motive : Bytes → Bytes → Prop} (nil : motive [] [])
    (turn : ∀ s rest out more, s ≠ [] → Turn s rest out → motive rest more →
      motive (s ++ rest) (out ++ more)) (enough : line.length ≤ fuel) :
    motive line (utf8CheckFuel fuel line) := by
  induction fuel generalizing line with
  | zero =>
    obtain rfl := List.length_eq_zero_iff.mp (Nat.le_zero.mp enough)
    exact nil
  | succ fuel ih =>
    cases line with
    | nil => exact nil
    | cons c line =>
      obtain ⟨s, rest, out, eq, some, step, result⟩ := turn_utf8CheckFuel fuel c line
      have shorter := congrArg List.length eq
      rw [List.length_append] at shorter
      have positive := List.length_pos_of_ne_nil some
      rw [result, eq]
      exact turn s rest out _ some step (ih (by omega))

theorem utf8Check_induction {motive : Bytes → Bytes → Prop} (nil : motive [] [])
    (turn : ∀ s rest out more, s ≠ [] → Turn s rest out → motive rest more →
      motive (s ++ rest) (out ++ more)) (line : Bytes) : motive line (utf8Check line) :=
  utf8CheckFuel_induction nil turn le_rfl

theorem not_character_of_truncated {t behind : Bytes} (short : (c :: s).length < utf8Class c)
    (eq : s = t ++ behind) : ¬ Character (c :: t) := by
  intro character
  have high : 0x80 ≤ c := by
    rw [List.length_cons] at short
    grind [utf8Class]
  rw [utf8Class_of_character high character, eq] at short
  simp only [List.length_cons, List.length_append] at short
  omega

/-! ### What is appended -/

theorem text_utf8Check (line : Bytes) : Text (utf8Check line) := by
  apply utf8Check_induction (motive := fun _ out => Text out)
  · exact .nil
  · intro s rest out more _ turn text
    cases turn with
    | keep character _ => exact .cons character text
    | nul => exact .cons character_encodeUnknown text
    | truncated => exact .cons character_encodeUnknown text
    | illFormed => exact .cons character_encodeUnknown text

theorem nul_notMem_utf8Check (line : Bytes) : 0 ∉ utf8Check line := by
  have unknown : 0 ∉ encodeUnknown := by decide
  apply utf8Check_induction (motive := fun _ out => 0 ∉ out)
  · exact List.not_mem_nil
  · intro s rest out more _ turn clean
    rw [List.mem_append, not_or]
    cases turn with
    | keep _ notNul => exact ⟨notNul, clean⟩
    | nul => exact ⟨unknown, clean⟩
    | truncated => exact ⟨unknown, clean⟩
    | illFormed => exact ⟨unknown, clean⟩

/-- A text without NUL stays as it is. -/
theorem utf8Check_eq_self (text : Text line) (clean : 0 ∉ line) : utf8Check line = line := by
  revert text clean
  apply utf8Check_induction (motive := fun line out => Text line → 0 ∉ line → out = line)
  · exact fun _ _ => rfl
  · intro s rest out more some turn ih text clean
    rw [List.mem_append, not_or] at clean
    cases turn with
    | keep character _ => rw [ih (text.of_append character) clean.2]
    | nul => exact absurd List.mem_cons_self clean.1
    | @truncated c s short =>
      rw [List.append_nil] at text
      obtain ⟨t, behind, eq, character, _⟩ := text.exists_character
      exact absurd character (not_character_of_truncated short eq)
    | @illFormed c s rest _ _ _ none =>
      rw [List.cons_append] at text
      obtain ⟨t, behind, eq, character, _⟩ := text.exists_character
      exact absurd character (none t behind eq)

/-- The result of a repair is a text without NUL, a text without NUL is its own repair, and so is a
repaired one. -/
theorem utf8Check_wellFormed (line : Bytes) :
    Text (utf8Check line) ∧ 0 ∉ utf8Check line ∧
      (Text line → 0 ∉ line → utf8Check line = line) ∧
      utf8Check (utf8Check line) = utf8Check line :=
  ⟨text_utf8Check line, nul_notMem_utf8Check line, utf8Check_eq_self,
    utf8Check_eq_self (text_utf8Check line) (nul_notMem_utf8Check line)⟩

/-! ### What is replaced -/

/-- A character other than NUL starts here. -/
def StartsCharacter (s : Bytes) : Prop := ∃ c more, s = c ++ more ∧ Character c ∧ 0 ∉ c

/-- The second is the first with every character other than NUL kept in its place, and with U+FFFD
for what is between them. -/
inductive Repairs : Bytes → Bytes → Prop
  | nil : Repairs [] []
  | keep {c rest out : Bytes} : Character c → 0 ∉ c → Repairs rest out →
      Repairs (c ++ rest) (c ++ out)
  | replace {junk rest out : Bytes} : junk ≠ [] →
      (∀ s t, junk = s ++ t → t ≠ [] → ¬ StartsCharacter (t ++ rest)) → Repairs rest out →
      Repairs (junk ++ rest) (encodeUnknown ++ out)

/-- A byte announces more bytes than remain, and a character starts behind it. -/
def LosesCharacter (line : Bytes) : Prop :=
  ∃ before c s t, line = before ++ c :: (s ++ t) ∧ (c :: (s ++ t)).length < utf8Class c ∧
    StartsCharacter t

/-- An ASCII byte other than NUL. -/
def isAscii (c : UInt8) : Bool := c != 0 && c < 0x80

/-- The first byte of a character of one or two bytes. -/
def isShort (c : UInt8) : Bool := isAscii c || (0xC2 ≤ c && c ≤ 0xDF)

/-- A character other than NUL of one or two bytes starts here. -/
def startsShort : Bytes → Bool
  | [] => false
  | c :: rest => isShort c && (c < 0x80 || rest.head?.elim false isContinuation)

/-- The number of positions at which such a character starts. -/
def countShort : Bytes → Nat
  | [] => 0
  | c :: rest => (if startsShort (c :: rest) then 1 else 0) + countShort rest

theorem startsCharacter_of_startsShort (short : startsShort line = true) : StartsCharacter line := by
  cases line with
  | nil => cases short
  | cons c rest =>
    obtain ⟨first, second⟩ := Bool.and_eq_true_iff.mp short
    by_cases ascii : c < 0x80
    · exact ⟨[c], rest, rfl, .one ascii, by grind [isShort, isAscii]⟩
    · cases rest with
      | nil => simp [ascii] at second
      | cons b more =>
        have tail : Tail b := isContinuation_iff.mp (by simpa [ascii] using second)
        refine ⟨[c, b], more, rfl, .two ?_ ?_ tail, ?_⟩
        · grind [isShort, isAscii]
        · grind [isShort, isAscii]
        · grind [Tail]

theorem StartsCharacter.short (starts : StartsCharacter line) (few : line.length ≤ 2) :
    startsShort line = true := by
  obtain ⟨c, more, rfl, character, notNul⟩ := starts
  cases character with
  | one ascii => grind [startsShort, isShort, isAscii]
  | two low high tail =>
    have cont := isContinuation_iff.mpr tail
    simp only [List.cons_append, startsShort, List.head?_cons, Option.elim_some, cont]
    grind [isShort]
  | three => simp at few
  | four => simp at few

theorem startsShort_tail (tail : Tail c) : startsShort (c :: rest) = false := by
  grind [startsShort, isShort, isAscii, Tail]

theorem countShort_tails (tails : ∀ b ∈ s, Tail b) : countShort (s ++ rest) = countShort rest := by
  induction s with
  | nil => rfl
  | cons b s ih =>
    rw [List.cons_append, countShort, startsShort_tail (tails b List.mem_cons_self),
      ih fun x member => tails x (.tail b member)]
    simp

theorem countP_tails (tails : ∀ b ∈ s, Tail b) : s.countP isShort = 0 := by
  rw [List.countP_eq_zero]
  intro b member
  have tail := tails b member
  grind [isShort, isAscii, Tail]

/-- At a character of one or two bytes, one is counted. -/
theorem countShort_character (character : Character s) (notNul : 0 ∉ s) :
    countShort (s ++ rest) = s.countP isShort + countShort rest := by
  obtain ⟨a, tails, rfl, _, allTails, length, _⟩ := character.shape
  rw [List.cons_append, countShort, countShort_tails allTails, List.countP_cons,
    countP_tails allTails, Nat.zero_add]
  have same : startsShort (a :: (tails ++ rest)) = isShort a := by
    by_cases short : isShort a = true
    · have few : (a :: tails).length ≤ 2 := by grind [announced, isShort, isAscii]
      have starts : StartsCharacter (a :: tails) := ⟨_, [], (List.append_nil _).symm, character, notNul⟩
      have shortHere := starts.short few
      cases tails with
      | nil => grind [startsShort]
      | cons b more => grind [startsShort]
    · grind [startsShort]
  rw [same]

theorem countShort_le_append (s : Bytes) : countShort rest ≤ countShort (s ++ rest) := by
  induction s with
  | nil => exact le_rfl
  | cons b s ih =>
    rw [List.cons_append, countShort]
    omega

theorem countShort_junk (none : ∀ t u, s = t ++ u → u ≠ [] → ¬ StartsCharacter (u ++ rest)) :
    countShort (s ++ rest) = countShort rest := by
  induction s with
  | nil => rfl
  | cons b s ih =>
    have here : startsShort (b :: (s ++ rest)) = false := by
      rw [Bool.eq_false_iff]
      exact fun short => none [] (b :: s) rfl (by simp) (startsCharacter_of_startsShort short)
    rw [List.cons_append, countShort, here, ih fun t u same some => none (b :: t) u (by rw [same]; rfl) some]
    simp

/-- A repair has as many characters of one or two bytes as what it repairs. -/
theorem Repairs.countP_eq {out : Bytes} (repairs : Repairs line out) :
    out.countP isShort = countShort line := by
  induction repairs with
  | nil => rfl
  | keep character notNul _ ih => rw [List.countP_append, ih, countShort_character character notNul]
  | replace _ none _ ih =>
    rw [List.countP_append, ih, countShort_junk none, show encodeUnknown.countP isShort = 0 by decide,
      Nat.zero_add]

theorem LosesCharacter.of_cons (loses : LosesCharacter (c :: line))
    (enough : utf8Class c ≤ (c :: line).length) : LosesCharacter line := by
  obtain ⟨before, d, s, t, eq, truncated, starts⟩ := loses
  cases before with
  | nil =>
    rw [List.nil_append] at eq
    rw [← eq, ← (List.cons.inj eq).1] at truncated
    omega
  | cons b before => exact ⟨before, d, s, t, (List.cons.inj eq).2, truncated, starts⟩

theorem LosesCharacter.of_tails (tails : ∀ b ∈ s, Tail b) (loses : LosesCharacter (s ++ rest)) :
    LosesCharacter rest := by
  induction s with
  | nil => exact loses
  | cons b s ih =>
    apply ih fun x member => tails x (.tail b member)
    apply loses.of_cons
    rw [utf8Class_tail (tails b List.mem_cons_self)]
    exact Nat.zero_le _

theorem LosesCharacter.append (loses : LosesCharacter rest) (s : Bytes) :
    LosesCharacter (s ++ rest) := by
  obtain ⟨before, c, t, u, eq, truncated, starts⟩ := loses
  exact ⟨s ++ before, c, t, u, by rw [eq, List.append_assoc], truncated, starts⟩

theorem utf8Class_le_four (c : UInt8) : utf8Class c ≤ 4 := by
  grind [utf8Class]

/-- What is lost has one or two bytes. -/
theorem LosesCharacter.countShort_pos (loses : LosesCharacter line) : 0 < countShort line := by
  obtain ⟨before, c, s, t, rfl, truncated, starts⟩ := loses
  have most := utf8Class_le_four c
  have few : t.length ≤ 2 := by
    simp only [List.length_cons, List.length_append] at truncated
    omega
  have here : 0 < countShort t := by
    have short := starts.short few
    cases t with
    | nil => cases short
    | cons b t =>
      rw [countShort, if_pos short]
      omega
  have more : countShort t ≤ _ := countShort_le_append (before ++ c :: s)
  rw [List.append_assoc, List.cons_append] at more
  omega

/-- The loop keeps no more characters than there are, and fewer where it loses one. -/
theorem countP_utf8Check (line : Bytes) :
    (utf8Check line).countP isShort ≤ countShort line ∧
      (LosesCharacter line → (utf8Check line).countP isShort < countShort line) := by
  apply utf8Check_induction (motive := fun line out => out.countP isShort ≤ countShort line ∧
    (LosesCharacter line → out.countP isShort < countShort line))
  · exact ⟨le_rfl, fun loses => absurd loses.countShort_pos (lt_irrefl 0)⟩
  · intro s rest out more some turn ⟨atMost, fewer⟩
    have unknown : encodeUnknown.countP isShort = 0 := by decide
    rw [List.countP_append]
    cases turn with
    | keep character notNul =>
      rw [countShort_character character notNul]
      refine ⟨by omega, fun loses => ?_⟩
      have kept : LosesCharacter rest := by
        obtain ⟨a, tails, rfl, _, allTails, length, alone⟩ := character.shape
        apply LosesCharacter.of_tails allTails
        apply loses.of_cons
        by_cases ascii : a < 0x80
        · rw [utf8Class, if_pos ascii]
          simp
        · rw [utf8Class_of_character (UInt8.not_lt.mp ascii) character]
          simp
      have := fewer kept
      omega
    | nul =>
      have same : countShort ([0] ++ rest) = countShort rest := by
        simp [countShort, startsShort, isShort, isAscii]
      rw [unknown, same]
      refine ⟨by omega, fun loses => ?_⟩
      have := fewer (loses.of_cons (by simp [utf8Class]))
      omega
    | truncated =>
      have none : more.countP isShort = 0 := Nat.le_zero.mp atMost
      rw [unknown, none]
      exact ⟨Nat.zero_le _, fun loses => loses.countShort_pos⟩
    | @illFormed c s rest high tails enough none =>
      have same : countShort (c :: s ++ rest) = countShort rest := by
        have here : startsShort (c :: (s ++ rest)) = false := by
          rw [Bool.eq_false_iff]
          intro short
          obtain ⟨t, behind, eq, character, _⟩ := startsCharacter_of_startsShort short
          cases t with
          | nil => exact character.ne_nil rfl
          | cons b t =>
            obtain rfl := (List.cons.inj eq).1
            exact none t behind (List.cons.inj eq).2 character
        rw [List.cons_append, countShort, here, countShort_tails tails]
        simp
      rw [unknown, same]
      refine ⟨by omega, fun loses => ?_⟩
      have := fewer (LosesCharacter.of_tails tails (loses.of_cons enough))
      omega

/-- What is replaced holds no character, if none is lost. -/
theorem repairs_utf8Check (line : Bytes) : ¬ LosesCharacter line → Repairs line (utf8Check line) := by
  apply utf8Check_induction (motive := fun line out => ¬ LosesCharacter line → Repairs line out)
  · exact fun _ => .nil
  · intro s rest out more some turn ih kept
    have repairs := ih fun loses => kept (loses.append s)
    cases turn with
    | keep character notNul => exact .keep character notNul repairs
    | nul =>
      refine .replace some (fun t u eq nonempty starts => ?_) repairs
      cases t with
      | nil =>
        obtain ⟨character, behind, same, isCharacter, notNul⟩ := starts
        cases character with
        | nil => exact isCharacter.ne_nil rfl
        | cons b character =>
          rw [← show [0] = u from eq] at same
          rw [← (List.cons.inj same).1] at notNul
          exact notNul List.mem_cons_self
      | cons b t => exact nonempty (List.append_eq_nil_iff.mp (List.cons.inj eq).2.symm).2
    | @truncated c s short =>
      refine .replace some (fun t u eq nonempty starts => ?_) repairs
      rw [List.append_nil] at starts kept
      cases t with
      | nil =>
        obtain ⟨character, behind, same, isCharacter, _⟩ := starts
        cases character with
        | nil => exact isCharacter.ne_nil rfl
        | cons b character =>
          rw [← show c :: s = u from eq] at same
          obtain rfl := (List.cons.inj same).1
          exact not_character_of_truncated short (List.cons.inj same).2 isCharacter
      | cons b t =>
        obtain ⟨rfl, rfl⟩ := List.cons.inj eq
        exact kept ⟨[], c, t, u, rfl, short, starts⟩
    | @illFormed c s rest high tails enough none =>
      refine .replace some (fun t u eq nonempty starts => ?_) repairs
      obtain ⟨character, behind, same, isCharacter, _⟩ := starts
      cases character with
      | nil => exact isCharacter.ne_nil rfl
      | cons d character =>
        cases t with
        | nil =>
          rw [← show c :: s = u from eq] at same
          obtain rfl := (List.cons.inj same).1
          exact none character behind (List.cons.inj same).2 isCharacter
        | cons b t =>
          cases u with
          | nil => exact nonempty rfl
          | cons b u =>
            have member : b ∈ s := by
              rw [(List.cons.inj eq).2]
              simp
            rw [(List.cons.inj same).1] at member
            exact (tails d member).not_character isCharacter

theorem Repairs.filter_ascii {out : Bytes} (repairs : Repairs line out) :
    out.filter isAscii = line.filter isAscii := by
  induction repairs with
  | nil => rfl
  | keep _ _ _ ih => rw [List.filter_append, List.filter_append, ih]
  | @replace junk rest out _ none _ ih =>
    have nothing : junk.filter isAscii = [] := by
      rw [List.filter_eq_nil_iff]
      intro b member ascii
      obtain ⟨before, after, rfl⟩ := List.mem_iff_append.mp member
      refine none before (b :: after) rfl (by simp) ⟨[b], after ++ rest, rfl, .one ?_, ?_⟩
      · grind [isAscii]
      · grind [isAscii]
    rw [List.filter_append, List.filter_append, ih, nothing, show encodeUnknown.filter isAscii = [] by decide]

/-- Every ASCII byte other than NUL is kept, and only what holds no character is replaced, if and
only if no character stands behind a byte near the end that announces more bytes than remain. -/
theorem utf8Check_repairs_iff (line : Bytes) :
    ((utf8Check line).filter isAscii = line.filter isAscii ∧ Repairs line (utf8Check line)) ↔
      ¬ LosesCharacter line := by
  constructor
  · rintro ⟨_, repairs⟩ loses
    have fewer := (countP_utf8Check line).2 loses
    rw [repairs.countP_eq] at fewer
    exact lt_irrefl _ fewer
  · intro kept
    have repairs := repairs_utf8Check line kept
    exact ⟨repairs.filter_ascii, repairs⟩

/-- The last byte is lost with the one that announces four. -/
theorem utf8Check_loses_ascii :
    utf8Check [0xF0, 0x61] = encodeUnknown ∧
      ¬ ((utf8Check [0xF0, 0x61]).filter isAscii = [0xF0, 0x61].filter isAscii ∧
        Repairs [0xF0, 0x61] (utf8Check [0xF0, 0x61])) := by
  refine ⟨by decide, fun both => ?_⟩
  exact absurd both.1 (by decide)

end

end CmarkGfm
