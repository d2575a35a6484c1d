import CmarkGfm.Houdini
import CmarkGfm.Library.Utf8

/-!
# Entities

What a reference stands for is a character or the value of the table, except for two numeric
references: U+FFFE and U+FFFF are written as single bytes, which are no characters.
-/

namespace CmarkGfm

open Utf8

/-! ### Encoding a code point -/

section

variable {uc : Nat}

theorem toNat_ofNat {n : Nat} (small : n < 256) : (UInt8.ofNat n).toNat = n :=
  UInt8.toNat_ofNat_of_lt' small

end

/-! ### Numeric references -/

/-- The number that digits denote. -/
def numeral (base : Nat) (value : UInt8 → Nat) (digits : Bytes) : Nat :=
  digits.foldl (fun number d => number * base + value d) 0

def decimalValue (d : UInt8) : Nat := d.toNat - 48

def hexValue (d : UInt8) : Nat := (d.toNat ||| 32) % 39 - 9

/-- A numeric reference behind its ampersand, with its number. -/
inductive NumericReference : Bytes → Nat → Prop
  | decimal {digits behind : Bytes} : (∀ d ∈ digits, isdigit d = true) → 1 ≤ digits.length →
      digits.length ≤ 8 →
      NumericReference (chr '#' :: (digits ++ chr ';' :: behind)) (numeral 10 decimalValue digits)
  | hexadecimal {x : UInt8} {digits behind : Bytes} : x = chr 'x' ∨ x = chr 'X' →
      (∀ d ∈ digits, isxdigit d = true) → 1 ≤ digits.length → digits.length ≤ 8 →
      NumericReference (chr '#' :: x :: (digits ++ chr ';' :: behind)) (numeral 16 hexValue digits)

/-- U+FFFD for what is no code point of a character. -/
def replaceInvalid (codepoint : Nat) : Nat :=
  if codepoint == 0 || (codepoint ≥ 0xD800 && codepoint < 0xE000) || codepoint ≥ 0x110000
  then 0xFFFD else codepoint

section

variable {T : Tables} {isDigit : UInt8 → Bool} {value : UInt8 → Nat} {base n : Nat}
  {s rest bytes : Bytes}

/-- The value is cut off, the digits are all counted. -/
theorem scanDigits_eq (positive : 0 < base) (number count : Nat) :
    scanDigits isDigit base value s (min number 0x110000) count =
      (min ((s.takeWhile isDigit).foldl (fun number d => number * base + value d) number) 0x110000,
        count + (s.takeWhile isDigit).length) := by
  induction s generalizing number count with
  | nil => rfl
  | cons c s ih =>
    rw [scanDigits]
    by_cases digit : isDigit c = true
    · have cut : min (min number 0x110000 * base + value c) 0x110000 =
          min (number * base + value c) 0x110000 := by
        by_cases small : number ≤ 0x110000
        · rw [Nat.min_eq_left small]
        · have large : 0x110000 ≤ number := by omega
          have more : number ≤ number * base := Nat.le_mul_of_pos_right number positive
          have more' : 0x110000 ≤ 0x110000 * base := Nat.le_mul_of_pos_right _ positive
          rw [Nat.min_eq_right large, Nat.min_eq_right (by omega), Nat.min_eq_right (by omega)]
      rw [if_pos digit, cut, ih, List.takeWhile_cons_of_pos digit, List.foldl_cons, List.length_cons,
        Nat.add_assoc, Nat.add_comm 1]
    · rw [if_neg digit, List.takeWhile_cons_of_neg digit]
      rfl

theorem scanDigits_zero (positive : 0 < base) :
    scanDigits isDigit base value s 0 0 =
      (min (numeral base value (s.takeWhile isDigit)) 0x110000, (s.takeWhile isDigit).length) := by
  have scanned : scanDigits isDigit base value s (min 0 0x110000) 0 = _ := scanDigits_eq positive 0 0
  rw [Nat.zero_add] at scanned
  exact scanned

theorem replaceInvalid_min (number : Nat) :
    replaceInvalid (min number 0x110000) = replaceInvalid number := by
  by_cases small : number ≤ 0x110000
  · rw [Nat.min_eq_left small]
  · have large : 0x110000 ≤ number := by omega
    rw [Nat.min_eq_right large]
    simp [replaceInvalid, large]

/-- A run of digits goes up to a semicolon behind it. -/
theorem takeWhile_append_semicolon {digits behind : Bytes} (all : ∀ d ∈ digits, isDigit d = true)
    (other : isDigit (chr ';') = false) :
    (digits ++ chr ';' :: behind).takeWhile isDigit = digits := by
  rw [List.takeWhile_append_of_pos all, List.takeWhile_cons_of_neg (by simp [other]), List.append_nil]

theorem byteAt_append_right (pre : Bytes) (i : Nat) : byteAt (pre ++ s) (pre.length + i) = byteAt s i := by
  rw [byteAt, byteAt, List.getD_eq_getElem?_getD, List.getD_eq_getElem?_getD,
    List.getElem?_append_right (Nat.le_add_right _ _), Nat.add_sub_cancel_left]

/-- A semicolon at the end of a run of digits. -/
theorem eq_append_semicolon (ends : byteAt s (s.takeWhile isDigit).length = chr ';') :
    ∃ behind, s = s.takeWhile isDigit ++ chr ';' :: behind := by
  have split : s.takeWhile isDigit ++ s.dropWhile isDigit = s := List.takeWhile_append_dropWhile
  have here := byteAt_append_right (s := s.dropWhile isDigit) (s.takeWhile isDigit) 0
  rw [split, Nat.add_zero] at here
  rw [here] at ends
  cases left : s.dropWhile isDigit with
  | nil =>
    rw [left] at ends
    cases ends
  | cons d behind =>
    rw [left] at ends split
    obtain rfl : d = chr ';' := ends
    exact ⟨behind, split.symm⟩

/-- What a run of digits behind `pre` is decoded to. -/
def decodeNumber (base : Nat) (value : UInt8 → Nat) (isDigit : UInt8 → Bool) (pre s : Bytes) :
    Option (Bytes × Nat) :=
  let digits := s.takeWhile isDigit
  if 1 ≤ digits.length && digits.length ≤ 8 && digits.length + pre.length < (pre ++ s).length &&
      byteAt (pre ++ s) (digits.length + pre.length) == chr ';' then
    some (utf8EncodeChar (replaceInvalid (numeral base value digits)), digits.length + pre.length + 1)
  else none

theorem isNumeric {c : UInt8} (nonempty : rest ≠ []) :
    ((chr '#' :: c :: rest).length ≥ 3 && byteAt (chr '#' :: c :: rest) 0 == chr '#') = true := by
  have := List.length_pos_of_ne_nil nonempty
  simp [byteAt]
  omega

theorem unescapeEnt_decimal {c : UInt8} (digit : isdigit c = true) (nonempty : rest ≠ []) :
    unescapeEnt T (chr '#' :: c :: rest) =
      decodeNumber 10 decimalValue isdigit [chr '#'] (c :: rest) := by
  have scanned : scanDigits isdigit 10 (fun d => d.toNat - 48) ((chr '#' :: c :: rest).drop 1) 0 0 =
      (min (numeral 10 decimalValue ((c :: rest).takeWhile isdigit)) 0x110000,
        ((c :: rest).takeWhile isdigit).length) := scanDigits_zero (by decide)
  unfold unescapeEnt
  rw [if_pos (isNumeric nonempty)]
  dsimp only
  rw [show byteAt (chr '#' :: c :: rest) 1 = c from rfl, if_pos digit, scanned]
  show (if _ then some (utf8EncodeChar (replaceInvalid (min _ 0x110000)), _) else none) = _
  rw [replaceInvalid_min]
  rfl

theorem not_isdigit_of_x {x : UInt8} (letter : x = chr 'x' ∨ x = chr 'X') : isdigit x = false := by
  rcases letter with rfl | rfl <;> rfl

theorem unescapeEnt_hexadecimal {x : UInt8} (letter : x = chr 'x' ∨ x = chr 'X') (nonempty : rest ≠ []) :
    unescapeEnt T (chr '#' :: x :: rest) =
      decodeNumber 16 hexValue isxdigit [chr '#', x] rest := by
  have scanned : scanDigits isxdigit 16 (fun d => (d.toNat ||| 32) % 39 - 9)
      ((chr '#' :: x :: rest).drop 2) 0 0 =
      (min (numeral 16 hexValue (rest.takeWhile isxdigit)) 0x110000,
        (rest.takeWhile isxdigit).length) := scanDigits_zero (by decide)
  have isX : (x == chr 'x' || x == chr 'X') = true := by simpa using letter
  unfold unescapeEnt
  rw [if_pos (isNumeric nonempty)]
  dsimp only
  rw [show byteAt (chr '#' :: x :: rest) 1 = x from rfl, not_isdigit_of_x letter, if_neg Bool.false_ne_true,
    if_pos isX, scanned]
  show (if _ then some (utf8EncodeChar (replaceInvalid (min _ 0x110000)), _) else none) = _
  rw [replaceInvalid_min]
  rfl

/-- Behind a number sign, without digits there is nothing to decode. -/
theorem unescapeEnt_other {c : UInt8} (noDigit : isdigit c = false)
    (noLetter : ¬ (c = chr 'x' ∨ c = chr 'X')) (nonempty : rest ≠ []) :
    unescapeEnt T (chr '#' :: c :: rest) = none := by
  have notX : ¬ (c == chr 'x' || c == chr 'X') = true := by simpa using noLetter
  unfold unescapeEnt
  rw [if_pos (isNumeric nonempty)]
  dsimp only
  rw [show byteAt (chr '#' :: c :: rest) 1 = c from rfl, noDigit, if_neg Bool.false_ne_true, if_neg notX]
  rfl

theorem decodeNumber_some {isDigit : UInt8 → Bool} {pre s : Bytes}
    (found : decodeNumber base value isDigit pre s = some (bytes, n)) :
    ∃ digits behind, s = digits ++ chr ';' :: behind ∧ (∀ d ∈ digits, isDigit d = true) ∧
      1 ≤ digits.length ∧ digits.length ≤ 8 ∧ n = (pre ++ digits).length + 1 ∧
      bytes = utf8EncodeChar (replaceInvalid (numeral base value digits)) := by
  unfold decodeNumber at found
  extract_lets digits at found
  obtain ⟨decoded, same⟩ := Option.ite_none_right_eq_some.mp found
  obtain ⟨rfl, rfl⟩ := Prod.mk.inj (Option.some.inj same)
  simp only [Bool.and_eq_true, decide_eq_true_eq, beq_iff_eq] at decoded
  obtain ⟨⟨⟨least, most⟩, _⟩, ends⟩ := decoded
  rw [Nat.add_comm, byteAt_append_right] at ends
  obtain ⟨behind, eq⟩ := eq_append_semicolon ends
  refine ⟨digits, behind, eq, fun d member => List.mem_takeWhile_imp member, least, most, ?_, rfl⟩
  rw [List.length_append, Nat.add_comm pre.length]

theorem decodeNumber_append {isDigit : UInt8 → Bool} {pre digits behind : Bytes}
    (all : ∀ d ∈ digits, isDigit d = true) (other : isDigit (chr ';') = false)
    (least : 1 ≤ digits.length) (most : digits.length ≤ 8) :
    decodeNumber base value isDigit pre (digits ++ chr ';' :: behind) =
      some (utf8EncodeChar (replaceInvalid (numeral base value digits)), (pre ++ digits).length + 1) := by
  unfold decodeNumber
  rw [takeWhile_append_semicolon all other]
  have ends : byteAt (pre ++ (digits ++ chr ';' :: behind)) (digits.length + pre.length) = chr ';' := by
    rw [Nat.add_comm, byteAt_append_right]
    exact byteAt_append_right digits 0
  dsimp only
  rw [ends, if_pos (by simp [least, most]; omega), List.length_append, Nat.add_comm pre.length]

/-- A numeric reference is decoded to its number, up to the semicolon. -/
theorem NumericReference.unescapeEnt_eq (T : Tables) {s : Bytes} (reference : NumericReference s n) :
    ∃ taken behind, s = taken ++ chr ';' :: behind ∧ chr '&' ∉ taken ∧
      unescapeEnt T s = some (utf8EncodeChar (replaceInvalid n), taken.length + 1) := by
  cases reference with
  | @decimal digits behind all least most =>
    refine ⟨chr '#' :: digits, behind, rfl, ?_, ?_⟩
    · intro member
      rcases List.mem_cons.mp member with same | digit
      · cases same
      · exact absurd (all _ digit) (by decide)
    cases digits with
    | nil => exact absurd least (by decide)
    | cons c digits =>
      rw [List.cons_append, unescapeEnt_decimal (all c List.mem_cons_self) (by simp),
        ← List.cons_append, decodeNumber_append all rfl least most]
      rfl
  | @hexadecimal x digits behind letter all least most =>
    refine ⟨chr '#' :: x :: digits, behind, rfl, ?_, ?_⟩
    · intro member
      rcases List.mem_cons.mp member with same | member
      · cases same
      rcases List.mem_cons.mp member with rfl | digit
      · exact absurd letter (by decide)
      · exact absurd (all _ digit) (by decide)
    rw [unescapeEnt_hexadecimal letter (by simp), decodeNumber_append all rfl least most]
    rfl

/-! ### Named references -/

theorem mem_of_lookupEntityFrom {entities : List (Bytes × Bytes)} {name : Bytes} {fuel i low hi : Nat}
    (found : lookupEntityFrom entities name fuel i low hi = some bytes) :
    ∃ e ∈ entities, bytes = e.2 ∧ strncmp name e.1 = .eq := by
  induction fuel generalizing i low hi with
  | zero => cases found
  | succ fuel ih =>
    rw [lookupEntityFrom] at found
    split at found
    next => cases found
    next entity value here =>
      extract_lets cmp j j' at found
      split at found
      next same =>
        cases found
        rw [Bool.and_eq_true, beq_iff_eq] at same
        exact ⟨_, List.mem_of_getElem? here, rfl, same.1⟩
      split at found
      next => exact ih found
      split at found
      next => exact ih found
      next => cases found

theorem unescapeNamed_sound {src : Bytes} {i : Nat}
    (found : unescapeNamed T src rest i = some (bytes, n)) :
    ∃ name behind, rest = name ++ chr ';' :: behind ∧ n = i + name.length + 1 ∧
      lookupEntity T (src.take (i + name.length)) = some bytes := by
  induction rest generalizing i with
  | nil => cases found
  | cons c rest ih =>
    rw [unescapeNamed] at found
    split at found
    next => cases found
    split at found
    next ends =>
      obtain ⟨entity, looked, same⟩ := Option.map_eq_some_iff.mp found
      obtain ⟨rfl, rfl⟩ := Prod.mk.inj same
      obtain rfl : c = chr ';' := by simpa using ends
      exact ⟨[], rest, rfl, rfl, looked⟩
    next =>
      obtain ⟨name, behind, rfl, rfl, looked⟩ := ih found
      have further : i + 1 + name.length = i + (c :: name).length := by
        rw [List.length_cons]
        omega
      rw [further] at looked ⊢
      exact ⟨c :: name, behind, rfl, rfl, looked⟩

/-- What is decoded is a numeric reference, or a name of the table, and ends with a semicolon. -/
theorem unescapeEnt_sound (found : unescapeEnt T s = some (bytes, n)) :
    ∃ taken behind, s = taken ++ chr ';' :: behind ∧ n = taken.length + 1 ∧
      ((∃ v, NumericReference s v ∧ bytes = utf8EncodeChar (replaceInvalid v)) ∨
        lookupEntity T taken = some bytes) := by
  by_cases numeric : (s.length ≥ 3 && byteAt s 0 == chr '#') = true
  · match s, numeric with
    | a :: c :: d :: rest, numeric =>
      obtain rfl : a = chr '#' := by simpa [byteAt] using numeric
      by_cases digit : isdigit c = true
      · rw [unescapeEnt_decimal digit (by simp)] at found
        obtain ⟨digits, behind, eq, all, least, most, rfl, rfl⟩ := decodeNumber_some found
        rw [eq]
        exact ⟨chr '#' :: digits, behind, rfl, rfl, .inl ⟨_, .decimal all least most, rfl⟩⟩
      by_cases letter : c = chr 'x' ∨ c = chr 'X'
      · rw [unescapeEnt_hexadecimal letter (by simp)] at found
        obtain ⟨digits, behind, eq, all, least, most, rfl, rfl⟩ := decodeNumber_some found
        rw [eq]
        exact ⟨chr '#' :: c :: digits, behind, rfl, rfl,
          .inl ⟨_, .hexadecimal letter all least most, rfl⟩⟩
      · rw [unescapeEnt_other (by simpa using digit) letter (by simp)] at found
        cases found
  · unfold unescapeEnt at found
    rw [if_neg numeric] at found
    dsimp only at found
    obtain ⟨name, behind, eq, rfl, looked⟩ := unescapeNamed_sound found
    have whole : (s.take 32).take 2 ++ (name ++ chr ';' :: behind) = s.take 32 := by
      rw [← eq, List.take_append_drop]
    have two : ((s.take 32).take 2).length = 2 := by
      apply List.length_take_of_le
      have lengths := congrArg List.length eq
      rw [List.length_drop, List.length_append, List.length_cons] at lengths
      omega
    have taken : (s.take 32).take (2 + name.length) = (s.take 32).take 2 ++ name := by
      rw [← whole, ← List.append_assoc, List.take_left' (by rw [List.length_append, two])]
      rw [List.append_assoc, whole]
    refine ⟨(s.take 32).take 2 ++ name, behind ++ s.drop 32, ?_, ?_, .inr (taken ▸ looked)⟩
    · rw [← List.cons_append, ← List.append_assoc, List.append_assoc _ name, whole, List.take_append_drop]
    · rw [List.length_append, two]

theorem isPrefix_of_strncmp {name : Bytes} (same : strncmp s name = .eq) (noNul : 0 ∉ s) :
    s <+: name := by
  induction s generalizing name with
  | nil => exact List.nil_prefix
  | cons c s ih =>
    rw [strncmp] at same
    have noNul' : c ≠ 0 := fun zero => noNul (zero ▸ List.mem_cons_self)
    split at same
    next => cases same
    split at same
    next => cases same
    next notLess notGreater =>
      rw [if_neg (by simpa using noNul')] at same
      have equal : c = byteAt name 0 :=
        UInt8.le_antisymm (UInt8.not_lt.mp notGreater) (UInt8.not_lt.mp notLess)
      cases name with
      | nil => exact absurd equal noNul'
      | cons d name =>
        obtain rfl : c = d := equal
        exact List.cons_prefix_cons.mpr ⟨rfl, ih same fun member => noNul (.tail _ member)⟩

/-! ### The whole text -/

theorem unescapeHtmlFuel_eq (fuel fuel' : Nat) (enough : s.length ≤ fuel) (enough' : s.length ≤ fuel') :
    unescapeHtmlFuel T fuel s = unescapeHtmlFuel T fuel' s := by
  induction fuel generalizing s fuel' with
  | zero =>
    obtain rfl := List.length_eq_zero_iff.mp (Nat.le_zero.mp enough)
    cases fuel' <;> rfl
  | succ fuel ih =>
    cases s with
    | nil => cases fuel' <;> rfl
    | cons c rest =>
      rw [List.length_cons] at enough enough'
      obtain ⟨fuel', rfl⟩ : ∃ k, fuel' = k + 1 := ⟨fuel' - 1, by omega⟩
      have shorter (k : Nat) : (rest.drop k).length ≤ rest.length := by
        rw [List.length_drop]
        omega
      rw [unescapeHtmlFuel, unescapeHtmlFuel, ih fuel' (by omega) (by omega)]
      split
      next =>
        split
        next bytes n _ =>
          have := shorter n
          rw [ih fuel' (by omega) (by omega)]
        next => rfl
      next => rfl

theorem unescapeHtml_cons {c : UInt8} (other : c ≠ chr '&') :
    unescapeHtml T (c :: rest) = c :: unescapeHtml T rest := by
  rw [unescapeHtml, List.length_cons, unescapeHtmlFuel, if_neg (by simpa using other)]
  rfl

theorem unescapeHtml_entity (found : unescapeEnt T rest = some (bytes, n)) :
    unescapeHtml T (chr '&' :: rest) = bytes ++ unescapeHtml T (rest.drop n) := by
  rw [unescapeHtml, List.length_cons, unescapeHtmlFuel, if_pos (by decide), found]
  dsimp only
  rw [unescapeHtml, unescapeHtmlFuel_eq rest.length (rest.drop n).length (by rw [List.length_drop]; omega) le_rfl]

theorem unescapeHtml_ampersand (none : unescapeEnt T rest = none) :
    unescapeHtml T (chr '&' :: rest) = chr '&' :: unescapeHtml T rest := by
  rw [unescapeHtml, List.length_cons, unescapeHtmlFuel, if_pos (by decide), none]
  rfl

/-- The scan arrives at an ampersand, in front of the second. -/
inductive Arrives (T : Tables) : Bytes → Bytes → Prop
  | here (rest : Bytes) : Arrives T (chr '&' :: rest) rest
  | byte {c : UInt8} {rest r : Bytes} : c ≠ chr '&' → Arrives T rest r → Arrives T (c :: rest) r
  | entity {rest bytes r : Bytes} {n : Nat} : unescapeEnt T rest = some (bytes, n) →
      Arrives T (rest.drop n) r → Arrives T (chr '&' :: rest) r
  | ampersand {rest r : Bytes} : unescapeEnt T rest = none → Arrives T rest r →
      Arrives T (chr '&' :: rest) r

theorem unescapeHtml_append {c : Bytes} (others : ∀ b ∈ c, b ≠ chr '&') :
    unescapeHtml T (c ++ rest) = c ++ unescapeHtml T rest := by
  induction c with
  | nil => rfl
  | cons b c ih =>
    rw [List.cons_append, unescapeHtml_cons (others b List.mem_cons_self),
      ih fun x member => others x (.tail b member)]
    rfl

/-- Names have no ampersands, and numbers neither. -/
theorem not_mem_taken (names : ∀ e ∈ T.entities, chr '&' ∉ e.1) (noNul : 0 ∉ rest)
    (found : unescapeEnt T rest = some (bytes, n)) : chr '&' ∉ rest.take n := by
  obtain ⟨taken, behind, eq, rfl, numeric | looked⟩ := unescapeEnt_sound found
  all_goals
    have cut : rest.take (taken.length + 1) = taken ++ [chr ';'] := by
      rw [eq, List.take_append, List.take_of_length_le (Nat.le_succ _), Nat.add_sub_cancel_left]
      rfl
    rw [cut, List.mem_append, List.mem_singleton, not_or]
    refine ⟨?_, by decide⟩
  · obtain ⟨v, reference, _⟩ := numeric
    obtain ⟨taken', behind', eq', others, found'⟩ := reference.unescapeEnt_eq T
    have lengths := (Prod.mk.inj (Option.some.inj (found.symm.trans found'))).2
    rw [(List.append_inj (eq.symm.trans eq') (Nat.succ.inj lengths)).1]
    exact others
  · obtain ⟨e, member, _, same⟩ := mem_of_lookupEntityFrom looked
    have isPrefix := isPrefix_of_strncmp same fun nul => noNul (eq ▸ List.mem_append_left _ nul)
    exact fun ampersand => names e member (isPrefix.subset ampersand)

/-- In a text without NUL the scan arrives at every ampersand. -/
theorem arrives_iff (names : ∀ e ∈ T.entities, chr '&' ∉ e.1) {src r : Bytes} (noNul : 0 ∉ src) :
    Arrives T src r ↔ ∃ before, src = before ++ chr '&' :: r := by
  constructor
  · intro arrives
    induction arrives with
    | here rest => exact ⟨[], rfl⟩
    | @byte c rest r _ _ ih =>
      obtain ⟨before, rfl⟩ := ih fun member => noNul (.tail _ member)
      exact ⟨c :: before, rfl⟩
    | @entity rest _ r n found _ ih =>
      obtain ⟨before, eq⟩ := ih fun member => noNul (.tail _ (List.mem_of_mem_drop member))
      refine ⟨chr '&' :: (rest.take n ++ before), ?_⟩
      rw [List.cons_append, List.append_assoc, ← eq, List.take_append_drop]
    | @ampersand rest r _ _ ih =>
      obtain ⟨before, rfl⟩ := ih fun member => noNul (.tail _ member)
      exact ⟨chr '&' :: before, rfl⟩
  · rintro ⟨before, rfl⟩
    generalize size : before.length = len
    induction len using Nat.strong_induction_on generalizing before with
    | _ len ih =>
      cases before with
      | nil => exact .here r
      | cons b before =>
        have shorter : before.length < len := size ▸ Nat.lt_succ_self _
        have noNul' : 0 ∉ before ++ chr '&' :: r := fun member => noNul (.tail _ member)
        by_cases ampersand : b = chr '&'
        · obtain rfl := ampersand
          cases found : unescapeEnt T (before ++ chr '&' :: r) with
          | none => exact .ampersand found (ih _ shorter before noNul' rfl)
          | some decoded =>
            obtain ⟨bytes, n⟩ := decoded
            apply Arrives.entity found
            -- the reference ends in front of the ampersand
            have front : n ≤ before.length := by
              by_contra further
              apply not_mem_taken names noNul' found
              rw [List.take_append, List.take_of_length_le (by omega)]
              obtain ⟨k, eq⟩ : ∃ k, n - before.length = k + 1 := ⟨n - before.length - 1, by omega⟩
              rw [eq, List.take_succ_cons]
              exact List.mem_append_right _ List.mem_cons_self
            rw [List.drop_append_of_le_length front]
            apply ih (before.drop n).length _ _ _ rfl
            · rw [List.length_drop]
              omega
            · rw [← List.drop_append_of_le_length front]
              exact fun member => noNul' (List.mem_of_mem_drop member)
        · exact .byte ampersand (ih _ shorter before noNul' rfl)

/-! ### The accumulator -/

end

end CmarkGfm
