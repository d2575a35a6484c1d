import CmarkGfm.Properties.EntityText
import CmarkGfm.Render.Escape

/-!
# Escaping and entities

The encoders of `houdini` copy runs and escape single bytes, and the decoder reads back what they have
written for each byte.
-/

namespace CmarkGfm

variable {T : Tables}

/-! ### Runs -/

theorem escapeRuns_eq {stays : UInt8 → Bool} {escape : UInt8 → Bytes} (same : ∀ c, stays c = true → escape c = [c])
    {fuel : Nat} {src : Bytes} (enough : src.length < fuel) :
    escapeRuns stays escape fuel src = src.flatMap escape := by
  induction fuel generalizing src with
  | zero => cases enough
  | succ fuel ih =>
    have run : (src.takeWhile stays).flatMap escape = src.takeWhile stays := by
      have each : ∀ c ∈ src.takeWhile stays, escape c = [c] := fun c inside => same c (List.mem_takeWhile_imp inside)
      rw [List.flatMap_congr each, List.flatMap_singleton']
    have split : src.flatMap escape = src.takeWhile stays ++ (src.dropWhile stays).flatMap escape := by
      rw [← run, ← List.flatMap_append, List.takeWhile_append_dropWhile]
    have shorter := List.length_dropWhile_le stays src
    rw [escapeRuns, split]
    cases rest : src.dropWhile stays with
    | nil => simp
    | cons c rest' =>
      rw [rest, List.length_cons] at shorter
      dsimp only
      rw [ih (by omega), List.flatMap_cons, List.append_assoc]

theorem houdiniEscapeHtml0_eq (src : Bytes) (secure : Bool) : houdiniEscapeHtml0 src secure = escapeHtml0 src secure := by
  apply escapeRuns_eq _ (Nat.lt_succ_self _)
  intro c plain
  rw [Option.isNone_iff_eq_none] at plain
  rw [escapeHtmlByte, plain]
  simp

theorem houdiniEscapeHref_eq (src : Bytes) : houdiniEscapeHref src = escapeHref src := by
  apply escapeRuns_eq _ (Nat.lt_succ_self _)
  intro c safe
  rw [escapeHrefByte, if_pos safe]

theorem unescapeRuns_eq {fuel : Nat} {src : Bytes} (enough : src.length < fuel) :
    unescapeRuns T fuel src = unescapeHtml T src := by
  induction fuel generalizing src with
  | zero => cases enough
  | succ fuel ih =>
    have plain : ∀ c ∈ src.takeWhile (· != chr '&'), c ≠ chr '&' := by
      intro c inside
      simpa using List.mem_takeWhile_imp inside
    have split : unescapeHtml T src = src.takeWhile (· != chr '&') ++ unescapeHtml T (src.dropWhile (· != chr '&')) := by
      rw [← unescapeHtml_append plain, List.takeWhile_append_dropWhile]
    have shorter := List.length_dropWhile_le (· != chr '&') src
    rw [unescapeRuns, split]
    cases rest : src.dropWhile (· != chr '&') with
    | nil => exact (List.append_nil _).symm
    | cons c rest' =>
      have ampersand : c = chr '&' := by
        have stops := List.head?_dropWhile_not (· != chr '&') src
        rw [rest] at stops
        simpa using stops
      subst ampersand
      rw [rest, List.length_cons] at shorter
      dsimp only
      congr 1
      cases found : unescapeEnt T rest' with
      | none =>
        dsimp only
        rw [unescapeHtml_ampersand found, ih (by omega)]
      | some r =>
        obtain ⟨bytes, n⟩ := r
        dsimp only
        rw [unescapeHtml_entity found, ih (by rw [List.length_drop]; omega)]

theorem houdiniUnescapeHtmlF_eq (src : Bytes) : houdiniUnescapeHtmlF T src = unescapeHtml T src := by
  rw [houdiniUnescapeHtmlF, houdiniUnescapeHtml]
  split
  next plain =>
    have others : ∀ c ∈ src, c ≠ chr '&' := by simpa using plain.2
    have all : unescapeHtml T (src ++ []) = src ++ unescapeHtml T [] := unescapeHtml_append others
    rw [List.append_nil] at all
    exact (all.trans (List.append_nil _)).symm
  next => exact unescapeRuns_eq (Nat.lt_succ_self _)

/-! ### Reading an entity back -/

theorem unescapeNamed_semicolon {name : Bytes} (before rest : Bytes) (plain : ∀ c ∈ name, c ≠ chr ' ' ∧ c ≠ chr ';') :
    unescapeNamed T (before ++ name ++ chr ';' :: rest) (name ++ chr ';' :: rest) before.length =
      (lookupEntity T (before ++ name)).map fun entity => (entity, (before ++ name).length + 1) := by
  induction name generalizing before with
  | nil =>
    rw [List.append_nil, List.nil_append, unescapeNamed, if_neg (by decide), if_pos (by decide), List.take_left]
  | cons c name ih =>
    rw [List.forall_mem_cons] at plain
    have rest := @ih (before ++ [c]) plain.2
    rw [List.append_assoc before [c], List.length_append] at rest
    rw [List.cons_append, unescapeNamed, if_neg (by simpa using plain.1.1), if_neg (by simpa using plain.1.2)]
    exact rest

/-- A named entity is looked up. -/
theorem unescapeEnt_named {name rest bytes : Bytes} (found : lookupEntity T name = some bytes) (long : 2 ≤ name.length)
    (short : name.length < 32) (noNumber : byteAt name 0 ≠ chr '#')
    (plain : ∀ c ∈ name.drop 2, c ≠ chr ' ' ∧ c ≠ chr ';') :
    unescapeEnt T (name ++ chr ';' :: rest) = some (bytes, name.length + 1) := by
  have first : byteAt (name ++ chr ';' :: rest) 0 = byteAt name 0 := by
    rw [byteAt, byteAt, List.getD_eq_getElem?_getD, List.getD_eq_getElem?_getD, List.getElem?_append_left (by omega)]
  have named : ¬ ((name ++ chr ';' :: rest).length ≥ 3 && byteAt (name ++ chr ';' :: rest) 0 == chr '#') = true := by
    rw [first, Bool.and_eq_true, beq_iff_eq]
    exact fun number => noNumber number.2
  have cut : (name ++ chr ';' :: rest).take 32 = name ++ chr ';' :: rest.take (31 - name.length) := by
    rw [List.take_append, List.take_of_length_le (by omega)]
    obtain ⟨k, more⟩ : ∃ k, 32 - name.length = k + 1 := ⟨31 - name.length, by omega⟩
    rw [more, List.take_succ_cons, show 31 - name.length = k by omega]
  have whole : name.take 2 ++ name.drop 2 = name := List.take_append_drop 2 name
  have scanned := unescapeNamed_semicolon (T := T) (name.take 2) (rest.take (31 - name.length)) plain
  rw [whole, found, List.length_take, Nat.min_eq_left long] at scanned
  rw [unescapeEnt, if_neg named]
  dsimp only
  rw [cut, List.drop_append_of_le_length long]
  exact scanned

/-- Where each byte is read back from what is written for it, so is the whole text. -/
theorem unescapeHtml_flatMap {escape decoded : UInt8 → Bytes}
    (each : ∀ c rest, unescapeHtml T (escape c ++ rest) = decoded c ++ unescapeHtml T rest) (s : Bytes) :
    unescapeHtml T (s.flatMap escape) = s.flatMap decoded := by
  induction s with
  | nil => rfl
  | cons c s ih => rw [List.flatMap_cons, List.flatMap_cons, each, ih]

theorem unescapeHtml_named {name rest bytes : Bytes} (found : lookupEntity T name = some bytes) (long : 2 ≤ name.length)
    (short : name.length < 32) (noNumber : byteAt name 0 ≠ chr '#')
    (plain : ∀ c ∈ name.drop 2, c ≠ chr ' ' ∧ c ≠ chr ';') :
    unescapeHtml T (chr '&' :: (name ++ chr ';' :: rest)) = bytes ++ unescapeHtml T rest := by
  rw [unescapeHtml_entity (unescapeEnt_named found long short noNumber plain)]
  congr 2
  rw [List.append_cons, List.drop_left' (by simp)]

theorem unescapeHtml_decimal (digits : Bytes) {rest : Bytes} (all : ∀ d ∈ digits, isdigit d = true) (least : 1 ≤ digits.length)
    (most : digits.length ≤ 8) : unescapeHtml T (chr '&' :: chr '#' :: (digits ++ chr ';' :: rest)) =
      utf8EncodeChar (replaceInvalid (numeral 10 decimalValue digits)) ++ unescapeHtml T rest := by
  match digits with
  | [] => cases least
  | c :: digits =>
    have found : unescapeEnt T (chr '#' :: c :: (digits ++ chr ';' :: rest)) =
        some (utf8EncodeChar (replaceInvalid (numeral 10 decimalValue (c :: digits))), digits.length + 3) := by
      rw [unescapeEnt_decimal (all c List.mem_cons_self) (by simp), ← List.cons_append,
        decodeNumber_append all rfl least most]
      rfl
    rw [List.cons_append, unescapeHtml_entity found]
    congr 2
    show (digits ++ chr ';' :: rest).drop (digits.length + 1) = rest
    rw [List.append_cons, List.drop_left' (by simp)]

theorem unescapeHtml_hexadecimal (digits : Bytes) {rest : Bytes} (all : ∀ d ∈ digits, isxdigit d = true) (least : 1 ≤ digits.length)
    (most : digits.length ≤ 8) : unescapeHtml T (chr '&' :: chr '#' :: chr 'x' :: (digits ++ chr ';' :: rest)) =
      utf8EncodeChar (replaceInvalid (numeral 16 hexValue digits)) ++ unescapeHtml T rest := by
  have found : unescapeEnt T (chr '#' :: chr 'x' :: (digits ++ chr ';' :: rest)) =
      some (utf8EncodeChar (replaceInvalid (numeral 16 hexValue digits)), digits.length + 3) := by
    rw [unescapeEnt_hexadecimal (.inl rfl) (by simp), decodeNumber_append all rfl least most,
      List.length_append, Nat.add_comm _ digits.length]
    rfl
  rw [unescapeHtml_entity found]
  congr 2
  show (digits ++ chr ';' :: rest).drop (digits.length + 1) = rest
  rw [List.append_cons, List.drop_left' (by simp)]

/-! ### HTML -/

/-- A byte is written as it is, or as one of the escapes. -/
inductive HtmlEscaped : UInt8 → Bytes → Prop
  | plain {c : UInt8} : c ≠ chr '&' → c ≠ chr '<' → c ≠ chr '>' → c ≠ chr '"' → HtmlEscaped c [c]
  | quot : HtmlEscaped (chr '"') (lit "&quot;")
  | amp : HtmlEscaped (chr '&') (lit "&amp;")
  | apos : HtmlEscaped (chr '\'') (lit "&#39;")
  | slash : HtmlEscaped (chr '/') (lit "&#47;")
  | lt : HtmlEscaped (chr '<') (lit "&lt;")
  | gt : HtmlEscaped (chr '>') (lit "&gt;")

theorem htmlEscaped (secure : Bool) (c : UInt8) : HtmlEscaped c (escapeHtmlByte secure c) := by
  unfold escapeHtmlByte htmlEscape
  split
  next kept =>
    have other : c = chr '/' ∨ c = chr '\'' := by simp_all
    rcases other with rfl | rfl <;> exact .plain (by decide) (by decide) (by decide) (by decide)
  next =>
    split
    next is => exact eq_of_beq is ▸ .quot
    next noQuot =>
      split
      next is => exact eq_of_beq is ▸ .amp
      next noAmp =>
        split
        next is => exact eq_of_beq is ▸ .apos
        next =>
          split
          next is => exact eq_of_beq is ▸ .slash
          next =>
            split
            next is => exact eq_of_beq is ▸ .lt
            next noLt =>
              split
              next is => exact eq_of_beq is ▸ .gt
              next noGt =>
                exact .plain (by simpa using noAmp) (by simpa using noLt) (by simpa using noGt) (by simpa using noQuot)

theorem unescapeHtml_escapeHtmlByte (quot : lookupEntity T (lit "quot") = some (lit "\""))
    (amp : lookupEntity T (lit "amp") = some (lit "&")) (lt : lookupEntity T (lit "lt") = some (lit "<"))
    (gt : lookupEntity T (lit "gt") = some (lit ">")) {c : UInt8} {written : Bytes} (escaped : HtmlEscaped c written)
    (rest : Bytes) : unescapeHtml T (written ++ rest) = [c] ++ unescapeHtml T rest := by
  cases escaped with
  | plain other => exact unescapeHtml_cons other
  | quot => apply unescapeHtml_named quot <;> decide +kernel
  | amp => apply unescapeHtml_named amp <;> decide +kernel
  | apos => apply unescapeHtml_decimal (lit "39") <;> decide +kernel
  | slash => apply unescapeHtml_decimal (lit "47") <;> decide +kernel
  | lt => apply unescapeHtml_named lt <;> decide +kernel
  | gt => apply unescapeHtml_named gt <;> decide +kernel

theorem HtmlEscaped.noMarkup {c : UInt8} {written : Bytes} (escaped : HtmlEscaped c written) :
    ∀ d ∈ written, d ≠ chr '<' ∧ d ≠ chr '>' ∧ d ≠ chr '"' := by
  cases escaped with
  | plain _ noLt noGt noQuot => simpa using ⟨noLt, noGt, noQuot⟩
  | _ => decide +kernel

/-- An ampersand in what is written for a byte is its first byte. -/
theorem HtmlEscaped.ampersand {c : UInt8} {written pre rest : Bytes} (escaped : HtmlEscaped c written)
    (ampersand : written = pre ++ chr '&' :: rest) : pre = [] ∧ written ∈ htmlEscapes := by
  have head : written ∈ htmlEscapes ∧ chr '&' ∉ written.tail := by
    cases escaped with
    | plain other => cases pre <;> simp_all
    | _ => decide
  cases pre with
  | nil => exact ⟨rfl, head.1⟩
  | cons d pre =>
    rw [ampersand] at head
    exact absurd (List.mem_append_right pre List.mem_cons_self) head.2

theorem exists_escape_of_ampersand {f : UInt8 → Bytes} (escaped : ∀ c, HtmlEscaped c (f c)) {s pre rest : Bytes}
    (ampersand : s.flatMap f = pre ++ chr '&' :: rest) : ∃ e ∈ htmlEscapes, e <+: chr '&' :: rest := by
  induction s generalizing pre with
  | nil => cases pre <;> cases ampersand
  | cons c s ih =>
    rw [List.flatMap_cons, List.append_eq_append_iff] at ampersand
    rcases ampersand with ⟨between, _, later⟩ | ⟨behind, here, split⟩
    · exact ih later
    · cases behind with
      | nil => exact @ih [] split.symm
      | cons d behind =>
        obtain ⟨rfl, rest_eq⟩ := List.cons.inj split
        obtain ⟨rfl, written⟩ := (escaped c).ampersand here
        refine ⟨f c, written, s.flatMap f, ?_⟩
        rw [rest_eq, here]
        rfl

/-- What `houdini_escape_html0` writes is read back as it was, and has no markup in it. -/
theorem houdiniEscapeHtml0_spec (T : Tables) (quot : lookupEntity T (lit "quot") = some (lit "\""))
    (amp : lookupEntity T (lit "amp") = some (lit "&")) (lt : lookupEntity T (lit "lt") = some (lit "<"))
    (gt : lookupEntity T (lit "gt") = some (lit ">")) (s : Bytes) (secure : Bool) :
    houdiniUnescapeHtmlF T (houdiniEscapeHtml0 s secure) = s ∧
      (∀ c ∈ houdiniEscapeHtml0 s secure, c ≠ chr '<' ∧ c ≠ chr '>' ∧ c ≠ chr '"') ∧
      ∀ pre rest, houdiniEscapeHtml0 s secure = pre ++ chr '&' :: rest →
        ∃ e ∈ htmlEscapes, e <+: chr '&' :: rest := by
  rw [houdiniEscapeHtml0_eq, houdiniUnescapeHtmlF_eq, escapeHtml0]
  refine ⟨?_, ?_, fun pre rest => exists_escape_of_ampersand (htmlEscaped secure)⟩
  · have each (c : UInt8) := unescapeHtml_escapeHtmlByte quot amp lt gt (htmlEscaped secure c)
    rw [unescapeHtml_flatMap each, List.flatMap_singleton']
  · intro c inside
    obtain ⟨b, _, written⟩ := List.mem_flatMap.mp inside
    exact (htmlEscaped secure b).noMarkup c written

/-- The four names that are written, in their order. -/
def markupTables : Tables where
  caseFold := asciiTables.caseFold
  entities := [(lit "amp", lit "&"), (lit "gt", lit ">"), (lit "lt", lit "<"), (lit "quot", lit "\"")]

theorem houdiniEscapeHtml0_markup :
    houdiniUnescapeHtmlF markupTables (houdiniEscapeHtml0 (lit "&lt;a 'b'/>\"") true) = lit "&lt;a 'b'/>\"" ∧
      (∀ c ∈ houdiniEscapeHtml0 (lit "&lt;a 'b'/>\"") true, c ≠ chr '<' ∧ c ≠ chr '>' ∧ c ≠ chr '"') ∧
      ∀ pre rest, houdiniEscapeHtml0 (lit "&lt;a 'b'/>\"") true = pre ++ chr '&' :: rest →
        ∃ e ∈ htmlEscapes, e <+: chr '&' :: rest :=
  houdiniEscapeHtml0_spec markupTables (by decide) (by decide) (by decide) (by decide) (lit "&lt;a 'b'/>\"") true

example : houdiniEscapeHtml0 (lit "<a 'b'/>") true = lit "&lt;a &#39;b&#39;&#47;&gt;" := by decide

/-! ### Links -/

/-- A link with its unsafe bytes in percent notation. -/
def percentByte (c : UInt8) : Bytes :=
  if hrefSafe c || c == chr '&' || c == chr '\'' then [c]
  else [chr '%', hexChar ((c >>> 4) &&& 0xF), hexChar (c &&& 0xF)]

def percentEncode (s : Bytes) : Bytes := s.flatMap percentByte

theorem hexChar_mem (n : UInt8) : hexChar (n &&& 0xF) ∈ lit "0123456789ABCDEF" := by
  have all : ∀ k < 16, hexChar (UInt8.ofNat k) ∈ lit "0123456789ABCDEF" := by decide
  have small : (n &&& 0xF).toNat < 16 := by
    rw [UInt8.toNat_and]
    exact Nat.lt_of_le_of_lt Nat.and_le_right (by decide)
  have digit := all _ small
  rwa [UInt8.ofNat_toNat] at digit

theorem hrefSafe_hexChar (n : UInt8) : hrefSafe (hexChar (n &&& 0xF)) = true := by
  have all : ∀ d ∈ lit "0123456789ABCDEF", hrefSafe d = true := by decide +kernel
  exact all _ (hexChar_mem n)

theorem ne_ampersand_of_safe {c : UInt8} (safe : hrefSafe c = true) : c ≠ chr '&' := by
  rintro rfl
  exact absurd safe (by decide)

theorem unescapeHtml_escapeHrefByte (amp : lookupEntity T (lit "amp") = some (lit "&")) (c : UInt8) (rest : Bytes) :
    unescapeHtml T (escapeHrefByte c ++ rest) = percentByte c ++ unescapeHtml T rest := by
  unfold escapeHrefByte percentByte
  split
  next safe =>
    rw [if_pos (by simp [safe])]
    exact unescapeHtml_cons (ne_ampersand_of_safe safe)
  next unsafeByte =>
    split
    next is =>
      obtain rfl := eq_of_beq is
      apply unescapeHtml_named amp <;> decide +kernel
    next noAmp =>
      split
      next is =>
        obtain rfl := eq_of_beq is
        apply unescapeHtml_hexadecimal (lit "27") <;> decide +kernel
      next noApos =>
        rw [if_neg (by simp_all)]
        apply unescapeHtml_append
        have high := ne_ampersand_of_safe (hrefSafe_hexChar (c >>> 4))
        have low := ne_ampersand_of_safe (hrefSafe_hexChar c)
        simp [high, low, show chr '%' ≠ chr '&' by decide]

/-- Encoding changes nothing that it has written. -/
theorem percentEncode_percentEncode (s : Bytes) : percentEncode (percentEncode s) = percentEncode s := by
  have kept {d : UInt8} (stays : (hrefSafe d || d == chr '&' || d == chr '\'') = true) : percentByte d = [d] := if_pos stays
  have each : ∀ d ∈ percentEncode s, percentByte d = [d] := by
    intro d inside
    obtain ⟨c, _, written⟩ := List.mem_flatMap.mp inside
    unfold percentByte at written
    split at written
    next stays =>
      rw [List.mem_singleton.mp written]
      exact kept stays
    next =>
      have percent : hrefSafe (chr '%') = true := by decide
      have high := hrefSafe_hexChar (c >>> 4)
      have low := hrefSafe_hexChar c
      apply kept
      rcases List.mem_cons.mp written with rfl | written
      · simp [percent]
      rcases List.mem_cons.mp written with rfl | written
      · simp [high]
      · simp [List.mem_singleton.mp written, low]
  rw [percentEncode, List.flatMap_congr each, List.flatMap_singleton']

/-- A printable character of ASCII, other than a space and what ends an attribute or a tag. -/
def HrefPrintable (c : UInt8) : Prop :=
  33 ≤ c ∧ c ≤ 126 ∧ c ≠ chr '<' ∧ c ≠ chr '>' ∧ c ≠ chr '"' ∧ c ≠ chr '\''

instance : DecidablePred HrefPrintable := fun c =>
  inferInstanceAs (Decidable (33 ≤ c ∧ c ≤ 126 ∧ c ≠ chr '<' ∧ c ≠ chr '>' ∧ c ≠ chr '"' ∧ c ≠ chr '\''))

theorem hrefPrintable_of_safe {c : UInt8} (safe : hrefSafe c = true) : HrefPrintable c := by
  have all : ∀ k < 256, hrefSafe (UInt8.ofNat k) = true → HrefPrintable (UInt8.ofNat k) := by decide +kernel
  have one := all c.toNat (UInt8.toNat_lt c)
  rw [UInt8.ofNat_toNat] at one
  exact one safe

theorem hrefPrintable_escapeHrefByte (c : UInt8) : ∀ d ∈ escapeHrefByte c, HrefPrintable d := by
  unfold escapeHrefByte
  split
  next safe => simpa using hrefPrintable_of_safe safe
  split
  next => decide +kernel
  split
  next => decide +kernel
  next =>
    have high := hrefPrintable_of_safe (hrefSafe_hexChar (c >>> 4))
    have low := hrefPrintable_of_safe (hrefSafe_hexChar c)
    have percent : HrefPrintable (chr '%') := by decide
    simp [percent, high, low]

/-- What `houdini_escape_href` writes is printable, and is read back in percent notation, which it leaves alone. -/
theorem houdiniEscapeHref_spec (T : Tables) (amp : lookupEntity T (lit "amp") = some (lit "&")) (s : Bytes) :
    houdiniUnescapeHtmlF T (houdiniEscapeHref s) = percentEncode s ∧
      houdiniUnescapeHtmlF T (houdiniEscapeHref (houdiniUnescapeHtmlF T (houdiniEscapeHref s))) =
        houdiniUnescapeHtmlF T (houdiniEscapeHref s) ∧
      ∀ c ∈ houdiniEscapeHref s, HrefPrintable c := by
  have decoded (s : Bytes) : houdiniUnescapeHtmlF T (houdiniEscapeHref s) = percentEncode s := by
    rw [houdiniEscapeHref_eq, houdiniUnescapeHtmlF_eq, escapeHref]
    exact unescapeHtml_flatMap (unescapeHtml_escapeHrefByte amp) s
  refine ⟨decoded s, ?_, ?_⟩
  · rw [decoded, decoded, percentEncode_percentEncode]
  · rw [houdiniEscapeHref_eq]
    intro c inside
    obtain ⟨b, _, written⟩ := List.mem_flatMap.mp inside
    exact hrefPrintable_escapeHrefByte b c written

theorem houdiniEscapeHref_space :
    houdiniUnescapeHtmlF markupTables (houdiniEscapeHref (lit "a b?c=%20&d='<'")) = percentEncode (lit "a b?c=%20&d='<'") ∧
      houdiniUnescapeHtmlF markupTables
          (houdiniEscapeHref (houdiniUnescapeHtmlF markupTables (houdiniEscapeHref (lit "a b?c=%20&d='<'")))) =
        houdiniUnescapeHtmlF markupTables (houdiniEscapeHref (lit "a b?c=%20&d='<'")) ∧
      ∀ c ∈ houdiniEscapeHref (lit "a b?c=%20&d='<'"), HrefPrintable c :=
  houdiniEscapeHref_spec markupTables (by decide) (lit "a b?c=%20&d='<'")

example : percentEncode (lit "a b?c=%20&d='<'") = lit "a%20b?c=%20&d='%3C'" := by decide

end CmarkGfm
