import CmarkGfm.Extensions.Tagfilter
import CmarkGfm.Properties.Chunking
import CmarkGfm.Render.Html
import Mathlib.Data.List.Infix

/-!
# Filtered tags

What is left of the filtered tags in raw HTML: in a block those behind whose name the filter does not look for
the end of a name, and inside of a line also those that are not at the start of the text.
-/

namespace CmarkGfm

variable {s rest : Bytes} {c : UInt8}

/-- An angle bracket, with or without a slash, then a filtered name in any case. -/
def StartsTag (ends : UInt8 → Bytes → Prop) (s : Bytes) : Prop :=
  ∃ slash letters c after, s = chr '<' :: (slash ++ letters ++ c :: after) ∧ (slash = [] ∨ slash = [chr '/']) ∧
    letters.map tolower ∈ blacklist ∧ ends c after

/-- The characters that end the name of a tag in HTML. -/
def EndsName (c : UInt8) (_ : Bytes) : Prop := c ∈ ([9, 10, 12, 13, 32, chr '/', chr '>'] : Bytes)

instance {after : Bytes} : Decidable (EndsName c after) :=
  inferInstanceAs (Decidable (c ∈ ([9, 10, 12, 13, 32, chr '/', chr '>'] : Bytes)))

/-- The ends that the filter looks for. -/
def EndsFiltered (c : UInt8) (after : Bytes) : Prop :=
  isspace c = true ∨ c = chr '>' ∨ c = chr '/' ∧ after.head? = some (chr '>')

/-- The ends that it does not: a form feed, and a slash without the bracket. -/
def EndsMissed (c : UInt8) (after : Bytes) : Prop := c = 12 ∨ c = chr '/' ∧ after.head? ≠ some (chr '>')

theorem endsName_iff {after : Bytes} : EndsName c after ↔ EndsFiltered c after ∨ EndsMissed c after := by
  have space : isspace c = true ↔ c = 9 ∨ c = 10 ∨ c = 13 ∨ c = 32 := by simp [isspace, or_assoc]
  unfold EndsName EndsFiltered EndsMissed
  rw [space]
  simp only [List.mem_cons, List.not_mem_nil, or_false]
  by_cases closes : after.head? = some (chr '>')
  · simp only [closes, ne_eq, not_true_eq_false, and_true, and_false, or_false]
    tauto
  · simp only [closes, ne_eq, not_false_eq_true, and_true, and_false, or_false]
    tauto

theorem StartsTag.name_iff : StartsTag EndsName s ↔ StartsTag EndsFiltered s ∨ StartsTag EndsMissed s := by
  constructor
  · rintro ⟨slash, letters, c, after, eq, optional, name, ends⟩
    rcases endsName_iff.mp ends with filtered | missed
    · exact .inl ⟨slash, letters, c, after, eq, optional, name, filtered⟩
    · exact .inr ⟨slash, letters, c, after, eq, optional, name, missed⟩
  · rintro (⟨slash, letters, c, after, eq, optional, name, ends⟩ | ⟨slash, letters, c, after, eq, optional, name, ends⟩)
    · exact ⟨slash, letters, c, after, eq, optional, name, endsName_iff.mpr (.inl ends)⟩
    · exact ⟨slash, letters, c, after, eq, optional, name, endsName_iff.mpr (.inr ends)⟩

/-! ### What the filter sees -/

theorem matchTagname_eq_some {tagname : Bytes} (left : matchTagname s tagname = some (c :: rest)) :
    ∃ letters, s = letters ++ c :: rest ∧ letters.map tolower = tagname := by
  induction tagname generalizing s with
  | nil =>
    rw [matchTagname] at left
    exact ⟨[], Option.some.inj left, rfl⟩
  | cons t tagname ih =>
    cases s with
    | nil => cases left
    | cons d s =>
      rw [matchTagname] at left
      obtain ⟨same, matched⟩ := Option.ite_none_right_eq_some.mp left
      obtain ⟨letters, rfl, rfl⟩ := ih matched
      exact ⟨d :: letters, rfl, by rw [List.map_cons, same]⟩

theorem matchTagname_append (letters rest : Bytes) : matchTagname (letters ++ rest) (letters.map tolower) = some rest := by
  induction letters with
  | nil => rw [List.nil_append, List.map_nil, matchTagname]
  | cons d letters ih => rw [List.cons_append, List.map_cons, matchTagname, if_pos rfl, ih]

theorem isalpha_of_tolower (lower : 97 ≤ tolower c ∧ tolower c ≤ 122) : isalpha c = true := by
  unfold tolower at lower
  unfold isalpha
  split at lower
  next upper => rw [upper, Bool.true_or]
  next => simp [lower]

/-- The names are made of letters. -/
theorem isalpha_of_mem_blacklist {letters : Bytes} (name : letters.map tolower ∈ blacklist) :
    letters ≠ [] ∧ ∀ d ∈ letters, isalpha d = true := by
  have all : ∀ t ∈ blacklist, t ≠ [] ∧ ∀ a ∈ t, 97 ≤ a ∧ a ≤ 122 := by decide
  have these := all _ name
  rw [List.forall_mem_map] at these
  refine ⟨?_, fun d member => isalpha_of_tolower (these.2 d member)⟩
  rintro rfl
  exact these.1 rfl

theorem isTag_iff {tagname : Bytes} (named : tagname ∈ blacklist) : isTag s tagname = true ↔
    ∃ slash letters c after, s = chr '<' :: (slash ++ letters ++ c :: after) ∧ (slash = [] ∨ slash = [chr '/']) ∧
      letters.map tolower = tagname ∧ EndsFiltered c after := by
  constructor
  · intro tag
    unfold isTag at tag
    split at tag
    next => cases tag
    next long =>
      simp only [Bool.or_eq_true, decide_eq_true_eq, bne_iff_ne, ne_eq, not_or, Decidable.not_not] at long
      obtain ⟨long, bracket⟩ := long
      split at tag
      next => cases tag
      next => cases tag
      next c after left =>
        have ends : EndsFiltered c after := by
          simpa [EndsFiltered, or_assoc] using tag
        obtain ⟨letters, split, rfl⟩ := matchTagname_eq_some left
        match s with
        | [] => cases bracket
        | d :: s =>
          obtain rfl : d = chr '<' := bracket
          by_cases slash : byteAt (chr '<' :: s) 1 = chr '/'
          · rw [slash, if_pos (by decide)] at split
            match s with
            | [] => cases slash
            | e :: s =>
              obtain rfl : e = chr '/' := slash
              exact ⟨[chr '/'], letters, c, after, by rw [List.append_assoc, ← split]; rfl, .inr rfl, rfl, ends⟩
          · rw [if_neg (by simpa using slash)] at split
            exact ⟨[], letters, c, after, by rw [List.nil_append, ← split]; rfl, .inl rfl, rfl, ends⟩
  · rintro ⟨slash, letters, c, after, rfl, optional, rfl, ends⟩
    obtain ⟨nonempty, alphabetic⟩ := isalpha_of_mem_blacklist named
    obtain ⟨a, letters, rfl⟩ := List.exists_cons_of_ne_nil nonempty
    have noSlash : a ≠ chr '/' := by
      rintro rfl
      exact absurd (alphabetic _ List.mem_cons_self) (by decide)
    have skipped : (chr '<' :: (slash ++ (a :: letters) ++ c :: after)).drop
        (if byteAt (chr '<' :: (slash ++ (a :: letters) ++ c :: after)) 1 == chr '/' then 2 else 1) =
          a :: letters ++ c :: after := by
      rcases optional with rfl | rfl
      · rw [if_neg (by simpa [byteAt] using noSlash)]
        rfl
      · rfl
    have long : ¬ ((chr '<' :: (slash ++ (a :: letters) ++ c :: after)).length < 3 ||
        byteAt (chr '<' :: (slash ++ (a :: letters) ++ c :: after)) 0 != chr '<') = true := by
      simp [byteAt]
      omega
    rw [isTag, if_neg long, skipped, matchTagname_append]
    simpa [EndsFiltered, or_assoc] using ends

theorem tagFilter_eq_false_iff : tagFilter s = false ↔ StartsTag EndsFiltered s := by
  rw [tagFilter, Bool.not_eq_false', List.any_eq_true]
  constructor
  · rintro ⟨tagname, named, tag⟩
    obtain ⟨slash, letters, c, after, eq, optional, rfl, ends⟩ := (isTag_iff named).mp tag
    exact ⟨slash, letters, c, after, eq, optional, named, ends⟩
  · rintro ⟨slash, letters, c, after, eq, optional, named, ends⟩
    exact ⟨_, named, (isTag_iff named).mpr ⟨slash, letters, c, after, eq, optional, rfl, ends⟩⟩

/-! ### What it does not see -/

/-- The name and its end are determined by the text. -/
theorem tag_unique {slash slash' letters letters' : Bytes} {c c' : UInt8} {after after' : Bytes}
    (same : slash ++ letters ++ c :: after = slash' ++ letters' ++ c' :: after')
    (optional : slash = [] ∨ slash = [chr '/']) (optional' : slash' = [] ∨ slash' = [chr '/'])
    (name : letters.map tolower ∈ blacklist) (name' : letters'.map tolower ∈ blacklist)
    (ends : isalpha c = false) (ends' : isalpha c' = false) : c = c' ∧ after = after' := by
  have taken {letters after : Bytes} {c : UInt8} (all : ∀ d ∈ letters, isalpha d = true) (ends : isalpha c = false) :
      (letters ++ c :: after).dropWhile isalpha = c :: after := by
    rw [List.dropWhile_append_of_pos all, List.dropWhile_cons_of_neg (by simp [ends])]
  have whole {slash letters : Bytes} (after : Bytes) {c : UInt8} (optional : slash = [] ∨ slash = [chr '/'])
      (name : letters.map tolower ∈ blacklist) (ends : isalpha c = false) :
      ((slash ++ letters ++ c :: after).dropWhile (· == chr '/')).dropWhile isalpha = c :: after := by
    obtain ⟨nonempty, alphabetic⟩ := isalpha_of_mem_blacklist name
    obtain ⟨a, letters, rfl⟩ := List.exists_cons_of_ne_nil nonempty
    have noSlash : (a == chr '/') = false := by
      rw [beq_eq_false_iff_ne]
      rintro rfl
      exact absurd (alphabetic _ List.mem_cons_self) (by decide)
    rcases optional with rfl | rfl
    · rw [List.nil_append, List.cons_append, List.dropWhile_cons_of_neg (by simp [noSlash])]
      exact taken alphabetic ends
    · rw [List.append_assoc, List.singleton_append, List.dropWhile_cons_of_pos (by decide), List.cons_append,
        List.dropWhile_cons_of_neg (by simp [noSlash])]
      exact taken alphabetic ends
  have equal := whole after optional name ends
  rw [same, whole after' optional' name' ends'] at equal
  exact ⟨(List.cons.inj equal).1.symm, (List.cons.inj equal).2.symm⟩

theorem not_isalpha_of_endsName {after : Bytes} (ends : EndsName c after) : isalpha c = false := by
  have all : ∀ d ∈ ([9, 10, 12, 13, 32, chr '/', chr '>'] : Bytes), isalpha d = false := by decide
  exact all c ends

theorem not_missed_of_filtered (filtered : StartsTag EndsFiltered s) : ¬ StartsTag EndsMissed s := by
  obtain ⟨slash, letters, c, after, rfl, optional, name, ends⟩ := filtered
  rintro ⟨slash', letters', c', after', eq, optional', name', missed⟩
  have stop := not_isalpha_of_endsName (endsName_iff.mpr (.inl ends))
  have stop' := not_isalpha_of_endsName (endsName_iff.mpr (.inr missed))
  obtain ⟨rfl, rfl⟩ := tag_unique (List.cons.inj eq).2 optional optional' name name' stop stop'
  rcases missed with rfl | ⟨rfl, other⟩
  · rcases ends with space | impossible | ⟨impossible, _⟩
    · exact absurd space (by decide)
    · exact absurd impossible (by decide)
    · exact absurd impossible (by decide)
  · rcases ends with space | impossible | ⟨_, closes⟩
    · exact absurd space (by decide)
    · exact absurd impossible (by decide)
    · exact other closes

/-- Of the tags, the filter lets those through whose names end in a way it does not look for. -/
theorem missed_iff : StartsTag EndsMissed s ↔ StartsTag EndsName s ∧ tagFilter s = true := by
  rw [StartsTag.name_iff, ← Bool.not_eq_false, tagFilter_eq_false_iff]
  constructor
  · intro missed
    exact ⟨.inr missed, fun filtered => not_missed_of_filtered filtered missed⟩
  · rintro ⟨filtered | missed, notFiltered⟩
    · exact absurd filtered notFiltered
    · exact missed

/-! ### What is written -/

/-- There is a tag somewhere in the text. -/
def HasTag (s : Bytes) : Prop := ∃ t, t <:+ s ∧ StartsTag EndsName t

/-- There is no angle bracket in what is written instead of one. -/
theorem suffix_of_append {e t : Bytes} (absent : chr '<' ∉ e) (isSuffix : chr '<' :: t <:+ e ++ s) : chr '<' :: t <:+ s := by
  induction e with
  | nil => exact isSuffix
  | cons d e ih =>
    rw [List.mem_cons, not_or] at absent
    rcases List.suffix_cons_iff.mp isSuffix with whole | deeper
    · exact absurd (List.cons.inj whole).1 absent.1
    · exact ih absent.2 deeper

/-- What is written where the filter lets the angle bracket stand. -/
theorem filterHtmlBlock_suffix {t : Bytes} (inside : chr '<' :: t <:+ filterHtmlBlock [tagFilter] s) :
    ∃ rest, chr '<' :: rest <:+ s ∧ tagFilter (chr '<' :: rest) = true ∧ t = filterHtmlBlock [tagFilter] rest := by
  induction s with
  | nil => exact absurd (List.suffix_nil.mp inside) (by simp)
  | cons c s ih =>
    have further (deeper : chr '<' :: t <:+ filterHtmlBlock [tagFilter] s) : ∃ rest, chr '<' :: rest <:+ c :: s ∧
        tagFilter (chr '<' :: rest) = true ∧ t = filterHtmlBlock [tagFilter] rest := by
      obtain ⟨rest, isSuffix, kept, eq⟩ := ih deeper
      exact ⟨rest, isSuffix.trans (List.suffix_cons c s), kept, eq⟩
    rw [filterHtmlBlock] at inside
    split at inside
    next escaped => exact further (suffix_of_append (by decide) inside)
    next kept =>
      rcases List.suffix_cons_iff.mp inside with whole | deeper
      · obtain ⟨rfl, rfl⟩ := List.cons.inj whole
        refine ⟨s, List.suffix_rfl, ?_, rfl⟩
        simpa using kept
      · exact further deeper

theorem filterHtmlBlock_cons (other : c ≠ chr '<') :
    filterHtmlBlock [tagFilter] (c :: s) = c :: filterHtmlBlock [tagFilter] s := by
  rw [filterHtmlBlock, if_neg (by simp [other])]

/-- Text without angle brackets is written as it is. -/
theorem filterHtmlBlock_append {plain : Bytes} (noMarkup : ∀ d ∈ plain, d ≠ chr '<' ∧ d ≠ chr '&') (rest : Bytes) :
    filterHtmlBlock [tagFilter] (plain ++ rest) = plain ++ filterHtmlBlock [tagFilter] rest := by
  induction plain with
  | nil => rfl
  | cons d plain ih =>
    rw [List.forall_mem_cons] at noMarkup
    rw [List.cons_append, filterHtmlBlock_cons noMarkup.1.1, ih noMarkup.2, List.cons_append]

/-- What is written without markup stands there. -/
theorem eq_append_of_filterHtmlBlock {plain t : Bytes} (noMarkup : ∀ d ∈ plain, d ≠ chr '<' ∧ d ≠ chr '&')
    (written : filterHtmlBlock [tagFilter] s = plain ++ t) :
    ∃ rest, s = plain ++ rest ∧ t = filterHtmlBlock [tagFilter] rest := by
  induction plain generalizing s with
  | nil => exact ⟨s, rfl, written.symm⟩
  | cons d plain ih =>
    rw [List.forall_mem_cons] at noMarkup
    cases s with
    | nil => cases written
    | cons c s =>
      rw [filterHtmlBlock] at written
      split at written
      next => exact absurd (List.cons.inj written).1.symm noMarkup.1.2
      next =>
        rw [List.cons_append] at written
        obtain ⟨same, left⟩ := List.cons.inj written
        obtain ⟨rest, rfl, eq⟩ := ih noMarkup.2 left
        exact ⟨rest, by rw [same, List.cons_append], eq⟩

theorem filterHtmlBlock_isSuffix {t : Bytes} (isSuffix : t <:+ s) :
    filterHtmlBlock [tagFilter] t <:+ filterHtmlBlock [tagFilter] s := by
  obtain ⟨pre, rfl⟩ := isSuffix
  induction pre with
  | nil => exact List.suffix_rfl
  | cons d pre ih =>
    apply ih.trans
    rw [List.cons_append, filterHtmlBlock]
    split
    next => exact List.suffix_append _ _
    next => exact List.suffix_cons _ _

theorem noMarkup_of_name {slash letters after : Bytes} (optional : slash = [] ∨ slash = [chr '/'])
    (name : letters.map tolower ∈ blacklist) (ends : EndsName c after) :
    ∀ d ∈ slash ++ letters ++ [c], d ≠ chr '<' ∧ d ≠ chr '&' := by
  intro d member
  rw [List.mem_append, List.mem_append, List.mem_singleton] at member
  rcases member with (inSlash | letter) | rfl
  · rcases optional with rfl | rfl
    · cases inSlash
    · rw [List.mem_singleton.mp inSlash]
      decide
  · have alphabetic := (isalpha_of_mem_blacklist name).2 d letter
    constructor <;> rintro rfl <;> exact absurd alphabetic (by decide)
  · have all : ∀ d ∈ ([9, 10, 12, 13, 32, chr '/', chr '>'] : Bytes), d ≠ chr '<' ∧ d ≠ chr '&' := by decide
    exact all d ends

/-- A tag is written where there is one that the filter lets through. -/
theorem hasTag_filterHtmlBlock_iff : HasTag (filterHtmlBlock [tagFilter] s) ↔ ∃ t, t <:+ s ∧ StartsTag EndsMissed t := by
  constructor
  · rintro ⟨t, isSuffix, slash, letters, c, after, rfl, optional, name, ends⟩
    obtain ⟨rest, isSuffix, kept, eq⟩ := filterHtmlBlock_suffix isSuffix
    have plain := noMarkup_of_name optional name ends
    rw [List.append_cons _ c] at eq
    obtain ⟨rest, rfl, _⟩ := eq_append_of_filterHtmlBlock plain eq.symm
    refine ⟨_, isSuffix, missed_iff.mpr ⟨⟨slash, letters, c, rest, ?_, optional, name, ends⟩, kept⟩⟩
    rw [← List.append_cons]
  · rintro ⟨t, isSuffix, missed⟩
    obtain ⟨⟨slash, letters, c, after, rfl, optional, name, ends⟩, kept⟩ := missed_iff.mp missed
    have written : filterHtmlBlock [tagFilter] (chr '<' :: (slash ++ letters ++ c :: after)) =
        chr '<' :: (slash ++ letters ++ c :: filterHtmlBlock [tagFilter] after) := by
      rw [filterHtmlBlock, if_neg (by rw [List.all_cons, kept]; simp), List.append_cons _ c,
        filterHtmlBlock_append (noMarkup_of_name optional name ends), ← List.append_cons]
    refine ⟨_, filterHtmlBlock_isSuffix isSuffix, ?_⟩
    rw [written]
    exact ⟨slash, letters, c, _, rfl, optional, name, ends⟩

/-- Inside of a line only the start of the text is filtered. -/
theorem hasTag_inline_iff : HasTag (if [tagFilter].all (· s) then s else lit "&lt;" ++ s.drop 1) ↔
    StartsTag EndsMissed s ∨ HasTag (s.drop 1) := by
  have behind {t : Bytes} (isSuffix : t <:+ s) (tag : StartsTag EndsName t) : t = s ∨ t <:+ s.drop 1 := by
    cases s with
    | nil =>
      obtain ⟨slash, letters, c, after, rfl, _⟩ := tag
      cases List.suffix_nil.mp isSuffix
    | cons d s => exact (List.suffix_cons_iff.mp isSuffix)
  have isSuffix : s.drop 1 <:+ s := List.drop_suffix 1 s
  rw [missed_iff]
  split
  next kept =>
    have kept : tagFilter s = true := by simpa using kept
    constructor
    · rintro ⟨t, inside, tag⟩
      rcases behind inside tag with rfl | deeper
      · exact .inl ⟨tag, kept⟩
      · exact .inr ⟨t, deeper, tag⟩
    · rintro (⟨tag, _⟩ | ⟨t, deeper, tag⟩)
      · exact ⟨s, List.suffix_rfl, tag⟩
      · exact ⟨t, deeper.trans isSuffix, tag⟩
  next escaped =>
    have escaped : tagFilter s = false := by simpa using escaped
    constructor
    · rintro ⟨t, inside, tag⟩
      refine .inr ⟨t, ?_, tag⟩
      obtain ⟨slash, letters, c, after, rfl, _⟩ := tag
      exact suffix_of_append (by decide) inside
    · rintro (⟨_, kept⟩ | ⟨t, deeper, tag⟩)
      · rw [escaped] at kept
        cases kept
      · exact ⟨t, deeper.trans (List.suffix_append _ _), tag⟩

/-- The raw HTML of a block has no tag in it if and only if there is none in the document whose name ends in a form
feed, or in a slash without the bracket. Inside of a line, nothing behind the first byte may be a tag. -/
theorem renderHtmlNode_hasTag_iff (H : HtmlConfig) (r : HtmlRenderer) (v : Visit) (isUnsafe : H.options.has optUnsafe = true)
    (filters : H.filterExtensions = [tagFilter]) (noImage : r.plain = none) :
    (v.node.data.type = .htmlBlock → ∃ written, renderHtmlNode H r v = .ok (r.cr.putContent written).cr ∧
      (¬ HasTag written ↔ ∀ t, t <:+ v.node.data.as.getLiteral → ¬ StartsTag EndsMissed t)) ∧
    (v.node.data.type = .htmlInline → ∃ written, renderHtmlNode H r v = .ok (r.putContent written) ∧
      (¬ HasTag written ↔ ¬ StartsTag EndsMissed v.node.data.as.getLiteral ∧
        ∀ t, t <:+ v.node.data.as.getLiteral.drop 1 → ¬ StartsTag EndsName t)) := by
  constructor
  · intro block
    refine ⟨filterHtmlBlock H.filterExtensions v.node.data.as.getLiteral, ?_, ?_⟩
    · rw [renderHtmlNode]
      simp [noImage, block, renderRawHtml, isUnsafe]
    · rw [filters, hasTag_filterHtmlBlock_iff]
      simp
  · intro inline
    let filter := fun s : Bytes => if H.filterExtensions.all (· s) then s else lit "&lt;" ++ s.drop 1
    refine ⟨filter v.node.data.as.getLiteral, ?_, ?_⟩
    · rw [renderHtmlNode]
      simp [noImage, inline, renderRawHtml, isUnsafe, filter]
    · show ¬ HasTag (if H.filterExtensions.all (· v.node.data.as.getLiteral) then _ else _) ↔ _
      rw [filters, hasTag_inline_iff, not_or, HasTag]
      simp

def filteredConfig : HtmlConfig := { options := optUnsafe, filterExtensions := [tagFilter], literalAt := fun _ => none }

theorem renderHtmlNode_hasTag_comment :
    let v : Visit := { node := .mk 0 { type := .htmlInline, as := .literal (lit "<!--<title>-->") } [], place := {}, entering := true }
    (v.node.data.type = .htmlBlock → ∃ written, renderHtmlNode filteredConfig {} v =
        .ok ((HtmlRenderer.cr {}).putContent written).cr ∧
      (¬ HasTag written ↔ ∀ t, t <:+ v.node.data.as.getLiteral → ¬ StartsTag EndsMissed t)) ∧
    (v.node.data.type = .htmlInline → ∃ written, renderHtmlNode filteredConfig {} v = .ok (HtmlRenderer.putContent written {}) ∧
      (¬ HasTag written ↔ ¬ StartsTag EndsMissed v.node.data.as.getLiteral ∧
        ∀ t, t <:+ v.node.data.as.getLiteral.drop 1 → ¬ StartsTag EndsName t)) :=
  renderHtmlNode_hasTag_iff filteredConfig {} _ rfl rfl rfl

/-- A tag behind the start of raw HTML inside of a line, and one whose name ends in a slash. -/
def filteredDocument : Node :=
  documentOf { tables := asciiTables, options := 0 } none [lit "a <?<title>?>\n\n<div><script/x>\n"]

theorem renderHtml_filteredDocument : ∃ r before, renderHtml filteredConfig {} filteredDocument = .ok r ∧
    r.html = before ++ [.content (lit "<?<title>?>"), .markup (lit "</p>\n"), .content (lit "<div><script/x>\n")] ∧
      HasTag (lit "<?<title>?>") ∧ HasTag (lit "<div><script/x>\n") := by
  have rendered : (renderHtml filteredConfig {} filteredDocument).toOption.map HtmlRenderer.html =
      some [.markup (lit "<p"), .markup (lit ">"), .content (lit "a "), .content (lit "<?<title>?>"),
        .markup (lit "</p>\n"), .content (lit "<div><script/x>\n")] := by
    decide +kernel
  cases result : renderHtml filteredConfig {} filteredDocument with
  | error e =>
    rw [result] at rendered
    cases rendered
  | ok r =>
    rw [result] at rendered
    refine ⟨r, [.markup (lit "<p"), .markup (lit ">"), .content (lit "a ")], rfl, Option.some.inj rendered, ?_, ?_⟩
    · exact ⟨lit "<title>?>", by decide, [], lit "title", chr '>', lit "?>", by decide, .inl rfl, by decide, by decide⟩
    · exact ⟨lit "<script/x>\n", by decide, [], lit "script", chr '/', lit "x>\n", by decide, .inl rfl, by decide, by decide⟩

end CmarkGfm
