import CmarkGfm.Library.Markup
import CmarkGfm.Properties.HtmlPointers
import CmarkGfm.Properties.RenderedTrees
import Mathlib.Tactic.IntervalCases

/-!
# The nesting of HTML

At every event the reader of the markup is outside of the tags, or in the alternative text of an image.
Entering a node opens the tags that leaving it closes, and what comes from the document is escaped.
-/

namespace CmarkGfm

/-! ### Escaped text -/

/-- Bytes that stand for themselves in text and in values. -/
def Plain (s : Bytes) : Prop := ∀ c ∈ s, Markup.isPlain c

instance (s : Bytes) : Decidable (Plain s) := inferInstanceAs (Decidable (∀ c ∈ s, _))

theorem plain_append {s t : Bytes} : Plain (s ++ t) ↔ Plain s ∧ Plain t := List.forall_mem_append

theorem plain_flatMap {f : UInt8 → Bytes} (plain : ∀ c, Plain (f c)) (s : Bytes) :
    Plain (s.flatMap f) := by
  intro c member
  obtain ⟨b, _, inside⟩ := List.mem_flatMap.mp member
  exact plain b c inside

/-- What holds of all 256 bytes, holds of every byte. -/
theorem forall_byte {q : UInt8 → Prop} (all : ∀ k < 256, q (.ofNat k)) (c : UInt8) : q c := by
  have here := all c.toNat c.toNat_lt
  rwa [UInt8.ofNat_toNat] at here

theorem plain_escapeHtml0 (s : Bytes) (secure : Bool) : Plain (escapeHtml0 s secure) := by
  refine plain_flatMap (forall_byte ?_) s
  cases secure <;> decide +kernel

theorem plain_escapeHref (s : Bytes) : Plain (escapeHref s) :=
  plain_flatMap (forall_byte (by decide +kernel)) s

theorem isPlain_digit : ∀ c : UInt8, 48 ≤ c.toNat ∧ c.toNat ≤ 57 → Markup.isPlain c :=
  forall_byte (by decide +kernel)

theorem digit_of_mem_decimal {n : Nat} {c : UInt8} (member : c ∈ decimal n) :
    ∃ digit ∈ Nat.toDigits 10 n, c = chr digit ∧ c.toNat = digit.toNat ∧ 48 ≤ c.toNat ∧ c.toNat ≤ 57 := by
  obtain ⟨digit, among, rfl⟩ := List.mem_map.mp member
  have isDigit := Nat.isDigit_of_mem_toDigits (by decide) (by decide) among
  simp only [Char.isDigit, Bool.and_eq_true, decide_eq_true_eq, ge_iff_le, UInt32.le_iff_toNat_le] at isDigit
  obtain ⟨low, high⟩ : 48 ≤ digit.toNat ∧ digit.toNat ≤ 57 := isDigit
  have byte : (chr digit).toNat = digit.toNat :=
    UInt8.toNat_ofNat_of_lt' (Nat.lt_of_le_of_lt high (by decide))
  exact ⟨digit, among, rfl, byte, by rw [byte]; exact ⟨low, high⟩⟩

theorem plain_decimal (n : Nat) : Plain (decimal n) := by
  intro c member
  obtain ⟨_, _, _, _, isDigit⟩ := digit_of_mem_decimal member
  exact isPlain_digit c isDigit

theorem plain_sourceRange (d : NodeData) : Plain (sourceRange d) := by
  have number (n : Int) : Plain (printInt n) := by
    cases n with
    | ofNat n => exact plain_decimal n
    | negSucc n => exact List.forall_mem_cons.mpr ⟨by decide, plain_decimal _⟩
  have colon (n : Int) : Plain (chr ':' :: printInt n) :=
    List.forall_mem_cons.mpr ⟨by decide, number n⟩
  have dash (n : Int) : Plain (chr '-' :: printInt n) :=
    List.forall_mem_cons.mpr ⟨by decide, number n⟩
  unfold sourceRange
  simp only [plain_append]
  exact ⟨⟨⟨number _, colon _⟩, dash _⟩, colon _⟩

/-! ### What is written -/

/-- The rules for HTML: attributes may have no value, and there may be any number of elements. -/
abbrev htmlRules : Markup.Rules := ⟨false⟩

/-- The output so far brings the reader to this state, and nothing in it that comes from the document
can be taken for markup. The other fields of the renderer are as given. -/
structure Written (r : HtmlRenderer) (s : Markup.State) (plain : Option (List Nat)) (ix : Nat) :
    Prop where
  read : htmlRules.read ⟨.text, []⟩ r.bytes = some s
  escaped : ∀ b, Piece.content b ∈ r.html → Plain b
  plain : r.plain = plain
  footnoteIx : r.footnoteIx = ix

/-- A byte that stands for itself may come next. -/
def Passes (s : Markup.State) : Prop := s.mode = .text ∨ ∃ tag names, s.mode = .value tag names

theorem passes_text {opened : List Bytes} : Passes ⟨.text, opened⟩ := .inl rfl

theorem passes_value {tag : Bytes} {names opened : List Bytes} : Passes ⟨.value tag names, opened⟩ :=
  .inr ⟨tag, names, rfl⟩

section

variable {r : HtmlRenderer} {s q : Markup.State} {plain : Option (List Nat)} {ix : Nat}
  {options : Options} {d : NodeData} {opened : List Bytes}

@[simp] theorem HtmlRenderer.bytes_put (piece : Piece) :
    (r.put piece).bytes = r.bytes ++ piece.bytes := by
  simp [HtmlRenderer.bytes, HtmlRenderer.put]

namespace Written

theorem put (written : Written r s plain ix) {piece : Piece}
    (reads : htmlRules.read s piece.bytes = some q) (escaped : ∀ b, piece = .content b → Plain b) :
    Written (r.put piece) q plain ix := by
  refine ⟨?_, ?_, written.plain, written.footnoteIx⟩
  · rw [HtmlRenderer.bytes_put, Markup.Rules.read_append, written.read]
    exact reads
  · intro b member
    rcases List.mem_append.mp member with before | here
    · exact written.escaped b before
    · exact escaped b (List.mem_singleton.mp here).symm

/-- A string constant of the renderer. -/
theorem puts (written : Written r s plain ix) {t : String}
    (reads : htmlRules.read s (lit t) = some q) : Written (r.puts t) q plain ix :=
  written.put reads nofun

theorem markup (written : Written r s plain ix) (passes : Passes s) {b : Bytes} (isPlain : Plain b) :
    Written (r.put (.markup b)) s plain ix :=
  written.put (htmlRules.read_plain isPlain passes) nofun

/-- A string constant without markup. -/
theorem putsPlain (written : Written r s plain ix) (passes : Passes s) {t : String}
    (isPlain : Plain (lit t)) : Written (r.puts t) s plain ix :=
  written.puts (htmlRules.read_plain isPlain passes)

theorem putNumber (written : Written r s plain ix) (passes : Passes s) (n : Nat) :
    Written (r.putNumber n) s plain ix :=
  written.markup passes (plain_decimal n)

theorem putContent (written : Written r s plain ix) (passes : Passes s) {b : Bytes}
    (isPlain : Plain b) : Written (r.putContent b) s plain ix := by
  refine written.put (htmlRules.read_plain isPlain passes) ?_
  rintro _ ⟨⟩
  exact isPlain

theorem escapeHtml (written : Written r s plain ix) (passes : Passes s) (b : Bytes) :
    Written (r.escapeHtml b) s plain ix :=
  written.putContent passes (plain_escapeHtml0 b false)

theorem escapeHref (written : Written r s plain ix) (passes : Passes s) (b : Bytes) :
    Written (r.escapeHref b) s plain ix :=
  written.putContent passes (plain_escapeHref b)

theorem cr (written : Written r ⟨.text, opened⟩ plain ix) : Written r.cr ⟨.text, opened⟩ plain ix := by
  unfold HtmlRenderer.cr
  split
  next => exact written
  next =>
    split
    next => exact written
    next => exact written.puts rfl

/-- The source position is one more attribute, if it is written. -/
theorem sourcepos (written : Written r s plain ix) {tag : Bytes} {names : List Bytes}
    (opens : htmlRules.read s (lit " data-sourcepos=\"") = some ⟨.value tag names, opened⟩) :
    Written (r.sourcepos options d) s plain ix ∨
      Written (r.sourcepos options d) ⟨.valueEnd tag names, opened⟩ plain ix := by
  unfold HtmlRenderer.sourcepos
  split
  next =>
    refine .inr (puts (s := ⟨.value tag names, opened⟩) ?_ rfl)
    exact (written.puts opens).markup passes_value (plain_sourceRange d)
  next => exact .inl written

theorem openTag (written : Written r ⟨.text, opened⟩ plain ix) {tag close : String} {name : Bytes}
    (opens : htmlRules.read ⟨.text, opened⟩ (lit tag) = some ⟨.name name, opened⟩)
    (closes : htmlRules.read ⟨.name name, opened⟩ (lit close) = some q)
    (closeq : htmlRules.read ⟨.valueEnd name [lit "data-sourcepos"], opened⟩ (lit close) = some q) :
    Written (r.openTag options d tag close) q plain ix := by
  rcases (written.puts opens).sourcepos rfl with inName | afterValue
  · exact inName.puts closes
  · exact afterValue.puts closeq

/-! ### The parts of a node -/

/-- The attributes of a link back from a footnote, the last one first. -/
def backrefNames : List Bytes :=
  [lit "aria-label", lit "data-footnote-backref-idx", lit "data-footnote-backref", lit "class", lit "href"]

set_option maxRecDepth 2000 in
theorem putExtraBackrefs (literal : Bytes) (n : Nat) (is : List Nat)
    (written : Written r ⟨.text, opened⟩ plain ix) :
    Written (CmarkGfm.putExtraBackrefs literal n is r) ⟨.text, opened⟩ plain ix := by
  induction is generalizing r with
  | nil => exact written
  | cons i is ih =>
    refine ih (puts (s := ⟨.text, lit "sup" :: lit "a" :: opened⟩) (putNumber ?_ passes_text i) rfl)
    refine puts (s := ⟨.text, lit "a" :: opened⟩) (markup ?_ passes_text (by decide)) rfl
    -- the number of the reference is in two attributes and in the text
    have numbers {q : HtmlRenderer} {names : List Bytes}
        (inValue : Written q ⟨.value (lit "a") names, opened⟩ plain ix) :
        Written (((q.putNumber n).puts "-").putNumber i) ⟨.value (lit "a") names, opened⟩ plain ix :=
      ((inValue.putNumber passes_value n).putsPlain passes_value (by decide)).putNumber passes_value i
    refine puts (s := ⟨.value (lit "a") backrefNames, opened⟩) (numbers ?_) rfl
    refine puts (s := ⟨.value (lit "a") backrefNames.tail, opened⟩) (numbers ?_) rfl
    refine puts (s := ⟨.value (lit "a") [lit "href"], opened⟩) (putNumber ?_ passes_value i) rfl
    refine (escapeHref ?_ passes_value literal).putsPlain passes_value (by decide)
    exact written.puts rfl

set_option maxRecDepth 2000 in
theorem putFootnoteBackref (written : Written r ⟨.text, opened⟩ plain ix) :
    Written (CmarkGfm.putFootnoteBackref d r).1 ⟨.text, opened⟩ plain ix := by
  unfold CmarkGfm.putFootnoteBackref
  split
  next => exact written
  next =>
    refine putExtraBackrefs _ _ _ (puts (s := ⟨.text, lit "a" :: opened⟩) ?_ rfl)
    refine markup ?_ passes_text (by decide)
    refine puts (s := ⟨.value (lit "a") backrefNames, opened⟩) (putNumber ?_ passes_value _) rfl
    refine puts (s := ⟨.value (lit "a") backrefNames.tail, opened⟩) (putNumber ?_ passes_value _) rfl
    refine puts (s := ⟨.value (lit "a") [lit "href"], opened⟩) (escapeHref ?_ passes_value _) rfl
    have started : Written { r with writtenFootnoteIx := r.footnoteIx } ⟨.text, opened⟩ plain ix :=
      ⟨written.read, written.escaped, written.plain, written.footnoteIx⟩
    exact started.puts rfl

/-- The tag of a list. -/
def listTag (d : NodeData) : Bytes := if d.as.getList.listType = .bullet then lit "ul" else lit "ol"

theorem renderListTag_enter (written : Written r ⟨.text, opened⟩ plain ix) :
    Written (renderListTag options d true r) ⟨.text, listTag d :: opened⟩ plain ix := by
  unfold renderListTag listTag
  dsimp only
  rw [if_pos rfl]
  split
  next => exact written.cr.openTag rfl rfl rfl
  next =>
    split
    next => exact written.cr.openTag rfl rfl rfl
    next =>
      have start : Written ((((r.cr).puts "<ol start=\"").putNumber d.as.getList.start).puts "\"")
          ⟨.valueEnd (lit "ol") [lit "start"], opened⟩ plain ix := by
        refine puts (s := ⟨.value (lit "ol") [lit "start"], opened⟩) ?_ rfl
        exact (written.cr.puts rfl).putNumber passes_value _
      rcases start.sourcepos rfl with same | afterValue
      · exact same.puts rfl
      · exact afterValue.puts rfl

theorem renderListTag_leave (written : Written r ⟨.text, listTag d :: opened⟩ plain ix) :
    Written (renderListTag options d false r) ⟨.text, opened⟩ plain ix := by
  unfold renderListTag
  unfold listTag at written
  dsimp only
  rw [if_neg (by decide)]
  split at written
  next bullet => rw [if_pos bullet]; exact written.puts rfl
  next ordered => rw [if_neg ordered]; exact written.puts rfl

/-- The tag of a heading. -/
def headingTag (d : NodeData) : Bytes := [chr 'h', 48 + UInt8.ofNat d.as.getLevel]

theorem renderHeading_enter (level : 1 ≤ d.as.getLevel ∧ d.as.getLevel ≤ 6)
    (written : Written r ⟨.text, opened⟩ plain ix) :
    Written (renderHeading options d true r) ⟨.text, headingTag d :: opened⟩ plain ix := by
  unfold renderHeading headingTag
  dsimp only
  rw [if_pos rfl]
  obtain ⟨low, high⟩ := level
  have named : Written ((r.cr.puts "<h").put (.markup [48 + UInt8.ofNat d.as.getLevel]))
      ⟨.name [chr 'h', 48 + UInt8.ofNat d.as.getLevel], opened⟩ plain ix := by
    refine put (s := ⟨.name (lit "h"), opened⟩) (written.cr.puts rfl) ?_ nofun
    generalize d.as.getLevel = level at low high
    interval_cases level <;> rfl
  rcases named.sourcepos rfl with same | afterValue
  · exact same.puts rfl
  · exact afterValue.puts rfl

theorem renderHeading_leave (level : 1 ≤ d.as.getLevel ∧ d.as.getLevel ≤ 6)
    (written : Written r ⟨.text, headingTag d :: opened⟩ plain ix) :
    Written (renderHeading options d false r) ⟨.text, opened⟩ plain ix := by
  unfold renderHeading
  unfold headingTag at written
  dsimp only
  rw [if_neg (by decide)]
  obtain ⟨low, high⟩ := level
  generalize d.as.getLevel = level at low high written ⊢
  refine puts (s := ⟨.closing [chr 'h', 48 + UInt8.ofNat level],
    [chr 'h', 48 + UInt8.ofNat level] :: opened⟩) ?_ ?_
  · refine put (written.puts (q := ⟨.closing (lit "h"), _⟩) rfl) ?_ nofun
    interval_cases level <;> rfl
  · interval_cases level <;> rfl

/-- One more attribute may have been written. -/
theorem renderMeta {tag : Bytes} {names nameq : List Bytes} (info lang : Bytes)
    (opens : htmlRules.read ⟨.value tag names, opened⟩ (lit "\" data-meta=\"") =
      some ⟨.value tag nameq, opened⟩)
    (written : Written r ⟨.value tag names, opened⟩ plain ix) : ∃ names,
      Written (CmarkGfm.renderMeta options info lang r) ⟨.value tag names, opened⟩ plain ix := by
  unfold CmarkGfm.renderMeta
  split
  next => exact ⟨nameq, (written.puts opens).escapeHtml passes_value _⟩
  next => exact ⟨names, written⟩

theorem renderCodeBlock (written : Written r ⟨.text, opened⟩ plain ix) :
    Written (CmarkGfm.renderCodeBlock options d r) ⟨.text, opened⟩ plain ix := by
  unfold CmarkGfm.renderCodeBlock
  extract_lets code start lang inCode
  have inCodeWritten : Written inCode ⟨.text, lit "code" :: lit "pre" :: opened⟩ plain ix := by
    unfold inCode
    split
    next => exact written.cr.openTag rfl rfl rfl
    next =>
      split
      next =>
        have language : Written ((start.openTag options d "<pre" " lang=\"").escapeHtml lang)
            ⟨.value (lit "pre") [lit "lang", lit "data-sourcepos"], opened⟩ plain ix ∨
            Written ((start.openTag options d "<pre" " lang=\"").escapeHtml lang)
              ⟨.value (lit "pre") [lit "lang"], opened⟩ plain ix := by
          have named : Written (start.puts "<pre") ⟨.name (lit "pre"), opened⟩ plain ix :=
            written.cr.puts rfl
          rcases named.sourcepos rfl with same | after
          · exact .inr ((same.puts rfl).escapeHtml passes_value lang)
          · exact .inl ((after.puts rfl).escapeHtml passes_value lang)
        rcases language with language | language
        · obtain ⟨names, information⟩ := language.renderMeta code.info lang rfl
          exact information.puts rfl
        · obtain ⟨names, information⟩ := language.renderMeta code.info lang rfl
          exact information.puts rfl
      next =>
        have language : Written ((start.openTag options d "<pre" "><code class=\"language-").escapeHtml lang)
            ⟨.value (lit "code") [lit "class"], lit "pre" :: opened⟩ plain ix :=
          (written.cr.openTag rfl rfl rfl).escapeHtml passes_value lang
        obtain ⟨names, information⟩ := language.renderMeta code.info lang rfl
        exact information.puts rfl
  exact (inCodeWritten.escapeHtml passes_text code.literal).puts rfl

/-- Raw HTML is left out. -/
theorem renderRawHtml {H : HtmlConfig} (safe : H.options.has optUnsafe = false) (filter : Bytes → Bytes)
    (literal : Bytes) (written : Written r ⟨.text, opened⟩ plain ix) :
    Written (CmarkGfm.renderRawHtml H filter literal r) ⟨.text, opened⟩ plain ix := by
  rw [CmarkGfm.renderRawHtml, safe]
  exact written.puts rfl

theorem renderUrl (url : Bytes) {tag : Bytes} {names : List Bytes}
    (written : Written r ⟨.value tag names, opened⟩ plain ix) :
    Written (CmarkGfm.renderUrl options url r) ⟨.value tag names, opened⟩ plain ix := by
  unfold CmarkGfm.renderUrl
  split
  next => exact written.escapeHref passes_value url
  next => exact written

theorem renderTitle {tag : Bytes} {names nameq : List Bytes} (title : Bytes)
    (opens : htmlRules.read ⟨.value tag names, opened⟩ (lit "\" title=\"") =
      some ⟨.value tag nameq, opened⟩)
    (written : Written r ⟨.value tag names, opened⟩ plain ix) : ∃ names,
      Written (CmarkGfm.renderTitle title r) ⟨.value tag names, opened⟩ plain ix := by
  unfold CmarkGfm.renderTitle
  split
  next => exact ⟨names, written⟩
  next => exact ⟨nameq, (written.puts opens).escapeHtml passes_value title⟩

/-- The text of the nodes below an image goes into a value. -/
theorem renderPlain {tag : Bytes} {names : List Bytes} (d : NodeData)
    (written : Written r ⟨.value tag names, opened⟩ plain ix) :
    Written (CmarkGfm.renderPlain d r) ⟨.value tag names, opened⟩ plain ix := by
  unfold CmarkGfm.renderPlain
  split
  next => exact written.escapeHtml passes_value _
  next => exact written.escapeHtml passes_value _
  next => exact written.escapeHtml passes_value _
  next => exact written.putsPlain passes_value (by decide +kernel)
  next => exact written.putsPlain passes_value (by decide +kernel)
  next => exact written

theorem renderFootnoteReference {H : HtmlConfig} {label : Bytes}
    (found : d.parentFootnoteDef.bind H.literalAt = some label)
    (written : Written r ⟨.text, opened⟩ plain ix) :
    ∃ r', CmarkGfm.renderFootnoteReference H d r = .ok r' ∧ Written r' ⟨.text, opened⟩ plain ix := by
  unfold CmarkGfm.renderFootnoteReference
  rw [found]
  refine ⟨_, rfl, puts (s := ⟨.text, lit "a" :: lit "sup" :: opened⟩) (escapeHref ?_ passes_text _) rfl⟩
  have inId : Written ((((r.puts "<sup class=\"footnote-ref\"><a href=\"#fn-").escapeHref label).puts
      "\" id=\"fnref-").escapeHref label)
      ⟨.value (lit "a") [lit "id", lit "href"], lit "sup" :: opened⟩ plain ix := by
    refine escapeHref (puts (s := ⟨.value (lit "a") [lit "href"], lit "sup" :: opened⟩) ?_ rfl) passes_value _
    exact (written.puts rfl).escapeHref passes_value _
  refine puts (s := ⟨.value (lit "a") [lit "id", lit "href"], lit "sup" :: opened⟩) ?_ rfl
  split
  next => exact (inId.putsPlain passes_value (by decide +kernel)).putNumber passes_value _
  next => exact inId

end Written

end

/-! ### Entering and leaving a node -/

/-- Does a paragraph here get no tags? -/
def Place.isTight (place : Place) : Bool :=
  match place.grandparent with
  | some d => d.type == NodeType.list && d.as.getList.tight
  | none => false

/-- The elements that are open below a node. -/
def openedTags (d : NodeData) (place : Place) : List Bytes :=
  match d.type with
  | .blockQuote => [lit "blockquote"]
  | .list => [Written.listTag d]
  | .item => [lit "li"]
  | .heading => [Written.headingTag d]
  | .paragraph => if place.isTight then [] else [lit "p"]
  | .strong => if place.parent.any (·.type == .strong) then [] else [lit "strong"]
  | .emph => [lit "em"]
  | .link => [lit "a"]
  | _ => []

/-- A node that can be rendered: the definition of a reference can be looked up. -/
def Renderable (P : Config) (H : HtmlConfig) (i : NodeId) (d : NodeData) (cs : Forest) : Prop :=
  RenderedNode P i d cs ∧ RefersTo (fun f => (H.literalAt f).isSome) i d cs

section

variable {P : Config} {H : HtmlConfig} (safe : H.options.has optUnsafe = false)
  {r : HtmlRenderer} {ix : Nat} {opened : List Bytes} {i : NodeId} {d : NodeData} {cs : Forest}
  {place : Place}

include safe

/-- Entering a node opens its elements. -/
theorem renderHtmlNode_enter (node : Renderable P H i d cs) (image : d.type ≠ .image)
    (definition : d.type ≠ .footnoteDefinition) (written : Written r ⟨.text, opened⟩ none ix) :
    ∃ r', renderHtmlNode H r ⟨true, .mk i d cs, place⟩ = .ok r' ∧
      Written r' ⟨.text, if d.type.isLeaf then opened else openedTags d place ++ opened⟩ none ix := by
  obtain ⟨⟨⟨⟨core, _⟩, ⟨level, _⟩, _⟩, _⟩, refers⟩ := node
  unfold renderHtmlNode
  extract_lets kept data
  have same : kept = r := if_neg (by simp [written.plain])
  rw [same, if_neg (by simp [written.plain])]
  clear same
  clear_value kept
  subst data
  dsimp only [Node.data_mk]
  unfold RefersTo at refers
  unfold openedTags
  generalize type : d.type = t at core image definition level refers
  cases t <;> simp only [NodeType.isCoreBlock, NodeType.isCoreInline, Bool.false_eq_true, or_self] at core
  case image => exact absurd rfl image
  case footnoteDefinition => exact absurd rfl definition
  case footnoteReference =>
    obtain ⟨f, parent, found⟩ := refers rfl
    obtain ⟨label, literal⟩ := Option.isSome_iff_exists.mp found
    exact written.renderFootnoteReference (by rw [parent]; exact literal)
  case paragraph =>
    unfold renderParagraph
    dsimp only
    change ∃ r', (if place.isTight then _ else _) = _ ∧ Written r' ⟨.text, (if place.isTight then _ else _) ++ _⟩ _ _
    cases place.isTight with
    | true => exact ⟨r, rfl, written⟩
    | false => exact ⟨_, rfl, written.cr.openTag rfl rfl rfl⟩
  case heading => exact ⟨_, rfl, written.renderHeading_enter (level rfl)⟩
  case list => exact ⟨_, rfl, written.renderListTag_enter⟩
  case codeBlock => exact ⟨_, rfl, written.renderCodeBlock⟩
  case htmlBlock => exact ⟨_, rfl, (written.cr.renderRawHtml safe _ _).cr⟩
  case htmlInline => exact ⟨_, rfl, written.renderRawHtml safe _ _⟩
  case document | «attribute» => exact ⟨r, rfl, written⟩
  case blockQuote | item => exact ⟨_, rfl, written.cr.openTag rfl rfl rfl⟩
  case thematicBreak => exact ⟨_, rfl, written.cr.openTag rfl rfl rfl⟩
  case text => exact ⟨_, rfl, written.escapeHtml passes_text _⟩
  case linebreak => exact ⟨_, rfl, written.puts rfl⟩
  case emph => exact ⟨r.puts "<em>", rfl, written.puts rfl⟩
  case softbreak =>
    refine ⟨_, rfl, ?_⟩
    split
    next => exact written.puts rfl
    next => split <;> exact written.puts rfl
  case code =>
    exact ⟨_, rfl, .puts (s := ⟨.text, lit "code" :: opened⟩)
      (.escapeHtml (written.puts rfl) passes_text _) rfl⟩
  case strong =>
    dsimp only
    cases place.parent.any (·.type == .strong) with
    | true => exact ⟨r, rfl, written⟩
    | false => exact ⟨r.puts "<strong>", rfl, written.puts rfl⟩
  case link =>
    have href : Written (renderUrl H.options d.as.getUrl (r.puts "<a href=\""))
        ⟨.value (lit "a") [lit "href"], opened⟩ none ix := (written.puts rfl).renderUrl _
    obtain ⟨names, title⟩ := href.renderTitle d.as.getTitle rfl
    exact ⟨_, rfl, title.puts rfl⟩

omit safe in
/-- Leaving it closes them. -/
theorem renderHtmlNode_leave (node : Renderable P H i d cs) (image : d.type ≠ .image)
    (definition : d.type ≠ .footnoteDefinition) (inner : d.type.isLeaf = false)
    (attached : place.parent ≠ none)
    (written : Written r ⟨.text, openedTags d place ++ opened⟩ none ix) :
    ∃ r', renderHtmlNode H r ⟨false, .mk i d cs, place⟩ = .ok r' ∧ Written r' ⟨.text, opened⟩ none ix := by
  obtain ⟨⟨⟨⟨core, _⟩, ⟨level, _⟩, _⟩, _⟩, _⟩ := node
  unfold renderHtmlNode
  extract_lets kept data
  have same : kept = r := if_neg (by simp [written.plain])
  rw [same, if_neg (by simp [written.plain])]
  clear same
  clear_value kept
  subst data
  dsimp only [Node.data_mk]
  unfold openedTags at written
  generalize type : d.type = t at core image definition level inner written
  cases t <;> simp only [NodeType.isCoreBlock, NodeType.isCoreInline, Bool.false_eq_true, or_self] at core
  case image => exact absurd rfl image
  case footnoteDefinition => exact absurd rfl definition
  case text | code | htmlInline | htmlBlock | thematicBreak | codeBlock | softbreak | linebreak => cases inner
  case paragraph =>
    unfold renderParagraph
    dsimp only
    change ∃ r', (if place.isTight then _ else _) = _ ∧ _
    change Written r ⟨.text, (if place.isTight then _ else _) ++ _⟩ _ _ at written
    cases tight : place.isTight with
    | true =>
      rw [tight] at written
      exact ⟨r, rfl, written⟩
    | false =>
      rw [tight] at written
      cases parent : place.parent with
      | none => exact absurd parent attached
      | some d =>
        refine ⟨_, rfl, .puts (s := ⟨.text, lit "p" :: opened⟩) ?_ rfl⟩
        split
        next => exact (written.putsPlain passes_text (by decide +kernel)).putFootnoteBackref
        next => exact written
  case heading => exact ⟨_, rfl, written.renderHeading_leave (level rfl)⟩
  case list => exact ⟨_, rfl, written.renderListTag_leave⟩
  case document | «attribute» | footnoteReference => exact ⟨r, rfl, written⟩
  case blockQuote => exact ⟨_, rfl, written.cr.puts rfl⟩
  case item => exact ⟨_, rfl, written.puts rfl⟩
  case link => exact ⟨r.puts "</a>", rfl, written.puts rfl⟩
  case emph =>
    change Written r ⟨.text, lit "em" :: opened⟩ none ix at written
    exact ⟨r.puts "</em>", rfl, written.puts rfl⟩
  case strong =>
    dsimp only at written ⊢
    cases parent : place.parent.any (·.type == .strong) with
    | true =>
      rw [parent] at written
      exact ⟨r, rfl, written⟩
    | false =>
      rw [parent] at written
      change Written r ⟨.text, lit "strong" :: opened⟩ none ix at written
      exact ⟨r.puts "</strong>", rfl, written.puts rfl⟩

/-! ### Images -/

omit safe in
theorem foldl_renderPlain_written {plain : Option (List Nat)} {tag : Bytes} {names : List Bytes}
    (vs : List Visit) (written : Written r ⟨.value tag names, opened⟩ plain ix) :
    Written (vs.foldl (fun r v => renderPlain v.node.data r) r) ⟨.value tag names, opened⟩ plain ix := by
  induction vs generalizing r with
  | nil => exact written
  | cons v vs ih => exact ih (written.renderPlain v.node.data)

/-- The attributes of an image before its title, the last one first. -/
def imageNames : List Bytes := [lit "alt", lit "src"]

omit safe in
theorem renderHtmlNode_enterImage (image : d.type = .image)
    (written : Written r ⟨.text, opened⟩ none ix) :
    ∃ r', renderHtmlNode H r ⟨true, .mk i d cs, place⟩ = .ok r' ∧
      Written r' ⟨.value (lit "img") imageNames, opened⟩ (some place.path) ix := by
  have src : Written (renderUrl H.options d.as.getUrl (r.puts "<img src=\""))
      ⟨.value (lit "img") [lit "src"], opened⟩ none ix := (written.puts rfl).renderUrl _
  have alt : Written ((renderUrl H.options d.as.getUrl (r.puts "<img src=\"")).puts "\" alt=\"")
      ⟨.value (lit "img") imageNames, opened⟩ none ix := src.puts rfl
  refine ⟨renderImage H.options ⟨true, .mk i d cs, place⟩ r, ?_,
    ⟨alt.read, alt.escaped, rfl, alt.footnoteIx⟩⟩
  unfold renderHtmlNode
  extract_lets kept data
  have same : kept = r := if_neg (by simp [written.plain])
  rw [same, if_neg (by simp [written.plain]), show data.type = .image from image]

omit safe in
theorem renderHtmlNode_leaveImage (image : d.type = .image)
    (written : Written r ⟨.value (lit "img") imageNames, opened⟩ (some place.path) ix) :
    ∃ r', renderHtmlNode H r ⟨false, .mk i d cs, place⟩ = .ok r' ∧ Written r' ⟨.text, opened⟩ none ix := by
  have back : Written { r with plain := none } ⟨.value (lit "img") imageNames, opened⟩ none ix :=
    ⟨written.read, written.escaped, rfl, written.footnoteIx⟩
  obtain ⟨names, title⟩ := back.renderTitle d.as.getTitle rfl
  refine ⟨renderImage H.options ⟨false, .mk i d cs, place⟩ { r with plain := none }, ?_, title.puts rfl⟩
  unfold renderHtmlNode
  extract_lets kept data
  have same : kept = { r with plain := none } := if_pos written.plain
  rw [same, if_neg (by simp), show data.type = .image from image]

/-! ### Trees -/

omit safe in
/-- A node that is entered and left, with its children in between. -/
theorem foldlM_visits {r₁ r₂ r₃ : HtmlRenderer} (inner : d.type.isLeaf = false)
    (enters : renderHtmlNode H r ⟨true, .mk i d cs, place⟩ = .ok r₁)
    (below : (visitsFrom place d [] cs).foldlM (renderHtmlNode H) r₁ = .ok r₂)
    (leaves : renderHtmlNode H r₂ ⟨false, .mk i d cs, place⟩ = .ok r₃) :
    ((Node.mk i d cs).visits place).foldlM (renderHtmlNode H) r = .ok r₃ := by
  unfold Node.visits
  rw [if_neg (by simp [inner]), List.foldlM_cons, enters]
  change List.foldlM (renderHtmlNode H) r₁ _ = _
  rw [List.foldlM_append, below]
  change List.foldlM (renderHtmlNode H) r₂ [_] = _
  rw [List.foldlM_cons, leaves]
  rfl

/-- What is written for these events is nested, and opens no section of footnotes. -/
def WritesNested (H : HtmlConfig) (vs : List Visit) : Prop :=
  ∀ r opened ix, Written r ⟨.text, opened⟩ none ix →
    ∃ r', vs.foldlM (renderHtmlNode H) r = .ok r' ∧ Written r' ⟨.text, opened⟩ none ix

omit safe in
theorem WritesNested.append {vs ws : List Visit} (first : WritesNested H vs)
    (second : WritesNested H ws) : WritesNested H (vs ++ ws) := by
  intro r opened ix written
  obtain ⟨r', done, written'⟩ := first r opened ix written
  obtain ⟨r'', done', written''⟩ := second r' opened ix written'
  refine ⟨r'', ?_, written''⟩
  rw [List.foldlM_append, done]
  exact done'

omit safe in
theorem writesNested_image (image : d.type = .image) : WritesNested H ((Node.mk i d cs).visits place) := by
  intro r opened ix written
  obtain ⟨r₁, enters, written₁⟩ : ∃ r', renderHtmlNode H r ⟨true, .mk i d cs, place⟩ = .ok r' ∧ _ :=
    renderHtmlNode_enterImage image written
  have inside : ∀ v ∈ visitsFrom place d [] cs, v.place.path ≠ place.path := fun v member same =>
    absurd (length_lt_visitsFrom cs v member) (by rw [same]; exact Nat.lt_irrefl _)
  obtain ⟨r₂, leaves, written₂⟩ : ∃ r', renderHtmlNode H _ ⟨false, .mk i d cs, place⟩ = .ok r' ∧ _ :=
    renderHtmlNode_leaveImage image (foldl_renderPlain_written (visitsFrom place d [] cs) written₁)
  exact ⟨r₂, foldlM_visits (by rw [image]; rfl) enters
    (renderHtmlNode_plain H _ inside r₁ written₁.plain) leaves, written₂⟩

omit safe in
theorem type_ne_document {t u : NodeType} (allowed : t.canContainType u) : u ≠ .document := by
  rintro rfl
  revert allowed
  cases t <;> simp [NodeType.canContainType]

omit safe in
mutual

/-- Below the document every element that a subtree opens is closed in it. -/
theorem writesNested_visits (safe : H.options.has optUnsafe = false) {place : Place} (attached : place.parent ≠ none) :
    (n : Node) → n.All (Renderable P H) → n.type ≠ .document → n.type ≠ .footnoteDefinition →
    WritesNested H (n.visits place)
  | .mk i d cs, all, document, definition => by
    by_cases image : d.type = .image
    · exact writesNested_image image
    intro r opened ix written
    obtain ⟨r₁, enters, written₁⟩ : ∃ r', renderHtmlNode H r ⟨true, .mk i d cs, place⟩ = .ok r' ∧ _ :=
      renderHtmlNode_enter safe all.1 image definition written
    cases leaf : d.type.isLeaf with
    | true =>
      rw [if_pos leaf] at written₁
      refine ⟨r₁, ?_, written₁⟩
      unfold Node.visits
      rw [if_pos leaf, List.foldlM_cons, enters]
      rfl
    | false =>
      rw [if_neg (by simp [leaf])] at written₁
      have allowed : ∀ c ∈ cs, c.type ≠ .document ∧ c.type ≠ .footnoteDefinition := fun c member =>
        ⟨type_ne_document (all.1.1.child c member), fun type => document (all.1.1.top c member type)⟩
      obtain ⟨r₂, below, written₂⟩ := writesNested_visitsFrom safe cs all.2 allowed r₁ _ ix written₁
      obtain ⟨r₃, leaves, written₃⟩ : ∃ r', renderHtmlNode H r₂ ⟨false, .mk i d cs, place⟩ = .ok r' ∧ _ :=
        renderHtmlNode_leave all.1 image definition leaf attached written₂
      exact ⟨r₃, foldlM_visits leaf enters below leaves, written₃⟩

theorem writesNested_visitsFrom (safe : H.options.has optUnsafe = false) {place : Place} {d : NodeData}
    {before : Forest} : (f : Forest) → AllList (Renderable P H) f →
    (∀ c ∈ f, c.type ≠ .document ∧ c.type ≠ .footnoteDefinition) → WritesNested H (visitsFrom place d before f)
  | [], _, _ => fun r _ _ written => ⟨r, rfl, written⟩
  | n :: ns, all, allowed => by
    rw [List.forall_mem_cons] at allowed
    unfold visitsFrom
    refine WritesNested.append ?_ (writesNested_visitsFrom safe ns all.2 allowed.2)
    exact writesNested_visits safe (by simp [Place.parent, Place.below]) n all.1 allowed.1.1 allowed.1.2

end

/-! ### Documents -/

/-- The elements that are open around the notes. -/
def sectionTags (ix : Nat) : List Bytes := if ix = 0 then [] else [lit "ol", lit "section"]

omit safe in
/-- A note opens the section if it is the first one. -/
theorem renderHtmlNode_enterNote (note : d.type = .footnoteDefinition)
    (written : Written r ⟨.text, sectionTags ix⟩ none ix) :
    ∃ r', renderHtmlNode H r ⟨true, .mk i d cs, place⟩ = .ok r' ∧
      Written r' ⟨.text, lit "li" :: sectionTags (ix + 1)⟩ none (ix + 1) := by
  refine ⟨renderFootnoteDefinition d true r, ?_, ?_⟩
  · unfold renderHtmlNode
    extract_lets kept data
    have same : kept = r := if_neg (by simp [written.plain])
    rw [same, if_neg (by simp [written.plain]), show data.type = .footnoteDefinition from note]
    rfl
  · unfold renderFootnoteDefinition
    rw [if_pos rfl]
    extract_lets inSection
    have opens : Written inSection ⟨.text, sectionTags (ix + 1)⟩ none ix := by
      unfold inSection
      rw [written.footnoteIx]
      unfold sectionTags at written ⊢
      rw [if_neg (Nat.succ_ne_zero ix)]
      split at written
      next first => rw [if_pos first]; exact written.puts rfl
      next later => rw [if_neg later]; exact written
    have counted : Written { inSection with footnoteIx := inSection.footnoteIx + 1 }
        ⟨.text, sectionTags (ix + 1)⟩ none (ix + 1) :=
      ⟨opens.read, opens.escaped, opens.plain, by rw [← opens.footnoteIx]⟩
    refine .puts (s := ⟨.value (lit "li") [lit "id"], sectionTags (ix + 1)⟩) ?_ rfl
    exact (counted.puts rfl).escapeHref passes_value _

omit safe in
theorem renderHtmlNode_leaveNote (note : d.type = .footnoteDefinition)
    (written : Written r ⟨.text, lit "li" :: opened⟩ none ix) :
    ∃ r', renderHtmlNode H r ⟨false, .mk i d cs, place⟩ = .ok r' ∧ Written r' ⟨.text, opened⟩ none ix := by
  refine ⟨renderFootnoteDefinition d false r, ?_, ?_⟩
  · unfold renderHtmlNode
    extract_lets kept data
    have same : kept = r := if_neg (by simp [written.plain])
    rw [same, if_neg (by simp [written.plain]), show data.type = .footnoteDefinition from note]
    rfl
  · unfold renderFootnoteDefinition
    rw [if_neg (by decide)]
    have linked : Written (putFootnoteBackref d r).1 ⟨.text, lit "li" :: opened⟩ none ix :=
      written.putFootnoteBackref
    generalize putFootnoteBackref d r = out at linked
    obtain ⟨r', isWritten⟩ := out
    refine .puts (s := ⟨.text, lit "li" :: opened⟩) ?_ rfl
    cases isWritten with
    | true => exact linked.puts rfl
    | false => exact linked

theorem writesNested_note {n : Node} (all : n.All (Renderable P H)) (note : n.type = .footnoteDefinition)
    (written : Written r ⟨.text, sectionTags ix⟩ none ix) :
    ∃ r', (n.visits place).foldlM (renderHtmlNode H) r = .ok r' ∧
      Written r' ⟨.text, sectionTags (ix + 1)⟩ none (ix + 1) := by
  obtain ⟨i, d, cs⟩ := n
  have type : d.type = .footnoteDefinition := note
  have allowed : ∀ c ∈ cs, c.type ≠ .document ∧ c.type ≠ .footnoteDefinition := by
    refine fun c member => ⟨type_ne_document (all.1.1.child c member), fun nested => ?_⟩
    have top := all.1.1.top c member nested
    rw [type] at top
    cases top
  obtain ⟨r₁, enters, written₁⟩ : ∃ r', renderHtmlNode H r ⟨true, .mk i d cs, place⟩ = .ok r' ∧ _ :=
    renderHtmlNode_enterNote type written
  obtain ⟨r₂, below, written₂⟩ := writesNested_visitsFrom safe cs all.2 allowed r₁ _ _ written₁
  obtain ⟨r₃, leaves, written₃⟩ : ∃ r', renderHtmlNode H r₂ ⟨false, .mk i d cs, place⟩ = .ok r' ∧ _ :=
    renderHtmlNode_leaveNote type written₂
  exact ⟨r₃, foldlM_visits (by rw [type]; rfl) enters below leaves, written₃⟩

theorem writesNested_document {place : Place} {d : NodeData} {before : Forest} : (f : Forest) →
    AllList (Renderable P H) f → (∀ c ∈ f, c.type ≠ .document) → {r : HtmlRenderer} → {ix : Nat} →
    Written r ⟨.text, sectionTags ix⟩ none ix →
    ∃ r' ix', (visitsFrom place d before f).foldlM (renderHtmlNode H) r = .ok r' ∧
      Written r' ⟨.text, sectionTags ix'⟩ none ix'
  | [], _, _, r, ix, written => ⟨r, ix, rfl, written⟩
  | n :: ns, all, allowed, r, ix, written => by
    rw [List.forall_mem_cons] at allowed
    have attached : (place.below d before ns).parent ≠ none := by simp [Place.parent, Place.below]
    obtain ⟨r₁, ix₁, first, written₁⟩ : ∃ r' ix',
        (n.visits (place.below d before ns)).foldlM (renderHtmlNode H) r = .ok r' ∧
          Written r' ⟨.text, sectionTags ix'⟩ none ix' := by
      by_cases note : n.type = .footnoteDefinition
      · obtain ⟨r', done, written'⟩ := writesNested_note safe all.1 note written
        exact ⟨r', ix + 1, done, written'⟩
      · obtain ⟨r', done, written'⟩ := writesNested_visits safe attached n all.1 allowed.1 note r _ ix written
        exact ⟨r', ix, done, written'⟩
    obtain ⟨r₂, ix₂, rest, written₂⟩ := writesNested_document ns all.2 allowed.2 written₁
    refine ⟨r₂, ix₂, ?_, written₂⟩
    unfold visitsFrom
    rw [List.foldlM_append, first]
    exact rest

/-- The HTML of a document is nested. -/
theorem renderHtml_written {root : Node} (all : root.All (Renderable P H))
    (document : root.type = .document) (place : Place) :
    ∃ r, renderHtml H place root = .ok r ∧ Markup.Nested r.bytes ∧
      ∀ b, Piece.content b ∈ r.html → Plain b := by
  obtain ⟨i, d, cs⟩ := root
  have type : d.type = .document := document
  have start : Written {} ⟨.text, sectionTags 0⟩ none 0 := ⟨rfl, nofun, rfl, rfl⟩
  have allowed : ∀ c ∈ cs, c.type ≠ .document :=
    fun c member => type_ne_document (all.1.1.child c member)
  obtain ⟨r, ix, below, written⟩ : ∃ r ix, (visitsFrom { place with path := [] } d [] cs).foldlM
      (renderHtmlNode H) {} = .ok r ∧ Written r ⟨.text, sectionTags ix⟩ none ix :=
    writesNested_document safe cs all.2 allowed start
  have stays {r : HtmlRenderer} (plain : r.plain = none) (entering : Bool) :
      renderHtmlNode H r ⟨entering, .mk i d cs, { place with path := [] }⟩ = .ok r := by
    unfold renderHtmlNode
    extract_lets kept data
    have same : kept = r := if_neg (by simp [plain])
    rw [same, if_neg (by simp [plain]), show data.type = .document from type]
  have done := foldlM_visits (by rw [type]; rfl) (stays rfl true) below (stays written.plain false)
  unfold renderHtml
  rw [done]
  refine ⟨_, rfl, ?_⟩
  have ends : Written (if r.footnoteIx = 0 then r else r.puts "</ol>\n</section>\n") ⟨.text, []⟩ none ix := by
    rw [written.footnoteIx]
    unfold sectionTags at written
    split at written
    next none => rw [if_pos none]; exact written
    next some => rw [if_neg some]; exact written.puts rfl
  exact ⟨ends.read, ends.escaped⟩

end

end CmarkGfm
