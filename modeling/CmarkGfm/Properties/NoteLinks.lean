import CmarkGfm.Properties.HtmlNesting

/-!
# The links back from footnotes

The links of a definition to its references are written once, at the end of a paragraph that is its
last child or else at the end of the definition. Two counters say whether they have been.
-/

namespace CmarkGfm

/-! ### Output without marks -/

/-- What the links back to the references of a definition start with: the first one, and the others. -/
def backrefStarts : List Piece :=
  [.markup (lit "<a href=\"#fnref-"), .markup (lit " <a href=\"#fnref-")]

/-- In front of the id of a definition. -/
def definitionStart : Piece := .markup (lit "<li id=\"fn-")

/-- In front of the id of a reference. -/
def referenceStart : Piece := .markup (lit "\" id=\"fnref-")

/-- The pieces that belong to footnotes alone. -/
def noteMarks : List Piece := definitionStart :: referenceStart :: backrefStarts

/-- Their bytes. -/
def markBytes : List Bytes :=
  [[60, 108, 105, 32, 105, 100, 61, 34, 102, 110, 45],
    [34, 32, 105, 100, 61, 34, 102, 110, 114, 101, 102, 45],
    [60, 97, 32, 104, 114, 101, 102, 61, 34, 35, 102, 110, 114, 101, 102, 45],
    [32, 60, 97, 32, 104, 114, 101, 102, 61, 34, 35, 102, 110, 114, 101, 102, 45]]

theorem not_mem_noteMarks {s : Bytes} (other : s ∉ markBytes) : Piece.markup s ∉ noteMarks := by
  intro mark
  have bytes : noteMarks = markBytes.map Piece.markup := by decide
  rw [bytes] at mark
  obtain ⟨t, member, same⟩ := List.mem_map.mp mark
  exact other (Piece.markup.inj same ▸ member)

/-- None of these marks is in the output that has been added. Where links back are among them, no
definition has been counted. -/
structure NoMarks (marks : List Piece) (r r' : HtmlRenderer) : Prop where
  known : marks ⊆ noteMarks
  output : ∃ out, r'.html = r.html ++ out ∧ ∀ p ∈ out, p ∉ marks
  counters : backrefStarts ⊆ marks →
    r'.footnoteIx = r.footnoteIx ∧ r'.writtenFootnoteIx = r.writtenFootnoteIx

/-- Links back are not among the marks. -/
def Apart (marks : List Piece) : Prop := ∀ m ∈ backrefStarts, m ∉ marks

namespace NoMarks

section

variable {marks more : List Piece} {r r' r'' : HtmlRenderer} {options : Options} {d : NodeData}
  {H : HtmlConfig}

theorem refl (known : marks ⊆ noteMarks) (r : HtmlRenderer) : NoMarks marks r r :=
  ⟨known, ⟨[], by simp⟩, fun _ => ⟨rfl, rfl⟩⟩

theorem trans (first : NoMarks marks r r') (second : NoMarks marks r' r'') : NoMarks marks r r'' := by
  obtain ⟨out, eq, none⟩ := first.output
  obtain ⟨out', eq', none'⟩ := second.output
  refine ⟨first.known, ⟨out ++ out', by rw [eq', eq, List.append_assoc], ?_⟩, fun links => ?_⟩
  · exact List.forall_mem_append.mpr ⟨none, none'⟩
  · obtain ⟨footnoteIx, written⟩ := first.counters links
    obtain ⟨footnoteIx', written'⟩ := second.counters links
    exact ⟨footnoteIx'.trans footnoteIx, written'.trans written⟩

theorem mono (writes : NoMarks more r r') (less : marks ⊆ more) : NoMarks marks r r' := by
  obtain ⟨out, eq, none⟩ := writes.output
  exact ⟨List.Subset.trans less writes.known, ⟨out, eq, fun p member mark => none p member (less mark)⟩,
    fun links => writes.counters (List.Subset.trans links less)⟩

theorem footnoteIx (writes : NoMarks backrefStarts r r') : r'.footnoteIx = r.footnoteIx :=
  (writes.counters (List.Subset.refl _)).1

theorem writtenFootnoteIx (writes : NoMarks backrefStarts r r') :
    r'.writtenFootnoteIx = r.writtenFootnoteIx :=
  (writes.counters (List.Subset.refl _)).2

/-- A piece that is none of the marks. -/
theorem putOther (writes : NoMarks marks r r') {p : Piece} (other : p ∉ marks) :
    NoMarks marks r (r'.put p) := by
  apply writes.trans
  exact ⟨writes.known, ⟨[p], rfl, fun q member => List.mem_singleton.mp member ▸ other⟩,
    fun _ => ⟨rfl, rfl⟩⟩

theorem put (writes : NoMarks marks r r') {p : Piece} (other : p ∉ noteMarks) :
    NoMarks marks r (r'.put p) :=
  writes.putOther fun mark => other (writes.known mark)

theorem plain (writes : NoMarks marks r r') (image : Option (List Nat)) :
    NoMarks marks r { r' with plain := image } :=
  ⟨writes.known, writes.output, writes.counters⟩

theorem puts (writes : NoMarks marks r r') (s : String)
    (other : lit s ∉ markBytes) : NoMarks marks r (r'.puts s) :=
  writes.put (not_mem_noteMarks other)

theorem putContent (writes : NoMarks marks r r') (s : Bytes) : NoMarks marks r (r'.putContent s) := by
  apply writes.put
  simp [noteMarks, definitionStart, referenceStart, backrefStarts]

theorem escapeHtml (writes : NoMarks marks r r') (s : Bytes) : NoMarks marks r (r'.escapeHtml s) :=
  writes.putContent _

theorem escapeHref (writes : NoMarks marks r r') (s : Bytes) : NoMarks marks r (r'.escapeHref s) :=
  writes.putContent _

/-- Text without markup is something else. -/
theorem markup (writes : NoMarks marks r r') {s : Bytes} (isPlain : Plain s) :
    NoMarks marks r (r'.put (.markup s)) := by
  apply writes.put
  intro mark
  have notPlain : ∀ q ∈ noteMarks, ¬ Plain q.bytes := by decide +kernel
  exact notPlain _ mark isPlain

theorem putNumber (writes : NoMarks marks r r') (n : Nat) : NoMarks marks r (r'.putNumber n) :=
  writes.markup (plain_decimal n)

theorem cr (writes : NoMarks marks r r') : NoMarks marks r r'.cr := by
  unfold HtmlRenderer.cr
  split
  next => exact writes
  next =>
    split
    next => exact writes
    next => exact writes.puts "\n" (by decide)

theorem sourcepos (writes : NoMarks marks r r') : NoMarks marks r (r'.sourcepos options d) := by
  unfold HtmlRenderer.sourcepos
  split
  next => exact ((writes.puts " data-sourcepos=\"" (by decide)).markup (plain_sourceRange d)).puts "\"" (by decide)
  next => exact writes

theorem openTag (writes : NoMarks marks r r') (tag close : String)
    (other : lit tag ∉ markBytes) (other' : lit close ∉ markBytes) :
    NoMarks marks r (r'.openTag options d tag close) :=
  ((writes.puts tag other).sourcepos).puts close other'

theorem renderMeta (writes : NoMarks marks r r') (info lang : Bytes) :
    NoMarks marks r (CmarkGfm.renderMeta options info lang r') := by
  unfold CmarkGfm.renderMeta
  split
  next => exact (writes.puts "\" data-meta=\"" (by decide)).escapeHtml _
  next => exact writes

theorem renderUrl (writes : NoMarks marks r r') (url : Bytes) :
    NoMarks marks r (CmarkGfm.renderUrl options url r') := by
  unfold CmarkGfm.renderUrl
  split
  next => exact writes.escapeHref url
  next => exact writes

theorem renderTitle (writes : NoMarks marks r r') (title : Bytes) :
    NoMarks marks r (CmarkGfm.renderTitle title r') := by
  unfold CmarkGfm.renderTitle
  split
  next => exact writes
  next => exact (writes.puts "\" title=\"" (by decide)).escapeHtml title

theorem renderListTag (entering : Bool) (writes : NoMarks marks r r') :
    NoMarks marks r (CmarkGfm.renderListTag options d entering r') := by
  unfold CmarkGfm.renderListTag
  dsimp only
  split
  next =>
    split
    next => exact writes.cr.openTag "<ul" ">\n" (by decide) (by decide)
    next =>
      split
      next => exact writes.cr.openTag "<ol" ">\n" (by decide) (by decide)
      next =>
        have start := (writes.cr.puts "<ol start=\"" (by decide)).putNumber d.as.getList.start
        have start := start.puts "\"" (by decide)
        exact start.sourcepos.puts ">\n" (by decide)
  next =>
    split
    next => exact writes.puts "</ul>\n" (by decide)
    next => exact writes.puts "</ol>\n" (by decide)

theorem renderHeading (entering : Bool) (writes : NoMarks marks r r') :
    NoMarks marks r (CmarkGfm.renderHeading options d entering r') := by
  have digit : Piece.markup [48 + UInt8.ofNat d.as.getLevel] ∉ noteMarks := by
    intro mark
    have long : ∀ q ∈ noteMarks, 1 < q.bytes.length := by decide +kernel
    exact absurd (long _ mark) (Nat.lt_irrefl 1)
  unfold CmarkGfm.renderHeading
  dsimp only
  split
  next => exact (((writes.cr.puts "<h" (by decide)).put digit).sourcepos).puts ">" (by decide)
  next => exact ((writes.puts "</h" (by decide)).put digit).puts ">\n" (by decide)

theorem renderCodeBlock (writes : NoMarks marks r r') :
    NoMarks marks r (CmarkGfm.renderCodeBlock options d r') := by
  unfold CmarkGfm.renderCodeBlock
  extract_lets code start lang inCode
  have opened : NoMarks marks r inCode := by
    unfold inCode
    split
    next => exact writes.cr.openTag "<pre" "><code>" (by decide) (by decide)
    next =>
      split
      next =>
        refine puts (renderMeta (escapeHtml ?_ lang) _ lang) "\"><code>" (by decide)
        exact writes.cr.openTag "<pre" " lang=\"" (by decide) (by decide)
      next =>
        refine puts (renderMeta (escapeHtml ?_ lang) _ lang) "\">" (by decide)
        exact writes.cr.openTag "<pre" "><code class=\"language-" (by decide) (by decide)
  exact (opened.escapeHtml _).puts "</code></pre>\n" (by decide)

theorem renderRawHtml (filter : Bytes → Bytes) (literal : Bytes) (writes : NoMarks marks r r') :
    NoMarks marks r (CmarkGfm.renderRawHtml H filter literal r') := by
  unfold CmarkGfm.renderRawHtml
  split
  next => exact writes.puts "<!-- raw HTML omitted -->" (by decide)
  next => exact writes.putContent _

theorem renderPlain (writes : NoMarks marks r r') : NoMarks marks r (CmarkGfm.renderPlain d r') := by
  unfold CmarkGfm.renderPlain
  split
  next => exact writes.escapeHtml _
  next => exact writes.escapeHtml _
  next => exact writes.escapeHtml _
  next => exact writes.puts " " (by decide)
  next => exact writes.puts " " (by decide)
  next => exact writes

theorem renderImage {v : Visit} (writes : NoMarks marks r r') :
    NoMarks marks r (CmarkGfm.renderImage options v r') := by
  unfold CmarkGfm.renderImage
  split
  next => exact (((writes.puts "<img src=\"" (by decide)).renderUrl _).puts "\" alt=\"" (by decide)).plain _
  next => exact (writes.renderTitle _).puts "\" />" (by decide)

theorem renderFootnoteReference {out : HtmlRenderer} (writes : NoMarks marks r r')
    (other : referenceStart ∉ marks)
    (rendered : CmarkGfm.renderFootnoteReference H d r' = .ok out) : NoMarks marks r out := by
  unfold CmarkGfm.renderFootnoteReference at rendered
  split at rendered
  next => cases rendered
  next label _ =>
    obtain rfl := Except.ok.inj rendered
    have link := (writes.puts "<sup class=\"footnote-ref\"><a href=\"#fn-" (by decide)).escapeHref label
    have start := (link.putOther other).escapeHref label
    split
    next =>
      have inTag := ((start.puts "-" (by decide)).putNumber d.refIx).puts "\" data-footnote-ref>" (by decide)
      exact (inTag.escapeHref d.as.getLiteral).puts "</a></sup>" (by decide)
    next =>
      have inTag := start.puts "\" data-footnote-ref>" (by decide)
      exact (inTag.escapeHref d.as.getLiteral).puts "</a></sup>" (by decide)

/-- The class of a link back, and the attribute after it up to its value. -/
theorem backrefClass (writes : NoMarks marks r r') :
    NoMarks marks r
      (r'.puts "\" class=\"footnote-backref\" data-footnote-backref data-footnote-backref-idx=\"") :=
  writes.puts _ (by decide)

theorem backrefLabel (writes : NoMarks marks r r') :
    NoMarks marks r (r'.puts "\" aria-label=\"Back to reference ") :=
  writes.puts _ (by decide)

/-- The arrow of a link back. -/
theorem backrefArrow (writes : NoMarks marks r r') :
    NoMarks marks r ((r'.puts "\">").put (.markup [0xe2, 0x86, 0xa9])) :=
  (writes.puts "\">" (by decide)).put (not_mem_noteMarks (by decide))

theorem putExtraBackrefs (apart : Apart marks) (literal : Bytes) (ix : Nat) (is : List Nat)
    (writes : NoMarks marks r r') : NoMarks marks r (CmarkGfm.putExtraBackrefs literal ix is r') := by
  induction is generalizing r' with
  | nil => exact writes
  | cons i is ih =>
    have start := writes.putOther (apart (.markup (lit " <a href=\"#fnref-")) (by decide))
    have link := ((start.escapeHref literal).puts "-" (by decide)).putNumber i
    have number := ((link.backrefClass.putNumber ix).puts "-" (by decide)).putNumber i
    have label := ((number.backrefLabel.putNumber ix).puts "-" (by decide)).putNumber i
    have text := (label.backrefArrow.puts "<sup class=\"footnote-ref\">" (by decide)).putNumber i
    exact ih (text.puts "</sup></a>" (by decide))

/-- Links back that are no marks. -/
theorem putFootnoteBackref (apart : Apart marks) (writes : NoMarks marks r r') :
    NoMarks marks r (CmarkGfm.putFootnoteBackref d r').1 := by
  unfold CmarkGfm.putFootnoteBackref
  split
  next => exact writes
  next =>
    have counted : NoMarks marks r { r' with writtenFootnoteIx := r'.footnoteIx } :=
      ⟨writes.known, writes.output, fun links => absurd (links List.mem_cons_self) (apart _ List.mem_cons_self)⟩
    have start := counted.putOther (apart (.markup (lit "<a href=\"#fnref-")) (by decide))
    have number := (start.escapeHref d.as.getLiteral).backrefClass.putNumber r'.footnoteIx
    have label := number.backrefLabel.putNumber r'.footnoteIx
    exact (label.backrefArrow.puts "</a>" (by decide)).putExtraBackrefs apart _ _ _

theorem renderFootnoteDefinition_leave (apart : Apart marks) (writes : NoMarks marks r r') :
    NoMarks marks r (CmarkGfm.renderFootnoteDefinition d false r') := by
  have links := writes.putFootnoteBackref (d := d) apart
  unfold CmarkGfm.renderFootnoteDefinition
  rw [if_neg Bool.false_ne_true]
  generalize CmarkGfm.putFootnoteBackref d r' = out at links
  obtain ⟨r'', written⟩ := out
  cases written with
  | true => exact (links.puts "\n" (by decide)).puts "</li>\n" (by decide)
  | false => exact links.puts "</li>\n" (by decide)

end

end NoMarks

/-! ### One event -/

/-- The end of a paragraph that is the last child of a definition. -/
def EndsNote (v : Visit) : Prop :=
  v.entering = false ∧ v.node.type = .paragraph ∧
    (∃ d, v.place.parent = some d ∧ d.type = .footnoteDefinition) ∧ v.place.after = []

/-- The event writes none of the marks: it is none of those that belong to footnotes, or the marks are
others. -/
structure Unmarked (marks : List Piece) (v : Visit) : Prop where
  note : v.node.type = .footnoteDefinition → v.entering = false ∧ Apart marks
  ends : EndsNote v → Apart marks
  reference : v.node.type = .footnoteReference → v.entering = true → referenceStart ∉ marks

theorem backrefStarts_subset : backrefStarts ⊆ noteMarks :=
  List.Subset.trans (List.subset_cons_self ..) (List.subset_cons_self ..)

theorem unmarked_backrefStarts {v : Visit} (type : v.node.type ≠ .footnoteDefinition) (noEnd : ¬ EndsNote v) :
    Unmarked backrefStarts v :=
  ⟨fun note => absurd note type, fun ends => absurd ends noEnd, fun _ _ => by decide +kernel⟩

section

variable {marks : List Piece} {H : HtmlConfig} {func : HtmlRenderFunc} {r r' : HtmlRenderer} {v : Visit}

theorem NoMarks.renderParagraph {options : Options} (writes : NoMarks marks r r') {out : HtmlRenderer}
    (type : v.node.type = .paragraph) (unmarked : Unmarked marks v)
    (rendered : CmarkGfm.renderParagraph options v r' = .ok out) : NoMarks marks r out := by
  unfold CmarkGfm.renderParagraph at rendered
  extract_lets tight at rendered
  split at rendered
  next =>
    obtain rfl := Except.ok.inj rendered
    exact writes
  split at rendered
  next =>
    obtain rfl := Except.ok.inj rendered
    exact writes.cr.openTag "<p" ">" (by decide) (by decide)
  next leaving =>
    split at rendered
    next => cases rendered
    next d parent =>
      dsimp only at rendered
      obtain rfl := Except.ok.inj rendered
      split
      next last =>
        simp only [Bool.and_eq_true, beq_iff_eq, List.isEmpty_iff] at last
        have apart := unmarked.ends ⟨by simpa using leaving, type, ⟨d, parent, last.1⟩, last.2⟩
        exact ((writes.puts " " (by decide)).putFootnoteBackref apart).puts "</p>\n" (by decide)
      next => exact writes.puts "</p>\n" (by decide)

theorem NoMarks.renderHtmlNode (known : marks ⊆ noteMarks) (unmarked : Unmarked marks v)
    (rendered : CmarkGfm.renderHtmlNode H r v = .ok r') : NoMarks marks r r' := by
  unfold CmarkGfm.renderHtmlNode at rendered
  extract_lets kept data at rendered
  have writes : NoMarks marks r kept := by
    unfold kept
    split
    next => exact (refl known r).plain none
    next => exact refl known r
  split at rendered
  next =>
    obtain rfl := Except.ok.inj rendered
    exact writes.renderPlain
  have same : v.node.type = data.type := rfl
  generalize type : data.type = t at rendered same
  cases t
  case footnoteDefinition =>
    dsimp only at rendered
    obtain rfl := Except.ok.inj rendered
    obtain ⟨leaving, apart⟩ := unmarked.note same
    rw [leaving]
    exact writes.renderFootnoteDefinition_leave apart
  case paragraph => exact writes.renderParagraph same unmarked rendered
  case footnoteReference =>
    dsimp only at rendered
    split at rendered
    next entering => exact writes.renderFootnoteReference (unmarked.reference same entering) rendered
    next =>
      obtain rfl := Except.ok.inj rendered
      exact writes
  case none | extensionBlock | extensionInline => cases rendered
  all_goals
    dsimp only at rendered
    obtain rfl := Except.ok.inj rendered
  case document | «attribute» => exact writes
  case blockQuote =>
    split
    next => exact writes.cr.openTag "<blockquote" ">\n" (by decide) (by decide)
    next => exact writes.cr.puts "</blockquote>\n" (by decide)
  case list => exact writes.renderListTag _
  case item =>
    split
    next => exact writes.cr.openTag "<li" ">" (by decide) (by decide)
    next => exact writes.puts "</li>\n" (by decide)
  case heading => exact writes.renderHeading _
  case codeBlock => exact writes.renderCodeBlock
  case htmlBlock => exact (writes.cr.renderRawHtml _ _).cr
  case customBlock => exact (writes.cr.putContent _).cr
  case thematicBreak => exact writes.cr.openTag "<hr" " />\n" (by decide) (by decide)
  case text => exact writes.escapeHtml _
  case linebreak => exact writes.puts "<br />\n" (by decide)
  case softbreak =>
    split
    next => exact writes.puts "<br />\n" (by decide)
    next =>
      split
      next => exact writes.puts " " (by decide)
      next => exact writes.puts "\n" (by decide)
  case code => exact ((writes.puts "<code>" (by decide)).escapeHtml _).puts "</code>" (by decide)
  case htmlInline => exact writes.renderRawHtml _ _
  case customInline => exact writes.putContent _
  case strong =>
    split
    next => exact writes
    next =>
      split
      next => exact writes.puts "<strong>" (by decide)
      next => exact writes.puts "</strong>" (by decide)
  case emph =>
    split
    next => exact writes.puts "<em>" (by decide)
    next => exact writes.puts "</em>" (by decide)
  case link =>
    split
    next => exact (((writes.puts "<a href=\"" (by decide)).renderUrl _).renderTitle _).puts "\">" (by decide)
    next => exact writes.puts "</a>" (by decide)
  case image => exact writes.renderImage

end

/-! ### Nodes of extensions -/

/-- Extensions render nodes of their own, and write nothing that belongs to footnotes. -/
def RendersOwn (func : HtmlRenderFunc) : Prop :=
  ∀ d f, func d = some f → d.type ≠ .footnoteDefinition ∧ d.type ≠ .footnoteReference ∧
    ∀ r v, NoMarks noteMarks r (f r v) ∧ (f r v).plain = r.plain

section

variable {H : HtmlConfig} {func : HtmlRenderFunc} (own : RendersOwn func) {r r' : HtmlRenderer}
  {v : Visit} {i : NodeId} {d : NodeData} {cs : Forest} {place : Place}

/-- Outside of images it is the node or its extension that decides. -/
theorem renderHtmlNodeWith_eq (plain : r.plain = none) : renderHtmlNodeWith H func r v =
    match func v.node.data with
    | some f => .ok (f r v)
    | none => renderHtmlNode H r v := by
  unfold renderHtmlNodeWith
  rw [if_neg (by simp [plain]), plain]
  rfl

/-- Without extensions it is the node alone. -/
theorem renderHtmlNodeWith_core : renderHtmlNodeWith H (fun _ => none) r v = renderHtmlNode H r v := by
  unfold renderHtmlNodeWith renderHtmlNode
  by_cases back : r.plain = some v.place.path
  · rw [if_pos back]
    rfl
  · rw [if_neg back]
    dsimp only
    cases plain : r.plain with
    | none =>
      simp [plain]
    | some image => rfl

/-- Back at the image. -/
theorem renderHtmlNodeWith_back (plain : r.plain = some v.place.path) (core : func v.node.data = none) :
    renderHtmlNodeWith H func r v = renderHtmlNode H { r with plain := none } v := by
  unfold renderHtmlNodeWith
  rw [if_pos plain, core]
  rfl

include own in
theorem NoMarks.renderHtmlNodeWith {marks : List Piece} (known : marks ⊆ noteMarks)
    (unmarked : func v.node.data = none → Unmarked marks v)
    (rendered : CmarkGfm.renderHtmlNodeWith H func r v = .ok r') : NoMarks marks r r' := by
  unfold CmarkGfm.renderHtmlNodeWith at rendered
  extract_lets kept at rendered
  have writes : NoMarks marks r kept := by
    unfold kept
    split
    next => exact (refl known r).plain none
    next => exact refl known r
  split at rendered
  next =>
    obtain rfl := Except.ok.inj rendered
    exact writes.renderPlain
  split at rendered
  next f found =>
    obtain rfl := Except.ok.inj rendered
    exact writes.trans (((own _ f found).2.2 kept v).1.mono known)
  next core => exact writes.trans (.renderHtmlNode known (unmarked core) rendered)

include own in
theorem NoMarks.foldlM {marks : List Piece} (known : marks ⊆ noteMarks) (vs : List Visit)
    (unmarked : ∀ v ∈ vs, func v.node.data = none → Unmarked marks v)
    (rendered : vs.foldlM (CmarkGfm.renderHtmlNodeWith H func) r = .ok r') : NoMarks marks r r' := by
  induction vs generalizing r with
  | nil =>
    obtain rfl := Except.ok.inj rendered
    exact refl known r
  | cons v vs ih =>
    rw [List.foldlM_cons] at rendered
    rw [List.forall_mem_cons] at unmarked
    cases first : CmarkGfm.renderHtmlNodeWith H func r v with
    | error e =>
      rw [first] at rendered
      cases rendered
    | ok r₁ =>
      rw [first] at rendered
      exact (NoMarks.renderHtmlNodeWith own known unmarked.1 first).trans (ih unmarked.2 rendered)

/-! ### Images -/

theorem renderHtmlNode_type_isCore (plain : r.plain = none)
    (rendered : renderHtmlNode H r v = .ok r') : v.node.type.isCore := by
  unfold renderHtmlNode at rendered
  rw [if_neg (by simp [plain]), plain] at rendered
  change v.node.data.type.isCore
  generalize v.node.data.type = type at rendered
  cases type
  case none | extensionBlock | extensionInline => cases rendered
  all_goals rfl

include own in
/-- Only entering an image starts an alternative text. -/
theorem plain_renderHtmlNodeWith (plain : r.plain = none)
    (other : v.node.type = .image → v.entering = true → (func v.node.data).isSome)
    (rendered : renderHtmlNodeWith H func r v = .ok r') : r'.plain = none := by
  rw [renderHtmlNodeWith_eq plain] at rendered
  split at rendered
  next f found =>
    obtain rfl := Except.ok.inj rendered
    exact ((own _ f found).2.2 r v).2.trans plain
  next none =>
    by_cases image : v.node.type = .image
    · obtain ⟨r'', done, ends⟩ := renderHtmlNode_image (H := H) plain image
      obtain rfl := Except.ok.inj (done.symm.trans rendered)
      rw [ends, if_neg]
      intro entering
      have func := other image entering
      rw [none] at func
      cases func
    by_cases fails : FailsAt H v
    · rw [renderHtmlNode_fails H plain fails] at rendered
      cases rendered
    · obtain ⟨r'', done, ends⟩ :=
        renderHtmlNode_ok H plain (renderHtmlNode_type_isCore plain rendered) image fails
      obtain rfl := Except.ok.inj (done.symm.trans rendered)
      exact ends

/-- In the alternative text of an image. -/
theorem renderHtmlNodeWith_inside {image : List Nat} (plain : r.plain = some image)
    (inside : v.place.path ≠ image) :
    renderHtmlNodeWith H func r v = .ok (renderPlain v.node.data r) := by
  have elsewhere : ¬ r.plain = some v.place.path := by
    rw [plain]
    exact fun same => inside (Option.some.inj same).symm
  unfold renderHtmlNodeWith
  rw [if_neg elsewhere]
  dsimp only
  rw [if_pos (by rw [plain]; rfl)]

/-- In the alternative text nothing ends it. -/
theorem plain_foldlM_inside {image : List Nat} (vs : List Visit)
    (inside : ∀ v ∈ vs, v.place.path ≠ image) (plain : r.plain = some image)
    (rendered : vs.foldlM (renderHtmlNodeWith H func) r = .ok r') : r'.plain = some image := by
  induction vs generalizing r with
  | nil =>
    obtain rfl := Except.ok.inj rendered
    exact plain
  | cons v vs ih =>
    rw [List.forall_mem_cons] at inside
    rw [List.foldlM_cons, renderHtmlNodeWith_inside plain inside.1] at rendered
    exact ih inside.2 (plain_renderPlain.trans plain) rendered

theorem foldlM_append_ok {vs ws : List Visit} {step : HtmlRenderer → Visit → Except RenderError HtmlRenderer}
    (rendered : (vs ++ ws).foldlM step r = .ok r') :
    ∃ r₁, vs.foldlM step r = .ok r₁ ∧ ws.foldlM step r₁ = .ok r' := by
  rw [List.foldlM_append] at rendered
  cases first : vs.foldlM step r with
  | error e =>
    rw [first] at rendered
    cases rendered
  | ok r₁ =>
    rw [first] at rendered
    exact ⟨r₁, rfl, rendered⟩

theorem foldlM_singleton_ok {step : HtmlRenderer → Visit → Except RenderError HtmlRenderer}
    (rendered : [v].foldlM step r = .ok r') : step r v = .ok r' := by
  rw [List.foldlM_cons] at rendered
  cases first : step r v with
  | error e =>
    rw [first] at rendered
    cases rendered
  | ok r₁ =>
    rw [first] at rendered
    exact rendered

/-- The events of an inner node: it is entered, its children come, it is left. -/
theorem foldlM_visits_ok {step : HtmlRenderer → Visit → Except RenderError HtmlRenderer}
    (inner : d.type.isLeaf = false)
    (rendered : ((Node.mk i d cs).visits place).foldlM step r = .ok r') :
    ∃ r₁ r₂, step r ⟨true, .mk i d cs, place⟩ = .ok r₁ ∧
      (visitsFrom place d [] cs).foldlM step r₁ = .ok r₂ ∧
      step r₂ ⟨false, .mk i d cs, place⟩ = .ok r' := by
  unfold Node.visits at rendered
  rw [if_neg (by simp [inner]), ← List.singleton_append] at rendered
  obtain ⟨r₁, enters, rendered⟩ := foldlM_append_ok rendered
  obtain ⟨r₂, below, leaves⟩ := foldlM_append_ok rendered
  exact ⟨r₁, r₂, foldlM_singleton_ok enters, below, foldlM_singleton_ok leaves⟩

include own

omit own in
mutual

/-- An alternative text ends with its image. -/
theorem plain_visits (own : RendersOwn func) {place : Place} : (n : Node) → {r r' : HtmlRenderer} →
    r.plain = none → (n.visits place).foldlM (renderHtmlNodeWith H func) r = .ok r' → r'.plain = none
  | .mk i d cs, r, r', plain, rendered => by
    by_cases leaf : d.type.isLeaf = true
    · unfold Node.visits at rendered
      rw [if_pos leaf] at rendered
      apply plain_renderHtmlNodeWith own plain _ (foldlM_singleton_ok rendered)
      intro image _
      have image : d.type = .image := image
      rw [image] at leaf
      cases leaf
    rw [Bool.not_eq_true] at leaf
    obtain ⟨r₁, r₂, enters, below, leaves⟩ := foldlM_visits_ok leaf rendered
    by_cases starts : d.type = .image ∧ func d = none
    · -- the alternative text of an image
      have started : r₁.plain = some place.path := by
        rw [renderHtmlNodeWith_eq plain] at enters
        dsimp only [Node.data_mk] at enters
        rw [starts.2] at enters
        obtain ⟨r'', done, ends⟩ :=
          renderHtmlNode_image (H := H) (v := ⟨true, .mk i d cs, place⟩) plain starts.1
        obtain rfl := Except.ok.inj (done.symm.trans enters)
        exact ends
      have inside : ∀ v ∈ visitsFrom place d [] cs, v.place.path ≠ place.path := fun v member same =>
        absurd (length_lt_visitsFrom cs v member) (by rw [same]; exact Nat.lt_irrefl _)
      have goesOn := plain_foldlM_inside _ inside started below
      rw [renderHtmlNodeWith_back goesOn starts.2] at leaves
      obtain ⟨r'', done, ends⟩ := renderHtmlNode_image (H := H) (r := { r₂ with plain := none })
        (v := ⟨false, .mk i d cs, place⟩) rfl starts.1
      obtain rfl := Except.ok.inj (done.symm.trans leaves)
      exact ends
    · have other (entering : Bool) : (Visit.mk entering (.mk i d cs) place).node.type = .image →
          entering = true → (func d).isSome := by
        intro image _
        rw [Option.isSome_iff_ne_none]
        exact fun none => starts ⟨image, none⟩
      have plain₁ := plain_renderHtmlNodeWith own plain (other true) enters
      have plain₂ := plain_visitsFrom own cs plain₁ below
      exact plain_renderHtmlNodeWith own plain₂ (other false) leaves

theorem plain_visitsFrom (own : RendersOwn func) {place : Place} {d : NodeData} {before : Forest} :
    (f : Forest) → {r r' : HtmlRenderer} → r.plain = none →
    (visitsFrom place d before f).foldlM (renderHtmlNodeWith H func) r = .ok r' → r'.plain = none
  | [], r, r', plain, rendered => by
    unfold visitsFrom at rendered
    obtain rfl := Except.ok.inj rendered
    exact plain
  | n :: ns, r, r', plain, rendered => by
    unfold visitsFrom at rendered
    obtain ⟨r₁, first, rest⟩ := foldlM_append_ok rendered
    exact plain_visitsFrom own ns (plain_visits own n plain first) rest

end

end

/-! ### Below the children of a definition -/

mutual

/-- Where there are no definitions, only the node itself can end one. -/
theorem endsNote_visits {place : Place} : (n : Node) → n.exits .footnoteDefinition = [] →
    ∀ v ∈ n.visits place, v.node.type ≠ .footnoteDefinition ∧
      (EndsNote v → v = ⟨false, n, place⟩)
  | .mk i d cs, empty, v, member => by
    rw [Node.exits, List.append_eq_nil_iff] at empty
    have other : d.type ≠ .footnoteDefinition := by
      intro note
      rw [if_pos note] at empty
      cases empty.2
    unfold Node.visits at member
    split at member
    next =>
      obtain rfl := List.mem_singleton.mp member
      exact ⟨other, fun ends => by cases ends.1⟩
    next =>
      rcases List.mem_cons.mp member with rfl | member
      · exact ⟨other, fun ends => by cases ends.1⟩
      rcases List.mem_append.mp member with below | last
      · obtain ⟨type, noEnd⟩ := endsNote_visitsFrom other cs empty.1 v below
        exact ⟨type, fun ends => absurd ends noEnd⟩
      · obtain rfl := List.mem_singleton.mp last
        exact ⟨other, fun _ => rfl⟩

theorem endsNote_visitsFrom {place : Place} {d : NodeData} {before : Forest}
    (other : d.type ≠ .footnoteDefinition) : (f : Forest) → exitsList .footnoteDefinition f = [] →
    ∀ v ∈ visitsFrom place d before f, v.node.type ≠ .footnoteDefinition ∧ ¬ EndsNote v
  | [], _, v, member => by
    unfold visitsFrom at member
    cases member
  | n :: ns, empty, v, member => by
    rw [exitsList, List.append_eq_nil_iff] at empty
    unfold visitsFrom at member
    rcases List.mem_append.mp member with first | later
    · obtain ⟨type, same⟩ := endsNote_visits n empty.1 v first
      refine ⟨type, fun ends => ?_⟩
      have eq := same ends
      obtain ⟨_, _, ⟨e, parent, note⟩, _⟩ := ends
      rw [eq] at parent
      have parent : some d = some e := parent
      rw [Option.some.inj parent] at other
      exact other note
    · exact endsNote_visitsFrom other ns empty.2 v later

end

/-! ### The links of a definition -/

namespace HtmlRenderer

/-- More output. -/
def append (r : HtmlRenderer) (out : List Piece) : HtmlRenderer := { r with html := r.html ++ out }

variable {r : HtmlRenderer} {out out' : List Piece}

theorem put_eq (p : Piece) : r.put p = r.append [p] := rfl

theorem append_append : (r.append out).append out' = r.append (out ++ out') := by
  simp [append]

@[simp] theorem html_append : (r.append out).html = r.html ++ out := rfl

end HtmlRenderer

/-- The links back to the references of the `ix`-th definition. -/
def backrefs (d : NodeData) (ix : Nat) : List Piece :=
  (putFootnoteBackref d { footnoteIx := ix }).1.html

section

variable {r : HtmlRenderer} {d : NodeData}

theorem putExtraBackrefs_append (literal : Bytes) (ix : Nat) (is : List Nat) (r : HtmlRenderer) :
    putExtraBackrefs literal ix is r = r.append (putExtraBackrefs literal ix is {}).html := by
  induction is generalizing r with
  | nil => simp [putExtraBackrefs, HtmlRenderer.append]
  | cons i is ih =>
    unfold putExtraBackrefs
    rw [ih]
    conv_rhs => rw [ih]
    simp only [HtmlRenderer.puts, HtmlRenderer.putNumber, HtmlRenderer.escapeHref, HtmlRenderer.putContent,
      HtmlRenderer.put_eq, HtmlRenderer.append_append, HtmlRenderer.html_append]
    simp

/-- The links are written unless they have been. -/
theorem putFootnoteBackref_eq : putFootnoteBackref d r =
    if r.writtenFootnoteIx ≥ r.footnoteIx then (r, false)
    else ({ r.append (backrefs d r.footnoteIx) with writtenFootnoteIx := r.footnoteIx }, true) := by
  unfold putFootnoteBackref
  split
  next => rfl
  next ahead =>
    have some : ¬ 0 ≥ r.footnoteIx := by omega
    unfold backrefs putFootnoteBackref
    dsimp only
    rw [if_neg some]
    dsimp only
    rw [putExtraBackrefs_append]
    conv_rhs => rw [putExtraBackrefs_append]
    simp only [HtmlRenderer.puts, HtmlRenderer.putNumber, HtmlRenderer.escapeHref, HtmlRenderer.putContent,
      HtmlRenderer.put_eq, HtmlRenderer.append_append, HtmlRenderer.html_append]
    simp [HtmlRenderer.append]

theorem renderHtmlNode_paragraph {H : HtmlConfig} {v : Visit} (plain : r.plain = none)
    (type : v.node.data.type = .paragraph) :
    renderHtmlNode H r v = CmarkGfm.renderParagraph H.options v r := by
  unfold renderHtmlNode
  extract_lets kept data
  have same : kept = r := if_neg (by simp [plain])
  rw [same, if_neg (by simp [plain]), show data.type = .paragraph from type]

theorem renderHtmlNode_definition {H : HtmlConfig} {v : Visit} (plain : r.plain = none)
    (type : v.node.data.type = .footnoteDefinition) :
    renderHtmlNode H r v = .ok (renderFootnoteDefinition v.node.data v.entering r) := by
  unfold renderHtmlNode
  extract_lets kept data
  have same : kept = r := if_neg (by simp [plain])
  rw [same, if_neg (by simp [plain]), show data.type = .footnoteDefinition from type]

/-- The end of the last paragraph writes them, where the list around it is not tight. -/
theorem renderHtmlNode_endsNote {H : HtmlConfig} {v : Visit} (plain : r.plain = none) (ends : EndsNote v)
    (parent : v.place.parent = some d) (loose : v.place.isTight = false) :
    renderHtmlNode H r v = .ok ((putFootnoteBackref d (r.puts " ")).1.puts "</p>\n") := by
  obtain ⟨leaving, type, ⟨e, parent', note⟩, last⟩ := ends
  obtain rfl := Option.some.inj (parent.symm.trans parent')
  have type : v.node.data.type = .paragraph := type
  rw [renderHtmlNode_paragraph plain type]
  unfold renderParagraph
  dsimp only
  change (if v.place.isTight then _ else _) = _
  rw [loose, if_neg (by decide), leaving, if_neg (by decide), parent]
  dsimp only
  rw [if_pos (by simp [note, last])]

end

/-- What is written for a definition: the links back to its references once, before the end of the
item. -/
inductive NoteItem (d : NodeData) (ix : Nat) : List Piece → Prop
  | intro {inside behind : List Piece} : (∀ p ∈ inside, p ∉ backrefStarts) →
      (∀ p ∈ behind, p ∉ backrefStarts) →
      NoteItem d ix ([.markup (lit "<li id=\"fn-"), .content (escapeHref d.as.getLiteral),
        .markup (lit "\">\n")] ++ inside ++ backrefs d ix ++ behind ++ [.markup (lit "</li>\n")])

section

variable {H : HtmlConfig} {func : HtmlRenderFunc} (own : RendersOwn func) {r r' : HtmlRenderer}
  {i : NodeId} {d : NodeData} {cs : Forest} {place : Place}

include own

/-- The children of a definition write its links at most once, and then at the end of the last one. -/
theorem noteChildren (loose : ∀ e, place.parent = some e → e.type ≠ .list) {before : Forest} (f : Forest)
    (top : exitsList .footnoteDefinition f = []) (plain : r.plain = none)
    (pending : r.writtenFootnoteIx < r.footnoteIx)
    (rendered : (visitsFrom place d before f).foldlM (renderHtmlNodeWith H func) r = .ok r') :
    NoMarks backrefStarts r r' ∨ ∃ inside behind,
      r'.html = r.html ++ inside ++ backrefs d r.footnoteIx ++ behind ∧
      (∀ p ∈ inside, p ∉ backrefStarts) ∧ (∀ p ∈ behind, p ∉ backrefStarts) ∧
      r'.footnoteIx = r.footnoteIx ∧ r'.writtenFootnoteIx = r.footnoteIx := by
  induction f generalizing before r with
  | nil =>
    unfold visitsFrom at rendered
    obtain rfl := Except.ok.inj rendered
    exact .inl (.refl backrefStarts_subset r)
  | cons n ns ih =>
    rw [exitsList, List.append_eq_nil_iff] at top
    unfold visitsFrom at rendered
    obtain ⟨r₁, first, rest⟩ := foldlM_append_ok rendered
    have plain₁ := plain_visits own n plain first
    by_cases last : func n.data = none ∧ EndsNote ⟨false, n, place.below d before ns⟩
    · obtain ⟨core, ends⟩ := last
      have none : ns = [] := ends.2.2.2
      rw [none] at rest first ends
      obtain rfl := Except.ok.inj rest
      obtain ⟨j, e, es⟩ := n
      have paragraph : e.type = .paragraph := ends.2.1
      have other : e.type ≠ .footnoteDefinition := by
        rw [paragraph]
        decide
      obtain ⟨r₂, r₃, enters, below, leaves⟩ := foldlM_visits_ok (by rw [paragraph]; rfl) first
      have noImage : ∀ entering, (Visit.mk entering (.mk j e es) (place.below d before [])).node.type = .image →
          entering = true → (func e).isSome := by
        intro entering image
        rw [show e.type = .image from image] at paragraph
        cases paragraph
      have plain₂ := plain_renderHtmlNodeWith own plain (noImage true) enters
      have plain₃ := plain_visitsFrom own es plain₂ below
      have opened : NoMarks backrefStarts r r₂ := by
        apply NoMarks.renderHtmlNodeWith own backrefStarts_subset _ enters
        intro _
        apply unmarked_backrefStarts (v := ⟨true, .mk j e es, place.below d before []⟩) other
        rintro ⟨entering, _⟩
        cases entering
      have inner : NoMarks backrefStarts r₂ r₃ := by
        apply NoMarks.foldlM own backrefStarts_subset _ _ below
        rw [Node.exits, List.append_eq_nil_iff] at top
        intro v member _
        obtain ⟨type, noEnd⟩ := endsNote_visitsFrom other es top.1.1 v member
        exact unmarked_backrefStarts type noEnd
      have inside := (opened.trans inner).puts " " (by decide)
      have tight : (place.below d before []).isTight = false := by
        unfold Place.isTight
        split
        next g grandparent => simp [loose g grandparent]
        next => rfl
      rw [renderHtmlNodeWith_eq plain₃] at leaves
      dsimp only [Node.data_mk] at leaves
      rw [show func e = _ from core] at leaves
      dsimp only at leaves
      rw [renderHtmlNode_endsNote (d := d) plain₃ ends rfl tight] at leaves
      obtain rfl := Except.ok.inj leaves
      obtain ⟨out, eq, noStart⟩ := inside.output
      refine .inr ⟨out, [.markup (lit "</p>\n")], ?_, noStart, by decide +kernel, ?_, ?_⟩
      all_goals
        rw [putFootnoteBackref_eq, if_neg (by rw [inside.footnoteIx, inside.writtenFootnoteIx]; omega)]
      · show ((r₃.puts " ").html ++ backrefs d (r₃.puts " ").footnoteIx) ++ _ = _
        rw [eq, inside.footnoteIx]
      · exact inside.footnoteIx
      · exact inside.footnoteIx
    · have writes : NoMarks backrefStarts r r₁ := by
        apply NoMarks.foldlM own backrefStarts_subset _ _ first
        intro v member core
        obtain ⟨type, same⟩ := endsNote_visits n top.1 v member
        apply unmarked_backrefStarts type
        intro ends
        apply last
        have eq := same ends
        rw [eq] at core ends
        exact ⟨core, ends⟩
      obtain ⟨out, eq, noStart⟩ := writes.output
      rcases ih top.2 plain₁ (by rw [writes.footnoteIx, writes.writtenFootnoteIx]; exact pending) rest with
        later | ⟨inside, behind, eq', noStart', noStart'', footnoteIx, written⟩
      · exact .inl (writes.trans later)
      · rw [writes.footnoteIx] at eq' footnoteIx written
        refine .inr ⟨out ++ inside, behind, ?_, List.forall_mem_append.mpr ⟨noStart, noStart'⟩, noStart'',
          footnoteIx, written⟩
        rw [eq', eq, List.append_assoc r.html]

/-- The header of the section, in front of the first definition. -/
def sectionStart (ix : Nat) : List Piece :=
  if ix = 0 then [.markup (lit "<section class=\"footnotes\" data-footnotes>\n<ol>\n")] else []

/-- A definition writes its links once. -/
theorem noteItem (note : d.type = .footnoteDefinition) (loose : ∀ e, place.parent = some e → e.type ≠ .list)
    (top : exitsList .footnoteDefinition cs = []) (plain : r.plain = none)
    (done : r.writtenFootnoteIx = r.footnoteIx)
    (rendered : ((Node.mk i d cs).visits place).foldlM (renderHtmlNodeWith H func) r = .ok r') :
    ∃ out, NoteItem d (r.footnoteIx + 1) out ∧ r'.html = r.html ++ sectionStart r.footnoteIx ++ out ∧
      r'.footnoteIx = r.footnoteIx + 1 ∧ r'.writtenFootnoteIx = r.footnoteIx + 1 ∧ r'.plain = none := by
  have plain' := plain_visits own _ plain rendered
  obtain ⟨r₁, r₂, enters, below, leaves⟩ := foldlM_visits_ok (by rw [note]; rfl) rendered
  have core : func d = none := by
    cases found : func d with
    | none => rfl
    | some f => exact absurd note (own d f found).1
  have step {r : HtmlRenderer} (plain : r.plain = none) (entering : Bool) :
      renderHtmlNodeWith H func r ⟨entering, .mk i d cs, place⟩ =
        .ok (renderFootnoteDefinition d entering r) := by
    rw [renderHtmlNodeWith_eq plain]
    dsimp only [Node.data_mk]
    rw [core]
    exact renderHtmlNode_definition plain note
  rw [step plain true] at enters
  have plain₁ : r₁.plain = none := by
    rw [← Except.ok.inj enters, plain_renderFootnoteDefinition, plain]
  have plain₂ := plain_visitsFrom own cs plain₁ below
  rw [step plain₂ false] at leaves
  have start : r₁ = { r.append (sectionStart r.footnoteIx ++ [.markup (lit "<li id=\"fn-"),
      .content (escapeHref d.as.getLiteral), .markup (lit "\">\n")]) with
        footnoteIx := r.footnoteIx + 1 } := by
    rw [← Except.ok.inj enters]
    unfold renderFootnoteDefinition sectionStart
    rw [if_pos rfl]
    split
    next => simp [HtmlRenderer.puts, HtmlRenderer.escapeHref, HtmlRenderer.putContent, HtmlRenderer.put,
      HtmlRenderer.append]
    next => simp [HtmlRenderer.puts, HtmlRenderer.escapeHref, HtmlRenderer.putContent, HtmlRenderer.put,
      HtmlRenderer.append]
  have pending : r₁.writtenFootnoteIx < r₁.footnoteIx := by
    rw [start]
    show r.writtenFootnoteIx < r.footnoteIx + 1
    omega
  have footnoteIx₁ : r₁.footnoteIx = r.footnoteIx + 1 := by rw [start]
  have html₁ : r₁.html = r.html ++ (sectionStart r.footnoteIx ++ [.markup (lit "<li id=\"fn-"),
      .content (escapeHref d.as.getLiteral), .markup (lit "\">\n")]) := by
    rw [start]
    rfl
  have ends := (Except.ok.inj leaves).symm
  unfold renderFootnoteDefinition at ends
  rw [if_neg Bool.false_ne_true, putFootnoteBackref_eq] at ends
  rcases noteChildren own loose cs top plain₁ pending below with
    writes | ⟨inside, behind, html₂, noStart, noStart', footnoteIx₂, written₂⟩
  · -- the end of the definition writes the links
    obtain ⟨out, html₂, noStart⟩ := writes.output
    have footnoteIx₂ := writes.footnoteIx.trans footnoteIx₁
    rw [if_neg (by rw [writes.footnoteIx, writes.writtenFootnoteIx]; omega), footnoteIx₂] at ends
    have newline : ∀ p ∈ [Piece.markup (lit "\n")], p ∉ backrefStarts := by decide +kernel
    refine ⟨_, .intro noStart newline, ?_, ?_, ?_, plain'⟩
    · rw [ends]
      show ((r₂.html ++ backrefs d (r.footnoteIx + 1)) ++ [_]) ++ [_] = _
      rw [html₂, html₁]
      simp only [List.append_assoc]
    · rw [ends]
      exact footnoteIx₂
    · rw [ends]
      rfl
  · rw [if_pos (by rw [footnoteIx₂, written₂])] at ends
    refine ⟨_, .intro noStart noStart', ?_, ?_, ?_, plain'⟩
    · rw [ends]
      show r₂.html ++ [_] = _
      rw [html₂, html₁, footnoteIx₁]
      simp only [List.append_assoc]
    · rw [ends]
      exact footnoteIx₂.trans footnoteIx₁
    · rw [ends]
      exact written₂.trans footnoteIx₁

/-! ### The whole document -/

/-- What is written for the children of the document: every definition its item, the other blocks no
links back. -/
inductive NotesWritten : Nat → Forest → List Piece → Prop
  | nil (ix : Nat) : NotesWritten ix [] []
  | note {ix : Nat} {n : Node} {ns : Forest} {item out : List Piece} : n.type = .footnoteDefinition →
      NoteItem n.data (ix + 1) item → NotesWritten (ix + 1) ns out →
      NotesWritten ix (n :: ns) (sectionStart ix ++ item ++ out)
  | block {ix : Nat} {n : Node} {ns : Forest} {other out : List Piece} : n.type ≠ .footnoteDefinition →
      (∀ p ∈ other, p ∉ backrefStarts) → NotesWritten ix ns out →
      NotesWritten ix (n :: ns) (other ++ out)

/-- Definitions are at the top of the document only. -/
def NotesOnTop (root : Node) : Prop :=
  root.type = .document ∧ ∀ c ∈ root.children, exitsList .footnoteDefinition c.children = []

theorem notesWritten (document : d.type = .document) {before : Forest} (f : Forest)
    (top : ∀ c ∈ f, exitsList .footnoteDefinition c.children = []) (plain : r.plain = none)
    (done : r.writtenFootnoteIx = r.footnoteIx)
    (rendered : (visitsFrom place d before f).foldlM (renderHtmlNodeWith H func) r = .ok r') :
    ∃ out, NotesWritten r.footnoteIx f out ∧ r'.html = r.html ++ out := by
  induction f generalizing before r with
  | nil =>
    unfold visitsFrom at rendered
    obtain rfl := Except.ok.inj rendered
    exact ⟨[], .nil _, (List.append_nil _).symm⟩
  | cons n ns ih =>
    unfold visitsFrom at rendered
    obtain ⟨r₁, first, rest⟩ := foldlM_append_ok rendered
    rw [List.forall_mem_cons] at top
    have plain₁ := plain_visits own n plain first
    by_cases note : n.type = .footnoteDefinition
    · obtain ⟨i, e, cs⟩ := n
      have loose : ∀ g, (place.below d before ns).parent = some g → g.type ≠ .list := by
        intro g parent
        rw [← Option.some.inj parent, document]
        decide
      obtain ⟨item, isItem, html₁, footnoteIx₁, written₁, _⟩ := noteItem own note loose top.1 plain done first
      obtain ⟨out, written, html'⟩ := ih top.2 plain₁ (written₁.trans footnoteIx₁.symm) rest
      rw [footnoteIx₁] at written
      refine ⟨_, .note note isItem written, ?_⟩
      rw [html', html₁]
      simp only [List.append_assoc]
    · have none : n.exits .footnoteDefinition = [] := by
        rw [Node.exits_eq, top.1, if_neg note]
        rfl
      have writes : NoMarks backrefStarts r r₁ := by
        apply NoMarks.foldlM own backrefStarts_subset _ _ first
        intro v member _
        obtain ⟨type, same⟩ := endsNote_visits n none v member
        apply unmarked_backrefStarts type
        intro ends
        have eq := same ends
        obtain ⟨_, _, ⟨g, parent, isNote⟩, _⟩ := ends
        rw [eq] at parent
        rw [← Option.some.inj parent, document] at isNote
        cases isNote
      obtain ⟨other, html₁, noStart⟩ := writes.output
      obtain ⟨out, written, html'⟩ :=
        ih top.2 plain₁ (by rw [writes.footnoteIx, writes.writtenFootnoteIx, done]) rest
      rw [writes.footnoteIx] at written
      refine ⟨_, .block note noStart written, ?_⟩
      rw [html', html₁, List.append_assoc]

/-- Every definition of a document gets its links back once, in front of the end of its item. -/
theorem renderHtmlWith_notes {root : Node} (top : NotesOnTop root)
    (rendered : renderHtmlWith H func place root = .ok r) :
    ∃ front out back, r.html = front ++ out ++ back ∧ NotesWritten 0 root.children out ∧
      (∀ p ∈ front, p ∉ backrefStarts) ∧ (∀ p ∈ back, p ∉ backrefStarts) := by
  obtain ⟨i, d, cs⟩ := root
  have document : d.type = .document := top.1
  unfold renderHtmlWith at rendered
  cases whole : ((Node.mk i d cs).visits { place with path := [] }).foldlM (renderHtmlNodeWith H func) {} with
  | error e =>
    rw [whole] at rendered
    cases rendered
  | ok r' =>
    rw [whole] at rendered
    obtain ⟨r₁, r₂, enters, below, leaves⟩ := foldlM_visits_ok (by rw [document]; rfl) whole
    have noEnd (entering : Bool) : ¬ EndsNote ⟨entering, .mk i d cs, { place with path := [] }⟩ := by
      rintro ⟨_, paragraph, _⟩
      rw [show d.type = .paragraph from paragraph] at document
      cases document
    have noNote (entering : Bool) :
        (Visit.mk entering (.mk i d cs) { place with path := [] }).node.type ≠ .footnoteDefinition := by
      show d.type ≠ _
      rw [document]
      decide
    have noImage (entering : Bool) :
        (Visit.mk entering (.mk i d cs) { place with path := [] }).node.type = .image →
          entering = true → (func d).isSome := by
      intro image
      rw [show d.type = .image from image] at document
      cases document
    have plain₁ := plain_renderHtmlNodeWith own rfl (noImage true) enters
    have opened := NoMarks.renderHtmlNodeWith own backrefStarts_subset
      (fun _ => unmarked_backrefStarts (noNote true) (noEnd true)) enters
    have closed := NoMarks.renderHtmlNodeWith own backrefStarts_subset
      (fun _ => unmarked_backrefStarts (noNote false) (noEnd false)) leaves
    obtain ⟨front, html₁, noStart⟩ := opened.output
    obtain ⟨out, written, html₂⟩ :=
      notesWritten own document cs top.2 plain₁ (opened.writtenFootnoteIx.trans opened.footnoteIx.symm) below
    obtain ⟨back, html', noStart'⟩ := closed.output
    rw [opened.footnoteIx] at written
    have ends : (if r'.footnoteIx = 0 then r' else r'.puts "</ol>\n</section>\n") = r :=
      Except.ok.inj rendered
    rw [← ends]
    have before : r'.html = front ++ out ++ back := by
      rw [html', html₂, html₁]
      rfl
    split
    next => exact ⟨front, out, back, before, written, noStart, noStart'⟩
    next =>
      refine ⟨front, out, back ++ [.markup (lit "</ol>\n</section>\n")], ?_, written, noStart, ?_⟩
      · show r'.html ++ [_] = _
        rw [before, List.append_assoc]
      · exact List.forall_mem_append.mpr ⟨noStart', by decide +kernel⟩

end

/-! ### The documents of the parser -/

mutual

/-- Below the children of the document there are no definitions. -/
theorem exits_eq_nil {P : Config} : (n : Node) → n.All (RenderedNode P) → n.type ≠ .document →
    exitsList .footnoteDefinition n.children = []
  | .mk _ _ cs, all, notDocument =>
    exitsList_eq_nil cs all.below fun c member =>
      ⟨fun note => notDocument (all.here.top c member note), type_ne_document (all.here.child c member)⟩

theorem exitsList_eq_nil {P : Config} : (f : Forest) → AllList (RenderedNode P) f →
    (∀ c ∈ f, c.type ≠ .footnoteDefinition ∧ c.type ≠ .document) → exitsList .footnoteDefinition f = []
  | [], _, _ => rfl
  | n :: ns, all, others => by
    rw [List.forall_mem_cons] at others
    rw [exitsList, Node.exits_eq, exits_eq_nil n all.1 others.1.2, if_neg others.1.1,
      exitsList_eq_nil ns all.2 others.2]
    rfl

end

theorem notesOnTop_documentOf {P : Config} (core : P.syntaxExtensions = [])
    {callback : Option (UInt8 → Bool)} {chunks : List Bytes}
    (labels : ∀ d ∈ (parsedDocument P callback chunks).2.exits .footnoteDefinition,
      (normalizeMapLabel P.tables d.literal).isSome) :
    NotesOnTop (documentOf P callback chunks) := by
  have all := renderedNode_of_labels core callback chunks labels
  refine ⟨(coreNode_documentOf core callback chunks).2, fun c member => ?_⟩
  exact exits_eq_nil c (allList_iff.mp all.below c member) (type_ne_document (all.here.child c member))

/-- The definitions are the children of the document that are definitions. -/
theorem NotesOnTop.exits {root : Node} (top : NotesOnTop root) :
    root.exits .footnoteDefinition = root.children.filter (·.type = .footnoteDefinition) := by
  have children (f : Forest) (top : ∀ c ∈ f, exitsList .footnoteDefinition c.children = []) :
      exitsList .footnoteDefinition f = f.filter (·.type = .footnoteDefinition) := by
    induction f with
    | nil => rfl
    | cons n ns ih =>
      rw [List.forall_mem_cons] at top
      rw [exitsList, Node.exits_eq, top.1, ih top.2, List.filter_cons]
      by_cases note : n.type = .footnoteDefinition <;> simp [note]
  rw [Node.exits_eq, children _ top.2, if_neg (by rw [top.1]; decide), List.append_nil]

/-- In every document whose definitions have labels, a definition is written with one group of links
back to its references, before the end of its item and with no other definition around it. Extensions,
if there are any, keep definitions at the top of the document and write no such links. -/
theorem documentOf_notesWritten {P : Config} {callback : Option (UInt8 → Bool)} {chunks : List Bytes}
    (labels : ∀ d ∈ (parsedDocument P callback chunks).2.exits .footnoteDefinition,
      (normalizeMapLabel P.tables d.literal).isSome)
    (extensions : P.syntaxExtensions ≠ [] → NotesOnTop (documentOf P callback chunks))
    {H : HtmlConfig} {func : HtmlRenderFunc} (own : RendersOwn func) {place : Place} {r : HtmlRenderer}
    (rendered : renderHtmlWith H func place (documentOf P callback chunks) = .ok r) :
    (documentOf P callback chunks).exits .footnoteDefinition =
        (documentOf P callback chunks).children.filter (·.type = .footnoteDefinition) ∧
      ∃ front out back, r.html = front ++ out ++ back ∧
        NotesWritten 0 (documentOf P callback chunks).children out ∧
        (∀ p ∈ front, p ∉ backrefStarts) ∧ (∀ p ∈ back, p ∉ backrefStarts) := by
  have top : NotesOnTop (documentOf P callback chunks) := by
    by_cases core : P.syntaxExtensions = []
    · exact notesOnTop_documentOf core labels
    · exact extensions core
  exact ⟨top.exits, renderHtmlWith_notes own top rendered⟩

/-- The definition of the document and its one reference. -/
theorem documentOf_notesWritten_reference :
    let H : HtmlConfig := { options := optFootnotes, literalAt := fun _ => some (lit "a") }
    let root := documentOf footnotesConfig none [referenceDocument]
    ∃ r, renderHtmlWith H (fun _ => none) {} root = .ok r ∧
      root.exits .footnoteDefinition = root.children.filter (·.type = .footnoteDefinition) ∧
        ∃ front out back, r.html = front ++ out ++ back ∧ NotesWritten 0 root.children out ∧
          (∀ p ∈ front, p ∉ backrefStarts) ∧ (∀ p ∈ back, p ∉ backrefStarts) := by
  intro H root
  have isOk : (renderHtmlWith H (fun _ => none) {} root).toOption.isSome = true := by decide +kernel
  cases rendered : renderHtmlWith H (fun _ => none) {} root with
  | error e =>
    rw [rendered] at isOk
    cases isOk
  | ok r =>
    refine ⟨r, rfl, ?_⟩
    exact documentOf_notesWritten (P := footnotesConfig) (by decide +kernel) (fun some => absurd rfl some)
      (by intro d f none; cases none) rendered

end CmarkGfm
