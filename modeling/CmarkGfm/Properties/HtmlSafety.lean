import CmarkGfm.Properties.HtmlNesting

/-!
# Dangerous URLs

A link or an image with a dangerous URL is written as if it had none. Writing looks at the bytes
written so far and not at how they are made up, so this can be said of the whole output.
-/

namespace CmarkGfm

/-- Is this a link or an image with a URL like `javascript:`? -/
def NodeData.isDangerous (d : NodeData) : Bool :=
  (d.type = .link || d.type = .image) && Scanners.scanAt Scanners.dangerousUrl d.as.getUrl 0 != 0

/-- The node with an empty URL if its URL is dangerous. -/
def NodeData.withoutDanger (d : NodeData) : NodeData :=
  if d.isDangerous then { d with as := .link [] d.as.getTitle } else d

/-- The tree in which the dangerous URLs are empty. -/
def Node.withoutDanger (n : Node) : Node := n.mapData fun _ d => d.withoutDanger

/-- Two renderers that have written the same bytes. -/
structure SameOutput (r r' : HtmlRenderer) : Prop where
  bytes : r'.bytes = r.bytes
  plain : r'.plain = r.plain
  footnoteIx : r'.footnoteIx = r.footnoteIx
  writtenFootnoteIx : r'.writtenFootnoteIx = r.writtenFootnoteIx

section

variable {r r' : HtmlRenderer} {options : Options}

namespace SameOutput

theorem refl (r : HtmlRenderer) : SameOutput r r := ⟨rfl, rfl, rfl, rfl⟩

theorem put (same : SameOutput r r') (piece : Piece) : SameOutput (r.put piece) (r'.put piece) := by
  refine ⟨?_, same.plain, same.footnoteIx, same.writtenFootnoteIx⟩
  rw [HtmlRenderer.bytes_put, HtmlRenderer.bytes_put, same.bytes]

theorem puts (same : SameOutput r r') (t : String) : SameOutput (r.puts t) (r'.puts t) := same.put _

theorem putNumber (same : SameOutput r r') (n : Nat) : SameOutput (r.putNumber n) (r'.putNumber n) :=
  same.put _

theorem putContent (same : SameOutput r r') (b : Bytes) :
    SameOutput (r.putContent b) (r'.putContent b) := same.put _

theorem escapeHtml (same : SameOutput r r') (b : Bytes) :
    SameOutput (r.escapeHtml b) (r'.escapeHtml b) := same.put _

theorem escapeHref (same : SameOutput r r') (b : Bytes) :
    SameOutput (r.escapeHref b) (r'.escapeHref b) := same.put _

theorem cr (same : SameOutput r r') : SameOutput r.cr r'.cr := by
  unfold HtmlRenderer.cr
  rw [same.bytes]
  split
  next => exact same
  next =>
    split
    next => exact same
    next => exact same.puts _

/-- The source position depends on the lines and columns only. -/
theorem sourcepos (same : SameOutput r r') (d e : NodeData) (range : sourceRange e = sourceRange d) :
    SameOutput (r.sourcepos options d) (r'.sourcepos options e) := by
  unfold HtmlRenderer.sourcepos
  rw [range]
  split
  next => exact ((same.puts _).put _).puts _
  next => exact same

theorem openTag (same : SameOutput r r') (d e : NodeData) (range : sourceRange e = sourceRange d)
    (tag close : String) :
    SameOutput (r.openTag options d tag close) (r'.openTag options e tag close) :=
  ((same.puts _).sourcepos d e range).puts _

theorem putExtraBackrefs (same : SameOutput r r') (literal : Bytes) (ix : Nat) (is : List Nat) :
    SameOutput (putExtraBackrefs literal ix is r) (putExtraBackrefs literal ix is r') := by
  induction is generalizing r r' with
  | nil => exact same
  | cons i is ih =>
    refine ih ?_
    repeat refine SameOutput.put ?_ _
    exact same

theorem putFootnoteBackref (same : SameOutput r r') (d : NodeData) :
    SameOutput (putFootnoteBackref d r).1 (putFootnoteBackref d r').1 ∧
      (CmarkGfm.putFootnoteBackref d r').2 = (CmarkGfm.putFootnoteBackref d r).2 := by
  unfold CmarkGfm.putFootnoteBackref
  rw [same.footnoteIx, same.writtenFootnoteIx]
  split
  next => exact ⟨same, rfl⟩
  next =>
    refine ⟨putExtraBackrefs ?_ _ _ _, rfl⟩
    repeat refine SameOutput.put ?_ _
    exact ⟨same.bytes, same.plain, rfl, rfl⟩

theorem renderPlain (same : SameOutput r r') (d : NodeData) :
    SameOutput (renderPlain d r) (renderPlain d r') := by
  unfold CmarkGfm.renderPlain
  split
  all_goals first | exact same.escapeHtml _ | exact same.puts _ | exact same

theorem renderListTag (same : SameOutput r r') (d : NodeData) (entering : Bool) :
    SameOutput (renderListTag options d entering r) (renderListTag options d entering r') := by
  unfold CmarkGfm.renderListTag
  extract_lets list
  split
  next =>
    split
    next => exact same.cr.openTag d d rfl _ _
    next =>
      split
      next => exact same.cr.openTag d d rfl _ _
      next => exact ((((same.cr.puts _).putNumber _).puts _).sourcepos d d rfl).puts _
  next => exact same.puts _

theorem renderHeading (same : SameOutput r r') (d : NodeData) (entering : Bool) :
    SameOutput (renderHeading options d entering r) (renderHeading options d entering r') := by
  unfold CmarkGfm.renderHeading
  split
  next => exact (((same.cr.puts _).put _).sourcepos d d rfl).puts _
  next => exact ((same.puts _).put _).puts _

theorem renderMeta (same : SameOutput r r') (info lang : Bytes) :
    SameOutput (renderMeta options info lang r) (renderMeta options info lang r') := by
  unfold CmarkGfm.renderMeta
  split
  next => exact (same.puts _).escapeHtml _
  next => exact same

theorem renderCodeBlock (same : SameOutput r r') (d : NodeData) :
    SameOutput (renderCodeBlock options d r) (renderCodeBlock options d r') := by
  unfold CmarkGfm.renderCodeBlock
  extract_lets code start lang inCode start' inCode'
  have opened : SameOutput inCode inCode' := by
    unfold inCode inCode'
    split
    next => exact same.cr.openTag d d rfl _ _
    next =>
      split
      next => exact (((same.cr.openTag d d rfl _ _).escapeHtml _).renderMeta _ _).puts _
      next => exact (((same.cr.openTag d d rfl _ _).escapeHtml _).renderMeta _ _).puts _
  exact (opened.escapeHtml _).puts _

theorem renderRawHtml (same : SameOutput r r') (H : HtmlConfig) (filter : Bytes → Bytes)
    (literal : Bytes) :
    SameOutput (renderRawHtml H filter literal r) (renderRawHtml H filter literal r') := by
  unfold CmarkGfm.renderRawHtml
  split
  next => exact same.puts _
  next => exact same.putContent _

theorem renderTitle (same : SameOutput r r') (title : Bytes) :
    SameOutput (renderTitle title r) (renderTitle title r') := by
  unfold CmarkGfm.renderTitle
  split
  next => exact same
  next => exact (same.puts _).escapeHtml _

theorem renderUrl (same : SameOutput r r') (url : Bytes) :
    SameOutput (renderUrl options url r) (renderUrl options url r') := by
  unfold CmarkGfm.renderUrl
  split
  next => exact same.escapeHref _
  next => exact same

/-- A dangerous URL is written like an empty one. -/
theorem renderUrl_dangerous (safe : options.has optUnsafe = false) {url : Bytes}
    (dangerous : Scanners.scanAt Scanners.dangerousUrl url 0 ≠ 0) (same : SameOutput r r') :
    SameOutput (CmarkGfm.renderUrl options url r) (CmarkGfm.renderUrl options [] r') := by
  have skipped : CmarkGfm.renderUrl options url r = r := by
    unfold CmarkGfm.renderUrl
    rw [if_neg (by simp [safe, dangerous])]
  have empty : SameOutput r' (CmarkGfm.renderUrl options [] r') := by
    unfold CmarkGfm.renderUrl
    split
    next => exact ⟨by simp [HtmlRenderer.escapeHref, HtmlRenderer.putContent, CmarkGfm.escapeHref,
        Piece.bytes], rfl, rfl, rfl⟩
    next => exact .refl r'
  rw [skipped]
  exact ⟨empty.bytes.trans same.bytes, empty.plain.trans same.plain,
    empty.footnoteIx.trans same.footnoteIx, empty.writtenFootnoteIx.trans same.writtenFootnoteIx⟩

theorem renderFootnoteDefinition (same : SameOutput r r') (d : NodeData) (entering : Bool) :
    SameOutput (renderFootnoteDefinition d entering r) (renderFootnoteDefinition d entering r') := by
  unfold CmarkGfm.renderFootnoteDefinition
  split
  next =>
    extract_lets opened opened'
    have opens : SameOutput opened opened' := by
      unfold opened opened'
      rw [same.footnoteIx]
      split
      next => exact same.puts _
      next => exact same
    have counted : SameOutput { opened with footnoteIx := opened.footnoteIx + 1 }
        { opened' with footnoteIx := opened'.footnoteIx + 1 } :=
      ⟨opens.bytes, opens.plain, congrArg (· + 1) opens.footnoteIx, opens.writtenFootnoteIx⟩
    exact ((counted.puts _).escapeHref _).puts _
  next =>
    obtain ⟨linked, written⟩ := same.putFootnoteBackref d
    generalize CmarkGfm.putFootnoteBackref d r = out at linked written
    generalize CmarkGfm.putFootnoteBackref d r' = out' at linked written
    obtain ⟨q, isWritten⟩ := out
    obtain ⟨q', isWritten'⟩ := out'
    cases (show isWritten' = isWritten from written)
    cases isWritten with
    | true => exact (linked.puts _).puts _
    | false => exact linked.puts _

end SameOutput

end

/-! ### One event -/

/-- Both fail in the same way, or both write the same. -/
inductive SameRendering : Except RenderError HtmlRenderer → Except RenderError HtmlRenderer → Prop
  | error (e : RenderError) : SameRendering (.error e) (.error e)
  | ok {r r' : HtmlRenderer} : SameOutput r r' → SameRendering (.ok r) (.ok r')

/-- The same event in the tree without dangerous URLs. -/
structure SameVisit (v v' : Visit) : Prop where
  entering : v'.entering = v.entering
  path : v'.place.path = v.place.path
  data : v'.node.data = v.node.data.withoutDanger
  ancestors : v'.place.ancestors = v.place.ancestors.map NodeData.withoutDanger
  last : v'.place.after.isEmpty = v.place.after.isEmpty

theorem type_withoutDanger (d : NodeData) : d.withoutDanger.type = d.type := by
  unfold NodeData.withoutDanger
  split <;> rfl

theorem withoutDanger_of_type {d : NodeData} (link : d.type ≠ .link) (image : d.type ≠ .image) :
    d.withoutDanger = d := by
  rw [NodeData.withoutDanger, if_neg]
  simp [NodeData.isDangerous, link, image]

section

variable {H : HtmlConfig} (safe : H.options.has optUnsafe = false) {r r' : HtmlRenderer} {v v' : Visit}

theorem SameVisit.isTight (same : SameVisit v v') : v'.place.isTight = v.place.isTight := by
  unfold Place.isTight Place.grandparent
  rw [same.ancestors]
  cases v.place.ancestors with
  | nil => rfl
  | cons d ds =>
    cases ds with
    | nil => rfl
    | cons e es =>
      show (e.withoutDanger.type == _ && _) = (e.type == _ && _)
      by_cases list : e.type = .list
      · rw [withoutDanger_of_type (by rw [list]; decide) (by rw [list]; decide)]
      · have notList : (e.type == NodeType.list) = false := beq_eq_false_iff_ne.mpr list
        rw [type_withoutDanger, notList, Bool.false_and, Bool.false_and]

theorem renderParagraph_same (output : SameOutput r r') (same : SameVisit v v')
    (data : v'.node.data = v.node.data) :
    SameRendering (renderParagraph H.options v r) (renderParagraph H.options v' r') := by
  unfold renderParagraph
  change SameRendering (if v.place.isTight then _ else _) (if v'.place.isTight then _ else _)
  rw [same.isTight, same.entering]
  split
  next => exact .ok output
  next =>
    split
    next => exact .ok (output.cr.openTag _ _ (by rw [data]) _ _)
    next =>
      have parents : v'.place.parent = v.place.parent.map NodeData.withoutDanger := by
        unfold Place.parent
        rw [same.ancestors, List.head?_map]
      rw [parents, same.last]
      cases v.place.parent with
      | none => exact .error _
      | some parent =>
        refine .ok (SameOutput.puts ?_ _)
        rw [type_withoutDanger]
        split
        next note =>
          rw [Bool.and_eq_true, beq_iff_eq] at note
          rw [withoutDanger_of_type (by rw [note.1]; decide) (by rw [note.1]; decide)]
          exact ((output.puts _).putFootnoteBackref parent).1
        next => exact output

include safe

/-- An event of a link or an image: the URL is only written if it is not dangerous. -/
theorem renderUrl_same (output : SameOutput r r') (d : NodeData) :
    SameOutput (renderUrl H.options d.as.getUrl r) (renderUrl H.options d.withoutDanger.as.getUrl r') ∧
      d.withoutDanger.as.getTitle = d.as.getTitle := by
  unfold NodeData.withoutDanger
  cases dangerous : d.isDangerous with
  | false => exact ⟨output.renderUrl _, rfl⟩
  | true =>
    have scanned : Scanners.scanAt Scanners.dangerousUrl d.as.getUrl 0 ≠ 0 := by
      simp only [NodeData.isDangerous, Bool.and_eq_true, bne_iff_ne] at dangerous
      exact dangerous.2
    exact ⟨SameOutput.renderUrl_dangerous safe scanned output, rfl⟩

theorem renderHtmlNode_same (output : SameOutput r r') (same : SameVisit v v') :
    SameRendering (renderHtmlNode H r v) (renderHtmlNode H r' v') := by
  unfold renderHtmlNode
  extract_lets kept data kept' data'
  have keeps : SameOutput kept kept' := by
    unfold kept kept'
    rw [output.plain, same.path]
    split
    next => exact ⟨output.bytes, rfl, output.footnoteIx, output.writtenFootnoteIx⟩
    next => exact output
  have mapped : data' = data.withoutDanger := same.data
  clear_value kept kept' data'
  have type : data'.type = data.type := by rw [mapped, type_withoutDanger]
  rw [keeps.plain, type, same.entering]
  split
  next =>
    by_cases link : data.type = .link ∨ data.type = .image
    · have nothing (e : NodeData) (same : e.type = data.type) (q : HtmlRenderer) : renderPlain e q = q := by
        unfold renderPlain
        rw [same]
        rcases link with link | link <;> rw [link]
      rw [nothing data rfl, nothing data' type]
      exact .ok keeps
    · rw [not_or] at link
      rw [mapped, withoutDanger_of_type link.1 link.2]
      exact .ok (keeps.renderPlain data)
  next =>
    have unchanged (link : data.type ≠ .link) (image : data.type ≠ .image) : data' = data := by
      rw [mapped, withoutDanger_of_type link image]
    generalize isType : data.type = t at unchanged
    cases t
    case link =>
      dsimp only
      split
      next =>
        obtain ⟨url, title⟩ := renderUrl_same safe (keeps.puts "<a href=\"") data
        rw [mapped, title]
        exact .ok ((url.renderTitle _).puts _)
      next => exact .ok (keeps.puts _)
    case image =>
      refine .ok ?_
      obtain ⟨url, title⟩ := renderUrl_same safe (keeps.puts "<img src=\"") v.node.data
      unfold renderImage
      rw [same.entering, same.path, same.data, title]
      split
      next =>
        have alt := url.puts "\" alt=\""
        exact ⟨alt.bytes, rfl, alt.footnoteIx, alt.writtenFootnoteIx⟩
      next => exact (keeps.renderTitle _).puts _
    case paragraph =>
      have type : v.node.data.type = .paragraph := isType
      refine renderParagraph_same keeps same (same.data.trans ?_)
      exact withoutDanger_of_type (by rw [type]; decide) (by rw [type]; decide)
    case footnoteReference =>
      rw [unchanged (by decide) (by decide)]
      dsimp only
      split
      next =>
        unfold renderFootnoteReference
        cases data.parentFootnoteDef.bind H.literalAt with
        | none => exact .error _
        | some label =>
          refine .ok (SameOutput.puts (.escapeHref (.puts ?_ _) _) _)
          split
          next => exact .putNumber (.puts (.escapeHref (.puts (.escapeHref (keeps.puts _) _) _) _) _) _
          next => exact .escapeHref (.puts (.escapeHref (keeps.puts _) _) _) _
      next => exact .ok keeps
    case strong =>
      have parent : v'.place.parent.any (·.type == .strong) = v.place.parent.any (·.type == .strong) := by
        unfold Place.parent
        rw [same.ancestors, List.head?_map]
        cases v.place.ancestors.head? with
        | none => rfl
        | some d => exact congrArg (· == NodeType.strong) (type_withoutDanger d)
      dsimp only
      rw [parent]
      refine .ok ?_
      split
      next => exact keeps
      next => exact keeps.puts _
    case none | extensionBlock | extensionInline => exact .error _
    all_goals
      rw [unchanged (by decide) (by decide)]
      refine .ok ?_
    case document | «attribute» => exact keeps
    case blockQuote =>
      split
      next => exact keeps.cr.openTag _ _ rfl _ _
      next => exact keeps.cr.puts _
    case item =>
      split
      next => exact keeps.cr.openTag _ _ rfl _ _
      next => exact keeps.puts _
    case list => exact keeps.renderListTag _ _
    case heading => exact keeps.renderHeading _ _
    case codeBlock => exact keeps.renderCodeBlock _
    case htmlBlock => exact (keeps.cr.renderRawHtml _ _ _).cr
    case customBlock => exact (keeps.cr.putContent _).cr
    case thematicBreak => exact keeps.cr.openTag _ _ rfl _ _
    case text => exact keeps.escapeHtml _
    case linebreak => exact keeps.puts _
    case softbreak =>
      split
      next => exact keeps.puts _
      next => split <;> exact keeps.puts _
    case code => exact ((keeps.puts _).escapeHtml _).puts _
    case htmlInline => exact keeps.renderRawHtml _ _ _
    case customInline => exact keeps.putContent _
    case emph => exact keeps.puts _
    case footnoteDefinition => exact keeps.renderFootnoteDefinition _ _

/-! ### Whole trees -/

theorem foldlM_same {vs vs' : List Visit} (same : List.Forall₂ SameVisit vs vs')
    (output : SameOutput r r') :
    SameRendering (vs.foldlM (renderHtmlNode H) r) (vs'.foldlM (renderHtmlNode H) r') := by
  induction same generalizing r r' with
  | nil => exact .ok output
  | @cons v v' vs vs' here _ ih =>
    rw [List.foldlM_cons, List.foldlM_cons]
    have step := renderHtmlNode_same safe output here
    generalize renderHtmlNode H r v = x at step
    generalize renderHtmlNode H r' v' = x' at step
    cases step with
    | error e => exact .error e
    | ok output => exact ih output

end

/-- Two places with the same path, below the same ancestors but for their URLs. -/
structure SamePlace (place place' : Place) : Prop where
  path : place'.path = place.path
  ancestors : place'.ancestors = place.ancestors.map NodeData.withoutDanger
  last : place'.after.isEmpty = place.after.isEmpty

mutual

theorem visits_same {place place' : Place} (same : SamePlace place place') : (n : Node) →
    List.Forall₂ SameVisit (n.visits place) (n.withoutDanger.visits place')
  | .mk i d cs => by
    have here (entering : Bool) : SameVisit ⟨entering, .mk i d cs, place⟩
        ⟨entering, (Node.mk i d cs).withoutDanger, place'⟩ :=
      ⟨rfl, same.path, rfl, same.ancestors, same.last⟩
    have below := @visitsFrom_same _ _ same d [] [] rfl cs
    rw [Node.withoutDanger, Node.mapData] at here ⊢
    unfold Node.visits
    rw [type_withoutDanger]
    split
    next => exact .cons (here true) .nil
    next => exact .cons (here true) (List.rel_append below (.cons (here false) .nil))

theorem visitsFrom_same {place place' : Place} (same : SamePlace place place') (d : NodeData)
    {before before' : Forest} (index : before'.length = before.length) : (f : Forest) →
    List.Forall₂ SameVisit (visitsFrom place d before f)
      (visitsFrom place' d.withoutDanger before' (mapDataList (fun _ d => d.withoutDanger) f))
  | [] => by
    unfold visitsFrom
    exact .nil
  | n :: ns => by
    rw [mapDataList]
    unfold visitsFrom
    refine List.rel_append (visits_same ⟨?_, ?_, ?_⟩ n) (visitsFrom_same same d ?_ ns)
    · show _ :: _ = _ :: _
      rw [index, same.path]
    · show _ :: _ = List.map _ (_ :: _)
      rw [same.ancestors, List.map_cons]
    · cases ns <;> rfl
    · rw [List.length_cons, List.length_cons, index]

end

/-- Dangerous URLs are written as empty ones. -/
theorem renderHtml_withoutDanger {H : HtmlConfig} (safe : H.options.has optUnsafe = false) (root : Node) :
    (renderHtml H {} root).map HtmlRenderer.bytes =
      (renderHtml H {} root.withoutDanger).map HtmlRenderer.bytes := by
  have visits := @visits_same { ({} : Place) with path := [] } _ ⟨rfl, rfl, rfl⟩ root
  have rendered := foldlM_same safe visits (.refl {})
  have closes {x x' : Except RenderError HtmlRenderer} (same : SameRendering x x') :
      ((fun r : HtmlRenderer => if r.footnoteIx = 0 then r else r.puts "</ol>\n</section>\n") <$> x).map
          HtmlRenderer.bytes =
        ((fun r : HtmlRenderer => if r.footnoteIx = 0 then r else r.puts "</ol>\n</section>\n") <$> x').map
          HtmlRenderer.bytes := by
    cases same with
    | error e => rfl
    | @ok r r' output =>
      show Except.ok _ = Except.ok _
      dsimp only
      rw [output.footnoteIx]
      split
      next => rw [output.bytes]
      next => rw [(output.puts _).bytes]
  exact closes rendered

/-! ### Documents -/

mutual

theorem find?_isSome {i : NodeId} : (n : Node) → (∃ m ∈ n.postorder, m.id = i) → (n.find? i).isSome
  | .mk j d cs, ⟨m, member, same⟩ => by
    rw [Node.find?]
    split
    next => rfl
    next other =>
      rw [Node.postorder, List.mem_append, List.mem_singleton] at member
      rcases member with below | rfl
      · exact findNode?_isSome cs ⟨m, below, same⟩
      · exact absurd (beq_iff_eq.mpr same) other

theorem findNode?_isSome {i : NodeId} : (f : Forest) → (∃ m ∈ postorderList f, m.id = i) →
    (findNode? i f).isSome
  | [], ⟨_, member, _⟩ => by cases member
  | n :: ns, ⟨m, member, same⟩ => by
    rw [findNode?, Option.isSome_or, Bool.or_eq_true]
    rw [postorderList, List.mem_append] at member
    rcases member with first | rest
    · exact .inl (find?_isSome n ⟨m, first, same⟩)
    · exact .inr (findNode?_isSome ns ⟨m, rest, same⟩)

end

/-- What a footnote reference of a tree reads of its definition. -/
def literalIn (root : Node) (i : NodeId) : Option Bytes := (root.find? i).map Node.literal

/-- The HTML of every document of the core parser is nested, nothing in the document can be taken for
markup, and dangerous URLs are written as empty ones. -/
theorem renderHtml_documentOf {P : Config} (core : P.syntaxExtensions = [])
    (folds : FoldsToVisible P.tables) (callback : Option (UInt8 → Bool)) (chunks : List Bytes)
    (options : Options) (safe : options.has optUnsafe = false) :
    let root := documentOf P callback chunks
    let H : HtmlConfig := { options := options, literalAt := literalIn root }
    ∃ r, renderHtml H {} root = .ok r ∧ Markup.Nested r.bytes ∧
      (∀ b, Piece.content b ∈ r.html → Plain b) ∧
      (renderHtml H {} root.withoutDanger).map HtmlRenderer.bytes = .ok r.bytes := by
  intro root H
  have tree := renderedTree_documentOf core folds callback chunks
  have all : root.All (Renderable P H) := by
    refine all_of_postorder root fun m inTree => ⟨(Node.All.of_mem _ tree.nodes inTree).here, ?_⟩
    refine RefersTo.imp (fun f left => ?_) (Node.All.of_mem _ tree.refers inTree).here
    obtain ⟨n, definition, same⟩ := List.mem_map.mp left
    rw [exits_eq_filter] at definition
    have found := find?_isSome root ⟨n, (List.mem_filter.mp definition).1, same⟩
    show ((root.find? f).map Node.literal).isSome
    rwa [Option.isSome_map]
  obtain ⟨r, rendered, nested, escaped⟩ := renderHtml_written (H := H) safe all tree.document {}
  refine ⟨r, rendered, nested, escaped, ?_⟩
  rw [← renderHtml_withoutDanger (H := H) safe, rendered]
  rfl

theorem foldsToVisible_asciiTables : FoldsToVisible asciiTables := by
  intro c l folded
  simp only [asciiTables, Option.ite_none_right_eq_some, Option.some.injEq] at folded
  exact ⟨c + 32, [], folded.2.symm, by omega⟩

/-- A link with a dangerous URL, text with a quotation mark, and a footnote. -/
def unsafeDocument : Bytes := lit "[a](javascript:b) \"[^c]\n\n[^c]: *d*\n"

theorem renderHtml_unsafeDocument :
    let root := documentOf { tables := asciiTables, options := optFootnotes } none [unsafeDocument]
    let H : HtmlConfig := { options := 0, literalAt := literalIn root }
    ∃ r, renderHtml H {} root = .ok r ∧ Markup.Nested r.bytes ∧
      (∀ b, Piece.content b ∈ r.html → Plain b) ∧
      (renderHtml H {} root.withoutDanger).map HtmlRenderer.bytes = .ok r.bytes := by
  exact renderHtml_documentOf rfl foldsToVisible_asciiTables none [unsafeDocument] 0 rfl

end CmarkGfm
