import CmarkGfm.Properties.InlineTrees
import CmarkGfm.Render.Html

/-!
# The pointers that the HTML renderer follows

Closing a paragraph reads its parent, and a footnote reference reads its definition. Nothing else is
read without a check, so these two say at which roots rendering fails.
-/

namespace CmarkGfm

/-- The types of the library itself. -/
def NodeType.isCore : NodeType → Bool
  | .none | .extensionBlock _ | .extensionInline _ => false
  | _ => true

section

variable (H : HtmlConfig)

mutual

/-- Every footnote reference that the renderer writes has a definition. It writes none below an
image, whose alternative text is plain, and does not look below a leaf. -/
def Node.ReferencesResolve : Node → Prop
  | .mk _ d cs =>
    (d.type = .footnoteReference → (d.parentFootnoteDef.bind H.literalAt).isSome) ∧
      (d.type.isLeaf ∨ d.type = .image ∨ ReferencesResolveList cs)

def ReferencesResolveList : Forest → Prop
  | [] => True
  | n :: ns => n.ReferencesResolve ∧ ReferencesResolveList ns

end

/-! ### What writing does to the image being written -/

section

variable {r : HtmlRenderer} {options : Options} {d : NodeData}

@[simp] theorem HtmlRenderer.plain_put (p : Piece) : (r.put p).plain = r.plain := rfl

@[simp] theorem HtmlRenderer.plain_puts (s : String) : (r.puts s).plain = r.plain := rfl

@[simp] theorem HtmlRenderer.plain_putNumber (n : Nat) : (r.putNumber n).plain = r.plain := rfl

@[simp] theorem HtmlRenderer.plain_putContent (s : Bytes) : (r.putContent s).plain = r.plain := rfl

@[simp] theorem HtmlRenderer.plain_escapeHtml (s : Bytes) : (r.escapeHtml s).plain = r.plain := rfl

@[simp] theorem HtmlRenderer.plain_escapeHref (s : Bytes) : (r.escapeHref s).plain = r.plain := rfl

@[simp] theorem HtmlRenderer.plain_cr : r.cr.plain = r.plain := by
  unfold HtmlRenderer.cr
  split
  · rfl
  · split <;> rfl

@[simp] theorem HtmlRenderer.plain_sourcepos : (r.sourcepos options d).plain = r.plain := by
  unfold HtmlRenderer.sourcepos
  split <;> simp

@[simp] theorem HtmlRenderer.plain_openTag (tag close : String) :
    (r.openTag options d tag close).plain = r.plain := by
  simp [HtmlRenderer.openTag]

@[simp] theorem plain_putExtraBackrefs (literal : Bytes) (ix : Nat) (is : List Nat) :
    (putExtraBackrefs literal ix is r).plain = r.plain := by
  induction is generalizing r with
  | nil => rfl
  | cons i is ih => simp [putExtraBackrefs, ih]

@[simp] theorem plain_putFootnoteBackref : (putFootnoteBackref d r).1.plain = r.plain := by
  unfold putFootnoteBackref
  split
  · rfl
  · simp

@[simp] theorem plain_renderMeta (info lang : Bytes) :
    (renderMeta options info lang r).plain = r.plain := by
  unfold renderMeta
  split <;> simp

@[simp] theorem plain_renderUrl (url : Bytes) : (renderUrl options url r).plain = r.plain := by
  unfold renderUrl
  split <;> simp

@[simp] theorem plain_renderTitle (title : Bytes) : (renderTitle title r).plain = r.plain := by
  unfold renderTitle
  split <;> simp

@[simp] theorem plain_renderListTag (entering : Bool) :
    (renderListTag options d entering r).plain = r.plain := by
  unfold renderListTag
  dsimp only
  repeat' split
  all_goals simp

@[simp] theorem plain_renderHeading (entering : Bool) :
    (renderHeading options d entering r).plain = r.plain := by
  unfold renderHeading
  split <;> simp

@[simp] theorem plain_renderCodeBlock : (renderCodeBlock options d r).plain = r.plain := by
  unfold renderCodeBlock
  extract_lets code start lang opened
  have same : opened.plain = r.plain := by
    unfold opened
    repeat' split
    all_goals simp [start]
  simp [same]

@[simp] theorem plain_renderRawHtml (filter : Bytes → Bytes) (literal : Bytes) :
    (renderRawHtml H filter literal r).plain = r.plain := by
  unfold renderRawHtml
  split <;> simp

@[simp] theorem plain_renderPlain : (renderPlain d r).plain = r.plain := by
  unfold renderPlain
  split <;> simp

@[simp] theorem plain_renderFootnoteDefinition (entering : Bool) :
    (renderFootnoteDefinition d entering r).plain = r.plain := by
  unfold renderFootnoteDefinition
  split
  · split <;> simp
  · generalize written : putFootnoteBackref d r = out
    have same : out.1.plain = r.plain := by rw [← written]; simp
    obtain ⟨r', written'⟩ := out
    cases written' <;> simpa using same

end

/-! ### One event -/

/-- The event reads a pointer that is NULL. -/
def FailsAt (v : Visit) : Prop :=
  (v.node.type = .paragraph ∧ v.entering = false ∧ v.place.parent = none) ∨
    (v.node.type = .footnoteReference ∧ v.entering ∧
      v.node.data.parentFootnoteDef.bind H.literalAt = none)

theorem Place.grandparent_of_parent {place : Place} (detached : place.parent = none) :
    place.grandparent = none := by
  obtain ⟨path, ancestors, before, after⟩ := place
  cases ancestors with
  | nil => rfl
  | cons d ds => cases detached

theorem renderHtmlNode_fails {v : Visit} {r : HtmlRenderer} (plain : r.plain = none)
    (fails : FailsAt H v) : renderHtmlNode H r v = .error .nullPointer := by
  unfold renderHtmlNode
  rw [if_neg (by simp [plain]), plain]
  obtain ⟨type, leaving, detached⟩ | ⟨type, entering, missing⟩ := fails
  · change v.node.data.type = _ at type
    simp [type, renderParagraph, leaving, detached, Place.grandparent_of_parent detached]
  · change v.node.data.type = _ at type
    simp [type, entering, renderFootnoteReference, missing]

theorem renderHtmlNode_image {v : Visit} {r : HtmlRenderer} (plain : r.plain = none)
    (type : v.node.type = .image) : ∃ r', renderHtmlNode H r v = .ok r' ∧
      r'.plain = if v.entering then some v.place.path else none := by
  refine ⟨renderImage H.options v r, ?_, ?_⟩
  · unfold renderHtmlNode
    rw [if_neg (by simp [plain]), plain]
    change v.node.data.type = _ at type
    simp [type]
  · unfold renderImage
    split <;> simp_all

theorem renderHtmlNode_ok {v : Visit} {r : HtmlRenderer} (plain : r.plain = none)
    (core : v.node.type.isCore) (image : v.node.type ≠ .image) (reads : ¬FailsAt H v) :
    ∃ r', renderHtmlNode H r v = .ok r' ∧ r'.plain = none := by
  unfold FailsAt at reads
  unfold renderHtmlNode
  rw [if_neg (by simp [plain]), plain]
  change (v.node.data.type).isCore at core
  change v.node.data.type ≠ _ at image
  change ¬((v.node.data.type = _ ∧ _) ∨ (v.node.data.type = _ ∧ _)) at reads
  generalize v.node.data.type = type at core image reads
  cases type <;> simp only [NodeType.isCore, Bool.false_eq_true] at core
  case image => exact absurd rfl image
  case paragraph =>
    unfold renderParagraph
    extract_lets tight
    dsimp only
    cases tight with
    | true => exact ⟨r, rfl, plain⟩
    | false =>
      cases entering : v.entering with
      | true => exact ⟨_, rfl, by simp [plain]⟩
      | false =>
        cases parent : v.place.parent with
        | none => exact absurd (.inl ⟨rfl, entering, parent⟩) reads
        | some d =>
          refine ⟨_, rfl, ?_⟩
          split <;> simp [plain]
  case footnoteReference =>
    dsimp only
    cases entering : v.entering with
    | false => exact ⟨r, rfl, plain⟩
    | true =>
      unfold renderFootnoteReference
      cases definition : v.node.data.parentFootnoteDef.bind H.literalAt with
      | none => exact absurd (.inr ⟨rfl, entering, definition⟩) reads
      | some label =>
        refine ⟨_, rfl, ?_⟩
        split <;> simp [plain]
  all_goals
    refine ⟨_, rfl, ?_⟩
    repeat' split
    all_goals simp [plain]

/-! ### Below an image -/

mutual

theorem length_le_visits {place : Place} : (n : Node) →
    ∀ v ∈ n.visits place, place.path.length ≤ v.place.path.length
  | .mk i d cs, v, member => by
    unfold Node.visits at member
    split at member
    · rw [List.mem_singleton.mp member]
    · rcases List.mem_cons.mp member with rfl | inside
      · exact Nat.le_refl _
      rcases List.mem_append.mp inside with inside | last
      · exact Nat.le_of_lt (length_lt_visitsFrom cs v inside)
      · rw [List.mem_singleton.mp last]

theorem length_lt_visitsFrom {place : Place} {d : NodeData} {before : Forest} : (f : Forest) →
    ∀ v ∈ visitsFrom place d before f, place.path.length < v.place.path.length
  | [], v, member => by
    unfold visitsFrom at member
    cases member
  | n :: ns, v, member => by
    unfold visitsFrom at member
    rcases List.mem_append.mp member with inside | later
    · exact length_le_visits n v inside
    · exact length_lt_visitsFrom ns v later

end

/-- As long as the image is not met again, the plain text of the nodes is written. -/
theorem renderHtmlNode_plain {image : List Nat} (vs : List Visit)
    (inside : ∀ v ∈ vs, v.place.path ≠ image) (r : HtmlRenderer) (plain : r.plain = some image) :
    vs.foldlM (renderHtmlNode H) r = .ok (vs.foldl (fun r v => renderPlain v.node.data r) r) := by
  induction vs generalizing r with
  | nil => rfl
  | cons v vs ih =>
    have other : some image ≠ some v.place.path :=
      fun same => inside v (List.mem_cons_self ..) (Option.some.inj same).symm
    have here : renderHtmlNode H r v = .ok (renderPlain v.node.data r) := by
      unfold renderHtmlNode
      rw [plain, if_neg other]
      exact if_pos (by simp [plain])
    rw [List.foldlM_cons, here, List.foldl_cons]
    exact ih (fun w later => inside w (List.mem_cons_of_mem _ later)) _ (by simp [plain])

theorem plain_foldl_renderPlain (vs : List Visit) (r : HtmlRenderer) :
    (vs.foldl (fun r v => renderPlain v.node.data r) r).plain = r.plain := by
  induction vs generalizing r with
  | nil => rfl
  | cons v vs ih => rw [List.foldl_cons, ih, plain_renderPlain]

/-! ### A whole tree -/

/-- Rendering these events gets to the end if the condition holds and reads through NULL if not. -/
def RendersIff (vs : List Visit) (condition : Prop) : Prop :=
  ∀ r : HtmlRenderer, r.plain = none →
    (condition → ∃ r', vs.foldlM (renderHtmlNode H) r = .ok r' ∧ r'.plain = none) ∧
      (¬condition → vs.foldlM (renderHtmlNode H) r = .error .nullPointer)

namespace RendersIff

variable {H} {vs ws : List Visit} {p q : Prop}

theorem nil : RendersIff H [] True :=
  fun r plain => ⟨fun _ => ⟨r, rfl, plain⟩, fun fails => absurd trivial fails⟩

theorem append (first : RendersIff H vs p) (second : RendersIff H ws q) :
    RendersIff H (vs ++ ws) (p ∧ q) := by
  intro r plain
  rw [List.foldlM_append]
  by_cases holds : p
  · obtain ⟨r', done, plain'⟩ := (first r plain).1 holds
    rw [done]
    obtain ⟨reaches, fails⟩ := second r' plain'
    exact ⟨fun both => reaches both.2, fun missing => fails fun right => missing ⟨holds, right⟩⟩
  · rw [(first r plain).2 holds]
    exact ⟨fun both => absurd both.1 holds, fun _ => rfl⟩

theorem congr (renders : RendersIff H vs p) (same : p ↔ q) : RendersIff H vs q :=
  propext same ▸ renders

theorem single {v : Visit} (core : v.node.type.isCore) (image : v.node.type ≠ .image) :
    RendersIff H [v] (¬FailsAt H v) := by
  intro r plain
  rw [List.foldlM_cons]
  refine ⟨fun reads => ?_, fun fails => ?_⟩
  · obtain ⟨r', here, plain'⟩ := renderHtmlNode_ok H plain core image reads
    exact ⟨r', by rw [here]; rfl, plain'⟩
  · rw [renderHtmlNode_fails H plain (not_not.mp fails)]
    rfl

/-- An image is written with the plain text of the nodes below it. -/
theorem image {i : NodeId} {d : NodeData} (cs : Forest) (place : Place) (type : d.type = .image) :
    RendersIff H ((Node.mk i d cs).visits place) True := by
  intro r plain
  refine ⟨fun _ => ?_, fun fails => absurd trivial fails⟩
  unfold Node.visits
  rw [type, if_neg (by decide), List.foldlM_cons]
  obtain ⟨opened, enters, plainOpened⟩ :=
    renderHtmlNode_image H (v := ⟨true, .mk i d cs, place⟩) plain type
  rw [enters]
  change ∃ r', List.foldlM (renderHtmlNode H) opened _ = _ ∧ _
  have inside : ∀ v ∈ visitsFrom place d [] cs, v.place.path ≠ place.path := fun v member same =>
    absurd (length_lt_visitsFrom cs v member) (by rw [same]; exact Nat.lt_irrefl _)
  rw [List.foldlM_append, renderHtmlNode_plain H _ inside opened plainOpened]
  have plainText : (List.foldl (fun r v => renderPlain v.node.data r) opened
      (visitsFrom place d [] cs)).plain = some place.path :=
    (plain_foldl_renderPlain _ _).trans plainOpened
  generalize List.foldl _ opened _ = alternative at plainText
  change ∃ r', List.foldlM (renderHtmlNode H) alternative _ = _ ∧ _
  -- back at the image
  have closes : renderHtmlNode H alternative ⟨false, .mk i d cs, place⟩ =
      renderHtmlNode H { alternative with plain := none } ⟨false, .mk i d cs, place⟩ := by
    unfold renderHtmlNode
    rw [if_pos plainText]
    rfl
  rw [List.foldlM_cons, closes]
  obtain ⟨closed, exits, plainClosed⟩ := renderHtmlNode_image H (v := ⟨false, .mk i d cs, place⟩)
    (r := { alternative with plain := none }) rfl type
  exact ⟨closed, by rw [exits]; rfl, plainClosed⟩

end RendersIff

mutual

theorem rendersIff_visits {place : Place} : (n : Node) → (n.All fun _ d _ => d.type.isCore) →
    RendersIff H (n.visits place)
      ((n.type = .paragraph → place.parent ≠ none) ∧ n.ReferencesResolve H)
  | .mk i d cs, core => by
    by_cases image : d.type = .image
    · exact (RendersIff.image cs place image).congr
        (by simp [Node.ReferencesResolve, Node.type, image])
    have visit (entering : Bool) : RendersIff H [⟨entering, .mk i d cs, place⟩] _ :=
      RendersIff.single core.1 image
    have below := @rendersIff_visitsFrom place d [] cs core.2
    unfold Node.visits
    split
    next leaf =>
      refine (visit true).congr ?_
      have paragraph : d.type ≠ .paragraph := fun same => by rw [same] at leaf; cases leaf
      have reference : d.type ≠ .footnoteReference := fun same => by rw [same] at leaf; cases leaf
      simp [FailsAt, Node.ReferencesResolve, Node.type, leaf, paragraph, reference]
    next inner =>
      refine (((visit true).append below).append (visit false)).congr ?_
      simp only [FailsAt, Node.ReferencesResolve, Node.type, Node.data_mk, inner, image,
        Option.isSome_iff_ne_none]
      simp
      tauto

theorem rendersIff_visitsFrom {place : Place} {d : NodeData} {before : Forest} : (f : Forest) →
    (AllList (fun _ d _ => d.type.isCore) f) →
    RendersIff H (visitsFrom place d before f) (ReferencesResolveList H f)
  | [], _ => by
    unfold visitsFrom
    exact RendersIff.nil
  | n :: ns, core => by
    unfold visitsFrom
    refine ((rendersIff_visits n core.1).append (rendersIff_visitsFrom ns core.2)).congr ?_
    simp [ReferencesResolveList, Place.parent, Place.below]

end

/-- Rendering a node as root reads through NULL if and only if the node is a paragraph without
parent or a footnote reference that is written has no definition. -/
theorem renderHtml_nullPointer_iff (place : Place) (root : Node)
    (core : root.All fun _ d _ => d.type.isCore) :
    renderHtml H place root ≠ .error .nullPointer ↔
      (root.type = .paragraph → place.parent ≠ none) ∧ root.ReferencesResolve H := by
  obtain ⟨reaches, fails⟩ := @rendersIff_visits H { place with path := [] } root core {} rfl
  unfold renderHtml
  constructor
  · intro reads
    by_contra missing
    rw [fails missing] at reads
    exact reads rfl
  · intro holds
    obtain ⟨r, done, _⟩ := reaches holds
    rw [done]
    nofun

end

/-- A paragraph made by `cmark_node_new`. -/
def newParagraph : Node := .leaf 0 { type := .paragraph }

/-- A footnote reference made by `cmark_node_new`, in a paragraph of its own. -/
def newReference : Node :=
  .mk 2 { type := .document } [.mk 1 { type := .paragraph } [.leaf 0 { type := .footnoteReference }]]

/-- A footnote reference in a paragraph, and its definition. -/
def notedDocument : Node :=
  .mk 3 { type := .document }
    [.mk 1 { type := .paragraph } [.leaf 0 { type := .footnoteReference, parentFootnoteDef := some 2 }],
      .mk 2 { type := .footnoteDefinition, as := .literal (lit "a") } []]

def noFilters : HtmlConfig := { options := 0, literalAt := fun _ => none }

theorem renderHtml_notedDocument :
    renderHtml { noFilters with literalAt := fun i => if i = 2 then some (lit "a") else none } {} notedDocument ≠
      .error .nullPointer := by
  refine (renderHtml_nullPointer_iff _ {} notedDocument ⟨rfl, ⟨rfl, ⟨rfl, trivial⟩, trivial⟩, ⟨rfl, trivial⟩,
    trivial⟩).mpr ⟨fun paragraph => absurd paragraph (by decide), ?_⟩
  simp [notedDocument, Node.leaf, Node.ReferencesResolve, ReferencesResolveList]

/-- The end of the paragraph reads the type of a parent that does not exist, the reference the
label of a definition that does not exist. -/
theorem renderHtml_newParagraph :
    renderHtml noFilters {} newParagraph = .error .nullPointer ∧
      renderHtml noFilters {} newReference = .error .nullPointer :=
  ⟨rfl, rfl⟩

end CmarkGfm
