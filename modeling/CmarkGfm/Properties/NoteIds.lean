import CmarkGfm.Properties.HtmlSafety
import CmarkGfm.Properties.NoteLinks
import Mathlib.Algebra.Order.Group.Multiset
import Mathlib.Data.List.Flatten

/-!
# The ids of footnotes

A definition gets the id `fn-` with its label, a reference the id `fnref-` with the label of its
definition and, from the second reference on, a hyphen and the number of the reference. The label is
percent-escaped.
-/

namespace CmarkGfm

/-! ### Ids in the output -/

/-- The rest of the value of an attribute, up to its quotation mark. -/
def attributeValue : List Piece → Bytes
  | [] => []
  | .content s :: ps => s ++ attributeValue ps
  | .markup s :: ps => if s.head? = some (chr '"') then [] else s ++ attributeValue ps

/-- The values of the id attributes of footnotes. -/
def noteIds : List Piece → List Bytes
  | [] => []
  | p :: ps =>
    if p = definitionStart then (lit "fn-" ++ attributeValue ps) :: noteIds ps
    else if p = referenceStart then (lit "fnref-" ++ attributeValue ps) :: noteIds ps
    else noteIds ps

/-- In front of the ids. -/
def idMarks : List Piece := [definitionStart, referenceStart]

/-- The output that has been added has these ids. -/
def WritesIds (r r' : HtmlRenderer) (ids : List Bytes) : Prop :=
  ∃ out, r'.html = r.html ++ out ∧ ∀ rest, noteIds (out ++ rest) = ids ++ noteIds rest

section

variable {r r' r'' : HtmlRenderer} {ids ids' : List Bytes}

theorem noteIds_cons_other {p : Piece} (other : p ∉ idMarks) (ps : List Piece) :
    noteIds (p :: ps) = noteIds ps := by
  rw [idMarks, List.mem_pair, not_or] at other
  rw [noteIds, if_neg other.1, if_neg other.2]

theorem noteIds_append_other {out : List Piece} (others : ∀ p ∈ out, p ∉ idMarks) (rest : List Piece) :
    noteIds (out ++ rest) = noteIds rest := by
  induction out with
  | nil => rfl
  | cons p out ih =>
    rw [List.forall_mem_cons] at others
    rw [List.cons_append, noteIds_cons_other others.1, ih others.2]

theorem NoMarks.writesIds (writes : NoMarks idMarks r r') : WritesIds r r' [] := by
  obtain ⟨out, eq, others⟩ := writes.output
  exact ⟨out, eq, noteIds_append_other others⟩

theorem WritesIds.trans (first : WritesIds r r' ids) (second : WritesIds r' r'' ids') :
    WritesIds r r'' (ids ++ ids') := by
  obtain ⟨out, eq, written⟩ := first
  obtain ⟨out', eq', written'⟩ := second
  refine ⟨out ++ out', by rw [eq', eq, List.append_assoc], fun rest => ?_⟩
  rw [List.append_assoc, written, written', List.append_assoc]

theorem idMarks_subset : idMarks ⊆ noteMarks := by
  intro m member
  rw [idMarks, List.mem_pair] at member
  rcases member with rfl | rfl <;> decide +kernel

theorem apart_idMarks : Apart idMarks := by
  unfold Apart
  decide +kernel

end

/-! ### The ids of nodes -/

/-- The label of the definition that a reference refers to. -/
def definitionLabel (H : HtmlConfig) (d : NodeData) : Bytes :=
  (d.parentFootnoteDef.bind H.literalAt).getD []

def definitionId (label : Bytes) : Bytes := lit "fn-" ++ escapeHref label

/-- The id of the `k`-th reference. -/
def referenceId (label : Bytes) (k : Nat) : Bytes :=
  lit "fnref-" ++ escapeHref label ++ if k > 1 then lit "-" ++ decimal k else []

/-- The id of a node of a footnote. -/
def noteId (H : HtmlConfig) (n : Node) : Option Bytes :=
  match n.type with
  | .footnoteDefinition => some (definitionId n.literal)
  | .footnoteReference => some (referenceId (definitionLabel H n.data) n.data.refIx)
  | _ => none

section

variable {H : HtmlConfig} {func : HtmlRenderFunc} {r r' : HtmlRenderer} {v : Visit}

theorem noteId_of_other {n : Node} (notDefinition : n.type ≠ .footnoteDefinition)
    (notReference : n.type ≠ .footnoteReference) : noteId H n = none := by
  unfold noteId
  split
  next definition => exact absurd definition notDefinition
  next reference => exact absurd reference notReference
  next => rfl

theorem head?_decimal (k : Nat) : (decimal k).head? ≠ some (chr '"') := by
  intro head
  obtain ⟨_, _, _, _, low, _⟩ := digit_of_mem_decimal (List.mem_of_mem_head? head)
  revert low
  decide

/-- Entering a definition writes its id. -/
theorem writesIds_definition (d : NodeData) :
    WritesIds r (renderFootnoteDefinition d true r) [definitionId d.as.getLiteral] := by
  obtain ⟨start, started, others⟩ : ∃ start : List Piece, (if r.footnoteIx = 0 then
      r.puts "<section class=\"footnotes\" data-footnotes>\n<ol>\n" else r).html = r.html ++ start ∧
      ∀ p ∈ start, p ∉ idMarks := by
    split
    next => exact ⟨[_], rfl, by decide +kernel⟩
    next => exact ⟨[], (List.append_nil _).symm, by simp⟩
  refine ⟨start ++ [definitionStart, .content (escapeHref d.as.getLiteral), .markup (lit "\">\n")], ?_, ?_⟩
  · unfold renderFootnoteDefinition
    rw [if_pos rfl]
    show (((if r.footnoteIx = 0 then _ else _ : HtmlRenderer).html ++ [_]) ++ [_]) ++ [_] = _
    rw [started]
    simp only [List.append_assoc]
    rfl
  · intro rest
    rw [List.append_assoc, noteIds_append_other others]
    show noteIds (definitionStart :: .content _ :: .markup _ :: rest) = _
    rw [noteIds, if_pos rfl, noteIds_cons_other (by simp [idMarks, definitionStart, referenceStart]),
      noteIds_cons_other (by decide +kernel)]
    rw [attributeValue, attributeValue, if_pos (by decide), List.append_nil]
    rfl

/-- What is between the label and the quotation mark. -/
def suffixPieces (k : Nat) : List Piece :=
  if k > 1 then [.markup (lit "-"), .markup (decimal k)] else []

theorem noteIds_reference (label : Bytes) (k : Nat) (rest : List Piece) :
    noteIds (referenceStart :: .content (escapeHref label) :: (suffixPieces k ++
      .markup (lit "\" data-footnote-ref>") :: rest)) = referenceId label k :: noteIds rest := by
  have content : Piece.content (escapeHref label) ∉ idMarks := by
    simp [idMarks, definitionStart, referenceStart]
  have quote : Piece.markup (lit "\" data-footnote-ref>") ∉ idMarks := by decide +kernel
  rw [noteIds, if_neg (by decide +kernel), if_pos rfl, noteIds_cons_other content, referenceId, attributeValue]
  unfold suffixPieces
  split
  next =>
    have number : Piece.markup (decimal k) ∉ idMarks := by
      have notPlain : ∀ p ∈ idMarks, ¬ Plain p.bytes := by decide +kernel
      exact fun mark => notPlain _ mark (plain_decimal k)
    rw [List.cons_append, List.cons_append, List.nil_append, noteIds_cons_other (by decide +kernel),
      noteIds_cons_other number, noteIds_cons_other quote, attributeValue, if_neg (by decide), attributeValue,
      if_neg (head?_decimal k), attributeValue, if_pos (by decide)]
    simp only [List.append_assoc, List.append_nil]
  next =>
    rw [List.nil_append, noteIds_cons_other quote, attributeValue, if_pos (by decide), List.append_assoc]

/-- Entering a reference writes its id. -/
theorem writesIds_reference {d : NodeData} (rendered : renderFootnoteReference H d r = .ok r') :
    WritesIds r r' [referenceId (definitionLabel H d) d.refIx] := by
  unfold renderFootnoteReference at rendered
  split at rendered
  next => cases rendered
  next label found =>
    have isLabel : definitionLabel H d = label := by rw [definitionLabel, found, Option.getD_some]
    have front : ∀ p ∈ [Piece.markup (lit "<sup class=\"footnote-ref\"><a href=\"#fn-"),
        .content (escapeHref label)], p ∉ idMarks := by
      rw [List.forall_mem_cons, List.forall_mem_singleton]
      exact ⟨by decide +kernel, by simp [idMarks, definitionStart, referenceStart]⟩
    have behind : ∀ p ∈ [Piece.content (escapeHref d.as.getLiteral), .markup (lit "</a></sup>")],
        p ∉ idMarks := by
      rw [List.forall_mem_cons, List.forall_mem_singleton]
      exact ⟨by simp [idMarks, definitionStart, referenceStart], by decide +kernel⟩
    refine ⟨[.markup (lit "<sup class=\"footnote-ref\"><a href=\"#fn-"), .content (escapeHref label)] ++
      (referenceStart :: .content (escapeHref label) :: (suffixPieces d.refIx ++
        .markup (lit "\" data-footnote-ref>") :: [.content (escapeHref d.as.getLiteral), .markup (lit "</a></sup>")])),
      ?_, fun rest => ?_⟩
    · obtain rfl := Except.ok.inj rendered
      unfold suffixPieces
      split
      next =>
        simp [HtmlRenderer.puts, HtmlRenderer.putNumber, HtmlRenderer.escapeHref, HtmlRenderer.putContent,
          HtmlRenderer.put, referenceStart]
      next =>
        simp [HtmlRenderer.puts, HtmlRenderer.escapeHref, HtmlRenderer.putContent, HtmlRenderer.put,
          referenceStart]
    · rw [List.append_assoc, noteIds_append_other front]
      rw [List.cons_append, List.cons_append, List.append_assoc, List.cons_append, noteIds_reference,
        noteIds_append_other behind, isLabel]
      rfl

/-- What one event adds outside of alternative texts. -/
def eventIds (H : HtmlConfig) (v : Visit) : List Bytes :=
  if v.entering then (noteId H v.node).toList else []

theorem unmarked_idMarks (other : v.entering = false ∨ noteId H v.node = none) : Unmarked idMarks v := by
  have noted {t : NodeType} (type : v.node.type = t) (isNote : t = .footnoteDefinition ∨ t = .footnoteReference) :
      v.entering = false := by
    apply other.resolve_right
    unfold noteId
    rw [type]
    rcases isNote with rfl | rfl <;> exact Option.some_ne_none _
  refine ⟨fun note => ⟨noted note (.inl rfl), apart_idMarks⟩, fun _ => apart_idMarks, fun reference entering => ?_⟩
  rw [noted reference (.inr rfl)] at entering
  cases entering

theorem eventIds_eq_nil (other : v.entering = false ∨ noteId H v.node = none) : eventIds H v = [] := by
  unfold eventIds
  rcases other with leaving | none
  · rw [leaving]
    rfl
  · rw [none]
    split <;> rfl

theorem renderHtmlNode_reference (plain : r.plain = none) (type : v.node.data.type = .footnoteReference)
    (entering : v.entering = true) :
    renderHtmlNode H r v = renderFootnoteReference H v.node.data r := by
  unfold renderHtmlNode
  extract_lets kept data
  have same : kept = r := if_neg (by simp [plain])
  rw [same, if_neg (by simp [plain]), show data.type = .footnoteReference from type]
  dsimp only
  rw [if_pos entering]

variable (own : RendersOwn func)

include own

theorem writesIds_event (plain : r.plain = none) (rendered : renderHtmlNodeWith H func r v = .ok r') :
    WritesIds r r' (eventIds H v) := by
  by_cases other : v.entering = false ∨ noteId H v.node = none
  · rw [eventIds_eq_nil other]
    exact (NoMarks.renderHtmlNodeWith own idMarks_subset (fun _ => unmarked_idMarks other) rendered).writesIds
  rw [not_or, Bool.not_eq_false] at other
  obtain ⟨entering, isNote⟩ := other
  have core : func v.node.data = none := by
    cases found : func v.node.data with
    | none => rfl
    | some f => exact absurd (noteId_of_other (own _ f found).1 (own _ f found).2.1) isNote
  rw [renderHtmlNodeWith_eq plain, core] at rendered
  unfold eventIds noteId
  rw [if_pos entering]
  by_cases definition : v.node.type = .footnoteDefinition
  · rw [definition]
    dsimp only at rendered ⊢
    rw [renderHtmlNode_definition plain definition, entering] at rendered
    obtain rfl := Except.ok.inj rendered
    exact writesIds_definition v.node.data
  by_cases reference : v.node.type = .footnoteReference
  · rw [reference]
    dsimp only at rendered ⊢
    rw [renderHtmlNode_reference plain reference entering] at rendered
    exact writesIds_reference rendered
  exact absurd (noteId_of_other definition reference) isNote

/-! ### The ids of a tree -/

omit own in
/-- Alternative texts have no ids. -/
theorem noMarks_inside {image : List Nat} (vs : List Visit) (inside : ∀ v ∈ vs, v.place.path ≠ image)
    (plain : r.plain = some image) (rendered : vs.foldlM (renderHtmlNodeWith H func) r = .ok r') :
    NoMarks idMarks r r' := by
  induction vs generalizing r with
  | nil =>
    obtain rfl := Except.ok.inj rendered
    exact .refl idMarks_subset r
  | cons v vs ih =>
    rw [List.forall_mem_cons] at inside
    rw [List.foldlM_cons, renderHtmlNodeWith_inside plain inside.1] at rendered
    have writes : NoMarks idMarks r (renderPlain v.node.data r) := (NoMarks.refl idMarks_subset r).renderPlain
    exact writes.trans (ih inside.2 (plain_renderPlain.trans plain) rendered)

end

mutual

/-- The nodes that are entered outside of alternative texts, in this order. -/
def Node.shown (func : HtmlRenderFunc) : Node → List Node
  | .mk i d cs =>
    .mk i d cs :: if d.type.isLeaf ∨ (d.type = .image ∧ (func d).isNone) then [] else shownList func cs

def shownList (func : HtmlRenderFunc) : Forest → List Node
  | [] => []
  | n :: ns => n.shown func ++ shownList func ns

end

section

variable {H : HtmlConfig} {func : HtmlRenderFunc} {r r' : HtmlRenderer} (own : RendersOwn func)

theorem shown_ids (i : NodeId) (d : NodeData) (cs : Forest) :
    ((Node.mk i d cs).shown func).filterMap (noteId H) = (noteId H (.mk i d cs)).toList ++
      (if d.type.isLeaf ∨ (d.type = .image ∧ (func d).isNone) then [] else shownList func cs).filterMap
        (noteId H) := by
  rw [Node.shown, List.filterMap_cons]
  cases noteId H (.mk i d cs) <;> rfl

include own

mutual

/-- The ids of a tree are those of the nodes that are entered. -/
theorem writesIds_visits {place : Place} : (n : Node) → {r r' : HtmlRenderer} → r.plain = none →
    (n.visits place).foldlM (renderHtmlNodeWith H func) r = .ok r' →
    WritesIds r r' ((n.shown func).filterMap (noteId H))
  | .mk i d cs, r, r', plain, rendered => by
    rw [shown_ids]
    by_cases leaf : d.type.isLeaf = true
    · unfold Node.visits at rendered
      rw [if_pos leaf] at rendered
      rw [if_pos (.inl leaf), List.filterMap_nil, List.append_nil]
      exact writesIds_event own plain (foldlM_singleton_ok rendered)
    obtain ⟨r₁, r₂, enters, below, leaves⟩ := foldlM_visits_ok (Bool.not_eq_true _ ▸ leaf) rendered
    have opened : WritesIds r r₁ (noteId H (.mk i d cs)).toList := writesIds_event own plain enters
    by_cases starts : d.type = .image ∧ func d = none
    · -- the alternative text of an image
      have started : r₁.plain = some place.path := by
        rw [renderHtmlNodeWith_eq plain] at enters
        dsimp only [Node.data_mk] at enters
        rw [starts.2] at enters
        obtain ⟨r'', done, ends⟩ :=
          renderHtmlNode_image (H := H) (v := ⟨true, .mk i d cs, place⟩) plain starts.1
        obtain rfl := Except.ok.inj (done.symm.trans enters)
        exact ends
      have inside : ∀ v ∈ visitsFrom place d [] cs, v.place.path ≠ place.path := fun v member same =>
        absurd (length_lt_visitsFrom cs v member) (by rw [same]; exact Nat.lt_irrefl _)
      have writes := noMarks_inside _ inside started below
      have closed := NoMarks.renderHtmlNodeWith own idMarks_subset
        (fun _ => unmarked_idMarks (H := H) (.inl rfl)) leaves
      rw [if_pos (.inr ⟨starts.1, by rw [starts.2]; rfl⟩), List.filterMap_nil]
      exact opened.trans (writes.trans closed).writesIds
    · have other (entering : Bool) : (Visit.mk entering (.mk i d cs) place).node.type = .image →
          entering = true → (func d).isSome := by
        intro image _
        rw [Option.isSome_iff_ne_none]
        exact fun none => starts ⟨image, none⟩
      have plain₁ := plain_renderHtmlNodeWith own plain (other true) enters
      have plain₂ := plain_visitsFrom own cs plain₁ below
      have closed : WritesIds r₂ r' [] := writesIds_event own plain₂ leaves
      have inner := writesIds_visitsFrom cs plain₁ below
      rw [if_neg (by simpa [leaf] using starts)]
      have whole := (opened.trans inner).trans closed
      rwa [List.append_nil] at whole

theorem writesIds_visitsFrom {place : Place} {d : NodeData} {before : Forest} : (f : Forest) →
    {r r' : HtmlRenderer} → r.plain = none →
    (visitsFrom place d before f).foldlM (renderHtmlNodeWith H func) r = .ok r' →
    WritesIds r r' ((shownList func f).filterMap (noteId H))
  | [], r, r', plain, rendered => by
    unfold visitsFrom at rendered
    obtain rfl := Except.ok.inj rendered
    exact (NoMarks.refl idMarks_subset r).writesIds
  | n :: ns, r, r', plain, rendered => by
    unfold visitsFrom at rendered
    obtain ⟨r₁, first, rest⟩ := foldlM_append_ok rendered
    rw [shownList, List.filterMap_append]
    exact (writesIds_visits n plain first).trans
      (writesIds_visitsFrom ns (plain_visits own n plain first) rest)

end

/-- The ids in the output are those of the nodes that are entered outside of alternative texts. -/
theorem noteIds_renderHtmlWith {place : Place} {root : Node}
    (rendered : renderHtmlWith H func place root = .ok r) :
    noteIds r.html = (root.shown func).filterMap (noteId H) := by
  unfold renderHtmlWith at rendered
  cases whole : (root.visits { place with path := [] }).foldlM (renderHtmlNodeWith H func) {} with
  | error e =>
    rw [whole] at rendered
    cases rendered
  | ok r' =>
    rw [whole] at rendered
    obtain ⟨out, html, written⟩ := writesIds_visits own root rfl whole
    have ends : (if r'.footnoteIx = 0 then r' else r'.puts "</ol>\n</section>\n") = r :=
      Except.ok.inj rendered
    have html : r'.html = out := html
    rw [← ends]
    split
    next =>
      have all := written []
      rwa [List.append_nil, noteIds, List.append_nil, ← html] at all
    next =>
      show noteIds (r'.html ++ [_]) = _
      rw [html, written, noteIds_cons_other (by decide +kernel), noteIds, List.append_nil]

end

/-! ### Distinct ids -/

section

variable {func : HtmlRenderFunc} {t : NodeType}

mutual

/-- The nodes of a type that are entered are nodes of the tree. -/
theorem shown_subperm : (n : Node) → ((n.shown func).filter fun m => m.type = t).Subperm (n.exits t)
  | .mk i d cs => by
    have below : ((if d.type.isLeaf ∨ (d.type = .image ∧ (func d).isNone) then []
        else shownList func cs).filter fun m => m.type = t).Subperm (exitsList t cs) := by
      split
      next => exact List.nil_subperm
      next => exact shownList_subperm cs
    rw [Node.shown, Node.exits_eq, List.filter_cons]
    by_cases type : (Node.mk i d cs).type = t
    · rw [if_pos (decide_eq_true type), if_pos type]
      have last : ([Node.mk i d cs] ++ exitsList t cs).Perm (exitsList t cs ++ [Node.mk i d cs]) :=
        List.perm_append_comm
      exact ((List.subperm_cons _).mpr below).trans last.subperm
    · rw [if_neg (by rwa [decide_eq_true_iff]), if_neg type, List.append_nil]
      exact below

theorem shownList_subperm : (f : Forest) →
    ((shownList func f).filter fun m => m.type = t).Subperm (exitsList t f)
  | [] => List.nil_subperm
  | n :: ns => by
    rw [shownList, exitsList, List.filter_append]
    exact (shown_subperm n).append (shownList_subperm ns)

end

end

theorem mem_shownList {func : HtmlRenderFunc} {n : Node} {f : Forest} (member : n ∈ f) : n ∈ shownList func f := by
  induction f with
  | nil => cases member
  | cons m ns ih =>
    rw [shownList, List.mem_append]
    rcases List.mem_cons.mp member with rfl | later
    · obtain ⟨i, d, cs⟩ := n
      exact .inl List.mem_cons_self
    · exact .inr (ih later)

/-- The `k`-th reference to a definition is entered. -/
def ShowsReference (func : HtmlRenderFunc) (root : Node) (f : NodeId) (k : Nat) : Prop :=
  ∃ r ∈ root.shown func, r.type = .footnoteReference ∧ footnoteKey r = (some f, k)

/-- The labels tell definitions apart when they are escaped, and no label with the number of a reference
is the label of another definition. -/
structure LabelsApart (func : HtmlRenderFunc) (root : Node) : Prop where
  escaped : ∀ f ∈ root.exits .footnoteDefinition, ∀ g ∈ root.exits .footnoteDefinition, f.id ≠ g.id →
    escapeHref f.literal ≠ escapeHref g.literal
  numbered : ∀ f ∈ root.exits .footnoteDefinition, ∀ g ∈ root.exits .footnoteDefinition, ∀ k > 1,
    ShowsReference func root f.id 1 → ShowsReference func root g.id k →
    escapeHref f.literal ≠ escapeHref g.literal ++ lit "-" ++ decimal k

/-- What the footnote pass makes of the footnotes of a tree: definitions are at the top, and every
reference is one of its definition, with a number of its own. -/
structure NotesResolved (root : Node) : Prop where
  top : NotesOnTop root
  definitions : ((root.exits .footnoteDefinition).map Node.id).Nodup
  references : ((root.exits .footnoteReference).map footnoteKey).Nodup
  refers : ∀ r ∈ root.exits .footnoteReference, 0 < r.data.refIx ∧
    ∃ d ∈ root.exits .footnoteDefinition, r.data.parentFootnoteDef = some d.id

section

theorem decimal_injective : Function.Injective decimal := by
  have digits (n : Nat) : (decimal n).map (fun c => Char.ofNat c.toNat) = Nat.toDigits 10 n := by
    rw [decimal, List.map_map]
    conv_rhs => rw [← List.map_id (Nat.toDigits 10 n)]
    apply List.map_congr_left
    intro digit among
    have isDigit := Nat.isDigit_of_mem_toDigits (by decide) (by decide) among
    simp only [Char.isDigit, Bool.and_eq_true, decide_eq_true_eq, UInt32.le_iff_toNat_le] at isDigit
    have high : digit.toNat ≤ 57 := isDigit.2
    have byte : (chr digit).toNat = digit.toNat :=
      UInt8.toNat_ofNat_of_lt' (Nat.lt_of_le_of_lt high (by decide))
    show Char.ofNat (chr digit).toNat = digit
    rw [byte, Char.ofNat_toNat]
  intro m n same
  rw [← Nat.ofDigitChars_ten_toDigits (n := m), ← digits, same, digits, Nat.ofDigitChars_ten_toDigits]

theorem hyphen_not_mem_decimal (n : Nat) : chr '-' ∉ decimal n := by
  intro member
  obtain ⟨_, _, _, _, low, _⟩ := digit_of_mem_decimal member
  revert low
  decide

theorem append_cons_inj {α : Type} {x y z w : List α} {a : α} (notInX : a ∉ x) (notInY : a ∉ y)
    (same : x ++ a :: z = y ++ a :: w) : x = y ∧ z = w := by
  induction x generalizing y with
  | nil =>
    cases y with
    | nil => exact ⟨rfl, (List.cons.inj same).2⟩
    | cons b y => exact absurd ((List.cons.inj same).1 ▸ List.mem_cons_self) notInY
  | cons b x ih =>
    cases y with
    | nil => exact absurd ((List.cons.inj same).1 ▸ List.mem_cons_self) notInX
    | cons c y =>
      obtain ⟨rfl, rest⟩ := List.cons.inj same
      obtain ⟨rfl, rfl⟩ := ih (fun member => notInX (List.mem_cons_of_mem _ member))
        (fun member => notInY (List.mem_cons_of_mem _ member)) rest
      exact ⟨rfl, rfl⟩

/-- The last hyphen is in front of the number. -/
theorem numbered_inj {a b : Bytes} {k j : Nat} (same : a ++ lit "-" ++ decimal k = b ++ lit "-" ++ decimal j) :
    a = b ∧ k = j := by
  have reversed : (decimal k).reverse ++ chr '-' :: a.reverse = (decimal j).reverse ++ chr '-' :: b.reverse := by
    have reversed := congrArg List.reverse same
    rw [List.reverse_append, List.reverse_append, List.reverse_append, List.reverse_append] at reversed
    exact reversed
  obtain ⟨number, label⟩ := append_cons_inj (by simpa using hyphen_not_mem_decimal k)
    (by simpa using hyphen_not_mem_decimal j) reversed
  exact ⟨List.reverse_injective label, decimal_injective (List.reverse_injective number)⟩

/-- Lists with distinct keys. -/
theorem nodup_map_iff {α κ : Type} {l : List α} {key : α → κ} (distinct : (l.map key).Nodup)
    {id : α → Bytes} : (l.map id).Nodup ↔ ∀ a ∈ l, ∀ b ∈ l, id a = id b → key a = key b := by
  rw [List.nodup_map_iff_inj_on distinct.of_map]
  constructor
  · intro inj a inList b inList' same
    rw [inj a inList b inList' same]
  · intro inj a inList b inList' same
    exact List.inj_on_of_nodup_map distinct inList inList' (inj a inList b inList' same)

variable {H : HtmlConfig} {func : HtmlRenderFunc}

/-- The ids of definitions and those of references. -/
theorem filterMap_noteId_perm (l : List Node) : (l.filterMap (noteId H)).Perm
    ((l.filter fun n => n.type = .footnoteDefinition).map (fun n => definitionId n.literal) ++
      (l.filter fun n => n.type = .footnoteReference).map fun n =>
        referenceId (definitionLabel H n.data) n.data.refIx) := by
  induction l with
  | nil => exact .refl _
  | cons n l ih =>
    rw [List.filterMap_cons, List.filter_cons, List.filter_cons]
    by_cases definition : n.type = .footnoteDefinition
    · simp only [noteId, definition, decide_true, if_true, reduceCtorEq, decide_false, List.map_cons,
        List.cons_append]
      exact ih.cons _
    by_cases reference : n.type = .footnoteReference
    · simp only [noteId, reference, decide_true, if_true, reduceCtorEq, decide_false, List.map_cons]
      exact (ih.cons _).trans List.perm_middle.symm
    rw [noteId_of_other definition reference]
    simpa [definition, reference] using ih

theorem definitionId_ne_referenceId (a b : Bytes) (k : Nat) : definitionId a ≠ referenceId b k := by
  intro same
  cases congrArg (fun s => byteAt s 2) same

theorem referenceId_inj {a b : Bytes} {k j : Nat} (positive : 0 < k) (positive' : 0 < j)
    (same : referenceId a k = referenceId b j) : (escapeHref a = escapeHref b ∧ k = j) ∨
      (k = 1 ∧ 1 < j ∧ escapeHref a = escapeHref b ++ lit "-" ++ decimal j) ∨
      (j = 1 ∧ 1 < k ∧ escapeHref b = escapeHref a ++ lit "-" ++ decimal k) := by
  unfold referenceId at same
  rw [List.append_assoc, List.append_assoc] at same
  have same := List.append_cancel_left same
  by_cases one : k = 1
  · subst one
    rw [if_neg (Nat.lt_irrefl 1), List.append_nil] at same
    by_cases one' : j = 1
    · subst one'
      rw [if_neg (Nat.lt_irrefl 1), List.append_nil] at same
      exact .inl ⟨same, rfl⟩
    · have more : 1 < j := by omega
      rw [if_pos more, ← List.append_assoc] at same
      exact .inr (.inl ⟨rfl, more, same⟩)
  · have more : 1 < k := by omega
    rw [if_pos more] at same
    by_cases one' : j = 1
    · subst one'
      rw [if_neg (Nat.lt_irrefl 1), List.append_nil, ← List.append_assoc] at same
      exact .inr (.inr ⟨rfl, more, same.symm⟩)
    · have more' : 1 < j := by omega
      rw [if_pos more', ← List.append_assoc, ← List.append_assoc] at same
      exact .inl (numbered_inj same)

theorem nodup_map_of_subperm {α κ : Type} {l l' : List α} {key : α → κ} (distinct : (l'.map key).Nodup)
    (sub : l.Subperm l') : (l.map key).Nodup := by
  obtain ⟨m, perm, sublist⟩ := sub
  exact (perm.map key).nodup_iff.mp (distinct.sublist (sublist.map key))

/-- Definitions at the top are entered. -/
theorem mem_shown_definition {root d : Node} (top : NotesOnTop root)
    (definition : d ∈ root.exits .footnoteDefinition) : d ∈ root.shown func := by
  rw [top.exits, List.mem_filter] at definition
  obtain ⟨i, e, cs⟩ := root
  have document : e.type = .document := top.1
  rw [Node.shown, if_neg (by simp [document, NodeType.isLeaf])]
  exact List.mem_cons_of_mem _ (mem_shownList definition.1)

variable {place : Place} {root : Node} {r : HtmlRenderer}

theorem definitionLabel_of_parent (literals : ∀ d ∈ root.exits .footnoteDefinition, H.literalAt d.id = some d.literal)
    {d : Node} (definition : d ∈ root.exits .footnoteDefinition) {m : NodeData}
    (parent : m.parentFootnoteDef = some d.id) : definitionLabel H m = d.literal := by
  rw [definitionLabel, parent, Option.bind_some, literals d definition, Option.getD_some]

/-- The ids are distinct if and only if labels are. -/
theorem noteIds_nodup_iff (own : RendersOwn func) (resolved : NotesResolved root)
    (literals : ∀ d ∈ root.exits .footnoteDefinition, H.literalAt d.id = some d.literal)
    (rendered : renderHtmlWith H func place root = .ok r) :
    (noteIds r.html).Nodup ↔ LabelsApart func root := by
  have definitions := nodup_map_of_subperm resolved.definitions (@shown_subperm func _ root)
  have references := nodup_map_of_subperm resolved.references (@shown_subperm func _ root)
  have isDefinition (d : Node) : d ∈ (root.shown func).filter (fun n => n.type = .footnoteDefinition) ↔
      d ∈ root.exits .footnoteDefinition := by
    constructor
    · exact fun member => (shown_subperm root).subset member
    · intro member
      exact List.mem_filter.mpr ⟨mem_shown_definition resolved.top member, decide_eq_true (isDefinition_of_mem member).2⟩
  -- what a reference that is entered is one of
  have refers (m : Node) (member : m ∈ (root.shown func).filter fun n => n.type = .footnoteReference) :
      0 < m.data.refIx ∧ ∃ d ∈ root.exits .footnoteDefinition, m.data.parentFootnoteDef = some d.id ∧
        definitionLabel H m.data = d.literal := by
    obtain ⟨positive, d, definition, parent⟩ := resolved.refers m ((shown_subperm root).subset member)
    exact ⟨positive, d, definition, parent, definitionLabel_of_parent literals definition parent⟩
  have shows {m d : Node} (member : m ∈ (root.shown func).filter fun n => n.type = .footnoteReference)
      (parent : m.data.parentFootnoteDef = some d.id) : ShowsReference func root d.id m.data.refIx := by
    obtain ⟨shown, reference⟩ := List.mem_filter.mp member
    exact ⟨m, shown, of_decide_eq_true reference, Prod.ext parent rfl⟩
  rw [noteIds_renderHtmlWith own rendered, (filterMap_noteId_perm _).nodup_iff, List.nodup_append,
    nodup_map_iff definitions, nodup_map_iff references]
  constructor
  · rintro ⟨distinct, distinct', _⟩
    constructor
    · intro f inTree g inTree' other same
      apply other
      apply distinct f ((isDefinition f).mpr inTree) g ((isDefinition g).mpr inTree')
      rw [definitionId, definitionId, same]
    · rintro f inTree g inTree' k more ⟨m, shown, reference, key⟩ ⟨m', shown', reference', key'⟩ same
      obtain ⟨parent, one⟩ := Prod.mk.inj key
      obtain ⟨parent', number⟩ := Prod.mk.inj key'
      have equal : referenceId (definitionLabel H m.data) m.data.refIx =
          referenceId (definitionLabel H m'.data) m'.data.refIx := by
        rw [one, number, definitionLabel_of_parent literals inTree parent,
          definitionLabel_of_parent literals inTree' parent', referenceId, referenceId, same,
          if_neg (Nat.lt_irrefl 1), if_pos more, List.append_nil]
        simp only [List.append_assoc]
      have keys := distinct' m (List.mem_filter.mpr ⟨shown, decide_eq_true reference⟩) m'
        (List.mem_filter.mpr ⟨shown', decide_eq_true reference'⟩) equal
      rw [key, key'] at keys
      exact absurd (Prod.mk.inj keys).2 (Nat.ne_of_lt more)
  · intro apart
    refine ⟨?_, ?_, ?_⟩
    · intro f inTree g inTree' same
      by_contra other
      apply apart.escaped f ((isDefinition f).mp inTree) g ((isDefinition g).mp inTree') other
      exact List.append_cancel_left same
    · intro m inTree m' inTree' same
      obtain ⟨positive, f, definition, parent, label⟩ := refers m inTree
      obtain ⟨positive', g, definition', parent', label'⟩ := refers m' inTree'
      have shown := shows inTree parent
      have shown' := shows inTree' parent'
      rw [label, label'] at same
      rcases referenceId_inj positive positive' same with ⟨equal, number⟩ | ⟨one, more, equal⟩ | ⟨one, more, equal⟩
      · have noOther := mt (apart.escaped f definition g definition') (not_not_intro equal)
        exact Prod.ext (by rw [footnoteKey, footnoteKey, parent, parent', not_not.mp noOther]) number
      · rw [one] at shown
        exact absurd equal (apart.numbered f definition g definition' _ more shown shown')
      · rw [one] at shown'
        exact absurd equal (apart.numbered g definition' f definition _ more shown' shown)
    · intro a inDefinitions b inReferences same
      obtain ⟨f, _, rfl⟩ := List.mem_map.mp inDefinitions
      obtain ⟨m, _, rfl⟩ := List.mem_map.mp inReferences
      exact definitionId_ne_referenceId _ _ _ same

end

/-! ### The references that are counted -/

/-- The keys of references are different, and their numbers are among those that have been counted. -/
structure KeysCounted (st : FootnoteState) (keys : List (Option NodeId × Nat)) : Prop where
  distinct : keys.Nodup
  bound : ∀ k ∈ keys, ∃ i, k.1 = some i ∧ 0 < k.2 ∧ k.2 ≤ st.defCount i

section

variable {P : Config} {st : FootnoteState} {keys keys' : List (Option NodeId × Nat)}

theorem KeysCounted.sublist (counted : KeysCounted st keys) (less : keys'.Sublist keys) :
    KeysCounted st keys' :=
  ⟨counted.distinct.sublist less, fun k member => counted.bound k (less.subset member)⟩

/-- The next reference to a definition gets the next number. -/
theorem resolveFootnote_counted (counted : KeysCounted st keys) (owner : NodeData) (i : NodeId)
    {cur : NodeData} (reference : cur.type = .footnoteReference) :
    KeysCounted (resolveFootnote P st owner i cur).1
      (keys ++ (exitsList .footnoteReference (resolveFootnote P st owner i cur).2).map footnoteKey) := by
  unfold resolveFootnote
  split
  next map entry _ =>
    have key : (exitsList .footnoteReference [Node.leaf i { cur with
        parentFootnoteDef := some entry.value, refIx := st.defCount entry.value + 1,
        as := .literal (decimal (if st.ix entry.value = 0 then st.lastIx + 1 else st.ix entry.value)) }]).map
          footnoteKey = [(some entry.value, st.defCount entry.value + 1)] := by
      simp [exitsList, Node.exits, Node.leaf, reference, footnoteKey]
    have more (j : NodeId) : st.defCount j ≤
        Function.update st.defCount entry.value (st.defCount entry.value + 1) j := by
      by_cases same : j = entry.value
      · rw [same, Function.update_self]
        exact Nat.le_succ _
      · rw [Function.update_of_ne same]
    dsimp only
    rw [key]
    constructor
    · rw [List.nodup_append]
      refine ⟨counted.distinct, List.nodup_singleton _, fun k member k' last same => ?_⟩
      obtain ⟨j, parent, _, bound⟩ := counted.bound k member
      rw [List.mem_singleton.mp last] at same
      rw [same] at parent bound
      obtain rfl : entry.value = j := Option.some.inj parent
      exact absurd bound (Nat.not_succ_le_self _)
    · intro k member
      rcases List.mem_append.mp member with before | last
      · obtain ⟨j, parent, positive, bound⟩ := counted.bound k before
        exact ⟨j, parent, positive, bound.trans (more j)⟩
      · rw [List.mem_singleton.mp last]
        refine ⟨entry.value, rfl, Nat.succ_pos _, ?_⟩
        have last : Function.update st.defCount entry.value (st.defCount entry.value + 1) entry.value =
            st.defCount entry.value + 1 := Function.update_self ..
        exact last.ge
  next map _ =>
    have none : exitsList .footnoteReference (if P.nodeCanContainType owner .text then [Node.leaf st.nextId
        { type := .text, as := .literal (lit "[^" ++ cur.as.getLiteral ++ lit "]") }] else []) = [] := by
      split <;> rfl
    dsimp only
    rw [none, List.map_nil, List.append_nil]
    exact ⟨counted.distinct, counted.bound⟩

mutual

/-- References below a node are counted one after the other. -/
theorem resolveFootnotes_counted {st : FootnoteState} {keys : List (Option NodeId × Nat)}
    (counted : KeysCounted st keys) : (n : Node) → (resolveFootnotes P st n).2.data = n.data ∧
    KeysCounted (resolveFootnotes P st n).1
      (keys ++ (exitsList .footnoteReference (resolveFootnotes P st n).2.children).map footnoteKey)
  | .mk _ d cs => ⟨rfl, resolveFootnotesList_counted counted d cs⟩

theorem resolveFootnotesList_counted {st : FootnoteState} {keys : List (Option NodeId × Nat)}
    (counted : KeysCounted st keys) (owner : NodeData) : (f : Forest) →
    KeysCounted (resolveFootnotesList P owner st f).1
      (keys ++ (exitsList .footnoteReference (resolveFootnotesList P owner st f).2).map footnoteKey)
  | [] => by
    rw [resolveFootnotesList, exitsList, List.map_nil, List.append_nil]
    exact counted
  | n :: ns => by
    obtain ⟨data, below⟩ := resolveFootnotes_counted counted n
    rw [resolveFootnotesList]
    generalize resolveFootnotes P st n = r at data below
    obtain ⟨st', n'⟩ := r
    dsimp only at data below ⊢
    split
    next reference =>
      -- what is below a reference goes with it
      have here := resolveFootnote_counted (P := P) (below.sublist (List.sublist_append_left _ _)) owner n'.id
        reference
      generalize resolveFootnote P st' owner n'.id n'.data = r at here
      obtain ⟨st'', resolved⟩ := r
      have rest := resolveFootnotesList_counted here owner ns
      rw [exitsList_append, List.map_append, ← List.append_assoc]
      exact rest
    next other =>
      have rest := resolveFootnotesList_counted below owner ns
      have same : exitsList .footnoteReference [n'] = exitsList .footnoteReference n'.children := by
        rw [exitsList, Node.exits_eq, if_neg other, List.append_nil, exitsList, List.append_nil]
      rw [exitsList_append, List.map_append, ← List.append_assoc, same]
      exact rest

end

end

/-! ### What is unlinked -/

section

variable {α : Type} {kept inner before left later after own self : Multiset α}

theorem kept_le (below : kept + inner ≤ before) (rest : left + later ≤ after) :
    kept + self + left + (inner + later) ≤ before + self + after := by
  calc kept + self + left + (inner + later) = kept + inner + self + (left + later) := by ac_rfl
    _ ≤ before + self + after := add_le_add (add_le_add_left below self) rest

theorem unlinked_le (below : kept + inner ≤ before) (rest : left + later ≤ after)
    (unlinked : own ≤ kept + self) : left + (inner + own + later) ≤ before + self + after := by
  calc left + (inner + own + later) ≤ left + (inner + (kept + self) + later) :=
        add_le_add_right (add_le_add_left (add_le_add_right unlinked inner) later) left
    _ = kept + self + left + (inner + later) := by ac_rfl
    _ ≤ before + self + after := kept_le below rest

end

section

variable {ids : List NodeId} {t : NodeType}

mutual

/-- Every node that is left after unlinking was there before, and unlinked ones go once. -/
theorem labels_unlinkAll_subperm : (n : Node) →
    ((exitsList t (n.unlinkAll ids).children ++ ((exitsList .footnoteDefinition n.children).filter fun d =>
      ids.contains d.id).flatMap fun d => (d.unlinkAll ids).exits t).map Node.label).Subperm
        ((exitsList t n.children).map Node.label)
  | .mk _ _ cs => labels_unlinkAllList_subperm cs

theorem labels_unlinkAllList_subperm : (f : Forest) →
    ((exitsList t (unlinkAllList ids f) ++ ((exitsList .footnoteDefinition f).filter fun d =>
      ids.contains d.id).flatMap fun d => (d.unlinkAll ids).exits t).map Node.label).Subperm
        ((exitsList t f).map Node.label)
  | [] => List.nil_subperm
  | n :: ns => by
    have below := labels_unlinkAll_subperm n
    have rest := labels_unlinkAllList_subperm ns
    have self : (if n.type = t then [n.unlinkAll ids] else []).map Node.label =
        (if n.type = t then [n] else []).map Node.label := by
      split
      next => rw [List.map_singleton, List.map_singleton, Node.label, id_unlinkAll, data_unlinkAll, Node.label]
      next => rfl
    have exits : ((n.unlinkAll ids).exits t).map Node.label =
        (exitsList t (n.unlinkAll ids).children).map Node.label ++
          (if n.type = t then [n] else []).map Node.label := by
      rw [Node.exits_eq, type_unlinkAll, List.map_append, self]
    rw [← Multiset.coe_le] at below rest ⊢
    rw [exitsList, exitsList, Node.exits_eq, Node.exits_eq, unlinkAllList, List.filter_append,
      List.filter_append, List.flatMap_append, List.flatMap_append]
    simp only [List.map_append, ← Multiset.coe_add] at below rest exits ⊢
    generalize ((exitsList t (n.unlinkAll ids).children).map Node.label : List _) = kept at below exits ⊢
    generalize (List.map Node.label (if n.type = t then [n] else [])) = self at exits ⊢
    generalize note : (((if n.type = .footnoteDefinition then [n] else []).filter fun d =>
      ids.contains d.id).flatMap fun d => (d.unlinkAll ids).exits t) = own
    generalize (List.map Node.label (List.flatMap _ (List.filter _ (exitsList _ n.children)))) = inner at below ⊢
    generalize (List.map Node.label (List.flatMap _ (List.filter _ (exitsList _ ns)))) = later at rest ⊢
    by_cases unlinked : ids.contains n.id = true
    · have note : Multiset.ofList (own.map Node.label) ≤ kept + self := by
        rw [← note]
        split
        next => simp [show n.id ∈ ids by simpa using unlinked, exits]
        next => exact Multiset.zero_le _
      rw [if_pos unlinked]
      exact unlinked_le below rest note
    · have nothing : own = [] := by
        rw [← note]
        split
        next => simp [show n.id ∉ ids by simpa using unlinked]
        next => rfl
      rw [if_neg unlinked, nothing, exitsList, List.map_append, exits, List.map_nil, ← Multiset.coe_add,
        ← Multiset.coe_add, Multiset.coe_nil, add_zero]
      exact kept_le below rest

end

end

/-! ### The footnote pass -/

section

variable {P : Config} {root : Node}

theorem exitsList_map {t : NodeType} {f : Forest} (g : Node → Node) :
    exitsList t (f.map g) = f.flatMap fun n => (g n).exits t := by
  induction f with
  | nil => rfl
  | cons n ns ih => rw [List.map_cons, exitsList, ih, List.flatMap_cons]

theorem footnoteKey_eq_label (r : Node) :
    footnoteKey r = (r.label.2.parentFootnoteDef, r.label.2.refIx) := rfl

theorem map_footnoteKey_eq_label (l : List Node) : l.map footnoteKey =
    (l.map Node.label).map fun e => (e.2.parentFootnoteDef, e.2.refIx) := by
  rw [List.map_map]
  rfl

theorem map_id_eq_label (l : List Node) : l.map Node.id = (l.map Node.label).map Prod.fst := by
  rw [List.map_map]
  rfl

/-- The definitions of the new document are ones of the old, and its references are among those that
have been counted. -/
theorem processFootnotes_distinct (nextId : NodeId) (nodes : root.All CoreNode)
    (document : root.type = .document) (distinct : ((root.exits .footnoteDefinition).map Node.id).Nodup) :
    (((processFootnotes P nextId root).exits .footnoteDefinition).map Node.id).Nodup ∧
      (((processFootnotes P nextId root).exits .footnoteReference).map footnoteKey).Nodup ∧
      ∀ r ∈ (processFootnotes P nextId root).exits .footnoteReference, 0 < r.data.refIx := by
  have within := mapWithin_collectFootnotes P.tables root
  unfold processFootnotes
  extract_lets map ids
  obtain ⟨_, _, _, exits⟩ :=
    resolveFootnotes_refers (P := P) { map := map, nextId := nextId } within root nodes
  have start : KeysCounted { map := map, nextId := nextId } [] := ⟨List.nodup_nil, nofun⟩
  obtain ⟨data, numbered⟩ := resolveFootnotes_counted (P := P) start root
  rw [List.nil_append] at numbered
  generalize resolveFootnotes P { map := map, nextId := nextId } root = r at exits data numbered
  obtain ⟨st, root'⟩ := r
  dsimp -zeta only at exits data numbered ⊢
  extract_lets counted definitions used
  have type (i : NodeId) (d : NodeData) : (st.writeDefCount i d).type = d.type := by
    unfold FootnoteState.writeDefCount
    split <;> rfl
  have isDocument : root'.type = .document := by
    rw [Node.type, data]
    exact document
  have isDocument' : counted.type = .document := by
    have same : counted.data.type = root'.data.type := by
      unfold counted
      rw [Node.mapData_eq, Node.data_mk, type]
    exact same.trans isDocument
  have left {t : NodeType} (other : t ≠ .document) : ((Node.exits t (.mk counted.id counted.data
      (unlinkAllList ids counted.children ++ used))).map Node.label).Subperm
        ((counted.exits t).map Node.label) := by
    have once := @labels_unlinkAll_subperm ids t counted
    rw [← exits_document isDocument' other, ← exits_document isDocument' (by decide),
      Node.unlinkAll_eq] at once
    apply List.Subperm.trans _ once
    rw [Node.exits, if_neg (fun same => other (same.symm.trans isDocument')), List.append_nil, exitsList_append]
    unfold used
    rw [exitsList_map, List.map_append, List.map_append]
    apply List.Subperm.append (List.Subperm.refl _)
    -- the definitions that are referred to are sorted
    have sorted : ((usedFootnotes st definitions).flatMap fun n => (n.unlinkAll ids).exits t).Subperm
        (definitions.flatMap fun n => (n.unlinkAll ids).exits t) :=
      ((List.mergeSort_perm _ _).flatMap_right _).subperm.trans (List.filter_sublist.flatMap _).subperm
    obtain ⟨m, perm, sublist⟩ := sorted
    exact ⟨m.map Node.label, perm.map _, sublist.map _⟩
  have keys : (counted.exits .footnoteReference).map footnoteKey =
      (exitsList .footnoteReference root'.children).map footnoteKey := by
    unfold counted
    rw [exits_mapData type, List.map_map, ← exits_document isDocument (by decide)]
    apply List.map_congr_left
    intro r member
    have reference : r.data.type = .footnoteReference := by
      rw [exits_eq_filter] at member
      exact of_decide_eq_true (List.mem_filter.mp member).2
    rw [Function.comp_apply, Node.mapData_eq, footnoteKey, Node.data_mk, FootnoteState.writeDefCount,
      if_neg (by rw [reference]; decide), footnoteKey]
  rw [← keys] at numbered
  refine ⟨?_, ?_, fun r member => ?_⟩
  · have ids : (counted.exits .footnoteDefinition).map Node.id = (root.exits .footnoteDefinition).map Node.id := by
      unfold counted
      rw [exits_mapData type, List.map_map, ← exits]
      apply List.map_congr_left
      intro n _
      rw [Function.comp_apply, Node.mapData_eq, Node.id_mk]
    rw [← ids, map_id_eq_label] at distinct
    rw [map_id_eq_label]
    exact nodup_map_of_subperm distinct (left (by decide))
  · have counted := numbered.distinct
    rw [map_footnoteKey_eq_label] at counted ⊢
    exact nodup_map_of_subperm counted (left (by decide))
  · obtain ⟨m, inTree, same⟩ := List.mem_map.mp ((left (by decide)).subset (List.mem_map_of_mem member))
    obtain ⟨_, _, positive, _⟩ := numbered.bound _ (List.mem_map_of_mem inTree)
    rwa [footnoteKey_eq_label, same] at positive

end

/-! ### The documents of the parser -/

theorem notesResolved_documentOf {P : Config} (core : P.syntaxExtensions = [])
    (footnotes : P.options.has optFootnotes) {callback : Option (UInt8 → Bool)} {chunks : List Bytes}
    (labels : ∀ d ∈ (parsedDocument P callback chunks).2.exits .footnoteDefinition,
      (normalizeMapLabel P.tables d.literal).isSome) :
    NotesResolved (documentOf P callback chunks) := by
  obtain ⟨nodes, document⟩ := coreNode_parsedDocument core callback chunks
  have tree := footnoteTree_parsedDocument core callback chunks
  obtain ⟨definitions, references, positive⟩ := processFootnotes_distinct (P := P)
    (parsedDocument P callback chunks).1.nextId nodes document tree.distinct
  have kept := (footnotesKept_core core footnotes callback chunks).kept
  have refers := refersTo_documentOf core footnotes callback chunks
  have keptDefinitions := kept .footnoteDefinition (by decide)
  have keptReferences := kept .footnoteReference (by decide)
  refine ⟨notesOnTop_documentOf core labels, ?_, ?_, fun r member => ⟨?_, ?_⟩⟩
  · rw [map_id_eq_label, keptDefinitions, ← map_id_eq_label]
    exact definitions
  · rw [map_footnoteKey_eq_label, keptReferences, ← map_footnoteKey_eq_label]
    exact references
  · have label := List.mem_map_of_mem (f := Node.label) member
    rw [keptReferences] at label
    obtain ⟨m, inTree, same⟩ := List.mem_map.mp label
    have counted := positive m inTree
    rw [show m.data = r.data from congrArg Prod.snd same] at counted
    exact counted
  · rw [exits_eq_filter] at member
    obtain ⟨inTree, type⟩ := List.mem_filter.mp member
    obtain ⟨f, parent, inDocument⟩ := (Node.All.of_mem _ refers inTree).here (of_decide_eq_true type)
    obtain ⟨d, definition, rfl⟩ := List.mem_map.mp inDocument
    exact ⟨d, definition, parent⟩

/-- The ids of the footnotes of a document are distinct if and only if the labels are when they are
escaped, and no label is that of another definition with the number of a reference to it. Extensions,
if there are any, leave the footnotes alone. -/
theorem documentOf_noteIds_nodup_iff {P : Config} (folds : FoldsToVisible P.tables)
    (footnotes : P.options.has optFootnotes) {callback : Option (UInt8 → Bool)} {chunks : List Bytes}
    (extensions : P.syntaxExtensions ≠ [] → NotesResolved (documentOf P callback chunks))
    {H : HtmlConfig} (literals : ∀ d ∈ (documentOf P callback chunks).exits .footnoteDefinition,
      H.literalAt d.id = some d.literal)
    {func : HtmlRenderFunc} (own : RendersOwn func) {place : Place} {r : HtmlRenderer}
    (rendered : renderHtmlWith H func place (documentOf P callback chunks) = .ok r) :
    (noteIds r.html).Nodup ↔ LabelsApart func (documentOf P callback chunks) := by
  apply noteIds_nodup_iff own _ literals rendered
  by_cases core : P.syntaxExtensions = []
  · apply notesResolved_documentOf core footnotes
    exact normalizes_definition folds (checkedNode_parsedDocument core callback chunks)
  · exact extensions core

/-- `process_footnotes` where the definitions stand in the order of their numbers. -/
theorem processFootnotes_of_sorted {P : Config} {nextId : NodeId} {root : Node} {st : FootnoteState} {mid : Node}
    (resolved : resolveFootnotes P { map := collectFootnotes P.tables root, nextId := nextId } root = (st, mid))
    (sorted : ((mid.mapData st.writeDefCount).exits .footnoteDefinition).Pairwise fun a b => st.ix a.id ≤ st.ix b.id) :
    processFootnotes P nextId root =
      let ids := (collectFootnotes P.tables root).refs.map (·.value)
      let root := mid.mapData st.writeDefCount
      .mk root.id root.data (unlinkAllList ids root.children ++
        (((root.exits .footnoteDefinition).filter fun n => ids.contains n.id).filter fun n => st.ix n.id != 0).map
          fun n => n.unlinkAll ids) := by
  unfold processFootnotes usedFootnotes
  dsimp only
  rw [resolved]
  dsimp only
  rw [List.mergeSort_of_pairwise]
  apply List.Pairwise.sublist (List.filter_sublist.trans List.filter_sublist)
  exact sorted.imp fun ordered => decide_eq_true ordered

/-- What the renderer writes for a document without extensions. -/
def renderDocument (P : Config) (document : Bytes) : Except RenderError HtmlRenderer :=
  let root := documentOf P none [document]
  renderHtmlWith { options := P.options, literalAt := literalIn root } (fun _ => none) {} root

/-- The ids of a definition and of its one reference. -/
theorem documentOf_noteIds_nodup_reference : ∃ r, renderDocument footnotesConfig referenceDocument = .ok r ∧
    ((noteIds r.html).Nodup ↔ LabelsApart (fun _ => none) (documentOf footnotesConfig none [referenceDocument])) := by
  have isOk : (renderDocument footnotesConfig referenceDocument).toOption.isSome = true := by decide +kernel
  cases rendered : renderDocument footnotesConfig referenceDocument with
  | error e =>
    rw [rendered] at isOk
    cases isOk
  | ok r =>
    exact ⟨r, rfl, documentOf_noteIds_nodup_iff (P := footnotesConfig) foldsToVisible_asciiTables (by decide)
      (fun some => absurd rfl some) (by decide +kernel) (fun d f none => by cases none) rendered⟩

/-- Two references to one definition, and another one with the label of the second. -/
def numberedLabelDocument : Bytes := lit "[^a] [^a] [^a-2]\n\n[^a]: x\n\n[^a-2]: y\n"

theorem noteIds_not_nodup : ∃ r, renderDocument footnotesConfig numberedLabelDocument = .ok r ∧
    ¬ (noteIds r.html).Nodup := by
  have core : footnotesConfig.syntaxExtensions = [] := rfl
  have inOrder : processFootnotes footnotesConfig
      (parsedDocument footnotesConfig none [numberedLabelDocument]).1.nextId
      (parsedDocument footnotesConfig none [numberedLabelDocument]).2 = _ :=
    processFootnotes_of_sorted Prod.mk.eta.symm (by decide +kernel)
  have distinct : (renderDocument footnotesConfig numberedLabelDocument).toOption.map
      (fun r => decide (noteIds r.html).Nodup) = some false := by
    unfold renderDocument
    rw [documentOf_core core, if_pos (by decide), inOrder]
    decide +kernel
  cases rendered : renderDocument footnotesConfig numberedLabelDocument with
  | error e =>
    rw [rendered] at distinct
    cases distinct
  | ok r =>
    rw [rendered] at distinct
    exact ⟨r, rfl, of_decide_eq_false (Option.some.inj distinct)⟩

end CmarkGfm
