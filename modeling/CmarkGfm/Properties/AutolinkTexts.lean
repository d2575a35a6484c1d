import CmarkGfm.Properties.InlineExtensions
import CmarkGfm.Properties.LinkedText

/-!
# Autolinks keep the text

The texts of a paragraph and of the links in it are those that the paragraph has without the extension. Each pass
after the inline parser keeps them: there are no footnotes to resolve, merging text nodes appends their texts, and
the parts into which a text is split follow one another.
-/

namespace CmarkGfm

mutual

/-- The texts of a tree, in order. -/
def Node.texts : Node → Bytes
  | .mk _ d children => (if d.type = .text then d.as.getLiteral else []) ++ textsList children

def textsList : Forest → Bytes
  | [] => []
  | n :: ns => n.texts ++ textsList ns

end

theorem PlainTexts.textsList {f : Forest} {s : Bytes} (texts : PlainTexts f s) : textsList f = s := by
  induction texts with
  | nil => rfl
  | cons type literal later ih => simp [CmarkGfm.textsList, Node.leaf, Node.texts, type, literal, NodeAs.getLiteral, ih]

theorem LinkedTexts.textsList {f : Forest} {s : Bytes} (linked : LinkedTexts f s) : textsList f = s := by
  induction linked with
  | nil => rfl
  | text type literal later ih =>
    simp [CmarkGfm.textsList, Node.leaf, Node.texts, type, literal, NodeAs.getLiteral, ih]
  | link type texts later ih => simp [CmarkGfm.textsList, Node.texts, type, texts.textsList, ih]

theorem LinkedTexts.types {f : Forest} {s : Bytes} (linked : LinkedTexts f s) :
    ∀ n ∈ f, n.type = .text ∨ n.type = .link := by
  induction linked with
  | nil => simp
  | text type literal later ih =>
    rw [List.forall_mem_cons]
    exact ⟨.inl type, ih⟩
  | link type texts later ih =>
    rw [List.forall_mem_cons]
    exact ⟨.inr type, ih⟩

/-! ### Footnotes -/

/-- Neither a definition nor a reference. -/
def NoNote (_ : NodeId) (d : NodeData) (_ : Forest) : Prop := d.type ≠ .footnoteDefinition ∧ d.type ≠ .footnoteReference

mutual

theorem resolveFootnotes_noNote (P : Config) (st : FootnoteState) : (n : Node) → n.All NoNote →
    resolveFootnotes P st n = (st, n)
  | .mk i d children, noNote => by rw [resolveFootnotes, resolveFootnotesList_noNote P d st children noNote.2]

theorem resolveFootnotesList_noNote (P : Config) (owner : NodeData) (st : FootnoteState) : (f : Forest) →
    AllList NoNote f → resolveFootnotesList P owner st f = (st, f)
  | [], _ => rfl
  | .mk i d children :: ns, noNote => by
    have other : (Node.mk i d children).type ≠ .footnoteReference := noNote.1.1.2
    rw [resolveFootnotesList, resolveFootnotes_noNote P st _ noNote.1]
    dsimp only
    rw [if_neg other]
    dsimp only
    rw [resolveFootnotesList_noNote P owner st ns noNote.2]
    rfl

end

mutual

theorem mapData_noNote (st : FootnoteState) : (n : Node) → n.All NoNote → n.mapData st.writeDefCount = n
  | .mk i d children, noNote => by
    rw [Node.mapData, mapDataList_noNote st children noNote.2, FootnoteState.writeDefCount, if_neg noNote.1.1]

theorem mapDataList_noNote (st : FootnoteState) : (f : Forest) → AllList NoNote f →
    mapDataList st.writeDefCount f = f
  | [], _ => rfl
  | n :: ns, noNote => by rw [mapDataList, mapData_noNote st n noNote.1, mapDataList_noNote st ns noNote.2]

end

mutual

theorem unlinkAll_nil : (n : Node) → n.unlinkAll [] = n
  | .mk i d children => by rw [Node.unlinkAll, unlinkAllList_nil children]

theorem unlinkAllList_nil : (f : Forest) → unlinkAllList [] f = f
  | [] => rfl
  | n :: ns => by
    rw [unlinkAllList, unlinkAll_nil n, unlinkAllList_nil ns]
    rfl

end

/-- Without footnotes there is nothing to number and nothing to move. -/
theorem processFootnotes_noNote (P : Config) (nextId : NodeId) {root : Node} (none : root.All NoNote) :
    processFootnotes P nextId root = root := by
  have definitions : root.exits .footnoteDefinition = [] := by
    rw [exits_eq_filter, List.filter_eq_nil_iff]
    intro m member
    have other : m.type ≠ .footnoteDefinition := (Node.All.of_mem root none member).here.1
    simpa using other
  have map : collectFootnotes P.tables root = .new := by
    rw [collectFootnotes, definitions]
    rfl
  have used (st : FootnoteState) : usedFootnotes st [] = [] := by simp [usedFootnotes]
  have ids : (Map.new : Map NodeId).refs.map (·.value) = [] := rfl
  unfold processFootnotes
  dsimp only
  rw [map, resolveFootnotes_noNote P _ root none]
  dsimp only
  rw [mapData_noNote _ root none, ids, definitions, unlinkAllList_nil, List.filter_nil, used, List.map_nil,
    List.append_nil]
  obtain ⟨i, d, children⟩ := root
  rfl

theorem PlainTexts.noNote {f : Forest} {s : Bytes} (texts : PlainTexts f s) : AllList NoNote f := by
  induction texts with
  | nil => trivial
  | cons type literal later ih => exact ⟨⟨⟨by rw [type]; decide, by rw [type]; decide⟩, trivial⟩, ih⟩

theorem LinkedTexts.noNote {f : Forest} {s : Bytes} (linked : LinkedTexts f s) : AllList NoNote f := by
  induction linked with
  | nil => trivial
  | text type literal later ih => exact ⟨⟨⟨by rw [type]; decide, by rw [type]; decide⟩, trivial⟩, ih⟩
  | link type texts later ih => exact ⟨⟨⟨by rw [type]; decide, by rw [type]; decide⟩, texts.noNote⟩, ih⟩

/-! ### Merging text nodes -/

/-- A text in front is merged with the text behind it. -/
theorem LinkedTexts.cons_text {i : NodeId} {d : NodeData} {s : Bytes} {f : Forest} {rest : Bytes} (type : d.type = .text)
    (literal : d.as = .literal s) (later : LinkedTexts (consolidateList f) rest) :
    LinkedTexts (consolidateList (.leaf i d :: f)) (s ++ rest) := by
  have alone : consolidateTextNodes (.leaf i d) = .mk i d [] := rfl
  rw [consolidateList, alone]
  generalize consolidateList f = g at later
  cases later with
  | nil => exact .text type literal .nil
  | @text j e t g rest type' literal' later =>
    dsimp only [Node.leaf]
    rw [if_pos ⟨type, type'⟩, ← List.append_assoc]
    refine .text (d := mergeText d e) type ?_ later
    rw [mergeText, literal, literal']
    rfl
  | @link j e t below g rest type' texts later =>
    have other : ¬ (d.type = .text ∧ e.type = .text) := by
      rw [type']
      simp
    dsimp only
    rw [if_neg other]
    exact .text type literal (.link type' texts later)

theorem PlainTexts.consolidate {f : Forest} {s : Bytes} (texts : PlainTexts f s) : PlainTexts (consolidateList f) s := by
  rcases consolidateList_plainTexts texts with ⟨nothing, rfl⟩ | ⟨i, d, merged, type, literal⟩
  · rw [nothing]
    exact .nil
  · rw [merged]
    exact .single type literal

theorem LinkedTexts.consolidate {f : Forest} {s : Bytes} (linked : LinkedTexts f s) :
    LinkedTexts (consolidateList f) s := by
  induction linked with
  | nil => exact .nil
  | text type literal later ih => exact .cons_text type literal ih
  | @link i d s below f rest type texts later ih =>
    have alone : consolidateTextNodes (.mk i d below) = .mk i d (consolidateList below) := by rw [consolidateTextNodes]
    have kept : consolidateList (.mk i d below :: f) = .mk i d (consolidateList below) :: consolidateList f := by
      rw [consolidateList, alone]
      have other : d.type ≠ .text := by
        rw [type]
        decide
      cases consolidateList below with
      | cons m ms => cases consolidateList f <;> rfl
      | nil =>
        cases consolidateList f with
        | nil => rfl
        | cons n ns =>
          obtain ⟨j, e, cs⟩ := n
          dsimp only
          rw [if_neg (by simp [other])]
    rw [kept]
    exact .link type texts.consolidate ih

/-! ### The parts of a text -/

theorem Search.start_le_stop {data : Bytes} {offset maxRewind start stop : Nat} {protocols : Protocols} {a : Address}
    {url : Bytes} (search : Search data offset maxRewind protocols a) (found : a = .link start stop url) : start ≤ stop := by
  induction search with
  | skip _ => cases found
  | again _ _ _ _ ih => exact ih found
  | link _ _ _ _ _ =>
    cases found
    omega

/-- The parts follow one another, and the first one is a text. -/
theorem postprocessLoop_spec (fuel : Nat) (remaining : Bytes) (offset : Nat) :
    (postprocessLoop fuel remaining offset).flatMap TextPiece.literal = remaining ∧
      ∃ first tail, postprocessLoop fuel remaining offset = .text first :: tail := by
  induction fuel generalizing remaining offset with
  | zero => exact ⟨List.append_nil _, _, _, rfl⟩
  | succ fuel ih =>
    rw [postprocessLoop]
    cases found : findAddress remaining offset with
    | none => exact ⟨List.append_nil _, _, _, rfl⟩
    | some a =>
      cases a with
      | skip offset' => exact ih remaining offset'
      | link start stop url =>
        obtain ⟨maxRewind, _, search⟩ := search_findAddress found
        have forward := search.start_le_stop rfl
        refine ⟨?_, _, _, rfl⟩
        dsimp only
        rw [List.flatMap_cons, List.flatMap_cons, (ih _ _).1]
        show remaining.take start ++ (chunkDup remaining start (stop - start) ++ remaining.drop stop) = remaining
        rw [← List.append_assoc, take_append_chunkDup remaining forward, List.take_append_drop]

theorem linkedTexts_pieceNodes (nextId : NodeId) (pieces : List TextPiece) :
    LinkedTexts (pieceNodes nextId pieces).2 (pieces.flatMap TextPiece.literal) := by
  induction pieces generalizing nextId with
  | nil => exact .nil
  | cons piece pieces ih =>
    rw [List.flatMap_cons]
    cases piece with
    | text literal => exact .text rfl rfl (ih (nextId + 2))
    | link url literal => exact .link rfl (.single rfl rfl) (ih (nextId + 2))

/-- A block that may have both texts and links below it. -/
structure TakesLinks (contains : NodeData → NodeType → Bool) (owner : NodeData) : Prop where
  link : contains owner .link = true
  text : contains owner .text = true

theorem linkedTexts_splitText {contains : NodeData → NodeType → Bool} {owner : NodeData}
    (takes : TakesLinks contains owner) (nextId : NodeId) {i : NodeId} {d : NodeData} {s : Bytes} (type : d.type = .text)
    (literal : d.as = .literal s) : LinkedTexts (splitText contains owner nextId (.leaf i d)).2 s := by
  have text : (Node.leaf i d).literal = s := by
    rw [Node.literal, Node.data_leaf, literal]
    rfl
  obtain ⟨joined, first, tail, split⟩ := postprocessLoop_spec s.length s 0
  rw [split, List.flatMap_cons] at joined
  have pieces : postprocessText s = .text first :: tail := split
  have nodes := linkedTexts_pieceNodes nextId tail
  have head := LinkedTexts.text (i := i) (d := setLiteral first d) type rfl nodes
  have whole : first ++ tail.flatMap TextPiece.literal = s := joined
  rw [whole] at head
  unfold splitText
  rw [text, pieces, takes.link, takes.text]
  exact head

/-- Nothing changes in a link. -/
theorem postprocessNodes_inLink {contains : NodeData → NodeType → Bool} {owner : NodeData} {walk : LinkWalk}
    (inLink : walk.inLink = true) {f : Forest} {s : Bytes} (texts : PlainTexts f s) :
    postprocessNodes contains owner walk f = (walk, f) := by
  induction texts with
  | nil => rw [postprocessNodes]
  | @cons i d s f rest type literal later ih =>
    have leaf : postprocessNode contains walk (.leaf i d) = (walk, .leaf i d) := by
      rw [Node.leaf, postprocessNode, if_pos (by rw [type]; rfl)]
    rw [postprocessNodes, inLink, Bool.not_true, Bool.and_false, if_neg Bool.false_ne_true, leaf]
    dsimp only
    rw [ih]
    rfl

theorem LinkedTexts.postprocess {contains : NodeData → NodeType → Bool} {owner : NodeData}
    (takes : TakesLinks contains owner) {f : Forest} {s : Bytes} (linked : LinkedTexts f s) {walk : LinkWalk}
    (outside : walk.inLink = false) : LinkedTexts (postprocessNodes contains owner walk f).2 s := by
  induction linked generalizing walk with
  | nil =>
    rw [postprocessNodes]
    exact .nil
  | @text i d s f rest type literal later ih =>
    have split := linkedTexts_splitText takes walk.nextId (i := i) type literal
    have isText : ((Node.leaf i d).type = .text && !walk.inLink) = true := by
      have text : (Node.leaf i d).type = .text := type
      simp [text, outside]
    rw [postprocessNodes, if_pos isText]
    generalize splitText contains owner walk.nextId (.leaf i d) = r at split
    obtain ⟨nextId, nodes⟩ := r
    exact split.append (ih outside)
  | @link i d s below f rest type texts later ih =>
    have other : ((Node.mk i d below).type = .text && !walk.inLink) = false := by
      have notText : (Node.mk i d below).type ≠ .text := by
        show d.type ≠ .text
        rw [type]
        decide
      simp [notText]
    have kept : postprocessNode contains walk (.mk i d below) = ({ walk with inLink := false }, .mk i d below) := by
      rw [postprocessNode, if_neg (by rw [type]; decide), if_pos type]
      dsimp only
      rw [postprocessNodes_inLink rfl texts]
      dsimp only
      rw [if_pos type]
    rw [postprocessNodes, other, if_neg Bool.false_ne_true, kept]
    exact .link type texts (ih rfl)

/-! ### The document -/

/-- One line of text, with no byte that begins anything else. -/
def PlainLine (s : Bytes) : Prop := ∃ line, (s = line ∨ s = line ++ [10]) ∧ ∀ c ∈ line, isOrdinary c = true ∧ c ≠ 10

theorem verbatim_of_plainLine {P : Config} (notSmart : P.options.has optSmart = false) {s : Bytes} (plain : PlainLine s) :
    Verbatim P (inlineContent P s) := by
  obtain ⟨line, whole, bytes⟩ := plain
  unfold inlineContent
  cases preserves : P.options.has optPreserveWhitespace with
  | true =>
    refine ⟨notSmart, ?_, .inl preserves⟩
    rw [if_pos rfl]
    rcases whole with rfl | rfl
    · exact fun c member => (bytes c member).1
    · rw [List.forall_mem_append]
      exact ⟨fun c member => (bytes c member).1, by decide⟩
  | false =>
    -- the line feed is a space at the end
    have trimmed : chunkRtrim s = chunkRtrim line := by
      rcases whole with rfl | rfl
      · rfl
      · exact rdropWhile_append_of_pos (by decide)
    have kept (c : UInt8) (member : c ∈ chunkRtrim line) : isOrdinary c = true ∧ c ≠ 10 :=
      bytes c ((List.rdropWhile_prefix isspace line).subset member)
    rw [if_neg Bool.false_ne_true, trimmed]
    exact ⟨notSmart, fun c member => (kept c member).1, .inr fun c member => (kept c member).2⟩

theorem inlineOnly_withAutolink (T : Tables) (options : Options) :
    ∀ e ∈ (withAutolink T options).syntaxExtensions, e.InlineOnly := by
  intro e member
  rw [List.mem_singleton.mp member]
  exact ⟨rfl, rfl, rfl⟩

/-- What becomes of a document with one paragraph. -/
theorem documentOf_paragraph {P : Config} {callback : Option (UInt8 → Bool)} {chunks : List Bytes} {i j : NodeId}
    {d e : NodeData} (blocks : documentBlocks P callback chunks = .mk i d [.mk j e []])
    (document : containsInlines P d = false) (paragraph : containsInlines P e = true) :
    ∃ chars st nextId, documentOf P callback chunks =
      finishDocument P nextId (.mk i d [.mk j e (parseBlockInlines P chars st e []).2]) := by
  obtain ⟨chars, st, whole⟩ := documentOf_blocks P callback chunks
  have parsed : (processInlines P chars st (.mk i d [.mk j e []])).2 =
      .mk i d [.mk j e (parseBlockInlines P chars st e []).2] := by
    rw [processInlines, document, if_neg Bool.false_ne_true, processInlinesList, processInlines, paragraph, if_pos rfl]
    rfl
  rw [blocks, parsed] at whole
  exact ⟨chars, st, _, whole⟩

section

variable {i j : NodeId} {d e : NodeData} (document : d.type = .document) (paragraph : e.type = .paragraph)
  {f : Forest} {s : Bytes}

theorem consolidateTextNodes_paragraph :
    consolidateTextNodes (.mk i d [.mk j e f]) = .mk i d [.mk j e (consolidateList f)] := by
  rw [consolidateTextNodes, consolidateList, consolidateTextNodes]
  cases consolidateList f <;> rfl

include document paragraph

/-- The passes behind the inline parser, up to the extensions. -/
theorem finishDocument_paragraph (P : Config) (nextId : NodeId) (linked : LinkedTexts f s) :
    finishDocument P nextId (.mk i d [.mk j e f]) = postprocess P (.mk i d [.mk j e (consolidateList f)]) := by
  have noNote : (Node.mk i d [.mk j e f]).All NoNote := by
    refine ⟨⟨?_, ?_⟩, ⟨⟨?_, ?_⟩, linked.noNote⟩, trivial⟩
    · rw [document]
      decide
    · rw [document]
      decide
    · rw [paragraph]
      decide
    · rw [paragraph]
      decide
  rw [finishDocument, processFootnotes_noNote P nextId noNote, ite_self, consolidateTextNodes_paragraph]

/-- Splitting the texts changes nothing but the children of the paragraph. -/
theorem postprocess_autolink (T : Tables) (options : Options) (linked : LinkedTexts f s) :
    ∃ links, postprocess (withAutolink T options) (.mk i d [.mk j e f]) = .mk i d [.mk j e links] ∧
      LinkedTexts links s := by
  have takes : TakesLinks (fun node childType => node.type.canContainType childType) e := by
    constructor
    · rw [paragraph]
      rfl
    · rw [paragraph]
      rfl
  have split (walk : LinkWalk) (outside : walk.inLink = false) :
      ∃ links, (postprocessNode (fun node childType => node.type.canContainType childType) walk
        (.mk i d [.mk j e (consolidateList f)])).2 = .mk i d [.mk j e links] ∧ LinkedTexts links s := by
    refine ⟨_, ?_, linked.consolidate.postprocess takes outside⟩
    have document' : d.type.isLeaf = false ∧ d.type ≠ .link := by
      rw [document]
      decide
    have paragraph' : e.type.isLeaf = false ∧ e.type ≠ .link ∧ e.type ≠ .text := by
      rw [paragraph]
      decide
    have notText : (Node.mk j e (consolidateList f)).type ≠ .text := paragraph'.2.2
    simp [postprocessNode, postprocessNodes, document', paragraph', notText]
  obtain ⟨links, here, kept⟩ := split { nextId := (consolidateTextNodes (.mk i d [.mk j e f])).maxId + 1 } rfl
  refine ⟨links, ?_, kept⟩
  rw [← here, ← consolidateTextNodes_paragraph]
  rfl

end

/-- Without smart punctuation the extension keeps the text of a line: the paragraph has text nodes and links, whose
texts in order are those without the extension. -/
theorem documentOf_autolink_texts (T : Tables) {options : Options} (notSmart : options.has optSmart = false)
    (callback : Option (UInt8 → Bool)) (chunks : List Bytes) {i j : NodeId} {d e : NodeData}
    (blocks : documentBlocks (bareParser T options) callback chunks = .mk i d [.mk j e []])
    (paragraph : e.type = .paragraph) (line : PlainLine e.content) :
    ∃ texts links, documentOf (bareParser T options) callback chunks = .mk i d [.mk j e texts] ∧
      documentOf (withAutolink T options) callback chunks = .mk i d [.mk j e links] ∧
      (∀ n ∈ links, n.type = .text ∨ n.type = .link) ∧ textsList links = textsList texts := by
  have inlineOnly := inlineOnly_withAutolink T options
  have document : d.type = .document := by
    have root := documentBlocks_type T options callback chunks
    rw [blocks] at root
    exact root
  have blocks' : documentBlocks (withAutolink T options) callback chunks = .mk i d [.mk j e []] :=
    (documentBlocks_inlineOnly inlineOnly T options callback chunks).trans blocks
  have documentInlines : containsInlines (bareParser T options) d = false := by
    rw [containsInlines, extensionOf_core rfl, document]
    rfl
  have paragraphInlines : containsInlines (bareParser T options) e = true := by
    rw [containsInlines, extensionOf_core rfl, paragraph]
    rfl
  have same : containsInlines (withAutolink T options) = containsInlines (bareParser T options) :=
    containsInlines_inlineOnly inlineOnly
  obtain ⟨chars, st, nextId, plain⟩ := documentOf_paragraph blocks documentInlines paragraphInlines
  obtain ⟨chars', st', nextId', linked⟩ := documentOf_paragraph blocks' (same ▸ documentInlines) (same ▸ paragraphInlines)
  have texts := parseBlockInlines_ordinary (P := bareParser T options) rfl chars st
    (verbatim_of_plainLine notSmart line)
  have links := parseBlockInlines_autolink chars' st' (verbatim_of_plainLine (P := withAutolink T options) notSmart line)
  rw [finishDocument_paragraph document paragraph _ _ texts.linked] at plain
  rw [finishDocument_paragraph document paragraph _ _ links] at linked
  obtain ⟨split, here, kept⟩ := postprocess_autolink document paragraph T options links.consolidate
  refine ⟨_, split, plain, linked.trans here, kept.types, ?_⟩
  rw [kept.textsList, texts.consolidate.textsList]
  rfl

/-- A document whose only child is a paragraph. -/
theorem eq_paragraph (root : Node) (content : Bytes)
    (only : root.children.map (fun n => (n.type, n.data.content, n.children.length)) = [(.paragraph, content, 0)]) :
    ∃ i d j e, root = .mk i d [.mk j e []] ∧ e.type = .paragraph ∧ e.content = content := by
  obtain ⟨i, d, children⟩ := root
  obtain ⟨n, rfl, same⟩ := List.map_eq_singleton_iff.mp only
  obtain ⟨j, e, below⟩ := n
  simp only [Prod.mk.injEq] at same
  obtain ⟨type, text, none⟩ := same
  obtain rfl : below = [] := List.eq_nil_of_length_eq_zero none
  exact ⟨i, d, j, e, rfl, type, text⟩

/-- Links of each kind, with what is trimmed off them. -/
theorem documentOf_autolink_texts_kinds :
    let line := lit "see (www.a.b), http://c.d/e?. 'mailto:f@g.h' x@y.z"
    ∃ i d j e texts links, documentOf (bareParser asciiTables 0) none [line] = .mk i d [.mk j e texts] ∧
      documentOf (withAutolink asciiTables 0) none [line] = .mk i d [.mk j e links] ∧
      (∀ n ∈ links, n.type = .text ∨ n.type = .link) ∧ textsList links = textsList texts := by
  intro line
  obtain ⟨i, d, j, e, blocks, paragraph, content⟩ :=
    eq_paragraph (documentBlocks (bareParser asciiTables 0) none [line]) (line ++ [10]) (by decide +kernel)
  have plain : PlainLine e.content := ⟨line, .inr content, by decide +kernel⟩
  exact ⟨i, d, j, e, documentOf_autolink_texts asciiTables (by decide) none [line] blocks paragraph plain⟩

/-- With smart punctuation a link has the bytes of the line for its text, where there was a dash without it. -/
theorem smart_dash_lost :
    let line := lit "www.a--b.com"
    (∃ i d j e, documentBlocks (bareParser asciiTables optSmart) none [line] = .mk i d [.mk j e []] ∧
      e.type = .paragraph ∧ PlainLine e.content) ∧
      (documentOf (withAutolink asciiTables optSmart) none [line]).texts ≠
        (documentOf (bareParser asciiTables optSmart) none [line]).texts := by
  intro line
  obtain ⟨i, d, j, e, blocks, paragraph, content⟩ :=
    eq_paragraph (documentBlocks (bareParser asciiTables optSmart) none [line]) (line ++ [10]) (by decide +kernel)
  exact ⟨⟨i, d, j, e, blocks, paragraph, line, .inr content, by decide +kernel⟩, by decide +kernel⟩

end CmarkGfm
