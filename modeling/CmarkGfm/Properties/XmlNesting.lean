import CmarkGfm.Library.Element
import CmarkGfm.Render.Xml
import CmarkGfm.Properties.Escaping
import CmarkGfm.Properties.OwnedChunks
import CmarkGfm.Properties.HtmlNesting

/-!
# The nesting of XML

A document is written as a tree of elements, which has one element for every node. It can be read unless there are
footnotes, whose elements have no name, and documents with the same XML have the same elements.
-/

namespace CmarkGfm

open Markup
open Markup.Rules (IsName)

/-! ### The elements of nodes -/

/-- `cmark_node_get_type_string`, for a node of a core type. -/
def xmlName (d : NodeData) : Bytes := d.getTypeString.getD []

def xmlListAttributes (l : ListData) : List (Bytes × Bytes) :=
  (match l.listType with
    | .ordered =>
      [(lit "type", lit "ordered"), (lit "start", decimal l.start)] ++
        (match l.delimiter with
          | .paren => [(lit "delim", lit "paren")]
          | .period => [(lit "delim", lit "period")]
          | .noDelim => [])
    | .bullet => [(lit "type", lit "bullet")]
    | .noList => []) ++
  [(lit "tight", lit (if l.tight then "true" else "false"))]

/-- The attributes of a node, with their values before they are escaped. -/
def xmlAttributes (options : Options) (d : NodeData) : List (Bytes × Bytes) :=
  (if options.has optSourcepos && d.startLine != 0 then [(lit "sourcepos", sourceRange d)] else []) ++
  match d.type with
  | .document => [(lit "xmlns", lit "http://commonmark.org/xml/1.0")]
  | .text | .code | .htmlBlock | .htmlInline => [(lit "xml:space", lit "preserve")]
  | .list => xmlListAttributes d.as.getList
  | .heading => [(lit "level", decimal d.as.getLevel)]
  | .codeBlock =>
    (if d.as.getCode.info.isEmpty then [] else [(lit "info", d.as.getCode.info)]) ++
      [(lit "xml:space", lit "preserve")]
  | .customBlock | .customInline => [(lit "on_enter", d.as.getOnEnter), (lit "on_exit", d.as.getOnExit)]
  | .link | .image => [(lit "destination", d.as.getUrl), (lit "title", d.as.getTitle)]
  | _ => []

/-- The text in the element of a node. -/
def xmlText (d : NodeData) : Bytes :=
  match d.type with
  | .codeBlock => d.as.getCode.literal
  | _ => d.as.getLiteral

mutual

/-- The element of a node. -/
def Node.element (options : Options) : Node → Element
  | .mk _ d cs =>
    if d.type.writesLiteral then .text (xmlName d) (xmlAttributes options d) (xmlText d)
    else .node (xmlName d) (xmlAttributes options d) (elements options cs)

def elements (options : Options) : Forest → List Element
  | [] => []
  | n :: ns => n.element options :: elements options ns

end

/-- Values are escaped as in HTML, and every level is indented by two blanks up to `MAX_INDENT`. -/
def xmlLayout : TagLayout where
  escape s := escapeHtml0 s false
  blanks depth := (min (2 * (depth : Int)) maxIndent).toNat

theorem escapeHtml0_injective (secure : Bool) : Function.Injective (escapeHtml0 · secure) := by
  have back : Function.LeftInverse (unescapeHtml markupTables) (escapeHtml0 · secure) := by
    intro s
    have each (c : UInt8) := unescapeHtml_escapeHtmlByte (T := markupTables) (by decide) (by decide) (by decide)
      (by decide) (htmlEscaped secure c)
    show unescapeHtml markupTables (s.flatMap (escapeHtmlByte secure)) = s
    rw [unescapeHtml_flatMap each, List.flatMap_singleton']
  exact back.injective

theorem lawful_xmlLayout : xmlLayout.Lawful := ⟨fun s => plain_escapeHtml0 s false, escapeHtml0_injective false⟩

/-! ### The names of elements -/

/-- A node of a core type that is no footnote: `cmark_node_get_type_string` has a name for it. -/
def NamedNode (_ : NodeId) (d : NodeData) (_ : Forest) : Prop :=
  d.type ≠ .footnoteDefinition ∧ d.type ≠ .footnoteReference

theorem isName_of_check {name : Bytes} (legal : (name.head?.any isNameStart && name.tail.all isNameChar) = true) :
    IsName name := by
  cases name with
  | nil => cases legal
  | cons c rest =>
    simp only [List.head?_cons, Option.any_some, List.tail_cons, Bool.and_eq_true, List.all_eq_true] at legal
    exact ⟨c, rest, rfl, legal.1, legal.2⟩

theorem xmlName_cases {d : NodeData} (core : d.type.isCore) :
    (d.type ≠ .footnoteDefinition ∧ d.type ≠ .footnoteReference) ∧ IsName (xmlName d) ∨
      ¬(d.type ≠ .footnoteDefinition ∧ d.type ≠ .footnoteReference) ∧ xmlName d = lit "<unknown>" := by
  unfold xmlName NodeData.getTypeString
  cases type : d.type with
  | footnoteDefinition => exact .inr ⟨by simp, rfl⟩
  | footnoteReference => exact .inr ⟨by simp, rfl⟩
  | none => rw [type] at core; cases core
  | extensionBlock => rw [type] at core; cases core
  | extensionInline => rw [type] at core; cases core
  | _ => exact .inl ⟨by simp, isName_of_check (by decide)⟩

/-- The names of all attributes, in the order in which they are written. -/
def xmlAttributeNames : List Bytes :=
  [lit "sourcepos", lit "xmlns", lit "type", lit "start", lit "delim", lit "tight", lit "level", lit "info",
    lit "xml:space", lit "on_enter", lit "on_exit", lit "destination", lit "title"]

theorem xmlAttributes_sublist (options : Options) (d : NodeData) :
    List.Sublist ((xmlAttributes options d).map Prod.fst) xmlAttributeNames := by
  rw [xmlAttributes, List.map_append]
  change List.Sublist _ ([lit "sourcepos"] ++ xmlAttributeNames.tail)
  refine List.Sublist.append ?_ ?_
  · split
    next => exact List.Sublist.refl _
    next => exact List.nil_sublist _
  · cases d.type with
    | document => exact (by decide : List.Sublist [lit "xmlns"] xmlAttributeNames.tail)
    | text | code | htmlBlock | htmlInline => exact (by decide : List.Sublist [lit "xml:space"] xmlAttributeNames.tail)
    | list =>
      dsimp only
      unfold xmlListAttributes
      cases d.as.getList.listType with
      | ordered =>
        cases d.as.getList.delimiter with
        | noDelim => exact (by decide : List.Sublist [lit "type", lit "start", lit "tight"] xmlAttributeNames.tail)
        | period | paren =>
          exact (by decide : List.Sublist [lit "type", lit "start", lit "delim", lit "tight"] xmlAttributeNames.tail)
      | bullet => exact (by decide : List.Sublist [lit "type", lit "tight"] xmlAttributeNames.tail)
      | noList => exact (by decide : List.Sublist [lit "tight"] xmlAttributeNames.tail)
    | heading => exact (by decide : List.Sublist [lit "level"] xmlAttributeNames.tail)
    | codeBlock =>
      dsimp only
      split
      next => exact (by decide : List.Sublist [lit "xml:space"] xmlAttributeNames.tail)
      next => exact (by decide : List.Sublist [lit "info", lit "xml:space"] xmlAttributeNames.tail)
    | customBlock | customInline =>
      exact (by decide : List.Sublist [lit "on_enter", lit "on_exit"] xmlAttributeNames.tail)
    | link | image => exact (by decide : List.Sublist [lit "destination", lit "title"] xmlAttributeNames.tail)
    | _ => exact (by decide : List.Sublist ([] : List Bytes) xmlAttributeNames.tail)

/-- The attributes of a node have names, which are different. -/
theorem xmlAttributes_names (options : Options) (d : NodeData) :
    (∀ a ∈ xmlAttributes options d, IsName a.1) ∧ ((xmlAttributes options d).map Prod.fst).Nodup := by
  have inOrder := xmlAttributes_sublist options d
  have different : xmlAttributeNames.Nodup := by decide
  have legal : ∀ name ∈ xmlAttributeNames, (name.head?.any isNameStart && name.tail.all isNameChar) = true := by decide
  exact ⟨fun a member => isName_of_check (legal a.1 (inOrder.subset (List.mem_map_of_mem member))),
    different.sublist inOrder⟩

/-- Whether the tag of a node is legal depends on its name alone. -/
theorem legalTag_iff (options : Options) {d : NodeData} (core : d.type.isCore) :
    (LegalTag (xmlName d) (xmlAttributes options d) ↔ d.type ≠ .footnoteDefinition ∧ d.type ≠ .footnoteReference) ∧
      (LegalTag (xmlName d) (xmlAttributes options d) ∨ Broken (xmlName d)) := by
  obtain ⟨isNames, nodup⟩ := xmlAttributes_names options d
  rcases xmlName_cases core with ⟨named, isName⟩ | ⟨nameless, eq⟩
  · have legal : LegalTag (xmlName d) (xmlAttributes options d) := ⟨isName, isNames, nodup⟩
    exact ⟨iff_of_true legal named, .inl legal⟩
  · have illegal : ¬LegalTag (xmlName d) (xmlAttributes options d) := by
      rintro ⟨⟨c, rest, same, first, -⟩, -, -⟩
      rw [eq] at same
      rw [← (List.cons.inj same).1] at first
      cases first
    refine ⟨iff_of_false illegal nameless, .inr ?_⟩
    rw [eq]
    exact ⟨chr '<', lit "unknown>", rfl, by decide, by decide, by decide⟩

/-! ### What is written -/

/-- A node of a core type, without children if the iterator takes it for a leaf. -/
def XmlNode (i : NodeId) (d : NodeData) (cs : Forest) : Prop := d.type.isCore ∧ LeafChildless i d cs

theorem NodeType.isLeaf_of_writesLiteral {t : NodeType} (literal : t.writesLiteral) : t.isLeaf := by
  revert literal
  cases t <;> simp [NodeType.writesLiteral, NodeType.isLeaf]

mutual

theorem all_element (options : Options) : (n : Node) → n.All XmlNode →
    ((n.element options).All LegalTag ↔ n.All NamedNode) ∧
      (n.element options).All fun name attributes => LegalTag name attributes ∨ Broken name
  | .mk i d cs, ⟨⟨core, leaf⟩, below⟩ => by
    obtain ⟨legal, each⟩ := legalTag_iff options core
    obtain ⟨legals, eachBelow⟩ := all_elements options cs below
    rw [Node.element]
    split
    next literal =>
      rw [leaf (NodeType.isLeaf_of_writesLiteral literal)]
      exact ⟨by simp [Element.All, Node.All, AllList, NamedNode, legal], each⟩
    next => exact ⟨and_congr legal legals, each, eachBelow⟩

theorem all_elements (options : Options) : (f : Forest) → AllList XmlNode f →
    (AllElements LegalTag (elements options f) ↔ AllList NamedNode f) ∧
      AllElements (fun name attributes => LegalTag name attributes ∨ Broken name) (elements options f)
  | [], _ => ⟨Iff.rfl, trivial⟩
  | n :: ns, ⟨here, later⟩ => by
    obtain ⟨legal, each⟩ := all_element options n here
    obtain ⟨legals, eachLater⟩ := all_elements options ns later
    exact ⟨and_congr legal legals, each, eachLater⟩

end

/-- What a call adds. -/
def XmlCall.bytes : XmlCall → Bytes
  | .puts (some s) => s
  | .escapeXml source => escapeHtml0 source false
  | _ => []

/-- A call that adds a string. -/
def XmlCall.writes : XmlCall → Bool
  | .puts (some _) | .escapeXml _ => true
  | _ => false

theorem run_writes {calls : List XmlCall} (writes : ∀ c ∈ calls, c.writes = true) (r : XmlRenderer) :
    calls.foldlM XmlCall.run r = .ok { r with xml := r.xml ++ calls.flatMap XmlCall.bytes } := by
  induction calls generalizing r with
  | nil => simp [pure, Except.pure]
  | cons call rest ih =>
    obtain ⟨here, later⟩ := List.forall_mem_cons.mp writes
    have run : call.run r = .ok { r with xml := r.xml ++ call.bytes } := by
      cases call with
      | puts s =>
        cases s with
        | none => cases here
        | some s => rfl
      | escapeXml source => rfl
      | indent => cases here
      | indentBy n => cases here
    rw [List.foldlM_cons, run]
    exact (ih later _).trans (by simp)

/-- Digits and what is between them need no escape. -/
theorem escapeHtml0_plain {s : Bytes} (plain : ∀ c ∈ s, 45 ≤ c ∧ c ≤ 58) : escapeHtml0 s false = s := by
  have each : ∀ c : UInt8, 45 ≤ c ∧ c ≤ 58 → escapeHtmlByte false c = [c] := forall_byte (by decide +kernel)
  calc s.flatMap (escapeHtmlByte false)
      = s.flatMap fun c => [c] := List.flatMap_congr fun c member => each c (plain c member)
    _ = s := List.flatMap_singleton' s

theorem bytes_number (s : String) (name : Bytes) {v : Bytes} (opening : lit s = 32 :: name ++ [61, 34])
    (plain : escapeHtml0 v false = v) :
    [XmlCall.text s, .puts (some v), XmlCall.text "\""].flatMap XmlCall.bytes = xmlLayout.attributeText (name, v) := by
  change lit s ++ (v ++ ([34] ++ [])) = 32 :: name ++ [61, 34] ++ (escapeHtml0 v false ++ [34])
  rw [opening, plain, List.append_nil]

theorem bytes_xmlAttribute (s : String) (name : Bytes) {v : Bytes} (opening : lit s = 32 :: name ++ [61, 34]) :
    (xmlAttribute s v).flatMap XmlCall.bytes = xmlLayout.attributeText (name, v) := by
  change lit s ++ (escapeHtml0 v false ++ ([34] ++ [])) = 32 :: name ++ [61, 34] ++ (escapeHtml0 v false ++ [34])
  rw [opening, List.append_nil]

theorem digits_decimal (n : Nat) : ∀ c ∈ decimal n, 45 ≤ c ∧ c ≤ 58 := by
  intro c member
  obtain ⟨-, -, -, -, low, high⟩ := digit_of_mem_decimal member
  exact ⟨UInt8.le_iff_toNat_le.mpr (Nat.le_trans (by decide) low),
    UInt8.le_iff_toNat_le.mpr (Nat.le_trans high (by decide))⟩

theorem escapeHtml0_decimal (n : Nat) : escapeHtml0 (decimal n) false = decimal n :=
  escapeHtml0_plain (digits_decimal n)

theorem escapeHtml0_sourceRange (d : NodeData) : escapeHtml0 (sourceRange d) false = sourceRange d := by
  have number (n : Int) : ∀ c ∈ printInt n, 45 ≤ c ∧ c ≤ 58 := by
    cases n with
    | ofNat n => exact digits_decimal n
    | negSucc n => exact List.forall_mem_cons.mpr ⟨by decide, digits_decimal _⟩
  apply escapeHtml0_plain
  unfold sourceRange
  simp only [List.forall_mem_append, List.forall_mem_cons]
  exact ⟨⟨⟨number _, by decide, number _⟩, by decide, number _⟩, by decide, number _⟩

theorem bytes_puts (s : Option Bytes) : (XmlCall.puts s).bytes = s.getD [] := by cases s <;> rfl

/-- The call for the position of a node. -/
def xmlPosition (options : Options) (d : NodeData) : List XmlCall :=
  if options.has optSourcepos && d.startLine != 0 then
    [XmlCall.text " sourcepos=\"", .puts (some (sourceRange d)), XmlCall.text "\""] else []

/-- The attributes of a list. -/
theorem bytes_xmlList (l : ListData) :
    (xmlList l).flatMap XmlCall.bytes = (xmlListAttributes l).flatMap xmlLayout.attributeText := by
  unfold xmlList xmlListAttributes
  have tight : [XmlCall.text " tight=\"", XmlCall.text (if l.tight then "true" else "false"),
      XmlCall.text "\""].flatMap XmlCall.bytes =
        [(lit "tight", lit (if l.tight then "true" else "false"))].flatMap xmlLayout.attributeText := by
    cases l.tight <;> decide
  have start := bytes_number " start=\"" (lit "start") (by decide) (escapeHtml0_decimal l.start)
  have constant (s : String) (name value : Bytes)
      (eq : lit s = 32 :: name ++ [61, 34] ++ (escapeHtml0 value false ++ [34])) :
      [XmlCall.text s].flatMap XmlCall.bytes = [(name, value)].flatMap xmlLayout.attributeText := by
    change lit s ++ [] = (32 :: name ++ [61, 34] ++ (escapeHtml0 value false ++ [34])) ++ []
    rw [eq]
  have ordered := constant " type=\"ordered\"" (lit "type") (lit "ordered") (by decide)
  have bullet := constant " type=\"bullet\"" (lit "type") (lit "bullet") (by decide)
  have paren := constant " delim=\"paren\"" (lit "delim") (lit "paren") (by decide)
  have period := constant " delim=\"period\"" (lit "delim") (lit "period") (by decide)
  rw [List.flatMap_append, List.flatMap_append, tight]
  congr 1
  cases l.listType with
  | noList => rfl
  | bullet => exact bullet
  | ordered =>
    dsimp only
    rw [List.flatMap_append, List.flatMap_append]
    have front : [XmlCall.text " type=\"ordered\"", XmlCall.text " start=\"", XmlCall.number l.start,
        XmlCall.text "\""].flatMap XmlCall.bytes =
          [(lit "type", lit "ordered"), (lit "start", decimal l.start)].flatMap xmlLayout.attributeText := by
      rw [List.flatMap_cons, List.flatMap_cons, ← List.append_nil (XmlCall.bytes _)]
      exact congrArg₂ (· ++ ·) ordered (start.trans (List.append_nil _).symm)
    rw [front]
    congr 1
    cases l.delimiter with
    | noDelim => rfl
    | period => exact period
    | paren => exact paren

theorem bytes_xmlNode (options : Options) (d : NodeData) :
    (xmlPosition options d ++ xmlNode d).flatMap XmlCall.bytes =
      (xmlAttributes options d).flatMap xmlLayout.attributeText ++
        (if d.type.writesLiteral then 62 :: (escapeHtml0 (xmlText d) false ++ (60 :: 47 :: xmlName d)) else []) := by
  have position : (xmlPosition options d).flatMap XmlCall.bytes =
      (if options.has optSourcepos && d.startLine != 0 then [(lit "sourcepos", sourceRange d)] else []).flatMap
        xmlLayout.attributeText := by
    unfold xmlPosition
    split
    next =>
      exact (bytes_number _ (lit "sourcepos") (by decide) (escapeHtml0_sourceRange d)).trans (List.append_nil _).symm
    next => rfl
  have literal (source : Bytes) : (xmlLiteral d source).flatMap XmlCall.bytes =
      [(lit "xml:space", lit "preserve")].flatMap xmlLayout.attributeText ++
        (62 :: (escapeHtml0 source false ++ (60 :: 47 :: xmlName d))) := by
    have preserve : [(lit "xml:space", lit "preserve")].flatMap xmlLayout.attributeText ++ [62] =
        lit " xml:space=\"preserve\">" := by decide
    change lit " xml:space=\"preserve\">" ++ (escapeHtml0 source false ++ (lit "</" ++ (XmlCall.bytes _ ++ []))) = _
    rw [← preserve, bytes_puts, List.append_nil, List.append_assoc]
    rfl
  rw [List.flatMap_append, position, xmlAttributes, List.flatMap_append, List.append_assoc]
  congr 1
  unfold xmlNode xmlText
  cases type : d.type with
  | document =>
    exact (by decide : [XmlCall.text " xmlns=\"http://commonmark.org/xml/1.0\""].flatMap XmlCall.bytes =
      [(lit "xmlns", lit "http://commonmark.org/xml/1.0")].flatMap xmlLayout.attributeText ++ [])
  | text | code | htmlBlock | htmlInline => exact literal d.as.getLiteral
  | list =>
    exact (bytes_xmlList d.as.getList).trans (List.append_nil _).symm
  | heading =>
    exact (bytes_number _ (lit "level") (by decide) (escapeHtml0_decimal d.as.getLevel)).trans
      (by simp [NodeType.writesLiteral])
  | codeBlock =>
    dsimp only
    rw [List.flatMap_append, List.flatMap_append, List.append_assoc]
    split
    next => exact literal d.as.getCode.literal
    next =>
      rw [bytes_xmlAttribute _ (lit "info") (by decide), literal]
      simp [NodeType.writesLiteral]
  | customBlock | customInline =>
    dsimp only
    rw [List.flatMap_append, bytes_xmlAttribute _ (lit "on_enter") (by decide),
      bytes_xmlAttribute _ (lit "on_exit") (by decide)]
    simp [NodeType.writesLiteral]
  | link | image =>
    dsimp only
    rw [List.flatMap_append, bytes_xmlAttribute _ (lit "destination") (by decide),
      bytes_xmlAttribute _ (lit "title") (by decide)]
    simp [NodeType.writesLiteral]
  | _ => rfl

@[simp] theorem writes_text (s : String) : (XmlCall.text s).writes = true := rfl

@[simp] theorem writes_some (s : Bytes) : (XmlCall.puts (some s)).writes = true := rfl

@[simp] theorem writes_number (n : Nat) : (XmlCall.number n).writes = true := rfl

@[simp] theorem writes_escapeXml (source : Bytes) : (XmlCall.escapeXml source).writes = true := rfl

@[simp] theorem writes_type (d : NodeData) : (XmlCall.puts d.getTypeString).writes = true := by
  unfold NodeData.getTypeString
  split <;> rfl

theorem writes_xmlNode (d : NodeData) : ∀ c ∈ xmlNode d, c.writes = true := by
  have literal (source : Bytes) : ∀ c ∈ xmlLiteral d source, c.writes = true := by
    simp [xmlLiteral]
  unfold xmlNode
  cases d.type with
  | list =>
    dsimp only
    unfold xmlList
    cases d.as.getList.listType with
    | ordered => cases d.as.getList.delimiter <;> simp
    | _ => simp
  | codeBlock =>
    dsimp only
    split
    next => simpa using literal d.as.getCode.literal
    next =>
      rw [List.forall_mem_append]
      exact ⟨by simp [xmlAttribute], literal d.as.getCode.literal⟩
  | text | code | htmlBlock | htmlInline => exact literal d.as.getLiteral
  | _ => simp [xmlAttribute]

variable {options : Options} {place : Place} {i : NodeId} {d : NodeData} {cs : Forest} {k : Nat} {r : XmlRenderer}

/-- The calls before the end of the first tag, or of the only line. -/
theorem run_opening (options : Options) (d : NodeData) (indent : r.indent = 2 * k) (rest : List XmlCall) :
    (XmlCall.indent :: ([XmlCall.text "<", .puts d.getTypeString] ++ (xmlPosition options d ++ xmlNode d)) ++
        rest).foldlM XmlCall.run r =
      rest.foldlM XmlCall.run { r with
        xml := r.xml ++ (xmlLayout.opening k (xmlName d) (xmlAttributes options d) ++
          (if d.type.writesLiteral then 62 :: (escapeHtml0 (xmlText d) false ++ (60 :: 47 :: xmlName d))
            else [])) } := by
  have writes : ∀ c ∈ [XmlCall.text "<", .puts d.getTypeString] ++ (xmlPosition options d ++ xmlNode d),
      c.writes = true := by
    have position : ∀ c ∈ xmlPosition options d, c.writes = true := by
      unfold xmlPosition
      split <;> simp
    rw [List.forall_mem_append, List.forall_mem_append]
    exact ⟨by simp, position, writes_xmlNode d⟩
  have blanks : List.replicate (min r.indent maxIndent).toNat 32 = xmlLayout.indent k := by
    rw [indent]
    rfl
  rw [List.cons_append, List.foldlM_cons]
  change List.foldlM XmlCall.run { r with xml := r.xml ++ List.replicate (min r.indent maxIndent).toNat 32 } _ = _
  rw [List.foldlM_append, run_writes writes, List.flatMap_append, bytes_xmlNode, blanks]
  have tag : [XmlCall.text "<", .puts d.getTypeString].flatMap XmlCall.bytes = 60 :: xmlName d := by
    change lit "<" ++ (XmlCall.bytes _ ++ []) = _
    rw [bytes_puts, List.append_nil]
    rfl
  rw [tag, TagLayout.opening]
  simp [bind, Except.bind]

theorem run_enter (options : Options) (place : Place) (indent : r.indent = 2 * k) :
    (xmlRenderNode options ⟨true, .mk i d cs, place⟩).foldlM XmlCall.run r =
      .ok ⟨r.xml ++ (xmlLayout.opening k (xmlName d) (xmlAttributes options d) ++
          ((if d.type.writesLiteral then 62 :: (escapeHtml0 (xmlText d) false ++ (60 :: 47 :: xmlName d)) else []) ++
            (if cs.isEmpty && !d.type.writesLiteral then [32, 47, 62, 10] else [62, 10]))),
        if cs.isEmpty then r.indent else r.indent + 2⟩ := by
  have calls : xmlRenderNode options ⟨true, .mk i d cs, place⟩ =
      (XmlCall.indent :: ([XmlCall.text "<", .puts d.getTypeString] ++ (xmlPosition options d ++ xmlNode d))) ++
        ((if !cs.isEmpty then [XmlCall.indentBy 2] else if d.type.writesLiteral then [] else [XmlCall.text " /"]) ++
          [XmlCall.text ">\n"]) := by
    unfold xmlRenderNode xmlPosition
    simp only [Node.data, Node.children, if_true, List.append_assoc, List.cons_append, List.nil_append]
    rfl
  rw [calls, run_opening options d indent]
  cases cs.isEmpty <;> cases d.type.writesLiteral <;> simp [bind, Except.bind, pure, Except.pure, XmlCall.run,
    XmlCall.text, List.foldlM_cons] <;> rfl

theorem run_leave (options : Options) (place : Place) (indent : r.indent = 2 * ((k + 1 : Nat) : Int))
    (nonempty : cs.isEmpty = false) :
    (xmlRenderNode options ⟨false, .mk i d cs, place⟩).foldlM XmlCall.run r =
      .ok ⟨r.xml ++ (xmlLayout.indent k ++ TagLayout.closing (xmlName d)), 2 * k⟩ := by
  have calls : xmlRenderNode options ⟨false, .mk i d cs, place⟩ =
      [XmlCall.indentBy (-2), .indent] ++ [XmlCall.text "</", .puts d.getTypeString, XmlCall.text ">\n"] := by
    simp [xmlRenderNode, Node.data, Node.children, nonempty]
  have writes : ∀ c ∈ [XmlCall.text "</", .puts d.getTypeString, XmlCall.text ">\n"], c.writes = true := by simp
  have blanks : [XmlCall.indentBy (-2), .indent].foldlM XmlCall.run r =
      .ok ⟨r.xml ++ xmlLayout.indent k, 2 * k⟩ := by
    have back : r.indent + -2 = 2 * k := by omega
    change Except.ok (XmlRenderer.mk (r.xml ++ List.replicate (min (r.indent + -2) maxIndent).toNat 32)
      (r.indent + -2)) = _
    rw [back]
    rfl
  have bytes : [XmlCall.text "</", .puts d.getTypeString, XmlCall.text ">\n"].flatMap XmlCall.bytes =
      TagLayout.closing (xmlName d) := by
    change lit "</" ++ (XmlCall.bytes _ ++ (lit ">\n" ++ [])) = _
    rw [bytes_puts]
    rfl
  rw [calls, List.foldlM_append, blanks]
  change List.foldlM XmlCall.run _ _ = _
  rw [run_writes writes, bytes, List.append_assoc]

mutual

/-- The events of a node write its element. -/
theorem run_visits (options : Options) (place : Place) {k : Nat} {r : XmlRenderer} (indent : r.indent = 2 * k) :
    (n : Node) → n.All XmlNode →
      (n.visits place).foldlM (fun r v => (xmlRenderNode options v).foldlM XmlCall.run r) r =
        .ok { r with xml := r.xml ++ xmlLayout.write k (n.element options) }
  | .mk i d cs, ⟨⟨_, leaf⟩, below⟩ => by
    rw [Node.visits, Node.element]
    by_cases isLeaf : d.type.isLeaf
    · have none := leaf isLeaf
      subst none
      rw [if_pos isLeaf, List.foldlM_cons, run_enter options place indent]
      by_cases literal : d.type.writesLiteral
      · simp [literal, TagLayout.write, TagLayout.closing, xmlLayout, bind, Except.bind, pure, Except.pure]
      · simp [literal, TagLayout.write, elements, bind, Except.bind, pure, Except.pure]
    · have noText : d.type.writesLiteral = false := by
        revert isLeaf
        cases d.type <;> simp [NodeType.writesLiteral, NodeType.isLeaf]
      rw [if_neg isLeaf, noText, List.foldlM_cons, run_enter options place indent]
      change List.foldlM _ _ _ = _
      rw [List.foldlM_append]
      by_cases none : cs.isEmpty
      · -- a node without children has one line
        have nil := List.isEmpty_iff.mp none
        subst nil
        simp [noText, xmlRenderNode, visitsFrom, Node.children, elements, TagLayout.write, bind, Except.bind, pure,
          Except.pure]
      · have nonempty : cs.isEmpty = false := by simpa using none
        have some : (elements options cs).isEmpty = false := by
          cases cs with
          | nil => cases nonempty
          | cons n ns => rfl
        simp only [nonempty, Bool.false_and, Bool.false_eq_true, if_false]
        have deeper : r.indent + 2 = 2 * ((k + 1 : Nat) : Int) := by omega
        rw [run_visitsFrom options place d deeper [] cs below]
        simp only [bind, Except.bind, List.foldlM_cons]
        rw [run_leave options place deeper nonempty, TagLayout.write, some, indent]
        simp [noText, pure, Except.pure]

theorem run_visitsFrom (options : Options) (place : Place) (d : NodeData) {k : Nat} {r : XmlRenderer}
    (indent : r.indent = 2 * k) (before : Forest) : (f : Forest) → AllList XmlNode f →
      (visitsFrom place d before f).foldlM (fun r v => (xmlRenderNode options v).foldlM XmlCall.run r) r =
        .ok { r with xml := r.xml ++ xmlLayout.writeAll k (elements options f) }
  | [], _ => by simp [visitsFrom, elements, TagLayout.writeAll, pure, Except.pure]
  | n :: ns, ⟨here, later⟩ => by
    rw [visitsFrom, List.foldlM_append, run_visits options _ indent n here]
    have rest := run_visitsFrom options place d (r := ⟨r.xml ++ xmlLayout.write k (n.element options), r.indent⟩) indent
      (n :: before) ns later
    rw [elements, TagLayout.writeAll, ← List.append_assoc]
    exact rest

end

/-! ### The XML of a tree -/

/-- What is before the root element. -/
def xmlProlog : Bytes :=
  lit "<?xml version=\"1.0\" encoding=\"UTF-8\"?>\n" ++ lit "<!DOCTYPE document SYSTEM \"CommonMark.dtd\">\n"

theorem renderXml_element (options : Options) {root : Node} (all : root.All XmlNode) :
    renderXml options root = .ok (xmlProlog ++ xmlLayout.write 0 (root.element options)) := by
  have run := run_visits options {} (k := 0) (r := { xml := xmlProlog }) rfl root all
  calc renderXml options root
      = ((root.visits {}).foldlM (fun r v => (xmlRenderNode options v).foldlM XmlCall.run r) { xml := xmlProlog }) >>=
          fun r => .ok r.xml := rfl
    _ = .ok (xmlProlog ++ xmlLayout.write 0 (root.element options)) := by
      rw [run]
      rfl

theorem all_namedNode_iff (root : Node) : root.All NamedNode ↔
    ∀ m ∈ root.postorder, m.type ≠ .footnoteDefinition ∧ m.type ≠ .footnoteReference :=
  ⟨fun all _ inTree => (Node.All.of_mem _ all inTree).here, fun named => all_of_postorder root named⟩

theorem xmlNode_of_coreNode {i : NodeId} {d : NodeData} {cs : Forest} (node : CoreNode i d cs) : XmlNode i d cs := by
  refine ⟨?_, leafChildless_of_coreNode node⟩
  have core := node.core
  cases type : d.type <;> first | rfl | (rw [type] at core; simp [NodeType.isCoreBlock, NodeType.isCoreInline] at core)

/-- The XML of a document is one element behind the prolog, with legal tags that are closed in nested order, unless
there are footnotes in it: the elements of these have no name. -/
theorem renderXml_documentOf {P : Config} (core : P.syntaxExtensions = []) (callback : Option (UInt8 → Bool))
    (chunks : List Bytes) (options : Options) :
    ∃ body, renderXml options (documentOf P callback chunks) = .ok (xmlProlog ++ body) ∧
      (OneElement body ↔ ∀ m ∈ (documentOf P callback chunks).postorder,
        m.type ≠ .footnoteDefinition ∧ m.type ≠ .footnoteReference) := by
  have all : (documentOf P callback chunks).All XmlNode :=
    Node.All.imp xmlNode_of_coreNode _ (coreNode_documentOf core callback chunks).1
  obtain ⟨legal, each⟩ := all_element options _ all
  exact ⟨_, renderXml_element options all,
    (oneElement_write_iff lawful_xmlLayout rfl each).trans (legal.trans (all_namedNode_iff _))⟩

theorem renderXml_documentOf_paragraph :
    ∃ body, renderXml 0 (documentOf { tables := asciiTables, options := 0 } none [lit "a\n"]) =
      .ok (xmlProlog ++ body) ∧ OneElement body := by
  obtain ⟨body, written, legal⟩ :=
    renderXml_documentOf (P := { tables := asciiTables, options := 0 }) rfl none [lit "a\n"] 0
  exact ⟨body, written, legal.mpr (by decide +kernel)⟩

/-! ### Documents with the same XML -/

mutual

/-- The nodes have the same types, and the same values in what is written of them. -/
def Node.SameXml (options : Options) : Node → Node → Prop
  | .mk _ d cs, .mk _ e ds => d.type = e.type ∧ xmlAttributes options d = xmlAttributes options e ∧
      (d.type.writesLiteral → xmlText d = xmlText e) ∧ SameXmlList options cs ds

def SameXmlList (options : Options) : Forest → Forest → Prop
  | [], [] => True
  | n :: ns, m :: ms => n.SameXml options m ∧ SameXmlList options ns ms
  | _, _ => False

end

/-- The types whose elements have names. -/
def namedTypes : List NodeType :=
  [.document, .blockQuote, .list, .item, .codeBlock, .htmlBlock, .customBlock, .paragraph, .heading, .thematicBreak,
    .text, .softbreak, .linebreak, .code, .htmlInline, .customInline, .emph, .strong, .link, .image, .attribute]

theorem type_of_xmlName {d e : NodeData} (core : d.type.isCore) (core' : e.type.isCore)
    (named : d.type ≠ .footnoteDefinition ∧ d.type ≠ .footnoteReference)
    (named' : e.type ≠ .footnoteDefinition ∧ e.type ≠ .footnoteReference) (same : xmlName d = xmlName e) :
    d.type = e.type := by
  have isNamed {d : NodeData} (core : d.type.isCore)
      (named : d.type ≠ .footnoteDefinition ∧ d.type ≠ .footnoteReference) : d.type ∈ namedTypes := by
    revert core named
    cases d.type <;> simp [NodeType.isCore, namedTypes]
  have different : ∀ t ∈ namedTypes, ∀ u ∈ namedTypes,
      xmlName (makeBlock t 0 0) = xmlName (makeBlock u 0 0) → t = u := by decide +kernel
  exact different _ (isNamed core named) _ (isNamed core' named') same

theorem xmlName_of_type {d e : NodeData} (same : d.type = e.type) : xmlName d = xmlName e := by
  unfold xmlName NodeData.getTypeString
  rw [same]

mutual

/-- The elements of nodes are the same where the nodes are the same in what is written of them. -/
theorem element_eq_iff (options : Options) : (n m : Node) → n.All XmlNode → m.All XmlNode → n.All NamedNode →
    m.All NamedNode → (n.element options = m.element options ↔ n.SameXml options m)
  | .mk _ d cs, .mk _ e ds, ⟨⟨core, leaf⟩, below⟩, ⟨⟨core', leaf'⟩, below'⟩, ⟨named, later⟩, ⟨named', later'⟩ => by
    have names : xmlName d = xmlName e ↔ d.type = e.type :=
      ⟨type_of_xmlName core core' named named', xmlName_of_type⟩
    rw [Node.element, Node.element, Node.SameXml]
    by_cases literal : d.type.writesLiteral <;> by_cases literal' : e.type.writesLiteral
    · have none := leaf (NodeType.isLeaf_of_writesLiteral literal)
      have none' := leaf' (NodeType.isLeaf_of_writesLiteral literal')
      rw [if_pos literal, if_pos literal', none, none', Element.text.injEq, names]
      simp [literal, SameXmlList]
    · rw [if_pos literal, if_neg literal']
      exact iff_of_false (by simp) fun same => literal' (same.1 ▸ literal)
    · rw [if_neg literal, if_pos literal']
      exact iff_of_false (by simp) fun same => literal (same.1 ▸ literal')
    · rw [if_neg literal, if_neg literal', Element.node.injEq, names,
        elements_eq_iff options cs ds below below' later later']
      simp [literal]

theorem elements_eq_iff (options : Options) : (f g : Forest) → AllList XmlNode f → AllList XmlNode g →
    AllList NamedNode f → AllList NamedNode g → (elements options f = elements options g ↔ SameXmlList options f g)
  | [], [], _, _, _, _ => by simp [SameXmlList]
  | [], m :: ms, _, _, _, _ => by simp [SameXmlList, elements]
  | n :: ns, [], _, _, _, _ => by simp [SameXmlList, elements]
  | n :: ns, m :: ms, ⟨here, later⟩, ⟨here', later'⟩, ⟨named, others⟩, ⟨named', others'⟩ => by
    rw [elements, elements, SameXmlList, List.cons.injEq, element_eq_iff options n m here here' named named',
      elements_eq_iff options ns ms later later' others others']

end

/-- XML determines a tree up to what is not written: two documents without footnotes have the same XML where their
nodes have the same types, attributes and texts, and only there. -/
theorem renderXml_eq_iff {P P' : Config} (core : P.syntaxExtensions = []) (core' : P'.syntaxExtensions = [])
    {callback callback' : Option (UInt8 → Bool)} {chunks chunks' : List Bytes}
    (named : ∀ m ∈ (documentOf P callback chunks).postorder,
      m.type ≠ .footnoteDefinition ∧ m.type ≠ .footnoteReference)
    (named' : ∀ m ∈ (documentOf P' callback' chunks').postorder,
      m.type ≠ .footnoteDefinition ∧ m.type ≠ .footnoteReference) (options : Options) :
    renderXml options (documentOf P callback chunks) = renderXml options (documentOf P' callback' chunks') ↔
      (documentOf P callback chunks).SameXml options (documentOf P' callback' chunks') := by
  have all : (documentOf P callback chunks).All XmlNode :=
    Node.All.imp xmlNode_of_coreNode _ (coreNode_documentOf core callback chunks).1
  have all' : (documentOf P' callback' chunks').All XmlNode :=
    Node.All.imp xmlNode_of_coreNode _ (coreNode_documentOf core' callback' chunks').1
  rw [← all_namedNode_iff] at named named'
  rw [renderXml_element options all, renderXml_element options all', ← element_eq_iff options _ _ all all' named named']
  constructor
  · intro same
    rw [Except.ok.injEq, List.append_cancel_left_eq] at same
    have legal := (all_element options _ all).1.mpr named
    have legal' := (all_element options _ all').1.mpr named'
    exact (TagLayout.write_inj lawful_xmlLayout _ _ legal legal' (congrArg (· ++ []) same)).1
  · intro same
    rw [same]

/-- Emphasis with stars and with underscores. -/
def starDocument : Bytes := lit "- *a*\n"

def underscoreDocument : Bytes := lit "- _a_\n"

/-- The kind of delimiter is not written, but whether there are two of them is. -/
theorem renderXml_eq_emphasis : ∃ stars underscores strong : Node,
    stars = documentOf { tables := asciiTables, options := 0 } none [starDocument] ∧
    underscores = documentOf { tables := asciiTables, options := 0 } none [underscoreDocument] ∧
    strong = documentOf { tables := asciiTables, options := 0 } none [lit "- **a**\n"] ∧
      stars.SameXml 0 underscores ∧ ¬ stars.SameXml 0 strong := by
  let P : Config := { tables := asciiTables, options := 0 }
  have noNotes : ∀ document ∈ [starDocument, underscoreDocument, lit "- **a**\n"],
      ∀ m ∈ (documentOf P none [document]).postorder,
        m.type ≠ .footnoteDefinition ∧ m.type ≠ .footnoteReference := by decide +kernel
  have kind := @renderXml_eq_iff P P rfl rfl none none [starDocument] [underscoreDocument]
    (noNotes starDocument (by simp)) (noNotes underscoreDocument (by simp)) 0
  have number := @renderXml_eq_iff P P rfl rfl none none [starDocument] [lit "- **a**\n"]
    (noNotes starDocument (by simp)) (noNotes (lit "- **a**\n") (by simp)) 0
  have same : renderXml 0 (documentOf P none [starDocument]) = renderXml 0 (documentOf P none [underscoreDocument]) := by
    decide +kernel
  have other : renderXml 0 (documentOf P none [starDocument]) ≠ renderXml 0 (documentOf P none [lit "- **a**\n"]) := by
    decide +kernel
  -- the trees themselves are not to be computed here
  generalize documentOf P none [lit "- **a**\n"] = strong at number other
  generalize documentOf P none [underscoreDocument] = underscores at kind same
  generalize documentOf P none [starDocument] = stars at kind number same other
  exact ⟨stars, underscores, strong, rfl, rfl, rfl, kind.mp same, fun alike => other (number.mpr alike)⟩

end CmarkGfm
