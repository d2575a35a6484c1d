import CmarkGfm.Properties.HtmlPointers
import CmarkGfm.Properties.PrefixStack
import CmarkGfm.Render.Latex
import CmarkGfm.Render.Man
import CmarkGfm.Render.Xml

/-!
# Renderers that get to the end

Every renderer knows every node of a document, and every string that it puts out has a value. The
exception is the man renderer, which asks a node for attributes for its literal.
-/

namespace CmarkGfm

/-- All renderers get to the end of the tree: there is no node that they do not know, and no string
that they put out is NULL. -/
structure RenderedByAll (options : Options) (width : Int) (root : Node) : Prop where
  html : ∃ r, renderHtml { options := options, literalAt := literalIn root } {} root = .ok r
  xml : ∃ out, renderXml options root = .ok out
  man : ∃ out, renderMan options width root = .ok out
  latex : ∃ out, renderLatex options width root = .ok out
  commonmark : ∃ out, renderCommonmark (literalIn root) options width root = .ok out
  plaintext : ∃ out, renderPlaintext options width root = .ok out

/-! ### Runs of calls -/

section

variable {outc : Outc} {calls : List Call}

theorem run_quiet {c : Call} (quiet : c.Quiet) (r : Renderer) : ∃ r', c.run outc r = .ok r' := by
  cases c with
  | out origin source wrap escape =>
    cases source with
    | none => exact quiet.elim
    | some source => exact ⟨_, rfl⟩
  | pushPrefix | popPrefix | fail => exact quiet.elim
  | _ => exact ⟨_, rfl⟩

theorem runs_quiet (quiet : ∀ c ∈ calls, c.Quiet) (r : Renderer) : ∃ r', calls.foldlM (Call.run outc) r = .ok r' := by
  induction calls generalizing r with
  | nil => exact ⟨r, rfl⟩
  | cons c calls ih =>
    rw [List.forall_mem_cons] at quiet
    obtain ⟨r', run⟩ := @run_quiet outc c quiet.1 r
    rw [List.foldlM_cons, run]
    exact ih quiet.2 r'

end

section

variable {F : Format} {options : Options} {vs : List Visit}

theorem renderVisits_quiet (quiet : ∀ v ∈ vs, ∀ r, ∀ c ∈ F.renderNode options r v, c.Quiet) (r : Renderer) :
    ∃ r', F.renderVisits options vs r = .ok r' := by
  unfold Format.renderVisits
  induction vs generalizing r with
  | nil => exact ⟨r, rfl⟩
  | cons v vs ih =>
    rw [List.forall_mem_cons] at quiet
    obtain ⟨r', run⟩ := @runs_quiet F.outc _ (quiet.1 r) r
    rw [List.foldlM_cons, Format.renderVisit, run]
    exact ih quiet.2 r'

/-- At an event that fails a run does not get to the end. -/
theorem renderVisits_fails {v : Visit} (member : v ∈ vs) (fails : ∀ r, ∃ e, F.renderVisit options r v = .error e)
    (r : Renderer) : ∃ e, F.renderVisits options vs r = .error e := by
  unfold Format.renderVisits
  induction vs generalizing r with
  | nil => cases member
  | cons w vs ih =>
    rw [List.foldlM_cons]
    rcases List.mem_cons.mp member with rfl | later
    · obtain ⟨e, failed⟩ := fails r
      exact ⟨e, by rw [failed]; rfl⟩
    · cases F.renderVisit options r w with
      | error e => exact ⟨e, rfl⟩
      | ok r' => exact ih later r'

theorem render_ok {width : Int} {root : Node}
    (runs : ∃ r', F.renderVisits options (root.visitsSkipping F.skipsContents {}) { width := width } = .ok r') :
    ∃ out, F.render options width root = .ok out := by
  obtain ⟨r', run⟩ := runs
  unfold Format.render
  rw [run]
  exact ⟨_, rfl⟩

end

/-! ### latex.c -/

theorem quiet_latex {v : Visit} (core : v.node.type.isCoreBlock ∨ v.node.type.isCoreInline) (options : Options)
    (r : Renderer) : ∀ c ∈ latexRenderNode options r v, c.Quiet := by
  change v.node.data.type.isCoreBlock ∨ v.node.data.type.isCoreInline at core
  have literal := exists_literal (d := v.node.data)
  unfold latexRenderNode
  dsimp only
  cases type : v.node.data.type with
  | none | extensionBlock | extensionInline =>
    rw [type] at core
    simp [NodeType.isCoreBlock, NodeType.isCoreInline] at core
  | codeBlock | text | code =>
    obtain ⟨s, found⟩ := literal (by simp [type])
    rw [found]
    simp
  | list =>
    dsimp only
    unfold listCalls setcounterCalls
    dsimp only
    split_ifs <;> simp
  | heading =>
    dsimp only
    unfold headingCommand
    split
    next => split <;> simp
    next => simp
  | link =>
    dsimp only
    unfold linkOpening
    dsimp only
    split
    next => split <;> simp
    next => simp
  | blockQuote | item | paragraph | softbreak | strong | image =>
    dsimp only
    split_ifs <;> simp
  | _ => simp

/-! ### man.c -/

theorem quiet_man {v : Visit} (core : v.node.type.isCoreBlock ∨ v.node.type.isCoreInline)
    (other : v.node.type ≠ .attribute) (options : Options) (r : Renderer) :
    ∀ c ∈ manRenderNode options r v, c.Quiet := by
  change v.node.data.type.isCoreBlock ∨ v.node.data.type.isCoreInline at core
  change v.node.data.type ≠ .attribute at other
  have literal := exists_literal (d := v.node.data)
  unfold manRenderNode
  dsimp only
  cases type : v.node.data.type with
  | none | extensionBlock | extensionInline =>
    rw [type] at core
    simp [NodeType.isCoreBlock, NodeType.isCoreInline] at core
  | «attribute» => exact absurd type other
  | codeBlock | text | code =>
    obtain ⟨s, found⟩ := literal (by simp [type])
    rw [found]
    simp
  | item | heading | paragraph | softbreak | strong | link =>
    dsimp only [manLinebreak]
    split_ifs <;> simp
  | _ => simp [manLinebreak]

/-- `cmark_node_get_literal` of a node for attributes is NULL. -/
theorem man_attribute {v : Visit} (type : v.node.type = .attribute) (options : Options) (r : Renderer) :
    man.renderVisit options r v = .error .nullPointer := by
  change v.node.data.type = .attribute at type
  show (manRenderNode options r v).foldlM (Call.run manOutc) r = _
  unfold manRenderNode
  dsimp only
  rw [type]
  dsimp only
  rw [NodeData.getLiteral?, type]
  rfl

mutual

/-- Every node is visited that is not below a leaf. -/
theorem all_of_visitsSkipping {q : NodeData → Prop} (place : Place) : (n : Node) → n.All CoreNode →
    (∀ v ∈ n.visitsSkipping (fun _ => false) place, q v.node.data) → n.All fun _ d _ => q d
  | .mk i d cs, core, every => by
    unfold Node.visitsSkipping at every
    dsimp only at every
    split at every
    next leaf =>
      have isLeaf : d.type.isLeaf = true := by simpa using leaf
      obtain rfl : cs = [] := by
        refine List.eq_nil_iff_forall_not_mem.mpr fun c member => ?_
        have child := core.1.child c member
        unfold NodeType.canContainType at child
        cases type : d.type <;> simp_all [NodeType.isLeaf]
      exact ⟨every _ List.mem_cons_self, trivial⟩
    next =>
      rw [List.forall_mem_cons, List.forall_mem_append] at every
      exact ⟨every.1, allList_of_visitsSkippingFrom place cs core.2 every.2.1⟩

theorem allList_of_visitsSkippingFrom {q : NodeData → Prop} (place : Place) {d : NodeData} {before : Forest} :
    (f : Forest) → AllList CoreNode f →
    (∀ v ∈ visitsSkippingFrom (fun _ => false) place d before f, q v.node.data) → AllList (fun _ d _ => q d) f
  | [], _, _ => trivial
  | n :: ns, core, every => by
    unfold visitsSkippingFrom at every
    rw [List.forall_mem_append] at every
    exact ⟨all_of_visitsSkipping _ n core.1 every.1, allList_of_visitsSkippingFrom place ns core.2 every.2⟩

end

mutual

/-- Only nodes of the tree are visited. -/
theorem visitsSkipping_of_all {q : NodeData → Prop} (skips : Visit → Bool) (place : Place) : (n : Node) →
    (n.All fun _ d _ => q d) → ∀ v ∈ n.visitsSkipping skips place, q v.node.data
  | .mk i d cs, all => by
    unfold Node.visitsSkipping
    dsimp only
    split
    next => simpa using all.1
    next =>
      rw [List.forall_mem_cons, List.forall_mem_append, List.forall_mem_singleton]
      exact ⟨all.1, visitsSkippingFrom_of_all skips place cs all.2, all.1⟩

theorem visitsSkippingFrom_of_all {q : NodeData → Prop} (skips : Visit → Bool) (place : Place) {d : NodeData}
    {before : Forest} : (f : Forest) → (AllList (fun _ d _ => q d) f) →
    ∀ v ∈ visitsSkippingFrom skips place d before f, q v.node.data
  | [], _ => by
    unfold visitsSkippingFrom
    exact List.forall_mem_nil _
  | n :: ns, all => by
    unfold visitsSkippingFrom
    rw [List.forall_mem_append]
    exact ⟨visitsSkipping_of_all skips _ n all.1, visitsSkippingFrom_of_all skips place ns all.2⟩

end

/-- The man renderer gets to the end of a tree if and only if there is no node for attributes. -/
theorem renderMan_ok_iff {root : Node} (core : root.All CoreNode) (options : Options) (width : Int) :
    (∃ out, renderMan options width root = .ok out) ↔ root.All fun _ d _ => d.type ≠ .attribute := by
  constructor
  · rintro ⟨out, rendered⟩
    refine all_of_visitsSkipping {} root core fun v member type => ?_
    obtain ⟨e, failed⟩ := @renderVisits_fails man options _ v member
      (fun r => ⟨_, man_attribute type options r⟩) { width := width }
    unfold renderMan Format.render at rendered
    rw [show man.renderVisits options (root.visitsSkipping man.skipsContents {}) { width := width } = .error e
      from failed] at rendered
    cases rendered
  · intro other
    have types := visitsSkipping_of_all man.skipsContents {} root (Node.All.imp (fun node => node.core) _ core)
    have others := visitsSkipping_of_all man.skipsContents {} root other
    exact render_ok (renderVisits_quiet (fun v member r => quiet_man (types v member) (others v member) options r) _)

/-! ### xml.c -/

/-- The string has a value. -/
def XmlCall.HasString : XmlCall → Prop
  | .puts none => False
  | _ => True

@[simp] theorem XmlCall.hasString_text (s : String) : (XmlCall.text s).HasString := trivial

@[simp] theorem XmlCall.hasString_number (n : Nat) : (XmlCall.number n).HasString := trivial

@[simp] theorem XmlCall.hasString_some (s : Bytes) : (XmlCall.puts (some s)).HasString := trivial

@[simp] theorem XmlCall.hasString_escapeXml (s : Bytes) : (XmlCall.escapeXml s).HasString := trivial

@[simp] theorem XmlCall.hasString_indent : XmlCall.indent.HasString := trivial

@[simp] theorem XmlCall.hasString_indentBy (n : Int) : (XmlCall.indentBy n).HasString := trivial

@[simp] theorem XmlCall.hasString_typeString (d : NodeData) : (XmlCall.puts d.getTypeString).HasString := by
  unfold NodeData.getTypeString
  cases d.type <;> trivial

theorem runs_hasString {calls : List XmlCall} (strings : ∀ c ∈ calls, c.HasString) (r : XmlRenderer) :
    ∃ r', calls.foldlM XmlCall.run r = .ok r' := by
  induction calls generalizing r with
  | nil => exact ⟨r, rfl⟩
  | cons c calls ih =>
    rw [List.forall_mem_cons] at strings
    obtain ⟨r', run⟩ : ∃ r', c.run r = .ok r' := by
      cases c with
      | puts s =>
        cases s with
        | none => exact strings.1.elim
        | some s => exact ⟨_, rfl⟩
      | _ => exact ⟨_, rfl⟩
    rw [List.foldlM_cons, run]
    exact ih strings.2 r'

theorem hasString_xmlNode (d : NodeData) : ∀ c ∈ xmlNode d, c.HasString := by
  unfold xmlNode
  cases d.type with
  | list =>
    dsimp only
    unfold xmlList
    cases d.as.getList.listType with
    | ordered => cases d.as.getList.delimiter <;> simp
    | _ => simp
  | codeBlock =>
    dsimp only
    split <;> simp [xmlLiteral, xmlAttribute]
  | _ => simp [xmlLiteral, xmlAttribute]

theorem hasString_xmlRenderNode (options : Options) (v : Visit) : ∀ c ∈ xmlRenderNode options v, c.HasString := by
  have inner := hasString_xmlNode v.node.data
  unfold xmlRenderNode
  dsimp only
  split
  next =>
    simp only [List.forall_mem_append]
    refine ⟨⟨⟨⟨by simp, ?_⟩, inner⟩, ?_⟩, by simp⟩
    · split <;> simp
    · split_ifs <;> simp
  next => split <;> simp

theorem renderXml_ok (options : Options) (root : Node) : ∃ out, renderXml options root = .ok out := by
  have runs (vs : List Visit) (r : XmlRenderer) :
      ∃ r', vs.foldlM (fun r v => (xmlRenderNode options v).foldlM XmlCall.run r) r = .ok r' := by
    induction vs generalizing r with
    | nil => exact ⟨r, rfl⟩
    | cons v vs ih =>
      obtain ⟨r', run⟩ := runs_hasString (hasString_xmlRenderNode options v) r
      rw [List.foldlM_cons, run]
      exact ih r'
  unfold renderXml
  obtain ⟨r', run⟩ := runs (root.visits {}) { xml := _ }
  dsimp only
  rw [run]
  exact ⟨_, rfl⟩

/-! ### html.c -/

theorem NodeType.isCore_of_core {t : NodeType} (core : t.isCoreBlock ∨ t.isCoreInline) : t.isCore := by
  cases t <;> first | rfl | simp [NodeType.isCoreBlock, NodeType.isCoreInline] at core

section

variable {H : HtmlConfig}

mutual

theorem referencesResolve_of_labelled : (n : Node) → n.All (Labelled H.literalAt) → n.ReferencesResolve H
  | .mk i d cs, all => by
    refine ⟨fun reference => ?_, .inr (.inr (referencesResolveList_of_labelled cs all.2))⟩
    obtain ⟨f, resolved, found⟩ := all.1.2 reference
    rw [resolved]
    exact found

theorem referencesResolveList_of_labelled : (f : Forest) → AllList (Labelled H.literalAt) f →
    ReferencesResolveList H f
  | [], _ => trivial
  | n :: ns, all => ⟨referencesResolve_of_labelled n all.1, referencesResolveList_of_labelled ns all.2⟩

end

theorem renderHtml_ok {root : Node} (labelled : root.All (Labelled H.literalAt)) (document : root.type = .document) :
    ∃ r, renderHtml H {} root = .ok r := by
  have core : root.All fun _ d _ => d.type.isCore :=
    Node.All.imp (fun node => NodeType.isCore_of_core node.1.core) _ labelled
  have other : root.type = .paragraph → ({ path := [] } : Place).parent ≠ none := fun paragraph => by
    rw [document] at paragraph
    cases paragraph
  obtain ⟨r, rendered, _⟩ := (@rendersIff_visits H { path := [] } root core {} rfl).1
    ⟨other, referencesResolve_of_labelled root labelled⟩
  unfold renderHtml
  dsimp only
  rw [rendered]
  exact ⟨_, rfl⟩

end

/-! ### Documents -/

/-- A format with brackets gets to the end of every document. -/
theorem Format.Bracketed.render_ok {F : Format} {root : Node} (bracketed : F.Bracketed (literalIn root))
    (labelled : root.All (Labelled (literalIn root))) (document : root.type = .document) (options : Options)
    (width : Int) : ∃ out, F.render options width root = .ok out := by
  have allowed : ∀ v ∈ root.visitsSkipping F.skipsContents {}, VisitAllowed (literalIn root) v := by
    refine allowed_visitsSkipping (fun item => by simp [Place.parent] at item) root labelled fun _ => ?_
    rw [document]
    decide
  obtain ⟨r', visits, _⟩ := restores_visitsSkipping options bracketed {} root allowed { width := width } []
  exact CmarkGfm.render_ok ⟨r', visits.run⟩

/-- Every renderer gets to the end of a document of the core parser if and only if there is no node for
attributes in it. -/
theorem renderedByAll_iff (tables : Tables) (parseOptions : Options) (callback : Option (UInt8 → Bool))
    (chunks : List Bytes) (options : Options) (width : Int) :
    let root := documentOf { tables := tables, options := parseOptions } callback chunks
    RenderedByAll options width root ↔ root.All fun _ d _ => d.type ≠ .attribute := by
  intro root
  have labelled : root.All (Labelled (literalIn root)) := labelled_documentOf rfl callback chunks
  have document : root.type = .document := (coreNode_documentOf rfl callback chunks).2
  have core : root.All CoreNode := Node.All.imp (fun node => node.1) _ labelled
  refine ⟨fun rendered => (renderMan_ok_iff core options width).mp rendered.man, fun other => ?_⟩
  refine ⟨renderHtml_ok labelled document, renderXml_ok options root,
    (renderMan_ok_iff core options width).mpr other, ?_,
    (bracketed_commonmark _).render_ok labelled document options _, bracketed_plaintext _ |>.render_ok labelled document options _⟩
  have types := visitsSkipping_of_all latex.skipsContents {} root (Node.All.imp (fun node => node.core) _ core)
  exact render_ok (renderVisits_quiet (fun v member r => quiet_latex (types v member) options r) _)

/-- The man renderer puts out NULL for `^[a](b)`. -/
theorem not_renderedByAll_attribute :
    let root := documentOf { tables := asciiTables, options := 0 } none [lit "^[a](b)\n"]
    renderMan 0 0 root = .error .nullPointer ∧ ¬RenderedByAll 0 0 root := by
  intro root
  have fails : renderMan 0 0 root = .error .nullPointer := by decide +kernel
  refine ⟨fails, fun rendered => ?_⟩
  obtain ⟨out, done⟩ := rendered.man
  rw [fails] at done
  cases done

end CmarkGfm
