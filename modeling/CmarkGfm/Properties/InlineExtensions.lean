import CmarkGfm.Properties.BlockSteps
import CmarkGfm.Properties.DocumentTrees
import CmarkGfm.Properties.OneLine
import CmarkGfm.Properties.OpeningCallbacks

/-!
# Extensions without callbacks for blocks

No block that the parser makes by itself belongs to an extension. So an extension that opens no blocks is never
asked about one, and the blocks of a document are those that the parser makes without it.
-/

namespace CmarkGfm

/-- An extension for inlines and nothing else. -/
structure Extension.InlineOnly (e : Extension) : Prop where
  tryOpeningBlock : e.tryOpeningBlock = none
  canContainFunc : e.canContainFunc = none
  containsInlinesFunc : e.containsInlinesFunc = none

/-- No block belongs to an extension. -/
def ParserState.NoExtension (p : ParserState) : Prop := p.EveryBlock (·.extension = none)

theorem mem_of_extensionOf {P : Config} {d : NodeData} {e : Extension} (found : P.extensionOf d = some e) :
    e ∈ P.syntaxExtensions := by
  obtain ⟨i, _, here⟩ := Option.bind_eq_some_iff.mp found
  exact List.mem_of_getElem? here

section

variable {T : Tables} {options : Options} {p p' : ParserState}

theorem noExtension_initialState : initialState.NoExtension := by
  intro i b block
  have found : (if i = 0 then some (⟨makeBlock .document 1 1, none, []⟩ : Block) else none) = some b := block
  split at found
  · cases found
    rfl
  · cases found

theorem ParserState.NoExtension.dataOf (none : p.NoExtension) (i : NodeId) : (p.dataOf i).extension = .none := by
  unfold ParserState.dataOf ParserState.block
  cases block : p.nodes i with
  | none => rfl
  | some b => exact none block

/-- The blocks that the parser adds belong to no extension. -/
theorem ParserState.NoExtension.step (none : p.NoExtension)
    (step : BlockStep (bareParser T options) (fun _ _ => False) p p') : p'.NoExtension := by
  refine step.everyBlock (q := fun d => d.extension = .none) ?_ ?_ ?_ none
  · intro d e edit without
    cases edit with
    | content _ _ same _ => exact same.trans without
    | close _ same _ _ => exact same.trans without
    | setext _ _ _ _ => exact without
  · intro d fresh
    exact fresh.extension
  · intro q q' impossible
    cases impossible

theorem bareParser_steps {E : ParserState → ParserState → Prop} :
    ∀ e ∈ (bareParser T options).syntaxExtensions, e.Steps (bareParser T options) E := by
  intro e member
  cases member

variable {exts : List Extension} (inlineOnly : ∀ e ∈ exts, e.InlineOnly)

/-! ### Lines -/

include inlineOnly in
theorem canContain_inlineOnly :
    (Config.mk T options exts).nodeCanContainType = (bareParser T options).nodeCanContainType := by
  funext node childType
  have none : ((Config.mk T options exts).extensionOf node).bind (·.canContainFunc) = none := by
    cases found : (Config.mk T options exts).extensionOf node with
    | none => rfl
    | some e => exact (inlineOnly e (mem_of_extensionOf found)).canContainFunc
  have bare : (bareParser T options).extensionOf node = .none := extensionOf_core rfl node
  simp only [Config.nodeCanContainType, none, bare, Option.bind_none]

include inlineOnly in
theorem containsInlines_inlineOnly : containsInlines ⟨T, options, exts⟩ = containsInlines (bareParser T options) := by
  funext node
  have none : ((Config.mk T options exts).extensionOf node).bind (·.containsInlinesFunc) = none := by
    cases found : (Config.mk T options exts).extensionOf node with
    | none => rfl
    | some e => exact (inlineOnly e (mem_of_extensionOf found)).containsInlinesFunc
  have bare : (bareParser T options).extensionOf node = .none := extensionOf_core rfl node
  simp only [containsInlines, none, bare, Option.bind_none]

include inlineOnly in
theorem tryOpeningBlocks_inlineOnly (P : Config) (indented : Bool) (input : Bytes) (container : NodeId)
    (p : ParserState) : tryOpeningBlocks P indented input container exts p = (p, none) := by
  induction exts with
  | nil => rfl
  | cons e exts ih =>
    obtain ⟨here, rest⟩ := List.forall_mem_cons.mp inlineOnly
    rw [tryOpeningBlocks, here.tryOpeningBlock]
    exact ih rest

theorem parseBlockPrefix_inlineOnly (none : p.NoExtension) (input : Bytes) (container : NodeId) :
    parseBlockPrefix ⟨T, options, exts⟩ input container p = parseBlockPrefix (bareParser T options) input container p := by
  have here (P : Config) : P.extensionOf (p.dataOf container) = .none := by
    rw [Config.extensionOf, none.dataOf, Option.bind_none]
  have code : parseCodeBlockPrefix ⟨T, options, exts⟩ = parseCodeBlockPrefix (bareParser T options) := rfl
  simp only [parseBlockPrefix, here, code]

theorem checkOpenBlocksFrom_inlineOnly (none : p.NoExtension) (input : Bytes) (fuel : Nat) (container : NodeId) :
    checkOpenBlocksFrom ⟨T, options, exts⟩ input fuel container p =
      checkOpenBlocksFrom (bareParser T options) input fuel container p := by
  induction fuel generalizing container p with
  | zero => rfl
  | succ fuel ih =>
    have skipped : BlockStep (bareParser T options) (fun _ _ => False) p (findFirstNonspace input p) :=
      (quiet_findFirstNonspace input p).step
    have found : (findFirstNonspace input p).NoExtension := none.step skipped
    rw [checkOpenBlocksFrom, checkOpenBlocksFrom]
    cases openLastChild p container with
    | none => rfl
    | some child =>
      have next : (parseBlockPrefix (bareParser T options) input child (findFirstNonspace input p)).1.NoExtension :=
        found.step (step_parseBlockPrefix (matchSteps_of_steps bareParser_steps) input child (findFirstNonspace input p))
      dsimp only
      rw [parseBlockPrefix_inlineOnly found]
      generalize parseBlockPrefix (bareParser T options) input child (findFirstNonspace input p) = r at next ⊢
      obtain ⟨q, result⟩ := r
      cases result with
      | matched => exact ih next child
      | unmatched => rfl
      | closed => rfl

include inlineOnly in
theorem processLine_inlineOnly (none : p.NoExtension) (buffer : Bytes) (ensureEndsInNewline : Bool) :
    processLine ⟨T, options, exts⟩ p buffer ensureEndsInNewline =
      processLine (bareParser T options) p buffer ensureEndsInNewline := by
  have contains : (Config.mk T options exts).nodeCanContainType = (bareParser T options).nodeCanContainType :=
    canContain_inlineOnly inlineOnly
  have started (input : Bytes) : BlockStep (bareParser T options) (fun _ _ => False) p (startLine input p) :=
    (quiet_startLine input p).step
  have prepare : prepareLine ⟨T, options, exts⟩ = prepareLine (bareParser T options) := rfl
  have check (input : Bytes) : checkOpenBlocks ⟨T, options, exts⟩ input (startLine input p) =
      checkOpenBlocks (bareParser T options) input (startLine input p) :=
    checkOpenBlocksFrom_inlineOnly (none.step (started input)) input _ _
  have opens (input : Bytes) : openNewBlocks ⟨T, options, exts⟩ input = openNewBlocks (bareParser T options) input :=
    openNewBlocks_congr contains fun indented container q => tryOpeningBlocks_inlineOnly inlineOnly _ indented input container q
  have adds : addTextToContainer ⟨T, options, exts⟩ = addTextToContainer (bareParser T options) :=
    addTextToContainer_congr contains
  simp only [processLine, prepare, check, opens, adds]
  rfl

include inlineOnly in
theorem replay_inlineOnly (none : p.NoExtension) (lines : List (Bytes × Bool)) :
    replay (processLine ⟨T, options, exts⟩) p lines = replay (processLine (bareParser T options)) p lines := by
  induction lines generalizing p with
  | nil => rfl
  | cons line lines ih =>
    have next : (processLine (bareParser T options) p line.1 line.2).NoExtension :=
      none.step (step_processLine bareParser_steps p line.1 line.2)
    show replay _ (processLine ⟨T, options, exts⟩ p line.1 line.2) lines = _
    rw [processLine_inlineOnly inlineOnly none, ih next]
    rfl

end

/-! ### Documents -/

/-- The blocks of a document, before their inlines are parsed. -/
def documentBlocks (P : Config) (callback : Option (UInt8 → Bool)) (chunks : List Bytes) : Node :=
  (finalizedDocument (flushedParser P callback chunks)).2

theorem documentBlocks_eq (P : Config) (callback : Option (UInt8 → Bool)) (chunks : List Bytes) :
    documentBlocks P callback chunks =
      let p := finalizeBlocks P
        (replay (processLine P) initialState (processedLines (P.options.has optPreserveWhitespace) chunks))
      toTree p p.nextId p.root := by
  have config : (flushedParser P callback chunks).config = P := flushedConfig_eq P callback chunks
  have state : (flushedParser P callback chunks).state = _ := flushedState_eq P callback chunks
  rw [documentBlocks, finalizedDocument, config, state]

/-- What is done to a document after its inlines have been parsed. -/
def finishDocument (P : Config) (nextId : NodeId) (root : Node) : Node :=
  postprocess P (consolidateTextNodes (if P.options.has optFootnotes then processFootnotes P nextId root else root))

theorem documentOf_blocks (P : Config) (callback : Option (UInt8 → Bool)) (chunks : List Bytes) :
    ∃ chars st, documentOf P callback chunks =
      finishDocument P (processInlines P chars st (documentBlocks P callback chunks)).1.nextId
        (processInlines P chars st (documentBlocks P callback chunks)).2 := by
  rw [documentOf_eq, documentBlocks_eq]
  exact ⟨_, _, rfl⟩

theorem postprocess_none {P : Config} (untouched : ∀ e ∈ P.syntaxExtensions, e.postprocessFunc = none) (root : Node) :
    postprocess P root = root := by
  unfold postprocess
  generalize P.syntaxExtensions = exts at untouched
  induction exts with
  | nil => rfl
  | cons e exts ih =>
    obtain ⟨first, rest⟩ := List.forall_mem_cons.mp untouched
    rw [List.foldl_cons, first]
    exact ih rest

/-- A condition on nodes holds of the finished document if the blocks give it, whatever the inlines of text are, and
inlines meet it. The extensions, if there are any, do no more than open blocks. -/
theorem documentOf_stable {P : Config} (noInlines : P.inlineSyntaxExtensions = [])
    (untouched : ∀ e ∈ P.syntaxExtensions, e.postprocessFunc = none) {q r : NodeId → NodeData → Forest → Prop}
    (stable : Stable q) (text : ∀ {i d cs}, q i d cs → d.type = .text → cs = [])
    (inline : ∀ {i d cs}, d.type.isCoreInline → (d.type = .text → cs = []) → q i d cs)
    (block : ∀ {i d cs cs'}, r i d cs → (containsInlines P d = true ∨ cs'.map Node.label = cs.map Node.label) → q i d cs')
    (leaf : ∀ {i d cs}, r i d cs → containsInlines P d = true → cs = [])
    {callback : Option (UInt8 → Bool)} {chunks : List Bytes}
    (notes : ∀ {i d cs} (used : Forest), q i d cs → d.type = (documentBlocks P callback chunks).type →
      (∀ n ∈ used, n.type = .footnoteDefinition) → q i d (cs ++ used))
    (blocks : (documentBlocks P callback chunks).All r) : (documentOf P callback chunks).All q := by
  obtain ⟨chars, st, eq⟩ := documentOf_blocks P callback chunks
  generalize documentBlocks P callback chunks = root at blocks eq notes
  have parsed : (processInlines P chars st root).2.All q := by
    refine processInlines_all (r := r) block leaf st root blocks fun subj _ none => ?_
    have start : InlineTrees (P.options.has optFootnotes) subj.nextId subj := ⟨le_rfl, none ▸ trivial⟩
    refine AllList.imp ?_ _ (InlineTrees.parseInlines noInlines id chars start).nodes
    exact fun node => inline (NodeType.isCoreInline_of_isMade node.core) fun text => node.leaf (by rw [text]; rfl)
  have type : (processInlines P chars st root).2.type = root.type :=
    congrArg (fun l => l.2.type) (label_processInlines st root)
  rw [eq, finishDocument, postprocess_none untouched]
  generalize processInlines P chars st root = parsedRoot at parsed type
  obtain ⟨st', root'⟩ := parsedRoot
  refine (consolidateTextNodes_all (t := .document) stable.toPrunable text (by decide) _ ?_).1
  split
  next => exact (processFootnotes_stable stable notes P st'.nextId parsed type).1
  next => exact parsed

/-- The blocks are those of a parser without the extensions. -/
theorem documentBlocks_inlineOnly {exts : List Extension} (inlineOnly : ∀ e ∈ exts, e.InlineOnly) (T : Tables)
    (options : Options) (callback : Option (UInt8 → Bool)) (chunks : List Bytes) :
    documentBlocks ⟨T, options, exts⟩ callback chunks = documentBlocks (bareParser T options) callback chunks := by
  have blocks : finalizeBlocks ⟨T, options, exts⟩ = finalizeBlocks (bareParser T options) :=
    finalizeBlocks_extensions T options [] exts
  have lines (lines : List (Bytes × Bool)) : replay (processLine ⟨T, options, exts⟩) initialState lines =
      replay (processLine (bareParser T options)) initialState lines :=
    replay_inlineOnly inlineOnly noExtension_initialState lines
  rw [documentBlocks_eq, documentBlocks_eq, blocks, lines]
  rfl

/-- The root is the document node. -/
theorem documentBlocks_type (T : Tables) (options : Options) (callback : Option (UInt8 → Bool)) (chunks : List Bytes) :
    (documentBlocks (bareParser T options) callback chunks).type = .document := by
  rw [documentBlocks_eq]
  have settled := settled_replay (P := bareParser T options) rfl
    (processedLines ((bareParser T options).options.has optPreserveWhitespace) chunks) settled_initialState
  obtain ⟨tree, _⟩ := finalizeBlocks_spec (P := bareParser T options) settled
  obtain ⟨b, block, _, document⟩ := tree.rooted
  dsimp only
  rw [type_toTree, (parent_of_links block).2.2, document]

end CmarkGfm
