import CmarkGfm.Properties.BracketSteps
import CmarkGfm.Properties.DocumentTrees
import Mathlib.Data.List.Flatten

/-!
# The addresses of a document

No address occurs twice in a document, and no two inlines are read when the same address comes next. Parsing the
inlines of a block and resolving footnotes give out addresses in order; the passes behind them only drop nodes or move
them.
-/

namespace CmarkGfm

/-- The second list has addresses of the first and new ones, which are given out from `a` up to `b`. -/
structure Readdressed (a b : NodeId) (l l' : List NodeId) : Prop where
  grows : a ≤ b
  among : ∀ j ∈ l', j ∈ l ∨ a ≤ j ∧ j < b
  distinct : l.Nodup → (∀ j ∈ l, j < a) → l'.Nodup

namespace Readdressed

variable {a b c : NodeId} {l l' l'' m m' : List NodeId}

theorem of_sublist (grows : a ≤ b) (sub : l'.Sublist l) : Readdressed a b l l' :=
  ⟨grows, fun _ member => .inl (sub.subset member), fun unique _ => unique.sublist sub⟩

theorem lt (given : Readdressed a b l l') (old : ∀ j ∈ l, j < a) : ∀ j ∈ l', j < b := by
  intro j member
  rcases given.among j member with before | ⟨_, high⟩
  · exact (old j before).trans_le given.grows
  · exact high

theorem trans (first : Readdressed a b l l') (second : Readdressed b c l' l'') : Readdressed a c l l'' where
  grows := first.grows.trans second.grows
  among j member := by
    rcases second.among j member with before | ⟨low, high⟩
    · rcases first.among j before with old | ⟨low, high⟩
      · exact .inl old
      · exact .inr ⟨low, high.trans_le second.grows⟩
    · exact .inr ⟨first.grows.trans low, high⟩
  distinct unique old := second.distinct (first.distinct unique old) (first.lt old)

theorem append (first : Readdressed a b l l') (second : Readdressed b c m m') :
    Readdressed a c (l ++ m) (l' ++ m') where
  grows := first.grows.trans second.grows
  among j member := by
    rcases List.mem_append.mp member with left | right
    · rcases first.among j left with old | ⟨low, high⟩
      · exact .inl (List.mem_append_left m old)
      · exact .inr ⟨low, high.trans_le second.grows⟩
    · rcases second.among j right with old | ⟨low, high⟩
      · exact .inl (List.mem_append_right l old)
      · exact .inr ⟨first.grows.trans low, high⟩
  distinct unique old := by
    obtain ⟨unique, unique', apart⟩ := List.nodup_append.mp unique
    obtain ⟨old, old'⟩ := List.forall_mem_append.mp old
    have below : ∀ j ∈ m, j < b := fun j member => (old' j member).trans_le first.grows
    apply List.nodup_append.mpr
    refine ⟨first.distinct unique old, second.distinct unique' below, ?_⟩
    rintro j left _ right rfl
    -- such an address would be old in both parts or be given out twice
    rcases first.among j left with before | ⟨low, high⟩
    · rcases second.among j right with before' | ⟨low', _⟩
      · exact apart j before j before' rfl
      · exact absurd (old j before) (not_lt.mpr (first.grows.trans low'))
    · rcases second.among j right with before' | ⟨low', _⟩
      · exact absurd (old' j before') (not_lt.mpr low)
      · exact absurd high (not_lt.mpr low')

/-- One address is given out. -/
theorem of_lt (lt : a < b) : Readdressed a b l [a] where
  grows := lt.le
  among j member := by
    rw [List.mem_singleton.mp member]
    exact .inr ⟨le_rfl, lt⟩
  distinct _ _ := List.nodup_singleton a

/-- The same behind a part that stays. -/
theorem concat (given : Readdressed a b l l') (i : NodeId) : Readdressed a b (l ++ [i]) (l' ++ [i]) :=
  given.append (.of_sublist le_rfl (.refl _))

end Readdressed

theorem addresses_mk (i : NodeId) (d : NodeData) (cs : Forest) : addresses [.mk i d cs] = addresses cs ++ [i] := by
  simp [addresses_cons]

theorem addresses_cons_eq (n : Node) (f : Forest) : addresses (n :: f) = addresses [n] ++ addresses f :=
  addresses_append [n] f

/-! ### Inlines -/

/-- The addresses that came next when an inline was read. -/
def startAddresses (states : List Subject) : List NodeId :=
  (states.filter fun subj => subj.peekChar != 0).map Subject.nextId

theorem startAddresses_cons (subj : Subject) (states : List Subject) : startAddresses (subj :: states) =
    (if subj.peekChar = 0 then [] else [subj.nextId]) ++ startAddresses states := by
  by_cases nul : subj.peekChar = 0 <;> simp [startAddresses, nul]

theorem emphasisRule_low (P : Config) (lo : NodeId) : EmphasisRule P fun subj => lo ≤ subj.nextId where
  stack _ low := low
  setText _ _ low := low
  insert _ _ _ _ low := low.trans (Nat.le_succ _)

section

variable {P : Config} (core : P.syntaxExtensions = []) {chars : CharTables}
  (notNul : chars.backslashIspunct.getD ispunct 0 = false)

include core notNul

/-- Every inline that is read takes an address. -/
theorem nextId_parseInline {subj next : Subject} {marks marks' : List Mark} (layout : Layout P subj marks)
    (layout' : Layout P next marks') (inside : subj.pos < subj.input.length)
    (parsed : parseInline P chars subj = some next) : subj.nextId < next.nextId := by
  cases inlineStep_parseInline core layout inside notNul parsed with
  | @node r makes _ _ _ _ =>
    obtain ⟨_, made⟩ := makes.new
    exact made.here.low.trans_lt made.here.high
  | push _ => exact Nat.lt_succ_self _
  | close _ closes _ =>
    apply layout'.fresh
    rw [closes.after]
    exact mem_addresses_of_mem (List.mem_append_right _ List.mem_cons_self)

/-- From state to state the next address grows. -/
theorem readdressed_inlineStates (fuel : Nat) {subj : Subject} (layout : ∃ marks, Layout P subj marks) :
    Readdressed subj.nextId (parseInlinesLoop P chars fuel subj).nextId []
      (startAddresses (inlineStates P chars fuel subj)) := by
  -- the layout is carried along: each step needs the one in front of it and the one behind it
  induction fuel generalizing subj with
  | zero => exact .of_sublist le_rfl (.refl _)
  | succ fuel ih =>
    rw [parseInlinesLoop, inlineStates]
    split
    next => exact .of_sublist le_rfl (.refl _)
    next more =>
      have inside : subj.pos < subj.input.length := by simpa [Subject.isEof] using more
      cases parsed : parseInline P chars subj with
      | none =>
        -- nothing is read at a NUL
        have nul : subj.peekChar = 0 := by
          unfold parseInline at parsed
          dsimp only at parsed
          split at parsed
          next nul => simpa using nul
          next => cases parsed
        rw [startAddresses_cons, if_pos nul]
        exact .of_sublist le_rfl (.refl _)
      | some next =>
        obtain ⟨marks, laidOut⟩ := layout
        obtain ⟨marks', laidOut'⟩ := laidOut.parseInline (sound_of_core core) inside notNul parsed
        have lt := nextId_parseInline core notNul laidOut laidOut' inside parsed
        have here : Readdressed subj.nextId next.nextId [] (if subj.peekChar = 0 then [] else [subj.nextId]) := by
          split
          next => exact .of_sublist lt.le (.refl _)
          next => exact .of_lt lt
        rw [startAddresses_cons]
        exact here.append (ih ⟨marks', laidOut'⟩)

/-- When all inlines are read, the runs that are left are matched among all siblings. -/
theorem changes_parseInlines {start : Subject} (begin : ∃ marks, Layout P start marks) :
    ∃ last runs, Reaches P chars start last ∧
      Relation.ReflTransGen (EmphasisChange runs) last.children (parseInlines P chars start).children ∧
      (addresses (parseInlines P chars start).children).Nodup := by
  have sound := sound_of_core core
  have reached : Reaches P chars start (parseInlinesLoop P chars start.input.length start) :=
    reaches_parseInlinesLoop _ .start
  obtain ⟨_, layout⟩ := reached.laidOut sound notNul begin
  obtain ⟨f, children, changes, unique, _⟩ := processEmphasisWith_spec (fun e member => (sound e member).turns)
    OpenersBottom.get (List.append_nil _).symm (by simp) layout.lastZone
  have filled : (parseInlines P chars start).children = f := children
  rw [filled]
  exact ⟨_, _, reached, changes, unique⟩

/-- The inlines of a block of text have new addresses. -/
theorem readdressed_parseInlines {d : NodeData} (block : d.type = .paragraph ∨ d.type = .heading)
    (refmap : Map Reference) (nextId : NodeId) :
    let start := inlineSubject P d [] refmap nextId
    Readdressed nextId (parseInlines P chars start).nextId [] (addresses (parseInlines P chars start).children) ∧
      Readdressed nextId (parseInlines P chars start).nextId []
        (startAddresses (inlineStates P chars start.input.length start)) := by
  intro start
  have begin : ∃ marks, Layout P start marks :=
    ⟨[], Layout.start _ refmap nextId (accepts_block block (extensionOf_core core d))⟩
  have states := readdressed_inlineStates core notNul start.input.length begin
  have low : (parseInlinesLoop P chars start.input.length start).nextId ≤ (parseInlines P chars start).nextId :=
    (emphasisRule_low P _).processEmphasis (inlineSyntaxExtensions_core core) le_rfl 0
  have nodes := InlineTrees.parseInlines (inlineSyntaxExtensions_core core) id chars
    (⟨le_rfl, trivial⟩ : InlineTrees (P.options.has optFootnotes) nextId start)
  obtain ⟨_, _, _, _, unique⟩ := changes_parseInlines core notNul begin
  refine ⟨⟨nodes.low, fun j member => .inr ?_, fun _ _ => unique⟩, states.trans (.of_sublist low (.refl _))⟩
  obtain ⟨m, among, rfl⟩ := List.mem_map.mp member
  have node := (AllList.of_mem _ nodes.nodes among).here
  exact ⟨node.low, node.high⟩

/-! ### All blocks -/

variable {r : NodeId → NodeData → Forest → Prop}

/-- The states in which inlines are read in these blocks. -/
def readingStates (P : Config) (chars : CharTables) (subjects : List Subject) : List Subject :=
  subjects.flatMap fun subj => inlineStates P chars subj.input.length subj

omit core notNul in
mutual

theorem readdressed_processInlines (core : P.syntaxExtensions = [])
    (notNul : chars.backslashIspunct.getD ispunct 0 = false)
    (text : ∀ {i d cs}, r i d cs → containsInlines P d = true → cs = []) (st : InlineState) : (n : Node) → n.All r →
    Readdressed st.nextId (processInlines P chars st n).1.nextId (addresses [n])
        (addresses [(processInlines P chars st n).2]) ∧
      Readdressed st.nextId (processInlines P chars st n).1.nextId []
        (startAddresses (readingStates P chars (blockSubjects P chars st n)))
  | .mk i d children, all => by
    rw [processInlines, blockSubjects]
    split
    next isText =>
      obtain rfl := text all.1 isText
      have block := (containsInlines_core core d).mp isText
      obtain ⟨nodes, states⟩ := readdressed_parseInlines core notNul block st.refmap st.nextId
      rw [addresses_mk, addresses_mk]
      refine ⟨nodes.concat i, ?_⟩
      rw [readingStates, List.flatMap_singleton]
      exact states
    next =>
      obtain ⟨nodes, states⟩ := readdressed_processInlinesList core notNul text st children all.2
      rw [addresses_mk, addresses_mk]
      exact ⟨nodes.concat i, states⟩

theorem readdressed_processInlinesList (core : P.syntaxExtensions = [])
    (notNul : chars.backslashIspunct.getD ispunct 0 = false)
    (text : ∀ {i d cs}, r i d cs → containsInlines P d = true → cs = []) (st : InlineState) : (f : Forest) →
    AllList r f →
    Readdressed st.nextId (processInlinesList P chars st f).1.nextId (addresses f)
        (addresses (processInlinesList P chars st f).2) ∧
      Readdressed st.nextId (processInlinesList P chars st f).1.nextId []
        (startAddresses (readingStates P chars (blockSubjectsList P chars st f)))
  | [], _ => ⟨.of_sublist le_rfl (.refl _), .of_sublist le_rfl (.refl _)⟩
  | n :: ns, all => by
    obtain ⟨first, read⟩ := readdressed_processInlines core notNul text st n all.1
    obtain ⟨rest, read'⟩ := readdressed_processInlinesList core notNul text (processInlines P chars st n).1 ns all.2
    rw [processInlinesList, blockSubjectsList, addresses_cons_eq n, addresses_cons_eq (processInlines P chars st n).2]
    refine ⟨first.append rest, ?_⟩
    simpa [startAddresses, readingStates] using read.append read'

end

end

/-! ### Footnotes -/

/-- A reference stays or gives way to a text. -/
theorem readdressed_resolveFootnote (P : Config) (st : FootnoteState) (owner : NodeData) (n : Node) :
    Readdressed st.nextId (resolveFootnote P st owner n.id n.data).1.nextId (addresses [n])
      (addresses (resolveFootnote P st owner n.id n.data).2) := by
  have known : [n.id].Sublist (addresses [n]) := by
    rw [List.singleton_sublist]
    exact mem_addresses_of_mem List.mem_cons_self
  unfold resolveFootnote
  split
  next => exact .of_sublist le_rfl known
  next =>
    dsimp only
    split
    next => exact .of_lt (Nat.lt_succ_self _)
    next => exact .of_sublist (Nat.le_succ _) (List.nil_sublist _)

mutual

theorem readdressed_resolveFootnotes (P : Config) (st : FootnoteState) : (n : Node) →
    Readdressed st.nextId (resolveFootnotes P st n).1.nextId (addresses [n]) (addresses [(resolveFootnotes P st n).2])
  | .mk i d children => by
    rw [resolveFootnotes, addresses_mk, addresses_mk]
    exact (readdressed_resolveFootnotesList P d st children).concat i

theorem readdressed_resolveFootnotesList (P : Config) (owner : NodeData) (st : FootnoteState) : (f : Forest) →
    Readdressed st.nextId (resolveFootnotesList P owner st f).1.nextId (addresses f)
      (addresses (resolveFootnotesList P owner st f).2)
  | [] => .of_sublist le_rfl (.refl _)
  | n :: ns => by
    have below := readdressed_resolveFootnotes P st n
    rw [resolveFootnotesList, addresses_cons_eq]
    generalize resolveFootnotes P st n = r at below ⊢
    obtain ⟨st₁, n₁⟩ := r
    dsimp only at below ⊢
    have resolved : Readdressed st₁.nextId
        (if n₁.type = .footnoteReference then resolveFootnote P st₁ owner n₁.id n₁.data else (st₁, [n₁])).1.nextId
        (addresses [n₁])
        (addresses (if n₁.type = .footnoteReference then resolveFootnote P st₁ owner n₁.id n₁.data
          else (st₁, [n₁])).2) := by
      split
      next => exact readdressed_resolveFootnote P st₁ owner n₁
      next => exact .of_sublist le_rfl (.refl _)
    generalize (if n₁.type = .footnoteReference then resolveFootnote P st₁ owner n₁.id n₁.data
      else (st₁, [n₁])) = r at resolved ⊢
    obtain ⟨st₂, f⟩ := r
    rw [addresses_append]
    exact (below.trans resolved).append (readdressed_resolveFootnotesList P owner st₂ ns)

end

/-! ### Passes that give out no addresses -/

mutual

theorem addresses_mapData (g : NodeId → NodeData → NodeData) : (n : Node) → addresses [n.mapData g] = addresses [n]
  | .mk i d cs => by
    rw [Node.mapData, addresses_mk, addresses_mk, addresses_mapDataList g cs]

theorem addresses_mapDataList (g : NodeId → NodeData → NodeData) : (f : Forest) →
    addresses (mapDataList g f) = addresses f
  | [] => rfl
  | n :: ns => by
    rw [mapDataList, addresses_cons_eq, addresses_mapData g n, addresses_mapDataList g ns, ← addresses_cons_eq]

end

mutual

/-- Where texts are merged the first address stays. -/
theorem addresses_consolidateTextNodes : (n : Node) → (addresses [consolidateTextNodes n]).Sublist (addresses [n])
  | .mk i d cs => by
    rw [consolidateTextNodes, addresses_mk, addresses_mk]
    exact (addresses_consolidateList cs).append (.refl _)

theorem addresses_consolidateList : (f : Forest) → (addresses (consolidateList f)).Sublist (addresses f)
  | [] => .slnil
  | n :: ns => by
    have both := (addresses_consolidateTextNodes n).append (addresses_consolidateList ns)
    rw [← addresses_cons_eq n, ← addresses_cons_eq] at both
    rw [consolidateList]
    split
    next i cur j tmp cs rest first later =>
      rw [first, later] at both
      split
      next =>
        refine List.Sublist.trans ?_ both
        simp [addresses_cons]
      next => exact both
    next => exact both

end

/-- The nodes that are unlinked wherever they are. -/
def unlinkedNodes (ids : List NodeId) (f : Forest) : List Node :=
  (postorderList f).filter fun n => ids.contains n.id

theorem unlinkedNodes_cons (ids : List NodeId) (n : Node) (f : Forest) : unlinkedNodes ids (n :: f) =
    unlinkedNodes ids n.children ++ ((if ids.contains n.id then [n] else []) ++ unlinkedNodes ids f) := by
  simp only [unlinkedNodes, postorderList, Node.postorder_eq, List.filter_append, List.append_assoc]
  split <;> simp_all

mutual

/-- Every address stays, or is in a part that was unlinked. -/
theorem addresses_unlinkAll_perm (ids : List NodeId) : (n : Node) → (addresses n.children).Perm
    (addresses (unlinkAllList ids n.children) ++ addresses ((unlinkedNodes ids n.children).map (Node.unlinkAll ids)))
  | .mk _ _ cs => addresses_unlinkAllList_perm ids cs

theorem addresses_unlinkAllList_perm (ids : List NodeId) : (f : Forest) → (addresses f).Perm
    (addresses (unlinkAllList ids f) ++ addresses ((unlinkedNodes ids f).map (Node.unlinkAll ids)))
  | [] => .nil
  | n :: ns => by
    have below := addresses_unlinkAll_perm ids n
    have later := addresses_unlinkAllList_perm ids ns
    have parts : addresses [n.unlinkAll ids] = addresses (unlinkAllList ids n.children) ++ [n.id] := by
      cases n with
      | mk i d cs => rw [Node.unlinkAll, addresses_mk]; rfl
    rw [List.perm_iff_count] at below later ⊢
    intro a
    have below := below a
    have later := later a
    rw [unlinkAllList, unlinkedNodes_cons, addresses_cons]
    split
    next =>
      simp only [List.map_append, addresses_append, List.count_append, List.count_cons, List.map_cons, List.map_nil,
        parts, List.count_nil] at below later ⊢
      omega
    next =>
      rw [addresses_cons_eq (n.unlinkAll ids), parts]
      simp only [List.map_append, addresses_append, List.count_append, List.count_cons, List.map_nil, addresses_nil,
        List.count_nil] at below later ⊢
      omega

end

theorem addresses_eq_flatMap (f : Forest) : addresses f = f.flatMap fun n => addresses [n] := by
  induction f with
  | nil => rfl
  | cons n f ih => rw [addresses_cons_eq, ih, List.flatMap_cons]

/-- The definitions that are used are moved, the others dropped. -/
theorem addresses_processFootnotes (P : Config) (nextId : NodeId) {root : Node} (document : root.type = .document)
    (distinct : (addresses [root]).Nodup) (old : ∀ j ∈ addresses [root], j < nextId) :
    (addresses [processFootnotes P nextId root]).Nodup := by
  unfold processFootnotes
  extract_lets map ids
  have resolved := readdressed_resolveFootnotes P { map := map, nextId := nextId } root
  have type : (resolveFootnotes P { map := map, nextId := nextId } root).2.type = .document := by
    cases root with
    | mk i d children => rw [resolveFootnotes]; exact document
  generalize resolveFootnotes P { map := map, nextId := nextId } root = r at resolved type ⊢
  obtain ⟨st, mid⟩ := r
  dsimp only at resolved type ⊢
  have distinct' : (addresses [mid.mapData st.writeDefCount]).Nodup := by
    rw [addresses_mapData]
    exact resolved.distinct distinct old
  have type' : (mid.mapData st.writeDefCount).type = .document := by
    have same : (mid.mapData st.writeDefCount).type = (st.writeDefCount mid.id mid.data).type := by
      rw [Node.mapData_eq]
      rfl
    rw [same, FootnoteState.writeDefCount]
    split <;> exact type
  generalize mid.mapData st.writeDefCount = tree at distinct' type' ⊢
  let definitions := (tree.exits .footnoteDefinition).filter fun n => ids.contains n.id
  let used := (usedFootnotes st definitions).map fun n => n.unlinkAll ids
  show (addresses [.mk tree.id tree.data (unlinkAllList ids tree.children ++ used)]).Nodup
  have among : definitions.Sublist (unlinkedNodes ids tree.children) := by
    have exits : tree.exits .footnoteDefinition =
        (postorderList tree.children).filter fun m => m.type = .footnoteDefinition := by
      rw [exits_eq_filter, Node.postorder_eq, List.filter_append]
      simp [type']
    unfold definitions unlinkedNodes
    rw [exits, List.filter_comm]
    exact List.filter_sublist
  -- what is used is sorted, and is some of what was unlinked
  have sorted : (addresses used).Perm (addresses ((definitions.filter fun n => st.ix n.id != 0).map
      fun n => n.unlinkAll ids)) := by
    rw [addresses_eq_flatMap, addresses_eq_flatMap]
    exact ((List.mergeSort_perm _ _).map _).flatMap_right _
  have some : (addresses ((definitions.filter fun n => st.ix n.id != 0).map fun n => n.unlinkAll ids)).Sublist
      (addresses ((unlinkedNodes ids tree.children).map fun n => n.unlinkAll ids)) := by
    rw [addresses_eq_flatMap, addresses_eq_flatMap]
    exact List.Sublist.flatMap ((List.filter_sublist.trans among).map _) _
  rw [addresses_mk, addresses_append, ((sorted.append_left _).append_right _).nodup_iff]
  have whole : addresses [tree] = addresses tree.children ++ [tree.id] := by rw [addresses_cons]; rfl
  rw [whole, ((addresses_unlinkAllList_perm ids tree.children).append_right _).nodup_iff] at distinct'
  exact distinct'.sublist (((List.Sublist.refl _).append some).append (.refl _))

/-! ### Documents -/

section

variable {P : Config} (core : P.syntaxExtensions = []) (callback : Option (UInt8 → Bool)) (chunks : List Bytes)

include core

/-- The blocks of a document have different addresses. -/
theorem distinct_finalizedDocument : (addresses [(finalizedDocument (flushedParser P callback chunks)).2]).Nodup ∧
    ∀ j ∈ addresses [(finalizedDocument (flushedParser P callback chunks)).2],
      j < (finalizedDocument (flushedParser P callback chunks)).1.nextId := by
  have config : (flushedParser P callback chunks).config = P := flushedConfig_eq P callback chunks
  have tree := blockTree_finalizeBlocks core callback chunks
  obtain ⟨b, isBlock, _⟩ := tree.rooted
  unfold finalizedDocument
  rw [config]
  dsimp only
  constructor
  · simpa [addresses, postorderList] using nodup_toTree tree _ isBlock
  · intro j member
    obtain ⟨m, among, rfl⟩ := List.mem_map.mp member
    rw [postorderList, postorderList, List.append_nil] at among
    obtain ⟨b, linked, _⟩ := (Node.All.of_mem _ (all_toTree tree _ isBlock) among).here.linked
    exact tree.bound linked

variable (notNul : callback.getD ispunct 0 = false)

include notNul

theorem readdressed_parsedDocument :
    let r := finalizedDocument (flushedParser P callback chunks)
    Readdressed r.1.nextId (parsedDocument P callback chunks).1.nextId (addresses [r.2])
        (addresses [(parsedDocument P callback chunks).2]) ∧
      Readdressed r.1.nextId (parsedDocument P callback chunks).1.nextId []
        (startAddresses (finishStates (flushedParser P callback chunks))) := by
  intro r
  have config : (flushedParser P callback chunks).config = P := flushedConfig_eq P callback chunks
  let chars := manageExtensionsSpecialCharacters P true (flushedParser P callback chunks).chars
  have kept : chars.backslashIspunct = callback := backslashIspunct_flushedParser callback chunks
  have notNul' : chars.backslashIspunct.getD ispunct 0 = false := kept ▸ notNul
  obtain ⟨p, _, nodes⟩ := blockNodes_finalizedDocument core callback chunks
  have parsed := readdressed_processInlines core notNul' (children_of_containsInlines core) r.1 r.2 nodes
  unfold finishStates
  rw [config]
  exact parsed

/-- No address occurs twice in a document. -/
theorem distinct_documentOf : (addresses [documentOf P callback chunks]).Nodup := by
  obtain ⟨blocks, bound⟩ := distinct_finalizedDocument core callback chunks
  have parsed := (readdressed_parsedDocument core callback chunks notNul).1
  have nodes := parsed.distinct blocks bound
  have old := parsed.lt bound
  rw [documentOf_core core callback chunks]
  refine List.Nodup.sublist (addresses_consolidateTextNodes _) ?_
  split
  next =>
    exact addresses_processFootnotes P _ (footnoteTree_parsedDocument core callback chunks).document nodes old
  next => exact nodes

/-- No two inlines of a document are read when the same address comes next. -/
theorem eq_of_nextId {subj subj' : Subject} (among : subj ∈ finishStates (flushedParser P callback chunks))
    (among' : subj' ∈ finishStates (flushedParser P callback chunks)) (read : subj.peekChar ≠ 0)
    (read' : subj'.peekChar ≠ 0) (same : subj.nextId = subj'.nextId) : subj = subj' := by
  have states := (readdressed_parsedDocument core callback chunks notNul).2.distinct .nil nofun
  exact List.inj_on_of_nodup_map states (List.mem_filter.mpr ⟨among, by simpa using read⟩)
    (List.mem_filter.mpr ⟨among', by simpa using read'⟩) same

end

end CmarkGfm
