import Mathlib.Data.List.Chain
import CmarkGfm.Properties.BlockTree
import CmarkGfm.Properties.Chunking
import CmarkGfm.Properties.LinePosition

/-!
# The chain of open blocks

Between two lines the open blocks are the last children on the way from the root to the current
block. While a line is read the chain forks: the blocks that the line has not matched stay open
until the line is added, next to the blocks that it opens.
-/

namespace CmarkGfm

/-- The open blocks are those on a path of last children from the root to the current block. -/
def OpenChain (p : ParserState) : Prop :=
  ∃ path : List NodeId, path.head? = some p.root ∧ path.getLast? = some p.current ∧
    path.IsChain (fun above below => p.lastChild above = some below) ∧
    ∀ i, (∃ b, p.nodes i = some b ∧ b.data.isOpen) ↔ i ∈ path

/-! ### The invariant inside a line -/

def HasLastChild (links : NodeId → Option BlockLinks) (child above : NodeId) : Prop :=
  ∃ b, links above = some b ∧ b.children.getLast? = some child

def HasParent (links : NodeId → Option BlockLinks) (child above : NodeId) : Prop :=
  ∃ b, links child = some b ∧ b.parent = some above

/-- The open blocks while a line is read, innermost first: `stack` leads from the container of the
line to the root, and `rest` from the current block to a child of `base`, the last block that the
line matched. -/
structure Fork (p : ParserState) (stack rest : List NodeId) (base : NodeId) : Prop where
  tree : BlockTree p.links p.root p.nextId
  chain : stack.IsChain (HasLastChild p.links)
  bottom : stack.getLast? = some p.root
  isOpen : ∀ i, (∃ f, p.face i = some f ∧ f.isOpen) ↔ i ∈ stack ∨ i ∈ rest
  apart : ∀ i ∈ rest, i ∉ stack
  up : (rest ++ [base]).IsChain (HasParent p.links)
  current : (rest ++ [base]).head? = some p.current

/-- No assertion has failed, and every open block but one may be closed. -/
structure Checked (p : ParserState) (except : Option NodeId) : Prop where
  asserts : p.asserts = true
  sound : ∀ {i f}, except ≠ some i → p.face i = some f → f.isOpen → f.Sound []

theorem Checked.weaken {p : ParserState} (checked : Checked p none) (except : Option NodeId) :
    Checked p except := ⟨checked.asserts, fun _ => checked.sound nofun⟩

/-- In a chain that ends with `last`, every element but `last` is on the left of a link. -/
theorem isChain_concat_imp {R S : NodeId → NodeId → Prop} {l : List NodeId} {last : NodeId}
    (chain : (l ++ [last]).IsChain R) (keeps : ∀ c ∈ l, ∀ k, R c k → S c k) :
    (l ++ [last]).IsChain S := by
  induction l with
  | nil => exact List.isChain_singleton last
  | cons c l ih =>
    rw [List.cons_append, List.isChain_cons] at chain ⊢
    exact ⟨fun k head => keeps c List.mem_cons_self k (chain.1 k head),
      ih chain.2 fun d member => keeps d (List.mem_cons_of_mem c member)⟩

theorem HasParent.lt {p : ParserState} (tree : BlockTree p.links p.root p.nextId) {i j : NodeId}
    (linked : HasParent p.links i j) : j < i := by
  obtain ⟨b, block, parent⟩ := linked
  exact tree.lt_of_parent block parent

theorem HasLastChild.hasParent {p : ParserState} (tree : BlockTree p.links p.root p.nextId)
    {i j : NodeId} (linked : HasLastChild p.links i j) : HasParent p.links i j := by
  obtain ⟨b, block, last⟩ := linked
  obtain ⟨e, child, parent, _⟩ := tree.child block (List.mem_of_getLast? last)
  exact ⟨e, child, parent⟩

theorem typeOf_paragraph_links {p : ParserState} {i : NodeId} (paragraph : p.typeOf i = .paragraph) :
    ∃ b, p.links i = some b ∧ b.type = .paragraph := by
  cases found : p.nodes i with
  | none =>
    rw [ParserState.typeOf, ParserState.dataOf, ParserState.block, found] at paragraph
    cases paragraph
  | some b =>
    refine ⟨_, by rw [links_eq, found]; rfl, ?_⟩
    rw [← paragraph, ParserState.typeOf, ParserState.dataOf, ParserState.block, found]
    rfl

namespace Closes

variable {i : NodeId} {p p' : ParserState}

theorem tree (closes : Closes i p p') (tree : BlockTree p.links p.root p.nextId) :
    BlockTree p'.links p'.root p'.nextId := by
  rw [closes.root, closes.nextId]
  rcases closes.links with same | ⟨removed, paragraph⟩
  · rw [same]
    exact tree
  · obtain ⟨b, block, type⟩ := typeOf_paragraph_links paragraph
    rw [removed]
    refine tree.remove block (tree.childless block (by rw [type]; rfl)) ?_
    rintro rfl
    obtain ⟨e, root, _, document⟩ := tree.rooted
    rw [root] at block
    cases block
    rw [document] at type
    cases type

theorem hasLastChild (closes : Closes i p p') {child above : NodeId} (notChild : child ≠ i)
    (notAbove : above ≠ i) (linked : HasLastChild p.links child above) :
    HasLastChild p'.links child above := by
  rcases closes.links with same | ⟨removed, _⟩
  · rw [same]
    exact linked
  · obtain ⟨b, block, last⟩ := linked
    refine ⟨{ b with children := b.children.filter (· != i) }, ?_, ?_⟩
    · rw [removed, removeBlock, if_neg notAbove, block]
      rfl
    · obtain ⟨front, children⟩ := List.getLast?_eq_some_iff.mp last
      dsimp only
      rw [children, List.filter_append, List.filter_singleton, bne_iff_ne.mpr notChild, cond_true,
        List.getLast?_concat]

theorem hasParent (closes : Closes i p p') {child above : NodeId} (notChild : child ≠ i)
    (linked : HasParent p.links child above) : HasParent p'.links child above := by
  rcases closes.links with same | ⟨removed, _⟩
  · rw [same]
    exact linked
  · obtain ⟨b, block, parent⟩ := linked
    refine ⟨{ b with children := b.children.filter (· != i) }, ?_, parent⟩
    rw [removed, removeBlock, if_neg notChild, block]
    rfl

theorem isOpen_iff (closes : Closes i p p') (j : NodeId) :
    (∃ f, p'.face j = some f ∧ f.isOpen) ↔ j ≠ i ∧ ∃ f, p.face j = some f ∧ f.isOpen := by
  by_cases here : j = i
  · subst here
    refine ⟨?_, fun ⟨differs, _⟩ => absurd rfl differs⟩
    rintro ⟨f, found, isOpen⟩
    rw [closes.closed found] at isOpen
    cases isOpen
  · rw [closes.others j here]
    exact ⟨fun found => ⟨here, found⟩, fun ⟨_, found⟩ => found⟩

end Closes

namespace Fork

variable {p p' : ParserState} {stack rest : List NodeId} {base i : NodeId}

theorem sorted (fork : Fork p stack rest base) : stack.Pairwise (· > ·) :=
  (fork.chain.imp fun _ _ linked => (linked.hasParent fork.tree).lt fork.tree).pairwise

theorem restSorted (fork : Fork p stack rest base) : (rest ++ [base]).Pairwise (· > ·) :=
  (fork.up.imp fun _ _ linked => linked.lt fork.tree).pairwise

/-- Closing the container leaves its parent on top. -/
theorem closeContainer {j : NodeId} {s : List NodeId} (fork : Fork p (i :: j :: s) rest base)
    (closes : Closes i p p') : Fork p' (j :: s) rest base := by
  have above : ∀ k ∈ j :: s, k ≠ i := fun k member =>
    Nat.ne_of_lt ((List.pairwise_cons.mp fork.sorted).1 k member)
  have notRest : ∀ k ∈ rest, k ≠ i := by
    rintro k member rfl
    exact fork.apart k member List.mem_cons_self
  refine ⟨closes.tree fork.tree, ?_, ?_, ?_, ?_, ?_, ?_⟩
  · refine (List.IsChain.tail fork.chain).imp_of_mem_imp fun c k child parent linked => ?_
    exact closes.hasLastChild (above c child) (above k parent) linked
  · rw [closes.root, ← fork.bottom, List.getLast?_cons_cons]
  · intro k
    rw [closes.isOpen_iff, fork.isOpen, List.mem_cons]
    refine ⟨fun ⟨differs, member⟩ => member.imp_left fun m => m.resolve_left differs, ?_⟩
    rintro (member | member)
    · exact ⟨above k member, .inl (.inr member)⟩
    · exact ⟨notRest k member, .inr member⟩
  · exact fun k member onStack => fork.apart k member (List.mem_cons_of_mem _ onStack)
  · exact isChain_concat_imp fork.up fun c member k => closes.hasParent (notRest c member)
  · rw [closes.current]
    exact fork.current

/-- Closing the current block, which the line has not matched, makes its parent the current
one. -/
theorem closeCurrent {r j : NodeId} {rest : List NodeId} (fork : Fork p stack (r :: rest) base)
    (closes : Closes r p p') (parent : (rest ++ [base]).head? = some j) :
    Fork { p' with current := j } stack rest base := by
  have notStack : ∀ k ∈ stack, k ≠ r := by
    rintro k member rfl
    exact fork.apart k List.mem_cons_self member
  have notRest : ∀ k ∈ rest, k ≠ r := fun k member =>
    Nat.ne_of_lt ((List.pairwise_cons.mp fork.restSorted).1 k (List.mem_append_left _ member))
  refine ⟨closes.tree fork.tree, ?_, ?_, ?_, ?_, ?_, parent⟩
  · refine fork.chain.imp_of_mem_imp fun c k child parent linked => ?_
    exact closes.hasLastChild (notStack c child) (notStack k parent) linked
  · exact fork.bottom.trans (congrArg some closes.root.symm)
  · intro k
    refine (closes.isOpen_iff k).trans ?_
    rw [fork.isOpen, List.mem_cons]
    refine ⟨fun ⟨differs, member⟩ => member.imp_right fun m => m.resolve_left differs, ?_⟩
    rintro (member | member)
    · exact ⟨notStack k member, .inl member⟩
    · exact ⟨notRest k member, .inr (.inr member)⟩
  · exact fun k member => fork.apart k (List.mem_cons_of_mem r member)
  · have up := List.IsChain.tail fork.up
    exact isChain_concat_imp up fun c member k => closes.hasParent (notRest c member)

/-- A new block goes on top of the container. -/
theorem append {s : List NodeId} {data : NodeData} {l : BlockLinks}
    (fork : Fork p (i :: s) rest base) (block : p.links i = some l)
    (allowed : l.type.canContainType data.type) (core : data.type.isCoreBlock)
    (isOpen : data.isOpen) :
    Fork (p.appendBlock i data).1 (p.nextId :: i :: s) rest base := by
  have bound {k : NodeId} (opened : k ∈ i :: s ∨ k ∈ rest) : k ≠ p.nextId := by
    obtain ⟨f, face, _⟩ := (fork.isOpen k).mpr opened
    rw [face_eq] at face
    obtain ⟨b, found, _⟩ := Option.map_eq_some_iff.mp face
    exact Nat.ne_of_lt (fork.tree.bound (b := ⟨b.data.type, b.parent, b.children⟩)
      (by rw [links_eq, found]; rfl))
  have links := links_appendBlock p i data
  refine ⟨?_, ?_, ?_, ?_, ?_, ?_, fork.current⟩
  · rw [links]
    exact fork.tree.link block allowed core
  · rw [List.isChain_cons]
    refine ⟨?_, ?_⟩
    · intro k top
      cases top
      refine ⟨{ l with children := l.children ++ [p.nextId] }, ?_, List.getLast?_concat⟩
      rw [links, linkBlock, if_neg (bound (.inl List.mem_cons_self)), if_pos rfl, block]
      rfl
    · have sorted := List.pairwise_cons.mp fork.sorted
      have chain := List.isChain_cons.mp fork.chain
      refine List.isChain_cons.mpr ⟨?_, ?_⟩
      · rintro k top
        have member : k ∈ s := List.mem_of_mem_head? top
        obtain ⟨e, above, last⟩ := chain.1 k top
        refine ⟨e, ?_, last⟩
        rw [links, linkBlock, if_neg (bound (.inl (List.mem_cons_of_mem i member))),
          if_neg (Nat.ne_of_lt (sorted.1 k member)), above]
      · apply chain.2.imp_of_mem_imp
        rintro c k child parent ⟨e, above, last⟩
        refine ⟨e, ?_, last⟩
        rw [links, linkBlock, if_neg (bound (.inl (List.mem_cons_of_mem i parent))),
          if_neg (Nat.ne_of_lt (sorted.1 k parent)), above]
  · rw [List.getLast?_cons_cons]
    exact fork.bottom
  · intro k
    rw [face_appendBlock, List.mem_cons]
    by_cases new : k = p.nextId
    · rw [if_pos new]
      exact ⟨fun _ => .inl (.inl new), fun _ => ⟨_, rfl, isOpen⟩⟩
    · rw [if_neg new, fork.isOpen]
      exact or_congr_left (or_iff_right new).symm
  · intro k member onStack
    rcases List.mem_cons.mp onStack with new | old
    · exact bound (.inr member) new
    · exact fork.apart k member old
  · apply isChain_concat_imp fork.up
    rintro c member k ⟨e, child, parent⟩
    have old : c ≠ i := by
      rintro rfl
      exact fork.apart c member List.mem_cons_self
    refine ⟨e, ?_, parent⟩
    rw [links, linkBlock, if_neg (bound (.inr member)), if_neg old, child]

end Fork

/-! ### The position in the line -/

/-- Where the line is read. -/
def ParserState.cursor (p : ParserState) : Nat × Nat × Bool :=
  (p.offset, p.firstNonspace, p.partiallyConsumedTab)

theorem cursor_of_place {p p' : ParserState} (same : p'.place = p.place) : p'.cursor = p.cursor :=
  congrArg (fun x : LinePlace => (x.offset, x.firstNonspace, x.partiallyConsumedTab)) same

theorem cursor_finalize (P : Config) (p : ParserState) (b : NodeId) :
    (finalize P b p).1.cursor = p.cursor := cursor_of_place (place_finalize P p b)

/-! ### Closing blocks of the fork -/

theorem typeOf_eq (p : ParserState) (i : NodeId) :
    p.typeOf i = ((p.face i).map (·.type)).getD default := by
  rw [face_eq, ParserState.typeOf, ParserState.dataOf, ParserState.block]
  cases p.nodes i <;> rfl

theorem typeOf_congr {p p' : ParserState} {i : NodeId} (same : p'.face i = p.face i) :
    p'.typeOf i = p.typeOf i := by
  rw [typeOf_eq, typeOf_eq, same]

theorem Quiet.typeOf {p p' : ParserState} (quiet : Quiet p p') (i : NodeId) :
    p'.typeOf i = p.typeOf i := by
  refine typeOf_congr ?_
  rw [ParserState.face, ParserState.face, quiet.shape]

theorem length_le_of_sorted {l : List Nat} {n : Nat} (sorted : l.Pairwise (· > ·))
    (bound : ∀ i ∈ l, i < n) : l.length ≤ n := by
  have nodup : l.Nodup := sorted.imp Nat.ne_of_gt
  have within : l ⊆ List.range n := fun i member => List.mem_range.mpr (bound i member)
  simpa using (List.subperm_of_subset nodup within).length_le

theorem Checked.finalize {P : Config} {p : ParserState} {except : Option NodeId} {i : NodeId}
    {f : BlockFace} (checked : Checked p except) (tree : BlockTree p.links p.root p.nextId)
    (other : except ≠ some i) (face : p.face i = some f) (isOpen : f.isOpen) :
    Checked (finalize P i p).1 except := by
  have closes := closes_finalize P tree face
  have asserts := asserts_finalize P face isOpen (checked.sound other face isOpen)
  refine ⟨asserts.trans checked.asserts, ?_⟩
  intro j g differs found stillOpen
  by_cases here : j = i
  · subst here
    rw [closes.closed found] at stillOpen
    cases stillOpen
  · rw [closes.others j here] at found
    exact checked.sound differs found stillOpen

namespace Fork

variable {P : Config} {p : ParserState} {stack rest s : List NodeId} {base i : NodeId}
  {except : Option NodeId} {t : NodeType}

theorem bound (fork : Fork p stack rest base) (opened : i ∈ stack ∨ i ∈ rest) : i < p.nextId := by
  obtain ⟨f, face, _⟩ := (fork.isOpen i).mpr opened
  rw [face_eq] at face
  obtain ⟨b, found, _⟩ := Option.map_eq_some_iff.mp face
  exact fork.tree.bound (b := ⟨b.data.type, b.parent, b.children⟩) (by rw [links_eq, found]; rfl)

theorem hasParent_top {j : NodeId} (fork : Fork p (i :: j :: s) rest base) : p.parentOf i = some j := by
  have linked := (List.isChain_cons_cons.mp fork.chain).1
  obtain ⟨b, block, parent⟩ := linked.hasParent fork.tree
  exact (parent_of_links block).1.trans parent

/-- Some open block on the stack can hold a block that is not an item. -/
theorem accepts (fork : Fork p stack rest base) (block : t.isBlock) (notDocument : t ≠ .document)
    (notItem : t ≠ .item) : ∃ k ∈ stack, (p.typeOf k).canContainType t := by
  obtain ⟨b, root, _, document⟩ := fork.tree.rooted
  refine ⟨p.root, List.mem_of_getLast? fork.bottom, ?_⟩
  rw [(parent_of_links root).2.2, document, NodeType.canContainType, if_neg notDocument]
  simp [block, notItem]

/-- `add_child` backs up along the stack to a block that can hold the child. -/
theorem acceptingParent (core : P.syntaxExtensions = []) (fuel : Nat)
    (fork : Fork p (i :: s) rest base) (checked : Checked p none)
    (accepts : ∃ k ∈ i :: s, (p.typeOf k).canContainType t) (enough : s.length < fuel) :
    ∃ q j s', acceptingParent P t fuel i p = (q, j) ∧ Fork q (j :: s') rest base ∧
      Checked q none ∧ (q.typeOf j).canContainType t ∧ q.cursor = p.cursor ∧
      q.nextId = p.nextId := by
  induction fuel generalizing p i s with
  | zero => exact absurd enough (Nat.not_lt_zero _)
  | succ fuel ih =>
    unfold CmarkGfm.acceptingParent
    rw [nodeCanContainType_core core]
    split
    next here => exact ⟨p, i, s, rfl, fork, checked, here, rfl, rfl⟩
    next notHere =>
      cases s with
      | nil =>
        obtain ⟨k, member, here⟩ := accepts
        rw [List.mem_singleton.mp member] at here
        exact absurd here notHere
      | cons j s =>
        obtain ⟨f, face, isOpen⟩ := (fork.isOpen i).mpr (.inl List.mem_cons_self)
        have closes := closes_finalize P fork.tree face
        have checked' := checked.finalize (P := P) fork.tree (Option.some_ne_none i).symm face isOpen
        have cursor := cursor_finalize P p i
        have parent : (finalize P i p).2 = some j := fork.hasParent_top
        have fork' := fork.closeContainer closes
        have sorted := (List.pairwise_cons.mp fork.sorted).1
        generalize finalize P i p = r at closes checked' cursor parent fork'
        obtain ⟨q, up⟩ := r
        dsimp only at parent closes checked' cursor fork' ⊢
        subst parent
        have accepts' : ∃ k ∈ j :: s, (q.typeOf k).canContainType t := by
          obtain ⟨k, member, here⟩ := accepts
          rcases List.mem_cons.mp member with rfl | member
          · exact absurd here notHere
          · exact ⟨k, member, by
              rw [typeOf_congr (closes.others k (Nat.ne_of_lt (sorted k member)))]; exact here⟩
        obtain ⟨q', j', s', eq, fork'', checked'', may, cursor', nextId'⟩ :=
          ih fork' checked' accepts' (Nat.lt_of_succ_lt_succ enough)
        exact ⟨q', j', s', eq, fork'', checked'', may, cursor'.trans cursor,
          nextId'.trans closes.nextId⟩

/-- The new block is on top of the stack, and only its own content is not checked yet. -/
theorem addChild (core : P.syntaxExtensions = []) (fork : Fork p (i :: s) rest base)
    (checked : Checked p none) (coreBlock : t.isCoreBlock) (startColumn : Int)
    (accepts : ∃ k ∈ i :: s, (p.typeOf k).canContainType t) :
    ∃ q s', addChild P i t startColumn p = (q, p.nextId) ∧ Fork q (p.nextId :: s') rest base ∧
      Checked q (some p.nextId) ∧ q.face p.nextId = some ⟨t, true, [], .empty⟩ ∧
      q.cursor = p.cursor ∧ q.nextId = p.nextId + 1 := by
  have enough : (i :: s).length ≤ p.nextId :=
    length_le_of_sorted fork.sorted fun k member => fork.bound (.inl member)
  obtain ⟨q, j, s', eq, fork', checked', may, cursor, nextId⟩ := fork.acceptingParent core
    (p.nextId + 1) checked accepts (by rw [List.length_cons] at enough; omega)
  obtain ⟨f, face, _⟩ := (fork'.isOpen j).mpr (.inl List.mem_cons_self)
  obtain ⟨l, block, type⟩ : ∃ l, q.links j = some l ∧ l.type = q.typeOf j := by
    rw [face_eq] at face
    obtain ⟨b, found, _⟩ := Option.map_eq_some_iff.mp face
    have links : q.links j = some ⟨b.data.type, b.parent, b.children⟩ := by
      rw [links_eq, found]
      rfl
    exact ⟨_, links, (parent_of_links links).2.2.symm⟩
  unfold CmarkGfm.addChild
  rw [eq]
  dsimp only
  refine ⟨(q.appendBlock j (makeBlock t q.lineNumber startColumn)).1, j :: s', ?_, ?_, ?_, ?_,
    cursor, ?_⟩
  · rw [← nextId]
    rfl
  · rw [← nextId]
    exact fork'.append block (type ▸ may) coreBlock rfl
  · refine ⟨checked'.asserts, ?_⟩
    intro k g differs found isOpen
    rw [face_appendBlock, nextId, if_neg fun new => differs (congrArg some new.symm)] at found
    exact checked'.sound nofun found isOpen
  · rw [face_appendBlock, nextId, if_pos rfl]
    rfl
  · rw [← nextId]
    rfl

/-- The blocks that the line has not matched are closed, and nothing else. -/
theorem closeUnmatched (fuel : Nat) (fork : Fork p stack rest base) (checked : Checked p except)
    (other : ∀ k ∈ rest, except ≠ some k) (enough : rest.length < fuel) :
    ∃ q, closeUnmatched P base fuel p = q ∧ Fork q stack [] base ∧ Checked q except ∧
      q.cursor = p.cursor ∧ ∀ k ∉ rest, q.face k = p.face k := by
  induction fuel generalizing p rest with
  | zero => exact absurd enough (Nat.not_lt_zero _)
  | succ fuel ih =>
    unfold CmarkGfm.closeUnmatched
    cases rest with
    | nil =>
      have current : p.current = base := (Option.some.inj fork.current).symm
      rw [if_pos current]
      exact ⟨p, rfl, fork, checked, rfl, fun _ _ => rfl⟩
    | cons r rest =>
      have current : p.current = r := (Option.some.inj fork.current).symm
      have notBase : r ≠ base := by
        have sorted := (List.pairwise_cons.mp fork.restSorted).1
        exact Nat.ne_of_gt (sorted base (List.mem_append_right _ (List.mem_singleton_self base)))
      rw [current, if_neg notBase]
      obtain ⟨f, face, isOpen⟩ := (fork.isOpen r).mpr (.inr List.mem_cons_self)
      obtain ⟨j, parent⟩ : ∃ j, (rest ++ [base]).head? = some j := by
        cases rest <;> exact ⟨_, rfl⟩
      have up : (finalize P r p).2 = some j := by
        obtain ⟨b, block, above⟩ := (List.isChain_cons.mp fork.up).1 j parent
        exact (parent_of_links block).1.trans above
      have closes := closes_finalize P fork.tree face
      have checked' := checked.finalize (P := P) fork.tree (other r List.mem_cons_self) face isOpen
      have cursor := cursor_finalize P p r
      have fork' := fork.closeCurrent closes parent
      generalize finalize P r p = result at closes checked' cursor up fork'
      obtain ⟨q, above⟩ := result
      dsimp only at up closes checked' cursor fork' ⊢
      subst up
      obtain ⟨q', eq, fork'', checked'', cursor', faces⟩ := ih fork' ⟨checked'.asserts, checked'.sound⟩
        (fun k member => other k (List.mem_cons_of_mem r member)) (Nat.lt_of_succ_lt_succ enough)
      refine ⟨q', eq, fork'', checked'', cursor'.trans cursor, ?_⟩
      intro k absent
      rw [List.mem_cons, not_or] at absent
      exact (faces k absent.2).trans (closes.others k absent.1)

end Fork

/-! ### Changing what is in a block -/

theorem face_isSome_iff (p : ParserState) (i : NodeId) :
    (∃ f, p.face i = some f) ↔ ∃ l, p.links i = some l := by
  rw [face_eq, links_eq]
  cases p.nodes i <;> simp

theorem Alters.isOpen_iff {p p' : ParserState} {i : NodeId} (alters : Alters i p p') (j : NodeId) :
    (∃ f, p'.face j = some f ∧ f.isOpen) ↔ ∃ f, p.face j = some f ∧ f.isOpen := by
  by_cases here : j = i
  · subst here
    constructor
    · rintro ⟨f', found, isOpen⟩
      obtain ⟨f, face⟩ := (face_isSome_iff p j).mpr (by
        rw [← alters.links]
        exact (face_isSome_iff p' j).mp ⟨f', found⟩)
      obtain ⟨f'', face', _, same⟩ := alters.self face
      rw [found] at face'
      cases face'
      exact ⟨f, face, same ▸ isOpen⟩
    · rintro ⟨f, face, isOpen⟩
      obtain ⟨f', face', _, same⟩ := alters.self face
      exact ⟨f', face', same ▸ isOpen⟩
  · rw [alters.others j here]

theorem Checked.of_quiet {p p' : ParserState} {except : Option NodeId} (checked : Checked p except)
    (quiet : Quiet p p') : Checked p' except := by
  refine ⟨quiet.asserts.trans checked.asserts, ?_⟩
  intro i f differs face isOpen
  rw [ParserState.face, quiet.shape] at face
  exact checked.sound differs face isOpen

/-- A block whose content is fine is checked like the others. -/
theorem Checked.complete {p : ParserState} {i : NodeId} (checked : Checked p (some i))
    (sound : ∀ {f}, p.face i = some f → f.Sound []) : Checked p none := by
  refine ⟨checked.asserts, ?_⟩
  intro j f _ face isOpen
  by_cases here : j = i
  · exact sound (here ▸ face)
  · exact checked.sound (fun same => here (Option.some.inj same).symm) face isOpen

theorem Checked.alter {p p' : ParserState} {i : NodeId} (checked : Checked p (some i))
    (alters : Alters i p p') (asserts : p'.asserts = p.asserts) : Checked p' (some i) := by
  refine ⟨asserts.trans checked.asserts, ?_⟩
  intro j f differs face isOpen
  rw [alters.others j fun same => differs (congrArg some same.symm)] at face
  exact checked.sound differs face isOpen

namespace Fork

variable {p p' : ParserState} {stack rest s : List NodeId} {base i : NodeId}

theorem alter (fork : Fork p stack rest base) (alters : Alters i p p') :
    Fork p' stack rest base := by
  refine ⟨?_, ?_, ?_, ?_, fork.apart, ?_, ?_⟩
  · rw [alters.links, alters.root, alters.nextId]
    exact fork.tree
  · rw [alters.links]
    exact fork.chain
  · rw [alters.root]
    exact fork.bottom
  · intro j
    rw [alters.isOpen_iff, fork.isOpen]
  · rw [alters.links]
    exact fork.up
  · rw [alters.current]
    exact fork.current

theorem of_quiet (fork : Fork p stack rest base) (quiet : Quiet p p') : Fork p' stack rest base :=
  fork.alter (i := 0) (.of_quiet 0 quiet)

/-- A paragraph that becomes a heading stays where it is. -/
theorem retype (fork : Fork p stack rest base) (paragraph : p.typeOf i = .paragraph) (as : NodeAs) :
    Fork (p.modifyData i fun d => { d with type := .heading, as := as }) stack rest base := by
  obtain ⟨b, block, type⟩ := typeOf_paragraph_links paragraph
  have links : (p.modifyData i fun d => { d with type := .heading, as := as }).links =
      retypeBlock i .heading p.links := by
    funext j
    rw [links_eq, nodes_modifyData, retypeBlock]
    split
    next here =>
      rw [here, links_eq, Option.map_map, Option.map_map]
      rfl
    next => rw [links_eq]
  have keeps {j : NodeId} {l : BlockLinks} (linked : p.links j = some l) :
      ∃ l', retypeBlock i .heading p.links j = some l' ∧ l'.parent = l.parent ∧
        l'.children = l.children := by
    unfold retypeBlock
    split
    next => exact ⟨_, congrArg (Option.map _) linked, rfl, rfl⟩
    next => exact ⟨l, linked, rfl, rfl⟩
  refine ⟨?_, ?_, fork.bottom, ?_, fork.apart, ?_, fork.current⟩
  · rw [links]
    exact fork.tree.retype block type
  · rw [links]
    apply fork.chain.imp
    rintro c k ⟨l, above, last⟩
    obtain ⟨l', above', _, children⟩ := keeps above
    exact ⟨l', above', children ▸ last⟩
  · intro j
    rw [← fork.isOpen, face_modifyData]
    split
    next here =>
      rw [here, face_eq]
      cases p.nodes i <;> simp
    next => rfl
  · rw [links]
    apply fork.up.imp
    rintro c k ⟨l, child, parent⟩
    obtain ⟨l', child', up, _⟩ := keeps child
    exact ⟨l', child', up.trans parent⟩

/-- The chain of open blocks seen from a block on it. -/
theorem split (fork : Fork p (rest ++ base :: s) [] p.current)
    (top : (rest ++ base :: s).head? = some p.current) : Fork p (base :: s) rest base := by
  have up : (rest ++ [base]).IsChain (HasLastChild p.links) := by
    have chain := fork.chain
    rw [List.append_cons] at chain
    exact chain.left_of_append
  refine ⟨fork.tree, fork.chain.right_of_append, ?_, ?_, ?_, ?_, ?_⟩
  · rw [← fork.bottom, List.getLast?_append_cons]
  · intro j
    rw [fork.isOpen, List.mem_append]
    simp [or_comm]
  · intro j member onStack
    have sorted := List.pairwise_append.mp fork.sorted
    exact lt_irrefl _ (sorted.2.2 j member j onStack)
  · exact up.imp fun c k linked => linked.hasParent fork.tree
  · rw [← top]
    cases rest <;> rfl

/-- Once the blocks that were not matched are closed, the container becomes the current block. -/
theorem rebase (fork : Fork p (i :: s) [] base) :
    Fork { p with current := i } (i :: s) [] i :=
  ⟨fork.tree, fork.chain, fork.bottom, fork.isOpen, fork.apart, List.isChain_singleton i, rfl⟩

end Fork

/-- The state between two lines. -/
def Settled (p : ParserState) : Prop :=
  ∃ s, Fork p (p.current :: s) [] p.current ∧ Checked p none

theorem Settled.openChain {p : ParserState} (settled : Settled p) : OpenChain p := by
  obtain ⟨s, fork, _⟩ := settled
  refine ⟨(p.current :: s).reverse, ?_, ?_, ?_, ?_⟩
  · rw [List.head?_reverse, fork.bottom]
  · rw [List.getLast?_reverse, List.head?_cons]
  · rw [List.isChain_reverse]
    refine fork.chain.imp fun child above ⟨l, linked, last⟩ => ?_
    rw [ParserState.lastChild, (parent_of_links linked).2.1, last]
  · intro i
    have isOpen := fork.isOpen i
    rw [or_iff_left List.not_mem_nil, face_eq] at isOpen
    rw [List.mem_reverse, ← isOpen]
    cases p.nodes i <;> simp

/-! ### Matching the open blocks -/

theorem quiet_assert {p : ParserState} {condition : Bool} (holds : condition = true) :
    Quiet p (p.assert condition) := by
  refine ⟨rfl, rfl, rfl, rfl, ?_, rfl⟩
  rw [ParserState.assert, holds, Bool.and_true]

theorem parseCodeBlockPrefix_cases (P : Config) (input : Bytes) (i : NodeId) (p : ParserState) :
    (Quiet p (parseCodeBlockPrefix P input i p).1 ∧
        (parseCodeBlockPrefix P input i p).2 ≠ .closed) ∨
      ∃ q, Quiet p q ∧ parseCodeBlockPrefix P input i p =
        ({ (finalize P i q).1 with
          current := (finalize P i q).2.getD (finalize P i q).1.current }, .closed) := by
  unfold parseCodeBlockPrefix
  extract_lets code matched
  split
  next =>
    split
    next => exact .inl ⟨quiet_advanceOffset input p _ _, nofun⟩
    next =>
      split
      next => exact .inl ⟨quiet_advanceTo input p _, nofun⟩
      next => exact .inl ⟨.refl p, nofun⟩
  next =>
    split
    next => exact .inr ⟨_, quiet_advanceOffset input p _ _, rfl⟩
    next => exact .inl ⟨quiet_skipFenceOffset input p _, nofun⟩

/-- Only a closing fence changes the blocks, and the assertion about HTML blocks holds. -/
theorem parseBlockPrefix_cases {P : Config} (core : P.syntaxExtensions = []) (input : Bytes)
    {i : NodeId} {p : ParserState} {f : BlockFace} (checked : Checked p none)
    (face : p.face i = some f) (isOpen : f.isOpen) :
    (Quiet p (parseBlockPrefix P input i p).1 ∧ (parseBlockPrefix P input i p).2 ≠ .closed) ∨
      (p.typeOf i = .codeBlock ∧ ∃ q, Quiet p q ∧ parseBlockPrefix P input i p =
        ({ (finalize P i q).1 with
          current := (finalize P i q).2.getD (finalize P i q).1.current }, .closed)) := by
  have ofResult {r : ParserState × Bool} (quiet : Quiet p r.1) :
      Quiet p (prefixResult r).1 ∧ (prefixResult r).2 ≠ .closed := by
    refine ⟨quiet, ?_⟩
    unfold prefixResult
    split <;> exact nofun
  unfold parseBlockPrefix
  rw [extensionOf_core core]
  dsimp only
  split
  next => exact .inl (ofResult (quiet_parseBlockQuotePrefix input p))
  next => exact .inl (ofResult (quiet_parseNodeItemPrefix input i p))
  next code => exact (parseCodeBlockPrefix_cases P input i p).imp_right fun closed => ⟨code, closed⟩
  next => exact .inl ⟨.refl p, nofun⟩
  next html =>
    have known := (checked.sound nofun face isOpen).html ((typeOf_of_face face).symm.trans html)
    refine .inl (ofResult (quiet_assert ?_))
    rw [(data_of_face face).2.2.2]
    simp [known]
  next =>
    refine .inl ⟨.refl p, ?_⟩
    split <;> exact nofun
  next => exact .inl (ofResult (quiet_parseFootnoteDefinitionBlockPrefix input p))
  next => exact .inl ⟨.refl p, nofun⟩

/-- The open last child of a block on the chain is the next block of the chain. -/
theorem Fork.openLastChild {p : ParserState} {rest s : List NodeId} {current i child : NodeId}
    (fork : Fork p (rest ++ i :: s) [] current) (found : openLastChild p i = some child) :
    ∃ rest', rest = rest' ++ [child] := by
  obtain ⟨last, isOpen⟩ := Option.filter_eq_some_iff.mp found
  obtain ⟨f, face, opened⟩ := (fork.isOpen i).mpr
    (.inl (List.mem_append_right rest List.mem_cons_self))
  obtain ⟨l, links⟩ := (face_isSome_iff p i).mp ⟨f, face⟩
  have linked : HasLastChild p.links child i := by
    refine ⟨l, links, ?_⟩
    rw [← last, ParserState.lastChild, (parent_of_links links).2.1]
  obtain ⟨e, childLinks, _⟩ := linked.hasParent fork.tree
  obtain ⟨g, childFace⟩ := (face_isSome_iff p child).mpr ⟨e, childLinks⟩
  have onChain : child ∈ rest ++ i :: s := by
    refine ((fork.isOpen child).mp ⟨g, childFace, ?_⟩).resolve_right List.not_mem_nil
    rw [← (data_of_face childFace).2.1]
    exact isOpen
  have before := (linked.hasParent fork.tree).lt fork.tree
  have sorted := List.pairwise_append.mp fork.sorted
  have inRest : child ∈ rest := by
    rcases List.mem_append.mp onChain with member | member
    · exact member
    · rcases List.mem_cons.mp member with rfl | member
      · exact absurd before (lt_irrefl _)
      · exact absurd before (Nat.lt_asymm ((List.pairwise_cons.mp sorted.2.1).1 child member))
  obtain ⟨rest', r, rfl⟩ := (List.eq_nil_or_concat' rest).resolve_left (List.ne_nil_of_mem inRest)
  have chain : HasLastChild p.links r i := by
    have link := fork.chain
    rw [List.append_assoc, List.singleton_append, List.isChain_append_cons_cons] at link
    exact link.2.1
  obtain ⟨l', links', last'⟩ := chain
  obtain ⟨l'', links'', last''⟩ := linked
  rw [links'] at links''
  cases links''
  rw [last'] at last''
  cases last''
  exact ⟨rest', rfl⟩

/-- A code block holds no blocks, so it is the last of the chain. -/
theorem Fork.code_top {p : ParserState} {rest s : List NodeId} {base i : NodeId}
    (fork : Fork p (rest ++ i :: s) [] base) (code : p.typeOf i = .codeBlock) : rest = [] := by
  rcases List.eq_nil_or_concat' rest with none | ⟨rest', r, rfl⟩
  · exact none
  · have chain := fork.chain
    rw [List.append_assoc, List.singleton_append, List.isChain_append_cons_cons] at chain
    obtain ⟨l, links, last⟩ := chain.2.1
    have leaf : l.type.isLeafBlock := by
      rw [← (parent_of_links links).2.2, code]
      rfl
    rw [fork.tree.childless links leaf] at last
    cases last

/-- `check_open_blocks` stops at a block of the chain, or it closes the fence of the last one. -/
theorem checkOpenBlocksFrom_spec {P : Config} (core : P.syntaxExtensions = []) (input : Bytes)
    (fuel : Nat) {p : ParserState} {rest s chain : List NodeId} {i base : NodeId}
    (whole : chain = rest ++ i :: s) (fork : Fork p chain [] base) (checked : Checked p none) :
    (∃ q m all, checkOpenBlocksFrom P input fuel i p = (q, some m, all) ∧ m ∈ chain ∧ Quiet p q) ∨
      ∃ q all, checkOpenBlocksFrom P input fuel i p = (q, none, all) ∧ Settled q := by
  have here : i ∈ chain := by simp [whole]
  induction fuel generalizing p rest s i with
  | zero => exact .inl ⟨p, i, true, rfl, here, .refl p⟩
  | succ fuel ih =>
    unfold checkOpenBlocksFrom
    cases next : openLastChild p i with
    | none => exact .inl ⟨p, i, true, rfl, here, .refl p⟩
    | some child =>
      obtain ⟨rest', rfl⟩ := (whole ▸ fork).openLastChild next
      rw [List.append_assoc, List.singleton_append] at whole
      have found := quiet_findFirstNonspace input p
      have fork' := fork.of_quiet found
      have checked' := checked.of_quiet found
      generalize findFirstNonspace input p = p' at found fork' checked' ⊢
      have childHere : child ∈ chain := by simp [whole]
      obtain ⟨f, face, isOpen⟩ := (fork'.isOpen child).mpr (.inl childHere)
      dsimp only
      rcases parseBlockPrefix_cases core input checked' face isOpen with
        ⟨quiet, notClosed⟩ | ⟨code, q, quiet, closes⟩
      · generalize parseBlockPrefix P input child p' = r at quiet notClosed ⊢
        obtain ⟨q, result⟩ := r
        dsimp only at quiet notClosed ⊢
        cases result with
        | matched =>
          rcases ih whole (fork'.of_quiet quiet) (checked'.of_quiet quiet) childHere with
            ⟨q', m, all, eq, member, quiet'⟩ | closed
          · exact .inl ⟨q', m, all, eq, member, found.trans (quiet.trans quiet')⟩
          · exact .inr closed
        | unmatched =>
          have parent : q.parentOf child = some i := by
            have chain := (whole ▸ fork'.of_quiet quiet : Fork q (rest' ++ child :: i :: s) [] base)
            obtain ⟨b, block, up⟩ :=
              (List.isChain_append_cons_cons.mp chain.chain).2.1.hasParent chain.tree
            exact (parent_of_links block).1.trans up
          exact .inl ⟨q, i, false, by rw [← parent], here, found.trans quiet⟩
        | closed => exact absurd rfl notClosed
      · have fork'' := fork'.of_quiet quiet
        have checked'' := checked'.of_quiet quiet
        rw [whole] at fork' fork''
        rw [fork'.code_top code, List.nil_append] at fork''
        obtain ⟨g, face', isOpen'⟩ := (fork''.isOpen child).mpr (.inl List.mem_cons_self)
        have parent : (finalize P child q).2 = some i := fork''.hasParent_top
        have shut := fork''.closeContainer (closes_finalize P fork''.tree face')
        have sound := checked''.finalize (P := P) fork''.tree (Option.some_ne_none child).symm face' isOpen'
        rw [closes, parent]
        exact .inr ⟨_, false, rfl, s, shut.rebase, sound.asserts, sound.sound⟩

/-! ### What the scanners find -/

namespace Scanners

open Regex

theorem scanTrailing_context {rules : List (Re × Re)} {input : Bytes}
    (found : 0 < scanTrailing rules input) :
    ∃ rule ∈ rules, ∃ k, Matches CharClass.mem rule.2
      ((input.drop (scanTrailing rules input)).take k) := by
  induction rules with
  | nil => exact absurd found (lt_irrefl _)
  | cons rule rules ih =>
    obtain ⟨r, t⟩ := rule
    unfold scanTrailing at found ⊢
    cases here : trailingMatch CharClass.mem r t input with
    | some n =>
      obtain ⟨_, _, k, _, context⟩ := trailingMatch_sound CharClass.mem r t input n here
      exact ⟨(r, t), List.mem_cons_self, k, context⟩
    | none =>
      rw [here] at found
      obtain ⟨rule, member, context⟩ := ih found
      exact ⟨rule, List.mem_cons_of_mem _ member, context⟩

theorem lineEnd_of_mem {c : UInt8} (inClass : CharClass.mem ⟨false, chars "\r\n"⟩ c = true) :
    isLineEndChar c = true := by
  have ranges : chars "\r\n" = [(13, 13), (10, 10)] := by decide
  rw [CharClass.mem, ranges] at inClass
  simp only [List.any_cons, List.any_nil, Bool.or_false, bne_iff_ne, ne_eq, Bool.false_eq,
    Bool.not_eq_false, Bool.or_eq_true, Bool.and_eq_true, decide_eq_true_eq] at inClass
  rcases inClass with ⟨low, high⟩ | ⟨low, high⟩
  · rw [UInt8.le_antisymm high low]
    rfl
  · rw [UInt8.le_antisymm high low]
    rfl

/-- The line of an opening code fence ends behind the fence. -/
theorem openCodeFence_lineEnd {input : Bytes} (found : 0 < openCodeFence input) :
    ∃ c ∈ input.drop (openCodeFence input), isLineEndChar c := by
  obtain ⟨rule, member, k, context⟩ := scanTrailing_context found
  have ends : ∃ r, rule.2 = .seq r (oneOf (chars "\r\n")) := by
    rw [List.mem_cons, List.mem_singleton] at member
    rcases member with rfl | rfl <;> exact ⟨_, rfl⟩
  obtain ⟨r, shape⟩ := ends
  rw [shape] at context
  generalize taken : (input.drop (scanTrailing _ input)).take k = w at context
  cases context with
  | @seq _ _ u v first last =>
    cases last with
    | @cls _ c inClass =>
      refine ⟨c, List.mem_of_mem_take (i := k) ?_, ?_⟩
      · exact taken ▸ List.mem_append_right u (List.mem_singleton_self c)
      · exact lineEnd_of_mem inClass

theorem foldl_choice {α : Type} {f : Option α → α → Option α}
    (choice : ∀ best r, f best r = best ∨ f best r = some r) (found : List α) (start : Option α) :
    found.foldl f start = start ∨ ∃ r ∈ found, found.foldl f start = some r := by
  induction found generalizing start with
  | nil => exact .inl rfl
  | cons r found ih =>
    rw [List.foldl_cons]
    rcases ih (f start r) with same | ⟨r', member, same⟩
    · rw [same]
      exact (choice start r).imp_right fun chosen => ⟨r, List.mem_cons_self, chosen⟩
    · exact .inr ⟨r', List.mem_cons_of_mem r member, same⟩

/-- A scanner with codes gives the code of one of its rules. -/
theorem scanCode_mem (rules : List (Re × Nat)) (input : Bytes) :
    scanCode rules input = 0 ∨ scanCode rules input ∈ rules.map (·.2) := by
  unfold scanCode
  dsimp -zeta only
  extract_lets found
  generalize chosen : found.foldl _ none = best
  have member : best = none ∨ ∃ r ∈ found, best = some r := by
    rw [← chosen]
    refine foldl_choice (fun best r => ?_) found none
    split
    next =>
      split
      next => exact .inr rfl
      next => exact .inl rfl
    next => exact .inr rfl
  rcases member with rfl | ⟨r, member, rfl⟩
  · exact .inl rfl
  · obtain ⟨rule, isRule, here⟩ := List.mem_filterMap.mp member
    obtain ⟨n, _, rfl⟩ := Option.map_eq_some_iff.mp here
    exact .inr (List.mem_map_of_mem isRule)

end Scanners

theorem scanHtmlBlock_le (input : Bytes) (pos : Nat) (contType : NodeType) :
    scanHtmlBlock input pos contType ≤ 7 := by
  have bounded {rules : List (Scanners.Re × Nat)} (small : ∀ n ∈ rules.map (·.2), n ≤ 7)
      (rest : Bytes) : Scanners.scanCode rules rest ≤ 7 := by
    rcases Scanners.scanCode_mem rules rest with none | member
    · rw [none]
      exact Nat.zero_le 7
    · exact small _ member
  unfold scanHtmlBlock
  extract_lets matched
  split
  next => exact bounded (by decide) _
  next => exact bounded (by decide) _

/-! ### Opening new blocks -/

/-- What `add_line` would add of the line. -/
def lineRest (input : Bytes) (p : ParserState) : Bytes :=
  input.drop (p.offset + if p.partiallyConsumedTab then 1 else 0)

/-- A new block is on top of the stack and gets the rest of the line. -/
def Opened (input : Bytes) (p : ParserState) (i : NodeId) (rest : List NodeId) (base : NodeId) :
    Prop :=
  ∃ s, Fork p (i :: s) rest base ∧ Checked p (some i) ∧
    ∀ {f}, p.face i = some f → f.Sound (lineRest input p)

/-- The two states have the same open blocks, linked alike. -/
def Continues (p p' : ParserState) : Prop :=
  ∀ {stack rest base}, Fork p stack rest base → Fork p' stack rest base

/-- What a line start says about the line. -/
def BlockStart.Valid (input : Bytes) (container : NodeId) (p : ParserState) : BlockStart → Prop
  | .fencedCode matched =>
    0 < matched ∧ Scanners.scanAt Scanners.openCodeFence input p.firstNonspace = matched
  | .htmlBlock matched => 1 ≤ matched ∧ matched ≤ 7
  | .setextHeading _ => p.typeOf container = .paragraph
  | _ => True

theorem BlockFace.Sound.mono {f : BlockFace} {less more : Bytes} (sound : f.Sound less)
    (within : ∀ c ∈ less, c ∈ more) : f.Sound more := by
  refine ⟨fun code fenced => ?_, sound.html⟩
  obtain ⟨c, member, lineEnd⟩ := sound.fence code fenced
  refine ⟨c, ?_, lineEnd⟩
  rw [List.mem_append] at member ⊢
  exact member.imp_right (within c)

theorem BlockFace.Sound.of_not_code {f : BlockFace} {more : Bytes} (sound : f.Sound more)
    (other : f.type ≠ .codeBlock) : f.Sound [] := ⟨fun code => absurd code other, sound.html⟩

namespace Opened

variable {input : Bytes} {p q : ParserState} {i base : NodeId} {rest s : List NodeId}
  {f : BlockFace}

theorem of_alters (fork : Fork p (i :: s) rest base) (checked : Checked p (some i))
    (face : p.face i = some f) (alters : Alters i p q) (asserts : q.asserts = p.asserts)
    (notCode : f.type ≠ .codeBlock) (notHtml : f.type ≠ .htmlBlock) : Opened input q i rest base := by
  refine ⟨s, fork.alter alters, checked.alter alters asserts, ?_⟩
  intro g found
  obtain ⟨f', face', type, _⟩ := alters.self face
  rw [found] at face'
  cases face'
  exact .of_type (type ▸ notCode) (type ▸ notHtml)

/-- A new block that does not take the line yet is like the others. -/
theorem complete (opened : Opened input p i rest base) (other : p.typeOf i ≠ .codeBlock) :
    ∃ s, Fork p (i :: s) rest base ∧ Checked p none := by
  obtain ⟨s, fork, checked, sound⟩ := opened
  refine ⟨s, fork, checked.complete fun found => (sound found).of_not_code ?_⟩
  rw [← typeOf_of_face found]
  exact other

theorem of_checked (fork : Fork p (i :: s) rest base) (checked : Checked p none) :
    Opened input p i rest base := by
  refine ⟨s, fork, checked.weaken _, ?_⟩
  intro f found
  obtain ⟨g, face, isOpen⟩ := (fork.isOpen i).mpr (.inl List.mem_cons_self)
  rw [found] at face
  cases face
  exact (checked.sound nofun found isOpen).mono nofun

end Opened

/-- Advancing by bytes stops before the position is passed. -/
theorem advanceLoop_le (input : Bytes) (fuel count : Nat) (p : ParserState) :
    (advanceLoop input false fuel count p).offset +
        (if (advanceLoop input false fuel count p).partiallyConsumedTab then 1 else 0) ≤
      p.offset + max count (if p.partiallyConsumedTab then 1 else 0) := by
  induction fuel generalizing count p with
  | zero =>
    unfold advanceLoop
    omega
  | succ fuel ih =>
    unfold advanceLoop
    extract_lets c charsToTab
    split
    next => omega
    next going =>
      have some : 1 ≤ count := by
        simp only [Bool.or_eq_true, decide_eq_true_eq, not_or] at going
        omega
      split
      next =>
        refine (ih _ _).trans ?_
        simp only [Bool.false_eq_true, if_false]
        omega
      next =>
        refine (ih _ _).trans ?_
        simp only [Bool.false_eq_true, if_false]
        omega

theorem mem_lineRest_advanceTo {input : Bytes} {pos : Nat} {p : ParserState} {c : UInt8}
    (before : p.offset < pos) (member : c ∈ input.drop pos) :
    c ∈ lineRest input (advanceTo input pos p) := by
  have stops := advanceLoop_le input ((pos : Int) - p.offset).toNat ((pos : Int) - p.offset).toNat p
  have reached : (advanceTo input pos p).offset +
      (if (advanceTo input pos p).partiallyConsumedTab then 1 else 0) ≤ pos := by
    refine stops.trans ?_
    split <;> omega
  unfold lineRest
  exact List.drop_subset_drop_left input reached member

/-! ### The block starts -/

section

variable {P : Config} {input : Bytes} {p : ParserState} {rest s : List NodeId} {base i : NodeId}
  {t : NodeType}

/-- What opening a block gives: the container goes on, or a new block is on top. -/
def OpensBlock (input : Bytes) (p : ParserState) (rest : List NodeId) (base i : NodeId)
    (r : ParserState × NodeId) : Prop :=
  p.nextId ≤ r.1.nextId ∧
    ((r.2 = i ∧ acceptsLines (r.1.typeOf i) ∧ Checked r.1 none ∧ Continues p r.1) ∨
      p.nextId ≤ r.2 ∧ Opened input r.1 r.2 rest base)

/-- Add a block that is not a code block and fill it in. -/
theorem opensBlock_addChild (core : P.syntaxExtensions = []) (fork : Fork p (i :: s) rest base)
    (checked : Checked p none) (startColumn : Int) (block : t.isCoreBlock)
    (other : t ≠ .document ∧ t ≠ .item ∧ t ≠ .codeBlock ∧ t ≠ .htmlBlock)
    (fill : NodeId → ParserState → ParserState) (alters : ∀ n q, Alters n q (fill n q))
    (asserts : ∀ n q, (fill n q).asserts = q.asserts) :
    OpensBlock input p rest base i
      (fill (addChild P i t startColumn p).2 (addChild P i t startColumn p).1,
        (addChild P i t startColumn p).2) := by
  obtain ⟨notDocument, notItem, notCode, notHtml⟩ := other
  have isBlock : t.isBlock := by
    revert block
    cases t <;> simp [NodeType.isCoreBlock, NodeType.isBlock]
  obtain ⟨q, s', eq, fork', checked', face, _, nextId⟩ := fork.addChild core checked block startColumn
    (fork.accepts isBlock notDocument notItem)
  rw [eq]
  refine ⟨?_, .inr ⟨le_rfl, ?_⟩⟩
  · show p.nextId ≤ (fill p.nextId q).nextId
    rw [(alters p.nextId q).nextId, nextId]
    exact Nat.le_succ _
  · exact .of_alters fork' checked' face (alters _ _) (asserts _ _) notCode notHtml

theorem opensBlock_of_quiet {q : ParserState} (quiet : Quiet p q) {r : ParserState × NodeId}
    (opens : OpensBlock input q rest base i r) : OpensBlock input p rest base i r := by
  obtain ⟨grows, outcome⟩ := opens
  rw [quiet.nextId] at grows outcome
  refine ⟨grows, outcome.imp_left ?_⟩
  rintro ⟨same, accepts, checked, continues⟩
  exact ⟨same, accepts, checked, fun fork => continues (fork.of_quiet quiet)⟩

theorem opensBlock_openBlockQuote (core : P.syntaxExtensions = [])
    (fork : Fork p (i :: s) rest base) (checked : Checked p none) :
    OpensBlock input p rest base i (openBlockQuote P input i p) := by
  have quiet := (quiet_advanceTo input p (p.firstNonspace + 1)).trans
    (quiet_advanceOptionalSpace input _)
  refine opensBlock_of_quiet quiet ?_
  exact opensBlock_addChild core (fork.of_quiet quiet) (checked.of_quiet quiet) _ rfl (by decide)
    (fun _ q => q) (fun n q => .of_quiet n (.refl q)) fun _ _ => rfl

theorem opensBlock_openAtxHeading (core : P.syntaxExtensions = []) (matched : Nat)
    (fork : Fork p (i :: s) rest base) (checked : Checked p none) :
    OpensBlock input p rest base i (openAtxHeading P input matched i p) := by
  have quiet := quiet_advanceTo input p (p.firstNonspace + matched)
  refine opensBlock_of_quiet quiet ?_
  exact opensBlock_addChild (t := .heading) core (fork.of_quiet quiet) (checked.of_quiet quiet) _
    rfl (by decide) (fun n q => q.modifyData n fun d =>
      { d with
        as := .heading ((input.drop p.firstNonspace).takeWhile (· == chr '#')).length false
        internalOffset := matched })
    (fun n q => alters_modifyData q n _ fun _ => ⟨rfl, rfl⟩) fun _ _ => rfl

theorem opensBlock_openThematicBreak (core : P.syntaxExtensions = [])
    (fork : Fork p (i :: s) rest base) (checked : Checked p none) :
    OpensBlock input p rest base i (openThematicBreak P input i p) :=
  opensBlock_addChild core fork checked _ rfl (by decide)
    (fun _ q => advanceTo input (input.length - 1) q)
    (fun n q => .of_quiet n (quiet_advanceTo input q _))
    fun _ q => (quiet_advanceTo input q _).asserts

theorem opensBlock_openFootnoteDefinition (core : P.syntaxExtensions = []) (matched : Nat)
    (fork : Fork p (i :: s) rest base) (checked : Checked p none) :
    OpensBlock input p rest base i (openFootnoteDefinition P input matched i p) := by
  have quiet := quiet_advanceTo input p (p.firstNonspace + matched)
  refine opensBlock_of_quiet quiet ?_
  exact opensBlock_addChild (t := .footnoteDefinition) core (fork.of_quiet quiet)
    (checked.of_quiet quiet) _ rfl (by decide) (fun n q => q.modifyData n fun d =>
      { d with
        as := .literal ((chunkDup input (p.firstNonspace + 2) (matched - 2)).rdropWhile
          (· != chr ']')).dropLast
        internalOffset := matched })
    (fun n q => alters_modifyData q n _ fun _ => ⟨rfl, rfl⟩) fun _ _ => rfl

theorem opensBlock_openFencedCode (core : P.syntaxExtensions = []) {matched : Nat}
    (fork : Fork p (i :: s) rest base) (checked : Checked p none)
    (aligned : p.offset ≤ p.firstNonspace) (valid : (BlockStart.fencedCode matched).Valid input i p) :
    OpensBlock input p rest base i (openFencedCode P input matched i p) := by
  obtain ⟨q, s', eq, fork', checked', face, cursor, nextId⟩ := fork.addChild core checked
    (t := .codeBlock) rfl (p.firstNonspace + 1) (fork.accepts rfl (by decide) (by decide))
  obtain ⟨offset, firstNonspace, _⟩ : q.offset = p.offset ∧ q.firstNonspace = p.firstNonspace ∧ _ :=
    ⟨congrArg (·.1) cursor, congrArg (·.2.1) cursor, congrArg (·.2.2) cursor⟩
  obtain ⟨some, fence⟩ := valid
  unfold openFencedCode
  rw [eq]
  dsimp -zeta only
  extract_lets data filled
  have fills : Alters p.nextId q filled := alters_modifyData q _ _ fun _ => ⟨rfl, rfl⟩
  have reads := quiet_advanceTo input filled (filled.firstNonspace + matched)
  have alters := fills.trans (.of_quiet p.nextId reads)
  refine ⟨?_, .inr ⟨le_rfl, s', fork'.alter alters, checked'.alter alters reads.asserts, ?_⟩⟩
  · show p.nextId ≤ (advanceTo input _ filled).nextId
    rw [alters.nextId, nextId]
    exact Nat.le_succ _
  · intro f found
    have type : f.type = .codeBlock := by
      obtain ⟨f', face', type, _⟩ := alters.self face
      rw [found] at face'
      cases face'
      exact type
    refine ⟨fun _ _ => ?_, fun html => absurd (type.symm.trans html) (by decide)⟩
    rw [Scanners.scanAt] at fence
    obtain ⟨c, member, lineEnd⟩ := Scanners.openCodeFence_lineEnd (fence ▸ some)
    rw [fence, List.drop_drop, ← firstNonspace] at member
    refine ⟨c, List.mem_append_right _ (mem_lineRest_advanceTo ?_ member), lineEnd⟩
    show q.offset < q.firstNonspace + matched
    omega

theorem opensBlock_openHtmlBlock (core : P.syntaxExtensions = []) {matched : Nat}
    (fork : Fork p (i :: s) rest base) (checked : Checked p none)
    (valid : (BlockStart.htmlBlock matched).Valid input i p) :
    OpensBlock input p rest base i (openHtmlBlock P matched i p) := by
  obtain ⟨q, s', eq, fork', checked', face, _, nextId⟩ := fork.addChild core checked
    (t := .htmlBlock) rfl (p.firstNonspace + 1) (fork.accepts rfl (by decide) (by decide))
  unfold openHtmlBlock
  rw [eq]
  have alters : Alters p.nextId q (q.modifyData p.nextId fun d => { d with as := .htmlBlockType matched }) :=
    alters_modifyData q _ _ fun _ => ⟨rfl, rfl⟩
  refine ⟨nextId ▸ Nat.le_succ _, .inr ⟨le_rfl, s', fork'.alter alters, checked'.alter alters rfl, ?_⟩⟩
  intro f found
  rw [face_modifyData, if_pos rfl] at found
  rw [face_eq] at face
  obtain ⟨b, block, same⟩ := Option.map_eq_some_iff.mp face
  rw [block] at found
  cases found
  have type : b.data.type = .htmlBlock := congrArg BlockFace.type same
  exact ⟨fun code => absurd (type.symm.trans code) (by decide), fun _ => valid⟩

theorem opensBlock_openIndentedCode (core : P.syntaxExtensions = [])
    (fork : Fork p (i :: s) rest base) (checked : Checked p none) :
    OpensBlock input p rest base i (openIndentedCode P input i p) := by
  have quiet := quiet_advanceOffset input p codeIndent true
  refine opensBlock_of_quiet quiet ?_
  replace fork := fork.of_quiet quiet
  replace checked := checked.of_quiet quiet
  unfold openIndentedCode
  generalize advanceOffset input codeIndent true p = p at fork checked ⊢
  obtain ⟨q, s', eq, fork', checked', face, _, nextId⟩ := fork.addChild core checked
    (t := .codeBlock) rfl (p.offset + 1) (fork.accepts rfl (by decide) (by decide))
  dsimp only
  rw [eq]
  have alters : Alters p.nextId q
      (q.modifyData p.nextId fun d => { d with as := .code ⟨[], [], 0, 0, 0, false⟩ }) :=
    alters_modifyData q _ _ fun _ => ⟨rfl, rfl⟩
  refine ⟨nextId ▸ Nat.le_succ _, .inr ⟨le_rfl, s', fork'.alter alters, checked'.alter alters rfl, ?_⟩⟩
  intro f found
  rw [face_modifyData, if_pos rfl] at found
  rw [face_eq] at face
  obtain ⟨b, block, same⟩ := Option.map_eq_some_iff.mp face
  rw [block] at found
  cases found
  have type : b.data.type = .codeBlock := congrArg BlockFace.type same
  exact ⟨fun _ => nofun, fun html => absurd (type.symm.trans html) (by decide)⟩

/-- An item goes into the list that the line continues, or into a new one. -/
theorem opensBlock_openListItem (core : P.syntaxExtensions = []) (matched : Nat) (data : ListData)
    (fork : Fork p (i :: s) rest base) (checked : Checked p none) :
    OpensBlock input p rest base i (openListItem P input matched data i p) := by
  unfold openListItem
  extract_lets contType startColumn
  have quiet : Quiet p
      (markerPadding input matched (advanceTo input (p.firstNonspace + matched) p)).1 :=
    (quiet_advanceTo input p _).trans (quiet_markerPadding input _ matched)
  refine opensBlock_of_quiet quiet ?_
  replace fork := fork.of_quiet quiet
  replace checked := checked.of_quiet quiet
  generalize markerPadding input matched _ = r at fork checked quiet ⊢
  obtain ⟨q, padding⟩ := r
  dsimp -zeta only at fork checked quiet ⊢
  extract_lets data
  -- the list, which may be new
  have listed : ∃ q' list s', (if contType ≠ .list || !listsMatch (q.dataOf i).as.getList data then
        ((addChild P i .list startColumn q).1.modifyData (addChild P i .list startColumn q).2
          fun d => { d with as := .list data }, (addChild P i .list startColumn q).2)
      else (q, i)) = (q', list) ∧ Fork q' (list :: s') rest base ∧ Checked q' none ∧
      q'.typeOf list = .list ∧ q.nextId ≤ q'.nextId := by
    split
    next =>
      obtain ⟨q', s', eq, fork', checked', face, _, nextId⟩ := fork.addChild core checked
        (t := .list) rfl startColumn (fork.accepts rfl (by decide) (by decide))
      rw [eq]
      have alters : Alters q.nextId q' (q'.modifyData q.nextId fun d => { d with as := .list data }) :=
        alters_modifyData q' _ _ fun _ => ⟨rfl, rfl⟩
      obtain ⟨f, face', type, _⟩ := alters.self face
      refine ⟨_, _, s', rfl, fork'.alter alters, (checked'.alter alters rfl).complete ?_,
        (typeOf_of_face face').trans type, nextId ▸ Nat.le_succ _⟩
      intro g found
      rw [face'] at found
      cases found
      exact .of_type (by rw [type]; decide) (by rw [type]; decide)
    next continues =>
      have isList : contType = .list := by
        simp only [ne_eq, Bool.or_eq_true, decide_eq_true_eq, not_or, Decidable.not_not] at continues
        exact continues.1
      exact ⟨q, i, s, rfl, fork, checked, (quiet.typeOf i).trans isList, le_rfl⟩
  obtain ⟨q', list, s', eq, fork', checked', isList, grows⟩ := listed
  rw [eq]
  dsimp only
  have holds : (q'.typeOf list).canContainType .item := by
    rw [isList]
    rfl
  obtain ⟨q'', s'', eq', fork'', checked'', face, _, nextId⟩ := fork'.addChild core checked'
    (t := .item) rfl startColumn ⟨list, List.mem_cons_self, holds⟩
  rw [eq']
  have alters : Alters q'.nextId q''
      (q''.modifyData q'.nextId fun d => { d with as := .list data }) :=
    alters_modifyData q'' _ _ fun _ => ⟨rfl, rfl⟩
  refine ⟨grows.trans (nextId ▸ Nat.le_succ _), .inr ⟨grows, ?_⟩⟩
  exact .of_alters fork'' checked'' face alters rfl (by decide : NodeType.item ≠ _)
    (by decide : NodeType.item ≠ _)

/-- A setext heading line leaves the container where it is. -/
theorem opensBlock_setextHeading (lev : Nat) (fork : Fork p (i :: s) rest base)
    (checked : Checked p none) (paragraph : p.typeOf i = .paragraph) :
    OpensBlock input p rest base i (setextHeading P input lev i p, i) := by
  have alters : Alters i p (resolveReferenceLinkDefinitions P.tables i p).1 :=
    alters_resolveReferenceLinkDefinitions P.tables
  have asserts : (resolveReferenceLinkDefinitions P.tables i p).1.asserts = p.asserts := by
    unfold resolveReferenceLinkDefinitions
    extract_lets content
    generalize resolveReferences P.tables content.length content p.refmap = r
    rfl
  unfold setextHeading
  generalize resolveReferenceLinkDefinitions P.tables i p = r at alters asserts ⊢
  obtain ⟨q, hasContent⟩ := r
  dsimp only at alters asserts
  have stillParagraph : q.typeOf i = .paragraph := by
    obtain ⟨f, face, _⟩ := (fork.isOpen i).mpr (.inl List.mem_cons_self)
    obtain ⟨f', face', type, _⟩ := alters.self face
    rw [typeOf_of_face face', type, ← typeOf_of_face face, paragraph]
  have altered : Checked q (some i) := (checked.weaken (some i)).alter alters asserts
  cases hasContent with
  | false =>
    refine ⟨alters.nextId.ge, .inl ⟨rfl, ?_, altered.complete ?_, fun fork => fork.alter alters⟩⟩
    · dsimp only
      rw [stillParagraph]
      rfl
    · intro f face
      have type := (typeOf_of_face face).symm.trans stillParagraph
      exact .of_type (by rw [type]; decide) (by rw [type]; decide)
  | true =>
    dsimp only
    have isHeading : (q.modifyData i fun d =>
        { d with type := .heading, as := .heading lev true }).typeOf i = .heading := by
      obtain ⟨b, block, _⟩ := typeOf_paragraph_links stillParagraph
      obtain ⟨f, face⟩ := (face_isSome_iff q i).mpr ⟨b, block⟩
      rw [typeOf_eq, face_modifyData, if_pos rfl]
      rw [face_eq] at face
      obtain ⟨e, found, _⟩ := Option.map_eq_some_iff.mp face
      rw [found]
      rfl
    have quiet := quiet_advanceTo input (q.modifyData i fun d =>
      { d with type := .heading, as := .heading lev true }) (input.length - 1)
    have type : (advanceTo input (input.length - 1) (q.modifyData i fun d =>
        { d with type := .heading, as := .heading lev true })).typeOf i = .heading :=
      (quiet.typeOf i).trans isHeading
    refine ⟨?_, .inl ⟨rfl, ?_, ?_, ?_⟩⟩
    · rw [quiet.nextId]
      exact alters.nextId.ge
    · dsimp only
      rw [type]
      rfl
    · have retyped : Checked (q.modifyData i fun d =>
          { d with type := .heading, as := .heading lev true }) (some i) := by
        refine ⟨altered.asserts, ?_⟩
        intro j f differs face isOpen
        rw [face_modifyData, if_neg fun same => differs (congrArg some same.symm)] at face
        exact altered.sound differs face isOpen
      refine (retyped.complete ?_).of_quiet quiet
      intro f face
      have type := (typeOf_of_face face).symm.trans isHeading
      exact .of_type (by rw [type]; decide) (by rw [type]; decide)
    · exact fun fork => ((fork.alter alters).retype stillParagraph _).of_quiet quiet

theorem opensBlock_openBlock (core : P.syntaxExtensions = []) (fork : Fork p (i :: s) rest base)
    (checked : Checked p none) (aligned : p.offset ≤ p.firstNonspace) {start : BlockStart}
    (valid : start.Valid input i p) : OpensBlock input p rest base i (openBlock P input i p start) := by
  cases start with
  | blockQuote => exact opensBlock_openBlockQuote core fork checked
  | atxHeading matched => exact opensBlock_openAtxHeading core matched fork checked
  | fencedCode matched => exact opensBlock_openFencedCode core fork checked aligned valid
  | htmlBlock matched => exact opensBlock_openHtmlBlock core fork checked valid
  | setextHeading lev => exact opensBlock_setextHeading lev fork checked valid
  | thematicBreak => exact opensBlock_openThematicBreak core fork checked
  | footnoteDefinition matched => exact opensBlock_openFootnoteDefinition core matched fork checked
  | listItem matched data => exact opensBlock_openListItem core matched data fork checked
  | indentedCode => exact opensBlock_openIndentedCode core fork checked

/-- What is found fits the line. -/
theorem findBlockStart_valid (P : Config) (input : Bytes) (allMatched maybeLazy : Bool) (depth : Nat)
    (i : NodeId) (p : ParserState) :
    (findBlockStart P input allMatched maybeLazy depth i p).1.cursor = p.cursor ∧
      ∀ {start}, (findBlockStart P input allMatched maybeLazy depth i p).2 = some start →
        start.Valid input i p := by
  obtain ⟨killPos, same⟩ := findBlockStart_fst input p P allMatched maybeLazy depth i
  have fits := (findBlockStart_found input p P allMatched maybeLazy depth i).2
  constructor
  · rw [same]
    rfl
  · intro start result
    have found := fits start result
    cases start with
    | fencedCode matched => exact ⟨found.2.2, found.2.1⟩
    | htmlBlock matched =>
      obtain ⟨_, rfl, some⟩ := found
      exact ⟨some, scanHtmlBlock_le input p.firstNonspace _⟩
    | setextHeading lev => exact found.2.1
    | _ => trivial

theorem BlockStart.Valid.congr {start : BlockStart} {q : ParserState} (valid : start.Valid input i p)
    (firstNonspace : q.firstNonspace = p.firstNonspace) (type : q.typeOf i = p.typeOf i) :
    start.Valid input i q := by
  cases start with
  | fencedCode matched =>
    unfold Valid
    rw [firstNonspace]
    exact valid
  | setextHeading lev => exact type.trans valid
  | htmlBlock matched => exact valid
  | _ => trivial

/-- One turn of the loop: nothing is opened, or `open_block` does what it says. -/
theorem openNewBlock_spec (core : P.syntaxExtensions = []) (allMatched maybeLazy : Bool) (depth : Nat)
    (fork : Fork p (i :: s) rest base) (checked : Checked p none) :
    ∃ q, (openNewBlock P input allMatched maybeLazy depth i p = (q, none) ∧ Quiet p q) ∨
      ∃ c, openNewBlock P input allMatched maybeLazy depth i p = (q, some c) ∧
        OpensBlock input p rest base i (q, c) := by
  have found := quiet_findFirstNonspace input p
  have aligned := offset_le_firstNonspace input p
  unfold openNewBlock
  generalize findFirstNonspace input p = p' at found aligned ⊢
  extract_lets indented
  have quiet := quiet_findBlockStart input p' P allMatched maybeLazy depth i
  have valid := findBlockStart_valid P input allMatched maybeLazy depth i p'
  generalize findBlockStart P input allMatched maybeLazy depth i p' = r at quiet valid ⊢
  obtain ⟨q, start⟩ := r
  dsimp only at quiet valid ⊢
  cases start with
  | none =>
    rw [core]
    exact ⟨q, .inl ⟨rfl, found.trans quiet⟩⟩
  | some start =>
    have both := found.trans quiet
    have offset : q.offset = p'.offset := congrArg (·.1) valid.1
    have firstNonspace : q.firstNonspace = p'.firstNonspace := congrArg (·.2.1) valid.1
    have opens : OpensBlock input q rest base i (openBlock P input i q start) :=
      opensBlock_openBlock core (fork.of_quiet both) (checked.of_quiet both)
        (by rw [offset, firstNonspace]; exact aligned)
        ((valid.2 rfl).congr firstNonspace (quiet.typeOf i))
    exact ⟨_, .inr ⟨_, rfl, opensBlock_of_quiet both opens⟩⟩

/-- `open_new_blocks`: the container of the line is a new block, or nothing new is open. -/
theorem openNewBlocksFrom_spec (core : P.syntaxExtensions = []) (allMatched : Bool) (fuel : Nat)
    (maybeLazy : Bool) (depth : Nat) (fork : Fork p (i :: s) rest base) (checked : Checked p none) :
    ∃ q c, openNewBlocksFrom P input allMatched fuel maybeLazy depth i p = (q, c) ∧
      ((c = i ∧ Checked q none ∧ Continues p q) ∨ p.nextId ≤ c ∧ Opened input q c rest base) := by
  induction fuel generalizing p i s maybeLazy depth with
  | zero => exact ⟨p, i, rfl, .inl ⟨rfl, checked, fun fork => fork⟩⟩
  | succ fuel ih =>
    unfold openNewBlocksFrom
    split
    next => exact ⟨p, i, rfl, .inl ⟨rfl, checked, fun fork => fork⟩⟩
    next =>
      obtain ⟨q, ⟨eq, quiet⟩ | ⟨c, eq, grows, outcome⟩⟩ :=
        openNewBlock_spec core allMatched maybeLazy (depth + 1) fork checked
      · rw [eq]
        exact ⟨q, i, rfl, .inl ⟨rfl, checked.of_quiet quiet, fun fork => fork.of_quiet quiet⟩⟩
      · rw [eq]
        dsimp only at grows outcome ⊢
        split
        next =>
          refine ⟨q, c, rfl, outcome.imp_left ?_⟩
          rintro ⟨same, _, continues⟩
          exact ⟨same, continues⟩
        next notLines =>
          rcases outcome with ⟨rfl, accepts, _⟩ | ⟨new, opened⟩
          · exact absurd accepts notLines
          · have notCode : q.typeOf c ≠ .codeBlock := by
              intro code
              rw [code] at notLines
              exact notLines rfl
            obtain ⟨s', fork', checked'⟩ := opened.complete notCode
            obtain ⟨q', c', eq', outcome'⟩ := ih false (depth + 1) fork' checked'
            refine ⟨q', c', eq', .inr ?_⟩
            rcases outcome' with ⟨rfl, checked'', continues⟩ | ⟨newer, opened'⟩
            · exact ⟨new, .of_checked (continues fork') checked''⟩
            · exact ⟨grows.trans newer, opened'⟩

end

/-! ### Adding the line -/

section

variable {P : Config} {input line : Bytes} {p : ParserState} {s : List NodeId} {base i : NodeId}

theorem alters_addLine (line : Bytes) (i : NodeId) (p : ParserState) :
    Alters i p (addLine i line p) := by
  unfold addLine
  extract_lets asserted
  have reads : Alters i p asserted := .of_assert i p _
  split
  next moved spaces tab =>
    have moves : Quiet asserted { asserted with offset := asserted.offset + 1 } :=
      ⟨rfl, rfl, rfl, rfl, rfl, rfl⟩
    split at tab
    next =>
      cases tab
      exact (reads.trans (.of_quiet i moves)).trans (alters_modifyData _ i _ fun _ => ⟨rfl, rfl⟩)
    next =>
      cases tab
      exact reads.trans (alters_modifyData _ i _ fun _ => ⟨rfl, rfl⟩)

/-- A line may be added to an open block, which may be closed afterwards. -/
theorem checked_addLine {f : BlockFace} (checked : Checked p (some i)) (face : p.face i = some f)
    (isOpen : f.isOpen) (sound : f.Sound (lineRest line p)) : Checked (addLine i line p) none := by
  have asserts : (addLine i line p).asserts = p.asserts := by
    have opened : p.isOpen i = true := (data_of_face face).2.1.trans isOpen
    unfold addLine
    extract_lets asserted
    have same : asserted.asserts = p.asserts := by
      show (p.asserts && p.isOpen i) = p.asserts
      rw [opened, Bool.and_true]
    split
    next moved spaces tab =>
      split at tab
      next => cases tab; exact same
      next => cases tab; exact same
  refine (checked.alter (alters_addLine line i p) asserts).complete ?_
  have grows : ∃ g, (addLine i line p).face i = some g ∧ g.type = f.type ∧ g.as = f.as ∧
      ∀ c ∈ f.content ++ lineRest line p, c ∈ g.content := by
    rw [face_eq] at face
    obtain ⟨b, found, rfl⟩ := Option.map_eq_some_iff.mp face
    unfold addLine lineRest
    extract_lets asserted
    have block : asserted.nodes i = some b := found
    split
    next moved spaces tab =>
      split at tab
      next partially =>
        have partially : p.partiallyConsumedTab = true := partially
        cases tab
        rw [face_modifyData, if_pos rfl, partially, if_pos rfl]
        refine ⟨_, congrArg (Option.map _) block, rfl, rfl, fun c member => ?_⟩
        rw [List.mem_append] at member
        dsimp only
        rw [List.append_assoc, List.mem_append, List.mem_append]
        exact member.imp_right .inr
      next whole =>
        have whole : p.partiallyConsumedTab = false := Bool.eq_false_iff.mpr whole
        cases tab
        rw [face_modifyData, if_pos rfl, whole, if_neg Bool.false_ne_true]
        refine ⟨_, congrArg (Option.map _) block, rfl, rfl, fun c member => ?_⟩
        rw [List.mem_append] at member
        dsimp only
        rw [List.append_assoc, List.mem_append, List.mem_append]
        exact member.imp_right .inr
  obtain ⟨g, found, type, as, content⟩ := grows
  intro g' found'
  rw [found] at found'
  cases found'
  refine ⟨fun code fenced => ?_, fun html => ?_⟩
  · obtain ⟨c, member, lineEnd⟩ := sound.fence (type ▸ code) (as ▸ fenced)
    exact ⟨c, by rw [List.append_nil]; exact content c member, lineEnd⟩
  · rw [as]
    exact sound.html (type ▸ html)

/-- An HTML block gets its line, and is closed if the line meets its end condition. -/
theorem addHtmlLine_spec (fork : Fork p (i :: s) [] base) (checked : Checked p (some i))
    (sound : ∀ {f}, p.face i = some f → f.Sound (lineRest input p)) (html : p.typeOf i = .htmlBlock) :
    ∃ q c s', addHtmlLine P input i p = (q, c) ∧ Fork q (c :: s') [] base ∧ Checked q none := by
  obtain ⟨f, face, isOpen⟩ := (fork.isOpen i).mpr (.inl List.mem_cons_self)
  have added := checked_addLine checked face isOpen (sound face)
  have alters := alters_addLine input i p
  have fork' := fork.alter alters
  obtain ⟨f', face', type', isOpen'⟩ := alters.self face
  unfold addHtmlLine
  extract_lets q
  split
  next =>
    cases s with
    | nil =>
      obtain ⟨b, root, _, document⟩ := fork.tree.rooted
      have isRoot : i = p.root := Option.some.inj fork.bottom
      rw [isRoot, (parent_of_links root).2.2, document] at html
      cases html
    | cons j s =>
      have parent : (finalize P i q).2 = some j := fork'.hasParent_top
      have closed := fork'.closeContainer (closes_finalize P fork'.tree face')
      have checked' := added.finalize (P := P) fork'.tree nofun face' (isOpen'.trans isOpen)
      change Fork (finalize P i q).1 _ _ _ at closed
      change Checked (finalize P i q).1 _ at checked'
      generalize finalize P i q = r at parent closed checked' ⊢
      obtain ⟨q', above⟩ := r
      dsimp only at parent closed checked' ⊢
      subst parent
      exact ⟨q', j, s, rfl, closed, checked'⟩
  next => exact ⟨q, i, s, rfl, fork', added⟩

/-- The line goes into the container, or into a new paragraph next to it. -/
theorem addContainerLine_spec (core : P.syntaxExtensions = []) (fork : Fork p (i :: s) [] base)
    (checked : Checked p (some i))
    (sound : ∀ {f}, p.face i = some f → f.Sound (lineRest input p)) :
    ∃ q c line s', addContainerLine P input i p = (q, c, line) ∧ Fork q (c :: s') [] base ∧
      Checked q none := by
  obtain ⟨f, face, isOpen⟩ := (fork.isOpen i).mpr (.inl List.mem_cons_self)
  have type := (data_of_face face).1
  unfold addContainerLine
  extract_lets d
  split
  next =>
    exact ⟨_, i, input, s, rfl, fork.alter (alters_addLine input i p),
      checked_addLine checked face isOpen (sound face)⟩
  next notCode =>
    have completed : Checked p none := by
      refine checked.complete fun found => (sound found).of_not_code ?_
      rw [face] at found
      cases found
      exact type ▸ notCode
    split
    next html =>
      obtain ⟨q, c, s', eq, fork', checked'⟩ := addHtmlLine_spec (P := P) fork checked sound html
      rw [eq]
      exact ⟨q, c, input, s', rfl, fork', checked'⟩
    next notHtml =>
      split
      next => exact ⟨p, i, input, s, rfl, fork, completed⟩
      next =>
        split
        next line _ _ =>
          have quiet := quiet_skipIndentation input p P
          obtain ⟨f', face', isOpen'⟩ := ((fork.of_quiet quiet).isOpen i).mpr (.inl List.mem_cons_self)
          have same : f'.type = d.type :=
            (typeOf_of_face face').symm.trans (quiet.typeOf i)
          refine ⟨_, i, line, s, rfl, (fork.of_quiet quiet).alter (alters_addLine line i _),
            checked_addLine (checked.of_quiet quiet) face' isOpen' ?_⟩
          exact .of_type (same ▸ notCode) (same ▸ notHtml)
        next =>
          unfold addParagraph
          extract_lets startColumn
          obtain ⟨q, s', eq, fork', checked', face', _, _⟩ := fork.addChild core completed
            (t := .paragraph) rfl startColumn (fork.accepts rfl (by decide) (by decide))
          rw [eq]
          have quiet := quiet_skipIndentation input q P
          have found : (skipIndentation P input q).face p.nextId =
              some ⟨.paragraph, true, [], .empty⟩ := by
            rw [ParserState.face, quiet.shape]
            exact face'
          exact ⟨_, p.nextId, input, s', rfl, (fork'.of_quiet quiet).alter (alters_addLine input _ _),
            checked_addLine (checked'.of_quiet quiet) found rfl (.of_type (by decide) (by decide))⟩

end

/-! ### A whole line -/

section

variable {P : Config} {input : Bytes} {p : ParserState}

theorem cursor_clearAncestorsBlank (fuel : Nat) (tmp : NodeId) (p : ParserState) :
    (clearAncestorsBlank fuel tmp p).cursor = p.cursor := by
  induction fuel generalizing tmp p with
  | zero => rfl
  | succ fuel ih =>
    unfold clearAncestorsBlank
    split
    next => rfl
    next => exact ih _ _

theorem cursor_setLastLineBlank (i : NodeId) (p : ParserState) :
    (setLastLineBlank i p).cursor = p.cursor := by
  unfold setLastLineBlank
  extract_lets flags d lastLineBlank set
  refine (cursor_clearAncestorsBlank _ i set).trans ?_
  show flags.cursor = p.cursor
  unfold flags
  split
  next => split <;> rfl
  next => rfl

theorem lineRest_congr {q : ParserState} (input : Bytes) (same : q.cursor = p.cursor) :
    lineRest input q = lineRest input p := by
  have offset : q.offset = p.offset := congrArg (·.1) same
  have tab : q.partiallyConsumedTab = p.partiallyConsumedTab := congrArg (·.2.2) same
  rw [lineRest, lineRest, offset, tab]

/-- Add the line once the blocks that it did not match are closed. -/
theorem settled_of_opened {rest : List NodeId} {c base : NodeId} (core : P.syntaxExtensions = [])
    (opened : Opened input p c rest base) :
    ∃ q c' line, addContainerLine P input c (closeUnmatched P base (p.nextId + 1) p) = (q, c', line) ∧
      Settled { q with current := c' } := by
  obtain ⟨s, fork, checked, sound⟩ := opened
  have enough : rest.length < p.nextId + 1 := by
    have sorted := (List.pairwise_append.mp fork.restSorted).1
    exact Nat.lt_succ_of_le (length_le_of_sorted sorted fun k member => fork.bound (.inr member))
  have others : ∀ k ∈ rest, some c ≠ some k := by
    rintro k member ⟨⟩
    exact fork.apart c member List.mem_cons_self
  obtain ⟨q, eq, fork', checked', cursor, faces⟩ :=
    fork.closeUnmatched (P := P) (p.nextId + 1) checked others enough
  have sound' : ∀ {f}, q.face c = some f → f.Sound (lineRest input q) := by
    intro f found
    rw [faces c fun member => others c member rfl] at found
    rw [lineRest_congr input cursor]
    exact sound found
  obtain ⟨q', c', line, s', added, fork'', checked''⟩ := addContainerLine_spec core fork' checked' sound'
  rw [eq]
  exact ⟨q', c', line, added, s', fork''.rebase, checked''.asserts, checked''.sound⟩

theorem Settled.of_quiet {q : ParserState} (settled : Settled p) (quiet : Quiet p q) : Settled q := by
  obtain ⟨s, fork, checked⟩ := settled
  refine ⟨s, ?_, checked.of_quiet quiet⟩
  rw [quiet.current]
  exact fork.of_quiet quiet

/-- The current block is a paragraph that the line continues lazily, or the line goes into its
container. -/
theorem settled_addTextToContainer {rest s : List NodeId} {c base : NodeId}
    (core : P.syntaxExtensions = [])
    (outcome : (c = base ∧ (rest ++ base :: s).head? = some p.current ∧
        Fork p (rest ++ base :: s) [] p.current ∧ Checked p none) ∨
      (c ≠ base ∧ Opened input p c rest base)) :
    Settled (addTextToContainer P input c base p).1 := by
  have quiet := (quiet_findFirstNonspace input p).trans
    (quiet_setLastLineBlank (findFirstNonspace input p) c)
  have toRead : lineRest input (setLastLineBlank c (findFirstNonspace input p)) =
      lineRest input p :=
    lineRest_congr (p := findFirstNonspace input p) input (cursor_setLastLineBlank c _)
  unfold addTextToContainer
  generalize setLastLineBlank c (findFirstNonspace input p) = q at quiet toRead
  extract_lets current
  have closed (opened : Opened input q c rest base) :
      Settled { (addContainerLine P input c (closeUnmatched P base (q.nextId + 1) q)).1 with
        current := (addContainerLine P input c (closeUnmatched P base (q.nextId + 1) q)).2.1 } := by
    obtain ⟨q', c', line, eq, settled⟩ := settled_of_opened core opened
    rw [eq]
    exact settled
  rcases outcome with ⟨rfl, top, fork, checked⟩ | ⟨notBase, s', fork, checked, sound⟩
  · have fork' := fork.of_quiet quiet
    have checked' := checked.of_quiet quiet
    rw [← quiet.current] at fork' top
    split
    next lazily =>
      simp only [Bool.and_eq_true, decide_eq_true_eq] at lazily
      obtain ⟨s', whole⟩ : ∃ s', rest ++ c :: s = q.current :: s' := by
        obtain ⟨s', shape⟩ := List.head?_eq_some_iff.mp top
        exact ⟨s', shape⟩
      rw [whole] at fork'
      obtain ⟨f, face, isOpen⟩ := (fork'.isOpen q.current).mpr (.inl List.mem_cons_self)
      have type : f.type = .paragraph := (typeOf_of_face face).symm.trans lazily.2
      have alters := alters_addLine input q.current q
      refine ⟨s', ?_, checked_addLine (checked'.weaken _) face isOpen ?_⟩
      · rw [alters.current]
        exact fork'.alter alters
      · exact .of_type (by rw [type]; decide) (by rw [type]; decide)
    next => exact closed (.of_checked (fork'.split top) checked')
  · split
    next lazily =>
      simp only [Bool.and_eq_true, decide_eq_true_eq] at lazily
      exact absurd lazily.1.1.2 notBase
    next =>
      refine closed ⟨s', fork.of_quiet quiet, checked.of_quiet quiet, ?_⟩
      intro f found
      rw [ParserState.face, quiet.shape] at found
      rw [toRead]
      exact sound found

/-- One line keeps the chain of open blocks, and no assertion fails. -/
theorem Settled.processLine (core : P.syntaxExtensions = []) (settled : Settled p) (buffer : Bytes)
    (ensureEndsInNewline : Bool) : Settled (processLine P p buffer ensureEndsInNewline) := by
  unfold CmarkGfm.processLine
  extract_lets input
  obtain ⟨s₀, fork, checked⟩ := settled.of_quiet (quiet_startLine input p)
  generalize startLine input p = p at fork checked ⊢
  obtain ⟨rest₀, bottom⟩ := List.getLast?_eq_some_iff.mp fork.bottom
  have outcome := checkOpenBlocksFrom_spec core input p.nextId
    (by rw [bottom] : p.current :: s₀ = rest₀ ++ p.root :: []) fork checked
  unfold checkOpenBlocks
  rcases outcome with ⟨q, m, all, eq, member, quiet⟩ | ⟨q, all, eq, settled⟩
  · rw [eq]
    dsimp only
    obtain ⟨rest, s, whole⟩ := List.append_of_mem member
    have top : (rest ++ m :: s).head? = some q.current := by
      rw [← whole, quiet.current]
      rfl
    have chain : Fork q (rest ++ m :: s) [] q.current := by
      rw [← whole, quiet.current]
      exact fork.of_quiet quiet
    have checked' := checked.of_quiet quiet
    have opened : ∃ q' c, (if P.options.has optInlineOnly then (q, m)
        else openNewBlocks P input all m q) = (q', c) ∧ q'.current = q.current ∧
        ((c = m ∧ (rest ++ m :: s).head? = some q'.current ∧
          Fork q' (rest ++ m :: s) [] q'.current ∧ Checked q' none) ∨
        (c ≠ m ∧ Opened input q' c rest m)) := by
      split
      next => exact ⟨q, m, rfl, rfl, .inl ⟨rfl, top, chain, checked'⟩⟩
      next =>
        have split := chain.split top
        obtain ⟨q', c, eq', outcome⟩ := openNewBlocksFrom_spec core all
          (input.length + 2) (q.typeOf q.current = .paragraph) 0 split checked'
        refine ⟨q', c, eq', ?_⟩
        rcases outcome with ⟨same, checked'', continues⟩ | ⟨new, s', fork', rest'⟩
        · have fork' := continues chain
          have current : q'.current = q.current := (Option.some.inj fork'.current).symm
          rw [current]
          exact ⟨rfl, .inl ⟨same, top, fork', checked''⟩⟩
        · have current : q'.current = q.current :=
            Option.some.inj (fork'.current.symm.trans split.current)
          refine ⟨current, .inr ⟨?_, s', fork', rest'⟩⟩
          rintro rfl
          exact absurd (split.bound (.inl List.mem_cons_self)) (Nat.not_lt.mpr new)
    obtain ⟨q', c, eq', current, outcome⟩ := opened
    rw [eq']
    dsimp only
    rw [if_pos current]
    have added := settled_addTextToContainer core outcome
    generalize addTextToContainer P input c m q' = r at added ⊢
    obtain ⟨q'', line⟩ := r
    exact added.of_quiet ⟨rfl, rfl, rfl, rfl, rfl, rfl⟩
  · rw [eq]
    exact settled.of_quiet ⟨rfl, rfl, rfl, rfl, rfl, rfl⟩

end

/-! ### Whole documents -/

theorem settled_initialState : Settled initialState := by
  have blocks {i : NodeId} {l : BlockLinks} (linked : initialState.links i = some l) :
      i = 0 ∧ l = ⟨.document, none, []⟩ := by
    rw [links_eq] at linked
    by_cases here : i = 0
    · subst here
      exact ⟨rfl, (Option.some.inj linked).symm⟩
    · simp [initialState, here] at linked
  refine ⟨[], ⟨⟨?_, ?_, ?_, ?_, ⟨_, rfl, rfl, rfl⟩, ?_, ?_⟩, List.isChain_singleton _, rfl, ?_, nofun,
    List.isChain_singleton _, rfl⟩, rfl, ?_⟩
  · rintro i l linked
    rw [(blocks linked).1]
    exact Nat.zero_lt_one
  · rintro i l c linked member
    rw [(blocks linked).2] at member
    cases member
  · rintro i l j linked parent
    rw [(blocks linked).2] at parent
    cases parent
  · rintro i l linked
    rw [(blocks linked).2]
    exact List.nodup_nil
  · rintro i l linked _
    exact (blocks linked).1
  · rintro i l linked
    rw [(blocks linked).2]
    rfl
  · intro i
    rw [face_eq]
    by_cases here : i = 0
    · simp [initialState, here, makeBlock]
    · simp [initialState, here]
  · intro i f _ face _
    obtain ⟨l, linked⟩ := (face_isSome_iff initialState i).mp ⟨f, face⟩
    obtain ⟨rfl, _⟩ := blocks linked
    cases face
    exact .of_type nofun nofun

section

variable {P : Config} {p : ParserState}

theorem settled_replay (core : P.syntaxExtensions = []) (lines : List (Bytes × Bool))
    (settled : Settled p) : Settled (replay (processLine P) p lines) := by
  induction lines generalizing p with
  | nil => exact settled
  | cons line lines ih => exact ih (settled.processLine core line.1 line.2)

theorem root_finalize (P : Config) (b : NodeId) (p : ParserState) :
    (finalize P b p).1.root = p.root := by
  rw [finalize_eq]
  rcases finalizeContent_alters_or_frees P b (shutBlock b p) with alters | ⟨_, q, alters, freed⟩
  · exact alters.root.trans (root_shutBlock b p)
  · rw [freed]
    unfold ParserState.freeBlock
    split <;> exact alters.root.trans (root_shutBlock b p)

theorem closeToRoot_eq (fuel : Nat) (p : ParserState) :
    closeToRoot P fuel p = closeUnmatched P p.root fuel p := by
  induction fuel generalizing p with
  | zero => rfl
  | succ fuel ih =>
    unfold closeToRoot closeUnmatched
    split
    next => rfl
    next =>
      have root := root_finalize P p.current p
      generalize finalize P p.current p = r at root ⊢
      obtain ⟨q, parent⟩ := r
      cases parent with
      | none => rfl
      | some parent =>
        dsimp only at root ⊢
        rw [ih]
        dsimp only
        rw [root]

/-- At the end of the document every block is closed, and no assertion has failed. -/
theorem finalizeBlocks_spec (settled : Settled p) :
    BlockTree (finalizeBlocks P p).links (finalizeBlocks P p).root (finalizeBlocks P p).nextId ∧
      (finalizeBlocks P p).asserts = true := by
  obtain ⟨s, fork, checked⟩ := settled
  obtain ⟨rest, bottom⟩ := List.getLast?_eq_some_iff.mp fork.bottom
  have split : Fork p [p.root] rest p.root := by
    rw [bottom] at fork
    refine fork.split ?_
    rw [← bottom]
    rfl
  have enough : rest.length < p.nextId + 1 := by
    have sorted := (List.pairwise_append.mp split.restSorted).1
    exact Nat.lt_succ_of_le (length_le_of_sorted sorted fun k member => split.bound (.inr member))
  obtain ⟨q, eq, fork', checked', _⟩ :=
    split.closeUnmatched (P := P) (p.nextId + 1) checked (fun _ _ => nofun) enough
  unfold finalizeBlocks
  rw [closeToRoot_eq, eq]
  dsimp only
  have root : q.root = p.root := (Option.some.inj fork'.bottom).symm
  obtain ⟨f, face, isOpen⟩ := (fork'.isOpen p.root).mpr (.inl (List.mem_singleton_self _))
  rw [← root] at face
  exact ⟨(closes_finalize P fork'.tree face).tree fork'.tree,
    (checked'.finalize (P := P) fork'.tree nofun face isOpen).asserts⟩

end

/-- Between any two lines of a document the open blocks are the chain of last children from the
root to the current block, and no assertion fails up to the end of the document. -/
theorem openBlocks_chain (P : Config) (core : P.syntaxExtensions = [])
    (callback : Option (UInt8 → Bool)) (chunks : List Bytes) :
    (∀ lines, lines <+: processedLines (P.options.has optPreserveWhitespace) chunks →
        OpenChain (replay (processLine P) initialState lines)) ∧
      (finalizeBlocks P
        (flushParser (chunks.foldl cmarkParserFeed (parserNew P callback))).state).asserts = true := by
  refine ⟨fun lines _ => (settled_replay core lines settled_initialState).openChain, ?_⟩
  rw [flushedState_eq]
  exact (finalizeBlocks_spec (settled_replay core _ settled_initialState)).2

/-- The theorem for a lazy continuation line and the core parser. -/
theorem openBlocks_chain_lazy :
    (∀ lines, lines <+: processedLines false [lit "> a\nb\n"] →
        OpenChain (replay (processLine ⟨asciiTables, 0, []⟩) initialState lines)) ∧
      (finalizeBlocks ⟨asciiTables, 0, []⟩ (flushParser
        ([lit "> a\nb\n"].foldl cmarkParserFeed (parserNew ⟨asciiTables, 0, []⟩ none))).state).asserts =
          true :=
  openBlocks_chain ⟨asciiTables, 0, []⟩ rfl none [lit "> a\nb\n"]

end CmarkGfm
