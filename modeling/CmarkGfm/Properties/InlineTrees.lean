import CmarkGfm.Properties.InlineFrames
import CmarkGfm.Properties.Reuse
import CmarkGfm.Properties.Trees

/-!
# The nodes that parsing inlines makes

Every node below a block of text is a new node of an inline type, and only emphasis, links, images
and attributes have children. The edits of the tree by the delimiter and bracket stacks keep that.
-/

namespace CmarkGfm

/-- The types of the nodes that the core inline parser makes. -/
def NodeType.isCoreInline : NodeType → Bool
  | .text | .softbreak | .linebreak | .code | .htmlInline | .emph | .strong | .link | .image
  | .footnoteReference | .attribute => true
  | _ => false

/-- The same without footnotes: then there are no references to them. -/
def NodeType.isMade (footnotes : Bool) : NodeType → Bool
  | .footnoteReference => footnotes
  | t => t.isCoreInline

theorem NodeType.isCoreInline_of_isMade {footnotes : Bool} {t : NodeType} (made : t.isMade footnotes) :
    t.isCoreInline := by
  cases t <;> first | rfl | exact made

theorem NodeType.isMade_mono {footnotes : Bool} {t : NodeType} (made : t.isMade false) : t.isMade footnotes := by
  cases t <;> first | rfl | cases made

/-- The types of inline nodes without children. -/
def NodeType.isLeafInline : NodeType → Bool
  | .text | .softbreak | .linebreak | .code | .htmlInline | .footnoteReference => true
  | _ => false

/-- The types of the nodes that are made outside of brackets. -/
def NodeType.isPlainInline : NodeType → Bool
  | .text | .softbreak | .linebreak | .code | .htmlInline | .link => true
  | _ => false

/-- Of these, the ones without children. -/
def NodeType.isPlainLeaf : NodeType → Bool
  | .text | .softbreak | .linebreak | .code | .htmlInline => true
  | _ => false

theorem NodeType.isMade_of_isPlainLeaf {footnotes : Bool} {t : NodeType} (leaf : t.isPlainLeaf) :
    t.isMade footnotes := by
  cases t <;> first | rfl | cases leaf

theorem NodeType.isPlainInline_of_isPlainLeaf {t : NodeType} (leaf : t.isPlainLeaf) : t.isPlainInline := by
  cases t <;> first | rfl | cases leaf

theorem NodeType.isLeafInline_of_isPlainLeaf {t : NodeType} (leaf : t.isPlainLeaf) : t.isLeafInline := by
  cases t <;> first | rfl | cases leaf

/-! ### What holds of all nodes -/

mutual

/-- Every node of the tree meets the condition on its address, its data and its children. -/
def Node.All (q : NodeId → NodeData → Forest → Prop) : Node → Prop
  | .mk i d cs => q i d cs ∧ AllList q cs

def AllList (q : NodeId → NodeData → Forest → Prop) : Forest → Prop
  | [] => True
  | n :: ns => n.All q ∧ AllList q ns

end

section

variable {q q' : NodeId → NodeData → Forest → Prop}

theorem allList_iff {f : Forest} : AllList q f ↔ ∀ n ∈ f, n.All q := by
  induction f with
  | nil => simp [AllList]
  | cons n ns ih => rw [AllList, ih, List.forall_mem_cons]

theorem allList_append {f g : Forest} : AllList q (f ++ g) ↔ AllList q f ∧ AllList q g := by
  simp only [allList_iff, List.forall_mem_append]

theorem AllList.subset {f g : Forest} (all : AllList q f) (within : ∀ n ∈ g, n ∈ f) : AllList q g :=
  allList_iff.mpr fun n member => allList_iff.mp all n (within n member)

mutual

theorem Node.All.imp (weaker : ∀ {i d cs}, q i d cs → q' i d cs) : (n : Node) → n.All q → n.All q'
  | .mk _ _ cs, all => ⟨weaker all.1, AllList.imp weaker cs all.2⟩

theorem AllList.imp (weaker : ∀ {i d cs}, q i d cs → q' i d cs) : (f : Forest) → AllList q f →
    AllList q' f
  | [], _ => trivial
  | n :: ns, all => ⟨Node.All.imp weaker n all.1, AllList.imp weaker ns all.2⟩

end

mutual

theorem Node.All.of_mem {m : Node} : (n : Node) → n.All q → m ∈ n.postorder → m.All q
  | .mk i d cs, all, member => by
    rw [Node.postorder, List.mem_append, List.mem_singleton] at member
    rcases member with below | rfl
    · exact AllList.of_mem cs all.2 below
    · exact all

theorem AllList.of_mem {m : Node} : (f : Forest) → AllList q f → m ∈ postorderList f → m.All q
  | [], _, member => by cases member
  | n :: ns, all, member => by
    rw [postorderList, List.mem_append] at member
    rcases member with first | rest
    · exact Node.All.of_mem n all.1 first
    · exact AllList.of_mem ns all.2 rest

end

mutual

theorem all_of_postorder : (n : Node) →
    (∀ m ∈ n.postorder, q m.id m.data m.children) → n.All q
  | .mk i d cs, every => by
    refine ⟨?_, allList_of_postorder cs fun m below => every m ?_⟩
    · exact every (.mk i d cs) (by simp [Node.postorder])
    · rw [Node.postorder]
      exact List.mem_append_left _ below

theorem allList_of_postorder : (f : Forest) →
    (∀ m ∈ postorderList f, q m.id m.data m.children) → AllList q f
  | [], _ => trivial
  | n :: ns, every =>
    ⟨all_of_postorder n fun m here => every m (List.mem_append_left _ here),
      allList_of_postorder ns fun m later => every m (List.mem_append_right _ later)⟩

end

theorem Node.All.here {n : Node} (all : n.All q) : q n.id n.data n.children := by
  cases n
  exact all.1

theorem Node.All.below {n : Node} (all : n.All q) : AllList q n.children := by
  cases n
  exact all.2

/-- The condition lets a node that has children have others. -/
def Regraftable (q : NodeId → NodeData → Forest → Prop) : Prop :=
  ∀ i d cs cs', q i d cs → cs ≠ [] → q i d cs'

mutual

theorem Node.All.editSiblings {i : NodeId} {g : Forest → Forest} (regraft : Regraftable q)
    (keeps : ∀ {l}, AllList q l → AllList q (g l)) : (n : Node) → n.All q → (n.editSiblings i g).All q
  | .mk j d cs, all => by
    rw [Node.editSiblings]
    split
    next found =>
      have some : cs ≠ [] := by
        rintro rfl
        cases found
      exact ⟨regraft j d cs _ all.1 some, keeps all.2⟩
    next =>
      cases cs with
      | nil => exact all
      | cons c cs =>
        exact ⟨regraft j d _ _ all.1 (List.cons_ne_nil c cs),
          AllList.editSiblingsList regraft keeps _ all.2⟩

theorem AllList.editSiblingsList {i : NodeId} {g : Forest → Forest} (regraft : Regraftable q)
    (keeps : ∀ {l}, AllList q l → AllList q (g l)) :
    (f : Forest) → AllList q f → AllList q (editSiblingsList i g f)
  | [], _ => trivial
  | n :: ns, all =>
    ⟨Node.All.editSiblings regraft keeps n all.1, AllList.editSiblingsList regraft keeps ns all.2⟩

end

theorem AllList.editSiblings {i : NodeId} {g : Forest → Forest} {f : Forest}
    (regraft : Regraftable q) (keeps : ∀ {l}, AllList q l → AllList q (g l)) (all : AllList q f) :
    AllList q (editSiblings i g f) := by
  unfold CmarkGfm.editSiblings
  split
  next => exact keeps all
  next => exact AllList.editSiblingsList regraft keeps f all

theorem AllList.editData {i : NodeId} {h : NodeData → NodeData} {f : Forest}
    (regraft : Regraftable q) (keeps : ∀ {d cs}, q i d cs → q i (h d) cs) (all : AllList q f) :
    AllList q (editData i h f) := by
  refine AllList.editSiblings regraft (fun {l} siblings => ?_) all
  rw [allList_iff] at siblings ⊢
  intro n member
  obtain ⟨m, among, rfl⟩ := List.mem_map.mp member
  have before := siblings m among
  split
  next here =>
    obtain ⟨j, d, cs⟩ := m
    obtain rfl : j = i := by simpa using here
    exact ⟨keeps before.1, before.2⟩
  next => exact before

theorem AllList.freeNode {i : NodeId} {f : Forest} (regraft : Regraftable q) (all : AllList q f) :
    AllList q (freeNode i f) :=
  AllList.editSiblings regraft (fun siblings => siblings.subset fun _ => List.mem_of_mem_filter) all

theorem allList_siblingsBefore {i : NodeId} {f : Forest} (all : AllList q f) :
    AllList q (siblingsBefore i f) := all.subset fun _ => (List.takeWhile_subset _ ·)

theorem allList_siblingsFrom {i : NodeId} {f : Forest} (all : AllList q f) :
    AllList q (siblingsFrom i f) := all.subset fun _ => (List.dropWhile_subset _ ·)

theorem allList_siblingsAfter {i : NodeId} {f : Forest} (all : AllList q f) :
    AllList q (siblingsAfter i f) := (allList_siblingsFrom all).subset fun _ => List.mem_of_mem_tail

end

/-! ### New nodes -/

/-- A node that parsing inlines made, with an address from `lo` to `hi`. -/
structure InlineNode (footnotes : Bool) (lo hi : NodeId) (i : NodeId) (d : NodeData) (cs : Forest) : Prop where
  low : lo ≤ i
  high : i < hi
  core : d.type.isMade footnotes
  leaf : d.type.isLeafInline → cs = []

theorem regraftable_inlineNode (footnotes : Bool) (lo hi : NodeId) : Regraftable (InlineNode footnotes lo hi) :=
  fun _ _ _ _ node some => ⟨node.low, node.high, node.core, fun leaf => absurd (node.leaf leaf) some⟩

theorem InlineNode.mono {footnotes : Bool} {lo hi lo' hi' i : NodeId} {d : NodeData} {cs : Forest} (low : lo' ≤ lo)
    (high : hi ≤ hi') (node : InlineNode footnotes lo hi i d cs) : InlineNode footnotes lo' hi' i d cs :=
  ⟨low.trans node.low, node.high.trans_le high, node.core, node.leaf⟩

/-- The node is new. -/
def Makes (footnotes : Bool) (subj : Subject) (r : Subject × Node) : Prop :=
  subj.nextId ≤ r.1.nextId ∧ r.2.All (InlineNode footnotes subj.nextId r.1.nextId)

/-- The node is new and has no children. -/
def MakesLeaf (subj : Subject) (r : Subject × Node) : Prop := Makes false subj r ∧ r.2.type.isPlainLeaf

/-- Do the scanners find an autolink after the byte at the current position? -/
def scansAutolink (subj : Subject) : Bool :=
  Scanners.scanAt Scanners.autolinkUri subj.input (subj.pos + 1) != 0 ||
    Scanners.scanAt Scanners.autolinkEmail subj.input (subj.pos + 1) != 0

/-- The node is new, and neither an image nor one for attributes. If it is a link, it is an autolink. -/
structure MakesPlain (subj : Subject) (r : Subject × Node) : Prop where
  new : Makes false subj r
  plain : r.2.All fun _ d _ => d.type.isPlainInline
  link : r.2.type = .link → scansAutolink subj

theorem MakesPlain.makes {footnotes : Bool} {subj : Subject} {r : Subject × Node} (plain : MakesPlain subj r) :
    Makes footnotes subj r := by
  refine ⟨plain.new.1, Node.All.imp (fun node => ?_) _ plain.new.2⟩
  exact ⟨node.low, node.high, NodeType.isMade_mono node.core, node.leaf⟩

namespace MakesLeaf

variable {subj : Subject} {r : Subject × Node}

theorem children (leaf : MakesLeaf subj r) : r.2.children = [] := by
  obtain ⟨after, i, d, cs⟩ := r
  exact leaf.1.2.1.leaf (NodeType.isLeafInline_of_isPlainLeaf leaf.2)

theorem type_ne (leaf : MakesLeaf subj r) : r.2.type ≠ .link := by
  intro type
  have isLeaf := leaf.2
  rw [type] at isLeaf
  cases isLeaf

theorem plain (leaf : MakesLeaf subj r) : MakesPlain subj r := by
  have children := leaf.children
  have type := leaf.type_ne
  obtain ⟨after, i, d, cs⟩ := r
  obtain rfl : cs = [] := children
  exact ⟨leaf.1, ⟨NodeType.isPlainInline_of_isPlainLeaf leaf.2, trivial⟩, fun isLink => absurd isLink type⟩

theorem of_nextId {subj' : Subject} (same : subj'.nextId = subj.nextId) (made : MakesLeaf subj' r) :
    MakesLeaf subj r := by
  unfold MakesLeaf Makes at made ⊢
  rw [← same]
  exact made

end MakesLeaf

section

variable (subj : Subject)

theorem makes_alloc {d : NodeData} (leaf : d.type.isPlainLeaf) : MakesLeaf subj (subj.alloc d) :=
  ⟨⟨Nat.le_succ _, ⟨le_rfl, Nat.lt_succ_self _, NodeType.isMade_of_isPlainLeaf leaf, fun _ => rfl⟩, trivial⟩, leaf⟩

theorem makes_adjustNodeNewlines {subj' : Subject} {node : Node} (options : Options)
    (matchlen extra : Nat) (made : MakesLeaf subj (subj', node)) :
    MakesLeaf subj (subj'.adjustNodeNewlines options node matchlen extra) := by
  unfold Subject.adjustNodeNewlines
  generalize countNewlines _ = count
  obtain ⟨newlines, sinceNewline⟩ := count
  split
  next => exact made
  next =>
    dsimp only
    split
    next => exact made
    next =>
      obtain ⟨i, d, cs⟩ := node
      obtain ⟨⟨grows, ⟨low, high, core, leaf⟩, below⟩, isLeaf⟩ := made
      exact ⟨⟨grows, ⟨low, high, core, leaf⟩, below⟩, isLeaf⟩

theorem makes_handleHyphen (smart : Bool) : MakesLeaf subj (handleHyphen smart subj) := by
  unfold handleHyphen
  simp only
  split <;> exact makes_alloc subj rfl

theorem makes_handlePeriod (smart : Bool) : MakesLeaf subj (handlePeriod smart subj) := by
  unfold handlePeriod
  simp only
  split
  next => split <;> exact makes_alloc subj rfl
  next => exact makes_alloc subj rfl

theorem makes_handleBackslash (chars : CharTables) : MakesLeaf subj (handleBackslash chars subj) := by
  unfold handleBackslash
  simp only
  split
  next => exact makes_alloc subj rfl
  next => split <;> exact makes_alloc subj rfl

theorem makes_handleEntity (T : Tables) : MakesLeaf subj (handleEntity T subj) := by
  unfold handleEntity
  simp only
  split <;> exact makes_alloc subj rfl

theorem makes_handleNewline : MakesLeaf subj (handleNewline subj) := by
  unfold handleNewline
  extract_lets nlpos afterCr afterLf subj'
  split <;> exact makes_alloc subj rfl

theorem nextId_scanHtml : (scanHtml subj).1.nextId = subj.nextId := by
  unfold scanHtml
  simp only
  repeat' split
  all_goals rfl

theorem makes_makeRawHtml {subj' : Subject} (same : subj'.nextId = subj.nextId) (options : Options)
    (matchlen : Nat) : MakesLeaf subj (makeRawHtml options subj' matchlen) := by
  unfold makeRawHtml
  extract_lets contents advanced
  refine makes_adjustNodeNewlines subj options matchlen 1 (.of_nextId same ?_)
  exact makes_alloc advanced rfl

theorem makes_makeAutolink (T : Tables) (a b : Int) (url : Bytes) (isEmail : Bool) :
    Makes false subj (subj.makeAutolink T a b url isEmail) ∧
      (subj.makeAutolink T a b url isEmail).2.All fun _ d _ => d.type.isPlainInline :=
  ⟨⟨Nat.le_add_right _ 2,
    ⟨le_rfl, Nat.lt_add_of_pos_right Nat.two_pos, rfl, nofun⟩,
    ⟨⟨Nat.le_succ _, Nat.lt_succ_self _, rfl, fun _ => rfl⟩, trivial⟩, trivial⟩,
    rfl, ⟨rfl, trivial⟩, trivial⟩

theorem makes_handlePointyBrace (P : Config) : MakesPlain subj (handlePointyBrace P subj) := by
  unfold handlePointyBrace
  extract_lets advanced autolink uri email
  have autolinks (n : Nat) (isEmail : Bool) (scans : scansAutolink subj) : MakesPlain subj (autolink n isEmail) :=
    ⟨(makes_makeAutolink subj P.tables _ _ _ _).1, (makes_makeAutolink subj P.tables _ _ _ _).2, fun _ => scans⟩
  split
  next found =>
    refine autolinks uri false ?_
    rw [scansAutolink, Bool.or_eq_true]
    exact .inl (bne_iff_ne.mpr found.ne')
  next =>
    split
    next found =>
      refine autolinks email true ?_
      rw [scansAutolink, Bool.or_eq_true]
      exact .inr (bne_iff_ne.mpr found.ne')
    next =>
      have scanned := nextId_scanHtml advanced
      generalize scanHtml advanced = r at scanned
      obtain ⟨subj', matchlen⟩ := r
      dsimp only at scanned ⊢
      generalize (if P.options.has optLiberalHtmlTag then
        Scanners.scanAt Scanners.liberalHtmlTag subj'.input subj'.pos else 0) = liberal
      split
      next => exact (makes_makeRawHtml subj scanned _ _).plain
      next =>
        split
        next => exact (makes_makeRawHtml subj scanned _ _).plain
        next =>
          have leaf : MakesLeaf subj (subj'.makeChar (chr '<')) := .of_nextId scanned (makes_alloc subj' rfl)
          exact leaf.plain

theorem makes_handleBackticks (options : Options) : MakesLeaf subj (handleBackticks options subj) := by
  unfold handleBackticks
  extract_lets initpos startpos openticks
  have scanned : (scanToClosingBackticks { subj with pos := startpos } openticks).1.nextId =
      subj.nextId := by
    unfold scanToClosingBackticks
    repeat' split
    all_goals rfl
  generalize scanToClosingBackticks { subj with pos := startpos } openticks = r at scanned ⊢
  obtain ⟨subj', found⟩ := r
  cases found with
  | none => exact .of_nextId scanned (makes_alloc subj' rfl)
  | some endpos =>
    dsimp only at scanned ⊢
    exact makes_adjustNodeNewlines subj options _ _ (.of_nextId scanned (makes_alloc subj' rfl))

theorem makes_handleDelim (chars : CharTables) (smart : Bool) (c : UInt8) :
    MakesLeaf subj (handleDelim chars smart subj c) := by
  unfold handleDelim
  generalize scanDelims chars subj.input subj.pos c = run
  obtain ⟨numdelims, canOpen, canClose⟩ := run
  dsimp -zeta only
  extract_lets start subj' stop
  have text : MakesLeaf subj
      (if c == chr '\'' && smart then subj'.makeStr start stop rightSingleQuote
        else if c == chr '"' && smart then
          subj'.makeStr start stop (if canClose then rightDoubleQuote else leftDoubleQuote)
        else subj'.makeStrAt start stop start (chunkDup subj'.input start numdelims)) := by
    split
    next => exact makes_alloc subj rfl
    next => split <;> exact makes_alloc subj rfl
  generalize (if c == chr '\'' && smart then subj'.makeStr start stop rightSingleQuote
    else if c == chr '"' && smart then
      subj'.makeStr start stop (if canClose then rightDoubleQuote else leftDoubleQuote)
    else subj'.makeStrAt start stop start (chunkDup subj'.input start numdelims)) = r at text ⊢
  split <;> exact text

theorem makes_makeText (P : Config) (chars : CharTables) : MakesLeaf subj (makeText P chars subj) := by
  unfold makeText
  simp only
  split <;> exact makes_alloc subj rfl

end

/-! ### What matching emphasis keeps -/

/-- A condition on a state that inserting emphasis and writing a text keep. -/
structure EmphasisRule (P : Config) (I : Subject → Prop) : Prop where
  stack : ∀ {subj} delims, I subj → I { subj with delims := delims }
  setText : ∀ {subj} i s, I subj → I (subj.setText i s)
  insert : ∀ {subj} below opener closer later, I subj → I (insertEmph P subj below opener closer later).subj

theorem inlineSyntaxExtensions_core {P : Config} (core : P.syntaxExtensions = []) :
    P.inlineSyntaxExtensions = [] := by
  rw [Config.inlineSyntaxExtensions, core, List.filter_nil]

theorem extensionForSpecialChar_core {P : Config} (core : P.inlineSyntaxExtensions = []) (c : UInt8) :
    extensionForSpecialChar P c = none := by
  rw [extensionForSpecialChar, core, List.find?_nil]

namespace EmphasisRule

variable {P : Config} {I : Subject → Prop} (rule : EmphasisRule P I) (core : P.inlineSyntaxExtensions = [])

include rule

theorem unmatchedCloser {e : Emphasis} (holds : I e.subj) (closer : Delimiter) (later : List Delimiter) :
    I (unmatchedCloser P e closer later).subj := by
  unfold CmarkGfm.unmatchedCloser
  extract_lets subj
  show I subj
  unfold subj
  split
  next => exact rule.setText _ _ holds
  next => exact holds

include core

theorem matchedCloser {e : Emphasis} (holds : I e.subj) (between : List Delimiter) (opener : Delimiter)
    (below : List Delimiter) (closer : Delimiter) (later : List Delimiter) :
    I (matchedCloser P e between opener below closer later).subj := by
  unfold CmarkGfm.matchedCloser
  rw [extensionForSpecialChar_core core]
  dsimp only
  split
  next => exact rule.insert below opener closer later holds
  next =>
    split
    next => exact rule.setText _ _ (rule.setText _ _ holds)
    next => exact holds

theorem emphasisLoop (limit : OpenersBottom → Delimiter → Nat) (stackBottom fuel : Nat) {e : Emphasis}
    (holds : I e.subj) (bottom : OpenersBottom) : I (emphasisLoop P limit stackBottom fuel e bottom).1.subj := by
  induction fuel generalizing e bottom with
  | zero => exact holds
  | succ fuel ih =>
    refine ih ?_ _
    unfold emphasisStep
    split
    next => exact holds
    next closer later _ =>
      split
      next =>
        split
        next between opener below _ => exact rule.matchedCloser core holds between opener below closer later
        next => exact rule.unmatchedCloser holds closer later
      next => exact holds

theorem processEmphasis {subj : Subject} (holds : I subj) (stackBottom : Nat) :
    I (processEmphasis P subj stackBottom) := by
  have start : I (emphasisStart subj stackBottom).subj := holds
  exact rule.stack _ (rule.emphasisLoop core OpenersBottom.get stackBottom
    (emphasisFuel (emphasisStart subj stackBottom)) start (.initial stackBottom))

end EmphasisRule

/-! ### What parsing inlines keeps -/

/-- The state after a step, with the node that it made as the last child. -/
def appended (r : Subject × Option Node) : Subject := r.2.elim r.1 r.1.appendChild

section

variable (P : Config) (chars : CharTables) {subj : Subject} (c : UInt8) {motive : Subject × Option Node → Prop}
  (closeBracket : c = chr ']' → motive (handleCloseBracket P subj)) (nothing : motive (subj, none))

include closeBracket nothing

/-- The `switch` of `parse_inline` makes a node without children, leaves the byte to the handlers of
pointy braces and closing brackets, or does nothing. -/
theorem dispatchInline_leaf
    (leaf : ∀ r : Subject × Node, MakesLeaf subj r → r.1.children = subj.children → motive (made r))
    (pointyBrace : c = chr '<' → motive (made (handlePointyBrace P subj))) :
    motive (dispatchInline P chars subj c) := by
  unfold dispatchInline
  extract_lets smart advanced
  have ofStacks {r : Subject × Node} (makes : MakesLeaf subj r) (same : SameStacks subj r.1) : motive (made r) :=
    leaf r makes same.children
  refine iteInduction (fun _ => iteInduction (fun _ => ?_) fun _ => ?_) fun _ => ?_
  · exact leaf _ (makes_alloc subj rfl) rfl
  · exact ofStacks (makes_handleNewline subj) (sameStacks_handleNewline subj)
  refine iteInduction (fun _ => ofStacks (makes_handleBackticks subj P.options)
    (sameStacks_handleBackticks subj P.options)) fun _ => ?_
  refine iteInduction (fun _ => ofStacks (makes_handleBackslash subj chars)
    (sameStacks_handleBackslash subj chars)) fun _ => ?_
  refine iteInduction (fun _ => ofStacks (makes_handleEntity subj P.tables)
    (sameStacks_handleEntity subj P.tables)) fun _ => ?_
  refine iteInduction (fun opens => pointyBrace (beq_iff_eq.mp opens)) fun _ => ?_
  refine iteInduction (fun _ => ?_) fun _ => ?_
  · refine leaf _ (makes_handleDelim subj chars smart c) ?_
    obtain ⟨subj', same, eq | ⟨canOpen, canClose, eq⟩⟩ := handleDelim_cases subj chars smart c
    · rw [eq]
      exact same.children
    · rw [eq]
      exact same.children
  refine iteInduction (fun _ => ofStacks (makes_handleHyphen subj smart)
    (sameStacks_handleHyphen subj smart)) fun _ => ?_
  refine iteInduction (fun _ => ofStacks (makes_handlePeriod subj smart)
    (sameStacks_handlePeriod subj smart)) fun _ => ?_
  refine iteInduction (fun _ => leaf _ (makes_alloc subj rfl) rfl) fun _ => ?_
  refine iteInduction (fun closes => closeBracket (beq_iff_eq.mp closes)) fun _ => ?_
  refine iteInduction (fun _ => leaf _ (makes_alloc subj rfl) rfl) fun _ => ?_
  exact iteInduction (fun _ => leaf _ (makes_alloc subj rfl) rfl) fun _ => nothing

theorem dispatchInline_plain
    (plain : ∀ r : Subject × Node, MakesPlain subj r → r.1.children = subj.children → motive (made r)) :
    motive (dispatchInline P chars subj c) :=
  dispatchInline_leaf P chars c closeBracket nothing (fun r leaf => plain r leaf.plain)
    fun _ => plain _ (makes_handlePointyBrace subj P) (sameStacks_handlePointyBrace subj P).children

end

/-- A condition on a state that matching emphasis and a plain node keep. -/
structure InlineRule (P : Config) (I : Subject → Prop) : Prop extends EmphasisRule P I where
  plain : ∀ {subj : Subject} {r : Subject × Node}, I subj → MakesPlain subj r → r.1.children = subj.children →
    I (r.1.appendChild r.2)

namespace InlineRule

variable {P : Config} {I : Subject → Prop} (rule : InlineRule P I) (core : P.inlineSyntaxExtensions = [])
  (chars : CharTables)

include rule core

/-- `parse_inline` keeps the condition if closing a bracket does. -/
theorem parseInline {subj subj' : Subject} (holds : I subj)
    (close : subj.peekChar = chr ']' → I (appended (handleCloseBracket P subj)))
    (parsed : parseInline P chars subj = some subj') : I subj' := by
  have dispatched : I (appended (dispatchInline P chars subj subj.peekChar)) := by
    refine dispatchInline_plain (motive := fun r => I (appended r)) P chars subj.peekChar close holds ?_
    exact fun r makes same => rule.plain holds makes same
  unfold CmarkGfm.parseInline nextInline at parsed
  rw [core] at parsed
  dsimp only at parsed
  generalize dispatchInline P chars subj subj.peekChar = r at dispatched parsed
  obtain ⟨after, found⟩ := r
  split at parsed
  next => cases parsed
  next =>
    cases found with
    | some node =>
      cases parsed
      exact dispatched
    | none =>
      dsimp only at parsed
      split at parsed
      next =>
        cases parsed
        exact rule.plain dispatched (makes_makeText after P chars).plain (sameStacks_makeText after P chars).children
      next =>
        cases parsed
        exact dispatched

theorem parseInlinesLoop {fuel : Nat} {subj : Subject} (holds : I subj)
    (close : ∀ s ∈ inlineStates P chars fuel subj, I s → s.peekChar = chr ']' →
      I (appended (handleCloseBracket P s))) : I (parseInlinesLoop P chars fuel subj) := by
  induction fuel generalizing subj with
  | zero => exact holds
  | succ fuel ih =>
    unfold CmarkGfm.parseInlinesLoop
    unfold inlineStates at close
    split
    next => exact holds
    next more =>
      rw [if_neg more] at close
      rw [List.forall_mem_cons] at close
      split
      next => exact holds
      next subj' parsed =>
        rw [parsed] at close
        exact ih (rule.parseInline core chars holds (close.1 holds) parsed) close.2

/-- `cmark_parse_inlines` keeps the condition if closing a bracket does. -/
theorem parseInlines {subj : Subject} (holds : I subj) (brackets : ∀ {s}, I s → I { s with delims := [], brackets := [] })
    (close : ∀ s ∈ inlineStates P chars subj.input.length subj, I s → s.peekChar = chr ']' →
      I (appended (handleCloseBracket P s))) : I (parseInlines P chars subj) :=
  brackets (rule.toEmphasisRule.processEmphasis core (rule.parseInlinesLoop core chars holds close) 0)

end InlineRule

section

variable {q : NodeId → NodeData → Forest → Prop} (regraft : Regraftable q) {subj : Subject}

include regraft

theorem AllList.setText (keeps : ∀ {i d cs} s p, q i d cs → q i { d with as := .literal s, chunkPos := p } cs)
    (all : AllList q subj.children)
    (i : NodeId) (s : Bytes) : AllList q (subj.setText i s).children :=
  all.editData regraft (keeps s none)

/-- Emphasis takes the nodes between its delimiters. -/
theorem AllList.insertEmph {P : Config} (keeps : ∀ {i d cs} s p, q i d cs → q i { d with as := .literal s, chunkPos := p } cs)
    (emph : ∀ {d cs}, d.type = .emph ∨ d.type = .strong → q subj.nextId d cs) (all : AllList q subj.children)
    (below : List Delimiter) (opener closer : Delimiter) (later : List Delimiter) :
    AllList q (insertEmph P subj below opener closer later).subj.children := by
  unfold CmarkGfm.insertEmph
  extract_lets openerInl closerInl openerLen closerLen useDelims openerNumChars closerNumChars
    truncated truncated'
  have shortened : AllList q truncated' :=
    (all.editData regraft fun node => keeps _ _ node).editData regraft fun node => keeps _ _ node
  generalize emphData : ({
      type := if useDelims = 1 then .emph else .strong
      startLine := openerInl.startLine
      endLine := closerInl.endLine
      startColumn := openerInl.startColumn
      endColumn := closerInl.endColumn } : NodeData) = d
  have type : d.type = .emph ∨ d.type = .strong := by
    rw [← emphData]
    dsimp only
    split
    next => exact .inl rfl
    next => exact .inr rfl
  dsimp -zeta only [Subject.alloc]
  extract_lets accepted spliced freed freed'
  have splices : AllList q spliced := by
    refine AllList.editSiblings regraft (fun {l} siblings => ?_) shortened
    have after := allList_siblingsAfter (i := opener.inlText) siblings
    have between : AllList q ((siblingsAfter opener.inlText l).takeWhile fun n => n.id != closer.inlText) :=
      after.subset fun _ => (List.takeWhile_subset _ ·)
    unfold wrapBetween
    refine allList_append.mpr ⟨allList_append.mpr ⟨allList_append.mpr ⟨?_, ?_⟩, ?_⟩, ?_⟩
    · exact allList_siblingsBefore siblings
    · exact (allList_siblingsFrom siblings).subset fun _ => List.mem_of_mem_take
    · split
      next => exact ⟨⟨emph type, between⟩, trivial⟩
      next => trivial
    · exact after.subset fun _ => (List.dropWhile_subset _ ·)
  have frees : AllList q freed := by
    unfold freed
    split
    next => exact splices.freeNode regraft
    next => exact splices
  show AllList q freed'
  unfold freed'
  split
  next => exact frees.freeNode regraft
  next => exact frees

/-- A link or an attribute takes siblings after its opening bracket. -/
theorem AllList.replaceOpener {f : Forest} {i : NodeId} {d : NodeData} (new : ∀ cs, q i d cs) (all : AllList q f)
    (opener : NodeId) (accepted : Bool) (takes : Node → Bool) :
    AllList q (replaceOpener opener accepted (.leaf i d) takes f) := by
  refine AllList.editSiblings regraft (fun {l} siblings => ?_) all
  have after := allList_siblingsAfter (i := opener) siblings
  refine allList_append.mpr ⟨allList_append.mpr ⟨allList_siblingsBefore siblings, ?_⟩,
    after.subset fun _ => List.mem_of_mem_filter⟩
  split
  next => exact ⟨⟨new _, after.subset fun _ => List.mem_of_mem_filter⟩, trivial⟩
  next => trivial

/-- A footnote reference takes the place of what is behind its opening bracket. -/
theorem AllList.insertBefore {f : Forest} {n : Node} (new : n.All q) (all : AllList q f) (opener : NodeId)
    (accepted : Bool) : AllList q (CmarkGfm.editSiblings opener (fun siblings => siblingsBefore opener siblings ++
      (if accepted then [n] else []) ++ siblingsFrom opener siblings) f) := by
  refine AllList.editSiblings regraft (fun {l} siblings => ?_) all
  refine allList_append.mpr ⟨allList_append.mpr ⟨allList_siblingsBefore siblings, ?_⟩, allList_siblingsFrom siblings⟩
  split
  next => exact ⟨new, trivial⟩
  next => trivial

end

/-! ### The nodes of a subject -/

/-- The nodes made so far have addresses from `lo` on. -/
structure InlineTrees (footnotes : Bool) (lo : NodeId) (subj : Subject) : Prop where
  low : lo ≤ subj.nextId
  nodes : AllList (InlineNode footnotes lo subj.nextId) subj.children

namespace InlineTrees

variable {footnotes : Bool} {lo : NodeId} {subj : Subject} {P : Config}

theorem congr {subj' : Subject} (trees : InlineTrees footnotes lo subj) (nextId : subj'.nextId = subj.nextId)
    (children : subj'.children = subj.children) : InlineTrees footnotes lo subj' := by
  refine ⟨nextId ▸ trees.low, ?_⟩
  rw [nextId, children]
  exact trees.nodes

theorem setChildren {f : Forest} (trees : InlineTrees footnotes lo subj)
    (nodes : AllList (InlineNode footnotes lo subj.nextId) f) :
    InlineTrees footnotes lo { subj with children := f } := ⟨trees.low, nodes⟩

theorem alloc (trees : InlineTrees footnotes lo subj) (d : NodeData) : InlineTrees footnotes lo (subj.alloc d).1 :=
  ⟨trees.low.trans (Nat.le_succ _), AllList.imp (.mono le_rfl (Nat.le_succ _)) _ trees.nodes⟩

theorem editSiblings (trees : InlineTrees footnotes lo subj) {i : NodeId} {g : Forest → Forest}
    (keeps : ∀ {l}, AllList (InlineNode footnotes lo subj.nextId) l →
      AllList (InlineNode footnotes lo subj.nextId) (g l)) :
    InlineTrees footnotes lo { subj with children := CmarkGfm.editSiblings i g subj.children } :=
  trees.setChildren (trees.nodes.editSiblings (regraftable_inlineNode _ _ _) keeps)

theorem keeps_literal {lo hi i : NodeId} {d : NodeData} {cs : Forest} (s : Bytes) (p : Option Nat)
    (node : InlineNode footnotes lo hi i d cs) :
    InlineNode footnotes lo hi i { d with as := .literal s, chunkPos := p } cs :=
  ⟨node.low, node.high, node.core, node.leaf⟩

theorem appendChild (trees : InlineTrees footnotes lo subj) {n : Node}
    (node : n.All (InlineNode footnotes lo subj.nextId)) : InlineTrees footnotes lo (subj.appendChild n) :=
  trees.setChildren (allList_append.mpr ⟨trees.nodes, node, trivial⟩)

/-- Emphasis is new. -/
theorem emphasisRule : EmphasisRule P (InlineTrees footnotes lo) where
  stack _ trees := trees.congr rfl rfl
  setText i s trees := trees.setChildren (trees.nodes.setText (regraftable_inlineNode _ _ _) keeps_literal i s)
  insert {subj} below opener closer later trees := by
    refine ⟨trees.low.trans (Nat.le_succ _), ?_⟩
    have grown : AllList (InlineNode footnotes lo (subj.nextId + 1)) subj.children :=
      AllList.imp (.mono le_rfl (Nat.le_succ _)) _ trees.nodes
    refine grown.insertEmph (regraftable_inlineNode _ _ _) keeps_literal (fun {d cs} type => ?_) below opener closer later
    refine ⟨trees.low, Nat.lt_succ_self _, ?_, fun leaf => ?_⟩
    · rcases type with type | type <;> rw [type] <;> rfl
    · rcases type with type | type <;> rw [type] at leaf <;> cases leaf

variable (core : P.inlineSyntaxExtensions = [])

include core

theorem processEmphasis (trees : InlineTrees footnotes lo subj) (stackBottom : Nat) :
    InlineTrees footnotes lo (processEmphasis P subj stackBottom) :=
  emphasisRule.processEmphasis core trees stackBottom

omit core in
/-- A link or an attribute is new. -/
theorem replaceOpener (trees : InlineTrees footnotes lo subj) {d : NodeData} (isCore : d.type.isMade footnotes)
    (notLeaf : d.type.isLeafInline = false) (opener : NodeId) (accepted : Bool)
    (takes : Node → Bool) : InlineTrees footnotes lo { (subj.alloc d).1 with
      children := replaceOpener opener accepted (.leaf subj.nextId d) takes subj.children } := by
  refine (trees.alloc d).setChildren ((trees.alloc d).nodes.replaceOpener (regraftable_inlineNode _ _ _) ?_ opener
    accepted takes)
  intro cs
  exact ⟨trees.low, Nat.lt_succ_self _, isCore, fun isLeaf => by rw [notLeaf] at isLeaf; cases isLeaf⟩

theorem matchLink (trees : InlineTrees footnotes lo subj) (opener : Bracket) (url title : Bytes) :
    InlineTrees footnotes lo (matchLink P subj opener url title) := by
  have kind : ∀ isImage : Prop, [Decidable isImage] →
      (if isImage then NodeType.image else .link).isMade footnotes = true ∧
        (if isImage then NodeType.image else .link).isLeafInline = false := by
    intro isImage _
    split <;> exact ⟨rfl, rfl⟩
  unfold CmarkGfm.matchLink
  extract_lets isImage openerInl
  dsimp only [Subject.alloc]
  refine (processEmphasis core ?_ _).congr rfl rfl
  exact trees.replaceOpener (kind _).1 (kind _).2 opener.inlText _ _

theorem matchAttribute (trees : InlineTrees footnotes lo subj) (opener : Bracket) (attributes : Bytes) :
    InlineTrees footnotes lo (matchAttribute P subj opener attributes) := by
  unfold CmarkGfm.matchAttribute
  dsimp only [Subject.alloc]
  refine (processEmphasis core ?_ _).congr rfl rfl
  exact trees.replaceOpener rfl rfl opener.inlText _ _

theorem makeFootnoteReference (isOn : footnotes) (trees : InlineTrees footnotes lo subj) (opener : Bracket) (next : Node) :
    InlineTrees footnotes lo (makeFootnoteReference P subj opener next) := by
  unfold CmarkGfm.makeFootnoteReference
  extract_lets startColumn endColumn
  generalize fnrefData : ({
      type := .footnoteReference
      as := .literal (footnoteLiteral P subj next (endColumn - startColumn - 2).toNat)
      startLine := subj.line
      endLine := subj.line
      startColumn := startColumn
      endColumn := endColumn } : NodeData) = d
  have isCore : d.type.isMade footnotes := by
    rw [← fnrefData]
    exact isOn
  have fresh := trees.alloc d
  have node : Node.All (InlineNode footnotes lo (subj.nextId + 1)) (.leaf subj.nextId d) :=
    ⟨⟨trees.low, Nat.lt_succ_self _, isCore, fun _ => rfl⟩, trivial⟩
  dsimp -zeta only [Subject.alloc]
  extract_lets accepted insert inserted emphasized
  have inserts : InlineTrees footnotes lo inserted :=
    fresh.setChildren (fresh.nodes.insertBefore (regraftable_inlineNode _ _ _) node opener.inlText accepted)
  have emphasizes : InlineTrees footnotes lo emphasized := processEmphasis core inserts opener.position
  exact (emphasizes.editSiblings fun {l} siblings => allList_siblingsBefore siblings).congr rfl rfl

/-- What closing a bracket gives: the node it makes, if any, is new. -/
def Result (footnotes : Bool) (lo : NodeId) (r : Subject × Option Node) : Prop :=
  InlineTrees footnotes lo r.1 ∧ ∀ {n}, r.2 = some n → n.All (InlineNode footnotes lo r.1.nextId)

omit core in
theorem result_made {r : Subject × Node} (trees : InlineTrees footnotes lo subj) (made : MakesPlain subj r)
    (children : r.1.children = subj.children) : Result footnotes lo (CmarkGfm.made r) := by
  obtain ⟨grows, node⟩ := @made.makes footnotes
  refine ⟨⟨trees.low.trans grows, ?_⟩, ?_⟩
  · rw [CmarkGfm.made, children]
    exact AllList.imp (.mono le_rfl grows) _ trees.nodes
  · rintro n ⟨⟩
    exact Node.All.imp (.mono trees.low le_rfl) _ node

omit core in
theorem result_literalCloseBracket (trees : InlineTrees footnotes lo subj) :
    Result footnotes lo (literalCloseBracket subj) :=
  result_made trees (makes_alloc subj rfl).plain rfl

variable (option : P.options.has optFootnotes → footnotes)

include option

theorem result_noMatch (trees : InlineTrees footnotes lo subj) (opener : Bracket) (initialPos : Nat) :
    Result footnotes lo (noMatch P subj opener initialPos) := by
  unfold noMatch
  extract_lets rewound
  have rewinds : InlineTrees footnotes lo rewound := trees.congr rfl rfl
  split
  next next found =>
    have isOn : P.options.has optFootnotes := by
      by_contra off
      rw [footnoteText, if_neg off] at found
      cases found
    exact ⟨makeFootnoteReference core (option isOn) rewinds opener next, nofun⟩
  next => exact result_literalCloseBracket (rewinds.congr rfl rfl)

omit core option in
theorem lookupReference (trees : InlineTrees footnotes lo subj) (label : Bytes) :
    InlineTrees footnotes lo (lookupReference P.tables subj label).1 := trees.congr rfl rfl

theorem result_closeReference (trees : InlineTrees footnotes lo subj) (opener : Bracket) (initialPos : Nat) :
    Result footnotes lo (closeReference P subj opener initialPos) := by
  unfold closeReference
  generalize referenceLabel subj opener initialPos = r
  obtain ⟨pos, label⟩ := r
  dsimp only
  split
  next => exact result_noMatch core option (trees.congr rfl rfl) opener initialPos
  next label =>
    have looked : InlineTrees footnotes lo (CmarkGfm.lookupReference P.tables { subj with pos := pos } label).1 :=
      trees.congr rfl rfl
    generalize CmarkGfm.lookupReference P.tables { subj with pos := pos } label = r at looked ⊢
    obtain ⟨subj', found⟩ := r
    cases found with
    | none => exact result_noMatch core option looked opener initialPos
    | some ref =>
      dsimp only
      split
      next => exact result_noMatch core option looked opener initialPos
      next =>
        refine ⟨matchLink core ?_ opener ref.url ref.title, nofun⟩
        exact looked.congr rfl rfl

omit core option in
theorem referenceAttributes (trees : InlineTrees footnotes lo subj) (attributes : Option Bytes) :
    InlineTrees footnotes lo (referenceAttributes P.tables subj attributes).1 := by
  unfold CmarkGfm.referenceAttributes
  split
  next => exact trees
  next pos rawLabel _ =>
    have looked : InlineTrees footnotes lo
        (CmarkGfm.lookupReference P.tables { subj with pos := pos } rawLabel).1 :=
      trees.congr rfl rfl
    generalize CmarkGfm.lookupReference P.tables { subj with pos := pos } rawLabel = r at looked ⊢
    obtain ⟨subj', found⟩ := r
    cases found with
    | none => exact looked
    | some ref =>
      dsimp only
      split
      next => exact looked.congr rfl rfl
      next => exact looked

omit option in
theorem result_handleCloseBracketAttribute (trees : InlineTrees footnotes lo subj) (opener : Bracket) :
    Result footnotes lo (handleCloseBracketAttribute P subj opener) := by
  rw [handleCloseBracketAttribute_eq]
  have advanced : InlineTrees footnotes lo { subj with pos := attributesEnd subj } := trees.congr rfl rfl
  have referred := referenceAttributes (P := P) advanced ((scanInlineAttributes subj.input subj.pos).map (·.2))
  generalize CmarkGfm.referenceAttributes P.tables { subj with pos := attributesEnd subj } _ = r at referred ⊢
  obtain ⟨subj', found⟩ := r
  cases found with
  | none => exact result_literalCloseBracket (referred.congr rfl rfl)
  | some found =>
    constructor
    · exact matchAttribute core referred opener found
    · intro node made
      cases made

theorem result_handleCloseBracket (trees : InlineTrees footnotes lo subj) :
    Result footnotes lo (handleCloseBracket P subj) := by
  unfold handleCloseBracket
  extract_lets advanced
  have advances : InlineTrees footnotes lo advanced := trees.congr rfl rfl
  split
  next => exact result_literalCloseBracket advances
  next opener _ _ =>
    split
    next => exact result_handleCloseBracketAttribute core advances opener
    next =>
      split
      next => exact result_literalCloseBracket (advances.congr rfl rfl)
      next =>
        split
        next pos url title _ =>
          refine ⟨matchLink core ?_ opener url title, nofun⟩
          exact advances.congr rfl rfl
        next => exact result_closeReference core option advances opener _

/-! ### One inline after the other -/

omit core option in
theorem inlineRule : InlineRule P (InlineTrees footnotes lo) where
  toEmphasisRule := emphasisRule
  plain trees makes children := by
    have result := result_made trees makes children
    exact result.1.appendChild (result.2 rfl)

theorem appended_handleCloseBracket (trees : InlineTrees footnotes lo subj) :
    InlineTrees footnotes lo (appended (handleCloseBracket P subj)) := by
  have result := result_handleCloseBracket core option trees
  generalize handleCloseBracket P subj = r at result
  obtain ⟨subj', found⟩ := r
  cases found with
  | none => exact result.1
  | some node => exact result.1.appendChild (result.2 rfl)

/-- Everything below a block of text is new. -/
theorem parseInlines (chars : CharTables) (trees : InlineTrees footnotes lo subj) :
    InlineTrees footnotes lo (parseInlines P chars subj) :=
  inlineRule.parseInlines core chars trees (fun trees => trees.congr rfl rfl)
    fun _ _ trees _ => appended_handleCloseBracket core option trees

end InlineTrees

end CmarkGfm
