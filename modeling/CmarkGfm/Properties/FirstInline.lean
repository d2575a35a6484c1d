import CmarkGfm.Properties.InlineLayout

/-!
# The first inline of a block

Matching emphasis and closing brackets touch the nodes that a stack points to, and the siblings
after them. A leaf that comes first and that no stack points to stays the first child of the block
while the rest of the content is read.
-/

namespace CmarkGfm

/-! ### Siblings -/

/-- This leaf is the first of the siblings. -/
def Leads (i : NodeId) (d : NodeData) (f : Forest) : Prop := ∃ rest, f = .leaf i d :: rest

section

variable {i j k : NodeId} {d : NodeData} {f : Forest}

/-- What is found before another node begins with the leaf. -/
theorem Leads.siblingsBefore (leads : Leads i d f) (other : i ≠ j) (more : Forest) :
    Leads i d (siblingsBefore j f ++ more) := by
  obtain ⟨rest, rfl⟩ := leads
  refine ⟨CmarkGfm.siblingsBefore j rest ++ more, ?_⟩
  simp [CmarkGfm.siblingsBefore, List.takeWhile_cons, other]

/-- Editing the siblings of a node keeps the leaf if it does so where the leaf is among them. -/
theorem Leads.editSiblings {g : Forest → Forest} (leads : Leads i d f)
    (keeps : Leads i d f → Leads i d (g f)) : Leads i d (editSiblings j g f) := by
  unfold CmarkGfm.editSiblings
  split
  next => exact keeps leads
  next =>
    -- a leaf has no children to edit
    obtain ⟨rest, rfl⟩ := leads
    exact ⟨editSiblingsList j g rest, by simp [editSiblingsList, Node.editSiblings, Node.leaf, hasSibling]⟩

theorem Leads.editData {g : NodeData → NodeData} (leads : Leads i d f) (other : i ≠ j) :
    Leads i d (editData j g f) := by
  apply leads.editSiblings
  rintro ⟨rest, rfl⟩
  exact ⟨editSibling j g rest, by simp [editSibling, other]⟩

theorem Leads.freeNode (leads : Leads i d f) (other : i ≠ j) : Leads i d (freeNode j f) := by
  apply leads.editSiblings
  rintro ⟨rest, rfl⟩
  exact ⟨rest.filter fun n => n.id != j, by simp [List.filter_cons, other]⟩

theorem Leads.freeNodeIf (c : Prop) [Decidable c] (leads : Leads i d f) (other : i ≠ j) :
    Leads i d (if c then CmarkGfm.freeNode j f else f) := by
  split
  next => exact leads.freeNode other
  next => exact leads

theorem Leads.wrapBetween {wrap : Forest → Forest} (leads : Leads i d f) (other : i ≠ j) :
    Leads i d (CmarkGfm.editSiblings j (CmarkGfm.wrapBetween j k wrap) f) := by
  apply leads.editSiblings
  intro leads
  unfold CmarkGfm.wrapBetween
  dsimp only
  rw [List.append_assoc, List.append_assoc]
  exact leads.siblingsBefore other _

theorem Leads.replaceOpener {accepted : Bool} {inl : Node} {takes : Node → Bool}
    (leads : Leads i d f) (other : i ≠ j) : Leads i d (replaceOpener j accepted inl takes f) := by
  apply leads.editSiblings
  intro leads
  dsimp only
  rw [List.append_assoc]
  exact leads.siblingsBefore other _

end

/-! ### Matching emphasis -/

/-- The leaf comes first, and neither stack points to it. -/
structure Spared (i : NodeId) (d : NodeData) (subj : Subject) : Prop where
  leads : Leads i d subj.children
  delims : ∀ m ∈ subj.delims, i ≠ m.inlText
  brackets : ∀ b ∈ subj.brackets, i ≠ b.inlText
  fresh : i < subj.nextId

/-- The same while `process_emphasis` has taken the delimiter stack apart. -/
structure Emphasis.Spares (i : NodeId) (d : NodeData) (e : Emphasis) : Prop where
  leads : Leads i d e.subj.children
  before : ∀ m ∈ e.before, i ≠ m.inlText
  after : ∀ m ∈ e.after, i ≠ m.inlText
  brackets : ∀ b ∈ e.subj.brackets, i ≠ b.inlText
  fresh : i < e.subj.nextId

section

variable {P : Config} (bare : P.syntaxExtensions = []) {i : NodeId} {d : NodeData}

/-- Emphasis is put between the text nodes of the two runs. -/
theorem spares_insertEmph {subj : Subject} {opener closer : Delimiter} {below later : List Delimiter}
    (leads : Leads i d subj.children) (brackets : ∀ b ∈ subj.brackets, i ≠ b.inlText)
    (fresh : i < subj.nextId) (under : ∀ m ∈ opener :: below, i ≠ m.inlText)
    (above : ∀ m ∈ closer :: later, i ≠ m.inlText) :
    (insertEmph P subj below opener closer later).Spares i d := by
  have ofOpener := under opener List.mem_cons_self
  have ofCloser := above closer List.mem_cons_self
  unfold insertEmph
  extract_lets openerInl closerInl openerChars closerChars useDelims openerLeft closerLeft cut shortened
  have shorter : Leads i d shortened := (leads.editData ofOpener).editData ofCloser
  constructor
  case leads => exact ((shorter.wrapBetween ofOpener).freeNodeIf _ ofOpener).freeNodeIf _ ofCloser
  case before =>
    intro m member
    apply under
    dsimp only at member
    split at member
    next => exact .tail opener member
    next => exact member
  case after =>
    intro m member
    apply above
    dsimp only at member
    split at member
    next => exact .tail closer member
    next => exact member
  case brackets => exact brackets
  case fresh => exact Nat.lt_succ_of_lt fresh

variable {e : Emphasis} (spares : e.Spares i d)

include spares

/-- A closer is passed. -/
theorem spares_skipCloser {closer : Delimiter} {later : List Delimiter} (found : e.after = closer :: later) :
    (e.skipCloser closer later).Spares i d := by
  have above := spares.after
  rw [found] at above
  constructor
  case leads => exact spares.leads
  case before =>
    intro m member
    rcases List.mem_cons.mp member with rfl | member
    · exact above m List.mem_cons_self
    · exact spares.before m member
  case after => exact fun m member => above m (.tail closer member)
  case brackets => exact spares.brackets
  case fresh => exact spares.fresh

theorem spares_unmatchedCloser {closer : Delimiter} {later : List Delimiter}
    (found : e.after = closer :: later) : (unmatchedCloser P e closer later).Spares i d := by
  have skipped := spares_skipCloser spares found
  have other : i ≠ closer.inlText := skipped.before closer List.mem_cons_self
  unfold unmatchedCloser
  extract_lets subj
  have quoted : Leads i d subj.children ∧ subj.brackets = e.subj.brackets ∧ subj.nextId = e.subj.nextId := by
    unfold subj
    split
    next => exact ⟨spares.leads.editData other, rfl, rfl⟩
    next => exact ⟨spares.leads, rfl, rfl⟩
  obtain ⟨leads, brackets, nextId⟩ := quoted
  constructor
  case leads => exact leads
  case before =>
    intro m member
    dsimp only at member
    split at member
    next => exact skipped.before m member
    next => exact spares.before m member
  case after => exact skipped.after
  case brackets => exact fun b member => spares.brackets b (brackets ▸ member)
  case fresh => exact spares.fresh.trans_eq nextId.symm

include bare

theorem spares_matchedCloser {between below later : List Delimiter} {opener closer : Delimiter}
    (before : e.before = between ++ opener :: below) (after : e.after = closer :: later) :
    (matchedCloser P e between opener below closer later).Spares i d := by
  have skipped := spares_skipCloser spares after
  have ofCloser : i ≠ closer.inlText := skipped.before closer List.mem_cons_self
  have under := spares.before
  have above := spares.after
  rw [before] at under
  rw [after] at above
  have ofOpener : ∀ m ∈ opener :: below, i ≠ m.inlText :=
    fun m member => under m (List.mem_append_right between member)
  have none : extensionForSpecialChar P closer.delimChar = none := by
    simp [extensionForSpecialChar, Config.inlineSyntaxExtensions, bare]
  unfold matchedCloser
  rw [none]
  dsimp only
  split
  next => exact spares_insertEmph spares.leads spares.brackets spares.fresh ofOpener above
  next =>
    split
    next =>
      constructor
      case leads => exact (spares.leads.editData ofCloser).editData (ofOpener opener List.mem_cons_self)
      case before =>
        intro m member
        rcases List.mem_append.mp member with member | member
        · exact under m (List.mem_append_left _ member)
        · exact ofOpener m (.tail opener member)
      case after => exact skipped.after
      case brackets => exact spares.brackets
      case fresh => exact spares.fresh
    next => exact skipped

theorem spares_emphasisStep (limit : OpenersBottom → Delimiter → Nat) (stackBottom : Nat)
    (bottom : OpenersBottom) : (emphasisStep P limit stackBottom e bottom).1.Spares i d := by
  unfold emphasisStep
  split
  next => exact spares
  next closer later after =>
    split
    next =>
      split
      next between opener below found =>
        exact spares_matchedCloser bare spares (findOpener_spec found).1 after
      next => exact spares_unmatchedCloser spares after
    next => exact spares_skipCloser spares after

theorem spares_emphasisLoop (limit : OpenersBottom → Delimiter → Nat) (stackBottom fuel : Nat)
    (bottom : OpenersBottom) : (emphasisLoop P limit stackBottom fuel e bottom).1.Spares i d := by
  induction fuel generalizing e bottom with
  | zero => exact spares
  | succ fuel ih => exact ih (spares_emphasisStep bare spares limit stackBottom bottom) _

omit spares

theorem Spared.processEmphasis {subj : Subject} (spared : Spared i d subj) (stackBottom : Nat) :
    Spared i d (processEmphasis P subj stackBottom) := by
  have start : (emphasisStart subj stackBottom).Spares i d := by
    constructor
    case leads => exact spared.leads
    case before => exact fun m member => spared.delims m (List.dropWhile_subset _ member)
    case after =>
      intro m member
      exact spared.delims m (List.takeWhile_subset _ (List.mem_reverse.mp member))
    case brackets => exact spared.brackets
    case fresh => exact spared.fresh
  unfold CmarkGfm.processEmphasis processEmphasisWith
  extract_lets e
  have ends := spares_emphasisLoop bare start OpenersBottom.get stackBottom (emphasisFuel e)
    (.initial stackBottom)
  constructor
  case leads => exact ends.leads
  case delims =>
    intro m member
    rcases List.mem_append.mp (List.dropWhile_subset _ member) with member | member
    · exact ends.after m (List.mem_reverse.mp member)
    · exact ends.before m member
  case brackets => exact ends.brackets
  case fresh => exact ends.fresh

end

/-! ### Brackets -/

/-- The leaf comes first after a node that was made is appended. -/
def Spares (i : NodeId) (d : NodeData) (r : Subject × Option Node) : Prop :=
  Spared i d (r.2.elim r.1 r.1.appendChild)

namespace Spared

variable {P : Config} {i : NodeId} {d : NodeData} {subj : Subject} (spared : Spared i d subj)

include spared

/-- Nodes may be added, and marks taken away. -/
theorem fewer {subj' : Subject} (leads : Leads i d subj'.children) (delims : subj'.delims ⊆ subj.delims)
    (brackets : subj'.brackets ⊆ subj.brackets) (nextId : subj.nextId ≤ subj'.nextId) : Spared i d subj' where
  leads := leads
  delims m member := spared.delims m (delims member)
  brackets b member := spared.brackets b (brackets member)
  fresh := spared.fresh.trans_le nextId

theorem appendChild (n : Node) : Spared i d (subj.appendChild n) := by
  obtain ⟨rest, children⟩ := spared.leads
  refine spared.fewer ⟨rest ++ [n], ?_⟩ (List.Subset.refl _) (List.Subset.refl _) le_rfl
  simp [Subject.appendChild, children]

theorem popBracket : Spared i d (popBracket subj) :=
  spared.fewer spared.leads (List.Subset.refl _) (List.tail_subset _) le_rfl

theorem lookAhead (pos : Nat) (refmap : Map Reference) (clones : List Clone) :
    Spared i d (subj.lookAhead pos refmap clones) :=
  spared.fewer spared.leads (List.Subset.refl _) (List.Subset.refl _) le_rfl

/-- A node that was made is appended. -/
theorem sameStacks {r : Subject × Node} (same : SameStacks subj r.1) (new : NewNode subj r) :
    Spared i d (r.1.appendChild r.2) := by
  have kept : Spared i d r.1 :=
    spared.fewer (same.children ▸ spared.leads) (same.delims ▸ List.Subset.refl _)
      (same.brackets ▸ List.Subset.refl _) new.grows
  exact kept.appendChild r.2

/-- A delimiter that is pushed points to a new node. -/
theorem produces {r : Subject × Node} (made : Produces subj r) : Spared i d (r.1.appendChild r.2) := by
  have new : i ≠ r.2.id := by
    have grown := (made.new.new r.2.id (mem_addresses_of_mem (List.mem_singleton_self r.2))).1
    exact (spared.fresh.trans_le grown).ne
  have kept : Spared i d r.1 := by
    constructor
    case leads => exact made.children ▸ spared.leads
    case delims =>
      intro m member
      rcases made.delims with same | ⟨pushed, same, points, _⟩
      · exact spared.delims m (same ▸ member)
      · rw [same] at member
        rcases List.mem_cons.mp member with rfl | member
        · exact points ▸ new
        · exact spared.delims m member
    case brackets => exact fun b member => spared.brackets b (made.brackets ▸ member)
    case fresh => exact spared.fresh.trans_le made.new.grows
  exact kept.appendChild r.2

theorem openBracket (type : BracketType) (s : Bytes) :
    Spared i d ((CmarkGfm.openBracket subj type s).1.appendChild (CmarkGfm.openBracket subj type s).2) := by
  apply appendChild
  constructor
  case leads => exact spared.leads
  case delims => exact spared.delims
  case brackets =>
    intro b member
    have points : b.inlText = subj.nextId ∨ ∃ b' ∈ subj.brackets, b.inlText = b'.inlText := by
      change b ∈ (pushBracket _ type _).brackets at member
      unfold pushBracket at member
      dsimp only at member
      rcases List.mem_cons.mp member with rfl | below
      · exact .inl rfl
      · have stack : (subj.advance s.length).brackets = subj.brackets := rfl
        rw [stack] at below
        cases found : subj.brackets with
        | nil => simp [found] at below
        | cons last rest =>
          rw [found] at below
          rcases List.mem_cons.mp below with rfl | later
          · exact .inr ⟨last, List.mem_cons_self, rfl⟩
          · exact .inr ⟨b, .tail last later, rfl⟩
    rcases points with new | ⟨b', member', same⟩
    · exact new ▸ spared.fresh.ne
    · exact same ▸ spared.brackets b' member'
  case fresh => exact spared.fresh.trans_le (Nat.le_succ _)

section

variable (bare : P.syntaxExtensions = []) {opener : Bracket} (top : opener ∈ subj.brackets.head?)

include bare top

theorem matchLink (url title : Bytes) : Spared i d (matchLink P subj opener url title) := by
  have other := spared.brackets opener (List.mem_of_mem_head? top)
  have spliced : Spared i d (linkSpliced P subj opener url title) :=
    spared.fewer (spared.leads.replaceOpener other) (List.Subset.refl _) (List.Subset.refl _)
      (Nat.le_succ _)
  have popped := (spliced.processEmphasis bare opener.position).popBracket
  rw [matchLink_eq]
  exact ⟨popped.leads, popped.delims, popped.brackets, popped.fresh⟩

theorem matchAttribute (attributes : Bytes) : Spared i d (matchAttribute P subj opener attributes) := by
  have other := spared.brackets opener (List.mem_of_mem_head? top)
  have spliced : Spared i d (attributeSpliced P subj opener attributes) :=
    spared.fewer (spared.leads.replaceOpener other) (List.Subset.refl _) (List.Subset.refl _)
      (Nat.le_succ _)
  rw [matchAttribute_eq]
  exact (spliced.processEmphasis bare opener.position).popBracket

theorem makeFootnoteReference (next : Node) :
    Spared i d (makeFootnoteReference P subj opener next) := by
  have other := spared.brackets opener (List.mem_of_mem_head? top)
  have spliced : Spared i d (footnoteSpliced P subj opener next) := by
    refine spared.fewer ?_ (List.Subset.refl _) (List.Subset.refl _) (Nat.le_succ _)
    apply spared.leads.editSiblings
    intro leads
    dsimp only
    rw [List.append_assoc]
    exact leads.siblingsBefore other _
  have matched := spliced.processEmphasis bare opener.position
  rw [makeFootnoteReference_eq]
  dsimp only
  refine matched.fewer ?_ (List.Subset.refl _) (List.tail_subset _) le_rfl
  apply matched.leads.editSiblings
  intro leads
  have before := leads.siblingsBefore other []
  rwa [List.append_nil] at before

end

/-! ### One inline after the other -/

theorem literalCloseBracket : Spares i d (literalCloseBracket subj) := by
  apply appendChild
  exact spared.fewer spared.leads (List.Subset.refl _) (List.Subset.refl _) (Nat.le_succ _)

section

variable (bare : P.syntaxExtensions = []) (inside : subj.pos < subj.input.length)

include bare inside

theorem handleCloseBracket : Spares i d (handleCloseBracket P subj) := by
  apply handleCloseBracket_cases P ?literal ?popped ?link ?footnote ?«attribute» inside
  case literal => exact fun _ => (spared.lookAhead _ subj.refmap subj.clones).literalCloseBracket
  case popped =>
    intro pos refmap clones _
    exact (spared.lookAhead pos refmap clones).popBracket.literalCloseBracket
  case link =>
    intro pos refmap clones opener url title _ top _
    exact (spared.lookAhead pos refmap clones).matchLink bare top url title
  case footnote =>
    intro refmap clones opener next top _ _
    exact (spared.lookAhead _ refmap clones).makeFootnoteReference bare top next
  case «attribute» =>
    intro pos refmap clones opener attributes _ top _
    exact (spared.lookAhead pos refmap clones).matchAttribute bare top attributes

theorem dispatchInline (chars : CharTables) : Spares i d (dispatchInline P chars subj subj.peekChar) := by
  by_cases closes : subj.peekChar = chr ']'
  · rw [closes]
    exact spared.handleCloseBracket bare inside
  · have new := makesNew_dispatchInline P chars subj closes
    refine dispatchInline_cases (motive := fun r => MakesNew subj r → Spares i d r) subj P chars
      subj.peekChar ?simple ?delim ?openBracket ?closeBracket ?nothing new
    case simple => exact fun r same new => spared.sameStacks same (new r.2 rfl)
    case delim =>
      exact fun _ _ => spared.produces (produces_handleDelim chars (P.options.has optSmart) inside)
    case openBracket => exact fun type s _ _ => spared.openBracket type s
    case closeBracket => exact fun isClose => absurd isClose closes
    case nothing => exact fun _ => spared

theorem nextInline (chars : CharTables) : Spares i d (nextInline P chars subj subj.peekChar) := by
  have dispatched := spared.dispatchInline bare inside chars
  have none : ∀ s, tryExtensions P.options subj.peekChar P.inlineSyntaxExtensions s = (s, none) := by
    simp [Config.inlineSyntaxExtensions, bare, tryExtensions]
  unfold CmarkGfm.nextInline
  extract_lets initpos
  generalize CmarkGfm.dispatchInline P chars subj subj.peekChar = r at dispatched ⊢
  obtain ⟨subj', newInl⟩ := r
  cases newInl with
  | some node => exact dispatched
  | none =>
    dsimp only
    split
    next =>
      rw [none]
      exact sameStacks dispatched (sameStacks_makeText subj' P chars) (.of_leaf (makes_makeText subj' P chars))
    next => exact dispatched

/-- `parse_inline` leaves the first node alone. -/
theorem parseInline {chars : CharTables} {subj' : Subject} (parsed : parseInline P chars subj = some subj') :
    Spared i d subj' := by
  have spares := spared.nextInline bare inside chars
  unfold CmarkGfm.parseInline at parsed
  dsimp only at parsed
  split at parsed
  next => cases parsed
  next => exact Option.some.inj parsed ▸ spares

omit inside

theorem parseInlinesLoop (chars : CharTables) (fuel : Nat) :
    Spared i d (parseInlinesLoop P chars fuel subj) := by
  induction fuel generalizing subj with
  | zero => exact spared
  | succ fuel ih =>
    rw [CmarkGfm.parseInlinesLoop]
    split
    next => exact spared
    next more =>
      split
      next => exact spared
      next subj' parsed =>
        have inside : subj.pos < subj.input.length := not_le.mp (by simpa [Subject.isEof] using more)
        exact ih (spared.parseInline bare inside parsed)

end

end Spared

/-- A first inline that no stack points to is still the first when all are read. -/
theorem leads_parseInlines {P : Config} (bare : P.syntaxExtensions = []) {chars : CharTables}
    {start subj : Subject} {i : NodeId} {d : NodeData} (inside : start.isEof = false)
    (parsed : parseInline P chars start = some subj) (spared : Spared i d subj) :
    Leads i d (parseInlines P chars start).children := by
  have more : start.input.length ≠ 0 := by
    have beyond : start.pos < start.input.length := by simpa [Subject.isEof] using inside
    omega
  have first : parseInlinesLoop P chars start.input.length start =
      parseInlinesLoop P chars (start.input.length - 1) subj := by
    rw [← Nat.succ_pred_eq_of_ne_zero more, parseInlinesLoop, inside, parsed]
    rfl
  unfold parseInlines
  dsimp only
  rw [first]
  exact ((spared.parseInlinesLoop bare chars _).processEmphasis bare 0).leads

end CmarkGfm
