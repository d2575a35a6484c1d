import CmarkGfm.Properties.BracketSteps

/-!
# Links in links

`no_link_openers` keeps a link from being closed around another one. It is one flag for all open
brackets: where a bracket is opened behind a link, those in front of the link may be closed again.
-/

namespace CmarkGfm

/-! ### Links in a tree -/

mutual

/-- Is there a link in the tree? -/
def Node.hasLink : Node → Bool
  | .mk _ d children => d.type == .link || hasLinkList children

def hasLinkList : Forest → Bool
  | [] => false
  | n :: ns => n.hasLink || hasLinkList ns

end

mutual

/-- Is there a link in a link? -/
def Node.nestsLink : Node → Bool
  | .mk _ d children => d.type == .link && hasLinkList children || nestsLinkList children

def nestsLinkList : Forest → Bool
  | [] => false
  | n :: ns => n.nestsLink || nestsLinkList ns

end

@[simp] theorem hasLinkList_append (f g : Forest) : hasLinkList (f ++ g) = (hasLinkList f || hasLinkList g) := by
  induction f with
  | nil => rfl
  | cons n f ih => rw [List.cons_append, hasLinkList, hasLinkList, ih, Bool.or_assoc]

@[simp] theorem nestsLinkList_append (f g : Forest) :
    nestsLinkList (f ++ g) = (nestsLinkList f || nestsLinkList g) := by
  induction f with
  | nil => rfl
  | cons n f ih => rw [List.cons_append, nestsLinkList, nestsLinkList, ih, Bool.or_assoc]

@[simp] theorem hasLinkList_cons (n : Node) (f : Forest) : hasLinkList (n :: f) = (n.hasLink || hasLinkList f) := rfl

@[simp] theorem nestsLinkList_cons (n : Node) (f : Forest) :
    nestsLinkList (n :: f) = (n.nestsLink || nestsLinkList f) := rfl

@[simp] theorem hasLinkList_nil : hasLinkList [] = false := rfl

@[simp] theorem nestsLinkList_nil : nestsLinkList [] = false := rfl

theorem Node.hasLink_of_other {i : NodeId} {d : NodeData} (other : d.type ≠ .link) (children : Forest) :
    (Node.mk i d children).hasLink = hasLinkList children := by
  rw [Node.hasLink, beq_eq_false_iff_ne.mpr other, Bool.false_or]

theorem Node.nestsLink_of_other {i : NodeId} {d : NodeData} (other : d.type ≠ .link) (children : Forest) :
    (Node.mk i d children).nestsLink = nestsLinkList children := by
  rw [Node.nestsLink, beq_eq_false_iff_ne.mpr other, Bool.false_and, Bool.false_or]

theorem Node.hasLink_leaf {n : Node} (other : n.type ≠ .link) (leaf : n.children = []) : n.hasLink = false := by
  obtain ⟨i, d, children⟩ := n
  obtain rfl : children = [] := leaf
  exact Node.hasLink_of_other other []

mutual

theorem Node.nestsLink_of_hasLink : (n : Node) → n.hasLink = false → n.nestsLink = false
  | .mk i d children, absent => by
    rw [Node.hasLink, Bool.or_eq_false_iff] at absent
    rw [Node.nestsLink, absent.1, absent.2, nestsLinkList_of_hasLinkList children absent.2]
    rfl

theorem nestsLinkList_of_hasLinkList : (f : Forest) → hasLinkList f = false → nestsLinkList f = false
  | [], _ => rfl
  | n :: f, absent => by
    rw [hasLinkList, Bool.or_eq_false_iff] at absent
    rw [nestsLinkList, Node.nestsLink_of_hasLink n absent.1, nestsLinkList_of_hasLinkList f absent.2]
    rfl

end

/-! ### Emphasis -/

section

variable {runs : List NodeId} {f f' : Forest}

theorem hasLinkList_shorten {n : Node} (k : Nat) (text : n.type = .text) (leaf : n.children = []) :
    hasLinkList (shorten k n) = false := by
  unfold shorten
  split
  next => rfl
  next =>
    obtain ⟨i, d, children⟩ := n
    obtain rfl : children = [] := leaf
    have type : (truncateLiteral ((Node.mk i d []).literal.length - k) d).type ≠ .link := by
      have same : (truncateLiteral ((Node.mk i d []).literal.length - k) d).type = d.type := rfl
      simp [same, show d.type = .text from text]
    rw [hasLinkList_cons, Node.setData, Node.data_mk, Node.hasLink_of_other type]
    rfl

/-- Links stay where they are when runs are matched. -/
theorem sameLinks_of_change (change : EmphasisChange runs f f') :
    hasLinkList f' = hasLinkList f ∧ nestsLinkList f' = nestsLinkList f := by
  have text {x : UInt8} {n : Node} (run : RunText runs x n) : n.hasLink = false ∧ n.nestsLink = false := by
    have none := Node.hasLink_leaf (by simp [run.text]) run.leaf
    exact ⟨none, Node.nestsLink_of_hasLink n none⟩
  cases change with
  | @wrap l m r o c i d k x opener closer uses plain enough =>
    have other : d.type ≠ .link := by
      rcases uses with ⟨_, type⟩ | ⟨_, type⟩ <;> simp [type]
    have left := hasLinkList_shorten k opener.text opener.leaf
    have right := hasLinkList_shorten k closer.text closer.leaf
    simp [text opener, text closer, left, right, nestsLinkList_of_hasLinkList _ left,
      nestsLinkList_of_hasLinkList _ right, Node.hasLink_of_other other, Node.nestsLink_of_other other]
  | @quote l r n s among isText quote =>
    obtain ⟨i, d, children⟩ := n
    have other : d.type ≠ .link := by simp [show d.type = .text from isText]
    have other' : (setLiteral s d).type ≠ .link := other
    simp [Node.setData, Node.hasLink_of_other other, Node.nestsLink_of_other other,
      Node.hasLink_of_other other', Node.nestsLink_of_other other']
  | @strikethrough l m r o c d x opener closer whole type plain =>
    have other : d.type ≠ .link := by simp [type, strikethroughType]
    simp [text opener, text closer, Node.hasLink_of_other other, Node.nestsLink_of_other other]

theorem sameLinks_of_changes (changes : Relation.ReflTransGen (EmphasisChange runs) f f') :
    hasLinkList f' = hasLinkList f ∧ nestsLinkList f' = nestsLinkList f := by
  induction changes with
  | refl => exact ⟨rfl, rfl⟩
  | tail _ change ih =>
    have same := sameLinks_of_change change
    exact ⟨same.1.trans ih.1, same.2.trans ih.2⟩

end

/-! ### New nodes -/

section

variable {subj : Subject}

/-- Of the nodes made outside of brackets only autolinks are links. -/
theorem MakesPlain.hasLink {r : Subject × Node} (plain : MakesPlain subj r) (other : r.2.type ≠ .link) :
    r.2.hasLink = false := by
  obtain ⟨after, i, d, children⟩ := r
  refine Node.hasLink_leaf other (plain.new.2.1.leaf ?_)
  have isPlain := plain.plain.1
  change d.type ≠ .link at other
  cases type : d.type <;> simp_all [NodeType.isPlainInline, NodeType.isLeafInline]

/-- No autolink begins at the current position. -/
def AutolinkFree (subj : Subject) : Prop := subj.peekChar = chr '<' → scansAutolink subj = false

instance : DecidablePred AutolinkFree := fun subj =>
  inferInstanceAs (Decidable (subj.peekChar = chr '<' → scansAutolink subj = false))

end

/-! ### The states of the parser -/

/-- Does an open link bracket stand in front of a link? -/
def linkBehindOpener (subj : Subject) : Bool :=
  subj.brackets.any fun b => b.type == .link && hasLinkList (siblingsAfter b.inlText subj.children)

/-- Does `parse_inline` push a bracket that resets `no_link_openers`? -/
def resetsLinkOpeners (subj : Subject) : Bool :=
  subj.peekChar == chr '[' || subj.peekChar == chr '^' && subj.peekCharN 1 == chr '['

/-- Such a bracket is pushed only where no open link bracket stands in front of a link. -/
def KeepsGuard (subj : Subject) : Prop := resetsLinkOpeners subj → linkBehindOpener subj = false

instance : DecidablePred KeepsGuard := fun subj =>
  inferInstanceAs (Decidable (resetsLinkOpeners subj = true → linkBehindOpener subj = false))

/-- No link is in a link, and the flag is set as long as a link could be closed around another one. -/
structure LinksApart (subj : Subject) : Prop where
  apart : nestsLinkList subj.children = false
  guarded : subj.noLinkOpeners = false → linkBehindOpener subj = false

theorem linkBehindOpener_eq_false {subj : Subject} : linkBehindOpener subj = false ↔
    ∀ b ∈ subj.brackets, b.type = .link → hasLinkList (siblingsAfter b.inlText subj.children) = false := by
  rw [linkBehindOpener, List.any_eq_false]
  refine forall₂_congr fun b member => ?_
  rw [Bool.not_eq_true, Bool.and_eq_false_imp, beq_iff_eq]

namespace LinksApart

variable {P : Config} {subj : Subject} {marks : List Mark} (layout : Layout P subj marks)
  (links : LinksApart subj)

include layout links

/-- A node without links becomes the last child, and may get a bracket. -/
theorem append {subj' : Subject} {n : Node} (children : subj'.children = subj.children ++ [n])
    (brackets : ∀ b ∈ subj'.brackets, b.inlText = n.id ∧ n.id ∉ subj.children.map Node.id ∨
      ∃ b' ∈ subj.brackets, b'.type = b.type ∧ b'.inlText = b.inlText)
    (guarded : subj'.noLinkOpeners = false → linkBehindOpener subj = false) (noLink : n.hasLink = false) :
    LinksApart subj' := by
  refine ⟨?_, fun off => linkBehindOpener_eq_false.mpr fun b member isLink => ?_⟩
  · rw [children, nestsLinkList_append, links.apart, nestsLinkList_cons, Node.nestsLink_of_hasLink n noLink]
    rfl
  · rw [children]
    obtain ⟨here, new⟩ | ⟨b', among, type, text⟩ := brackets b member
    · rw [here, siblingsAfter_split rfl new]
      rfl
    · have none := linkBehindOpener_eq_false.mp (guarded off) b' among (type.trans isLink)
      rw [← text, siblingsAfter_append (layout.mem_children among), hasLinkList_append, none, hasLinkList_cons, noLink]
      rfl

/-- A bracket that resets the flag is pushed behind no link. -/
theorem openBracket {type : BracketType} {s : Bytes} (opens : OpensBracket subj subj.peekChar type s)
    (keeps : KeepsGuard subj) :
    LinksApart ((openBracket subj type s).1.appendChild (CmarkGfm.openBracket subj type s).2) := by
  have new : subj.nextId ∉ subj.children.map Node.id := fun inside =>
    Nat.lt_irrefl _ (layout.fresh _ ((ids_sublist_addresses _).subset inside))
  refine links.append layout (n := (CmarkGfm.openBracket subj type s).2) rfl (fun b member => ?_) (fun off => ?_) rfl
  · obtain ⟨here, _⟩ | ⟨b', among, type, _, text⟩ := mem_openBracket member
    · exact .inl ⟨here, new⟩
    · exact .inr ⟨b', among, type, text⟩
  · change (if type = .image then subj.noLinkOpeners else false) = false at off
    cases opens with
    | link here => exact keeps (by simp [resetsLinkOpeners, here])
    | image => exact links.guarded off
    | «attribute» here next => exact keeps (by simp [resetsLinkOpeners, here, next])

/-- A link is closed where its bracket is active, so that no link is behind it. -/
theorem close {subj' : Subject} {opener : Bracket} {l r : Forest} {n : Node} {d : NodeData} {c : Forest}
    (closes : ClosesBracket P subj subj' opener l r n d c) : LinksApart subj' := by
  have before := links.apart
  rw [closes.before, nestsLinkList_append, nestsLinkList_cons, Bool.or_eq_false_iff, Bool.or_eq_false_iff] at before
  have noLinks : hasLinkList r = false → hasLinkList c = false := fun none => by
    rcases closes.content with rfl | ⟨runs, changes⟩
    · rfl
    · rw [(sameLinks_of_changes changes).1, none]
  have apart : nestsLinkList c = false := by
    rcases closes.content with rfl | ⟨runs, changes⟩
    · rfl
    · rw [(sameLinks_of_changes changes).2, before.2.2]
  refine ⟨?_, fun off => linkBehindOpener_eq_false.mpr fun b member isLink => ?_⟩
  · rw [closes.after, nestsLinkList_append, before.1, nestsLinkList_cons, nestsLinkList_nil, Bool.or_false, Bool.false_or]
    rcases closes.kind with ⟨type, isLink, active, _⟩ | ⟨kind, _⟩
    · have behind := linkBehindOpener_eq_false.mp (links.guarded active) opener (List.mem_of_mem_head? closes.top) isLink
      rw [← closes.opens, (layout.siblings_child closes.before).2] at behind
      rw [Node.nestsLink, noLinks behind, apart, Bool.and_false]
      rfl
    · have other : d.type ≠ .link := by rcases kind with type | type | type <;> simp [type]
      rw [Node.nestsLink_of_other other, apart]
  · -- after a link the flag is set
    obtain ⟨kind, same⟩ := closes.kind.resolve_left fun ⟨_, _, _, set⟩ => by
      rw [set] at off
      cases off
    have other : d.type ≠ .link := by rcases kind with type | type | type <;> simp [type]
    rw [closes.brackets] at member
    have none := linkBehindOpener_eq_false.mp (links.guarded (same ▸ off)) b (List.mem_of_mem_tail member) isLink
    rw [closes.before, siblingsAfter_append (closes.below b member), hasLinkList_append, hasLinkList_cons,
      Bool.or_eq_false_iff, Bool.or_eq_false_iff] at none
    rw [closes.after, siblingsAfter_append (closes.below b member), hasLinkList_append, none.1, hasLinkList_cons,
      Node.hasLink_of_other other, noLinks none.2.2]
    rfl

/-- A step of the parser keeps links apart. -/
theorem step {subj' : Subject} (step : InlineStep P subj subj') (keeps : KeepsGuard subj) (autolinks : AutolinkFree subj) :
    LinksApart subj' := by
  cases step with
  | @node r makes children brackets flag autolink =>
    have other : r.2.type ≠ .link := fun isLink => by
      have scanned := makes.link isLink
      rw [autolinks (autolink isLink)] at scanned
      cases scanned
    refine links.append layout (n := r.2) (congrArg (· ++ [r.2]) children) (fun b member => .inr ⟨b, ?_, rfl, rfl⟩)
      (fun off => links.guarded (flag ▸ off)) (makes.hasLink other)
    exact brackets.subset member
  | push opens => exact links.openBracket layout opens keeps
  | close _ closes => exact links.close layout closes

/-- `process_emphasis` at the end moves no link into another. -/
theorem processEmphasis (sound : ∀ e ∈ P.syntaxExtensions, e.Sound P) :
    nestsLinkList (processEmphasis P subj 0).children = false := by
  obtain ⟨f', children, changes, _⟩ := processEmphasisWith_spec (fun e member => (sound e member).turns)
    OpenersBottom.get (List.append_nil _).symm (fun _ member => absurd member List.not_mem_nil) layout.lastZone
  rw [show (CmarkGfm.processEmphasis P subj 0).children = f' from children, (sameLinks_of_changes changes).2]
  exact links.apart

end LinksApart

/-! ### All runs -/

section

variable {P : Config} (core : P.syntaxExtensions = []) {chars : CharTables}
  (notNul : chars.backslashIspunct.getD ispunct 0 = false)

include core notNul

/-- In a run that pushes no bracket behind a guarded link, links stay apart. -/
theorem linksApart_parseInlinesLoop {fuel : Nat} {subj : Subject} {marks : List Mark} (layout : Layout P subj marks)
    (links : LinksApart subj) (keeps : ∀ s ∈ inlineStates P chars fuel subj, KeepsGuard s)
    (autolinks : ∀ s ∈ inlineStates P chars fuel subj, AutolinkFree s) :
    (∀ s ∈ inlineStates P chars fuel subj, nestsLinkList s.children = false) ∧
      LinksApart (parseInlinesLoop P chars fuel subj) ∧ ∃ marks', Layout P (parseInlinesLoop P chars fuel subj) marks' := by
  have sound := sound_of_core core
  induction fuel generalizing subj marks with
  | zero => exact ⟨List.forall_mem_nil _, links, marks, layout⟩
  | succ fuel ih =>
    unfold parseInlinesLoop
    unfold inlineStates at keeps autolinks ⊢
    split
    next => exact ⟨List.forall_mem_nil _, links, marks, layout⟩
    next more =>
      rw [if_neg more, List.forall_mem_cons] at keeps autolinks
      rw [List.forall_mem_cons]
      have inside : subj.pos < subj.input.length := not_le.mp (by simpa [Subject.isEof] using more)
      cases parsed : parseInline P chars subj with
      | none => exact ⟨⟨links.apart, List.forall_mem_nil _⟩, links, marks, layout⟩
      | some subj' =>
        rw [parsed] at keeps autolinks
        obtain ⟨marks', layout'⟩ := layout.parseInline sound inside notNul parsed
        have step := inlineStep_parseInline core layout inside notNul parsed
        obtain ⟨states, after⟩ := ih layout' (links.step layout step keeps.1 autolinks.1) keeps.2 autolinks.2
        exact ⟨⟨links.apart, states⟩, after⟩

end

/-- Links do not contain links in any run without autolinks in which a bracket that resets the flag is
pushed only where no open link bracket stands in front of a link. -/
theorem nestsLinkList_parseInlines (P : Config) (core : P.syntaxExtensions = []) (refmap : Map Reference)
    (nextId : NodeId) (parent : NodeData) (block : parent.type = .paragraph ∨ parent.type = .heading) :
    let start := inlineSubject P parent [] refmap nextId
    let states := inlineStates P defaultCharTables start.input.length start
    (∀ subj ∈ states, AutolinkFree subj) → (∀ subj ∈ states, KeepsGuard subj) →
      (∀ subj ∈ states, nestsLinkList subj.children = false) ∧
        nestsLinkList (parseInlines P defaultCharTables start).children = false := by
  intro start states autolinks keeps
  have layout : Layout P start [] := Layout.start _ refmap nextId (accepts_block block (extensionOf_core core parent))
  have links : LinksApart start := ⟨rfl, fun _ => rfl⟩
  obtain ⟨apart, links', marks, layout'⟩ := linksApart_parseInlinesLoop core rfl layout links keeps autolinks
  have last := links'.processEmphasis layout' (sound_of_core core)
  exact ⟨apart, last⟩

/-- In `[a [b](c) d](e)` the inner link stays alone. -/
theorem nestsLinkList_parseInlines_inner :
    let P := Config.mk asciiTables 0 []
    let start := inlineSubject P { type := .paragraph, content := lit "[a [b](c) d](e)" } [] .new 0
    nestsLinkList (parseInlines P defaultCharTables start).children = false :=
  (nestsLinkList_parseInlines (Config.mk asciiTables 0 []) rfl .new 0
    { type := .paragraph, content := lit "[a [b](c) d](e)" } (.inl rfl) (by decide +kernel) (by decide +kernel)).2

/-- In `[a [b](c) [d] e](f)` the bracket in front of `d` resets the flag. -/
theorem nestsLinkList_reset :
    let P := Config.mk asciiTables 0 []
    let start := inlineSubject P { type := .paragraph, content := lit "[a [b](c) [d] e](f)" } [] .new 0
    (∀ subj ∈ inlineStates P defaultCharTables start.input.length start, AutolinkFree subj) ∧
      nestsLinkList (parseInlines P defaultCharTables start).children = true := by
  decide +kernel

end CmarkGfm
