import CmarkGfm.Extensions.Strikethrough
import CmarkGfm.Properties.InlineFrames
import CmarkGfm.Properties.Siblings
import Mathlib.Algebra.Order.BigOperators.Group.List
import Mathlib.Algebra.Order.Group.Nat

/-!
# What a turn of process_emphasis does

The delimiters at or above the bottom of the stack have their text nodes in one list of siblings,
in the order of the stack. A turn of the loop of `process_emphasis` passes a closer or wraps the
siblings between an opener and a closer; it shortens these two by the characters it uses, and drops
the delimiters between them.
-/

namespace CmarkGfm

/-- The text node of a delimiter on the stack: some characters of its run are left. -/
structure DelimiterText (d : Delimiter) (n : Node) : Prop where
  text : n.type = .text
  leaf : n.children = []
  remains : n.literal ≠ []
  short : n.literal.length ≤ d.length
  run : isQuote d.delimChar = false → n.literal = List.replicate n.literal.length d.delimChar
  quote : isQuote d.delimChar = true → d.length = 3

/-! ### What becomes of the siblings -/

/-- The text node of a run without the last `k` characters, which is freed when none is left. -/
def shorten (k : Nat) (n : Node) : Forest :=
  if n.literal.length - k = 0 then []
  else [n.setData (truncateLiteral (n.literal.length - k) n.data)]

/-- Runs of which nothing is left are freed. -/
theorem freeUsed_fill {z : Zone} {l r : Forest} {o e c : Node} {i j : NodeId} (kept kept' : Nat)
    (distinct : (addresses (z.fill (l ++ o :: e :: c :: r))).Nodup) (here : o.id = i)
    (there : c.id = j) :
    (if kept' = 0 then
        freeNode j (if kept = 0 then freeNode i (z.fill (l ++ o :: e :: c :: r))
          else z.fill (l ++ o :: e :: c :: r))
      else if kept = 0 then freeNode i (z.fill (l ++ o :: e :: c :: r))
        else z.fill (l ++ o :: e :: c :: r)) =
      z.fill (l ++ ((if kept = 0 then [] else [o]) ++ e :: ((if kept' = 0 then [] else [c]) ++ r))) := by
  have freed : ∀ l' : Forest, (addresses (z.fill (l' ++ e :: c :: r))).Nodup →
      freeNode j (z.fill (l' ++ e :: c :: r)) = z.fill (l' ++ e :: r) := by
    intro l' distinct
    have regroup : ∀ r' : Forest, l' ++ e :: r' = (l' ++ [e]) ++ r' := by simp
    rw [regroup] at distinct ⊢
    rw [freeNode_fill distinct there, ← regroup]
  rw [freeNode_fill distinct here]
  have regroup : ∀ r' : Forest, l ++ o :: r' = (l ++ [o]) ++ r' := by simp
  by_cases opener : kept = 0
  · by_cases closer : kept' = 0
    · simp only [opener, closer, if_true, List.nil_append]
      exact freed l (nodup_remove distinct)
    · simp [opener, closer]
  · by_cases closer : kept' = 0
    · simp only [opener, closer, if_true, if_false, List.nil_append, List.singleton_append]
      rw [regroup] at distinct ⊢
      rw [freed _ distinct, ← regroup]
    · simp [opener, closer]

/-- `S_insert_emph` on siblings: those between the runs of the opener and the closer go below the
new node, and both runs lose the characters used. -/
theorem insertEmph_fill {P : Config} {subj : Subject} {z : Zone} {l m r : Forest} {o c : Node}
    (below : List Delimiter) {opener closer : Delimiter} (later : List Delimiter)
    (children : subj.children = z.fill (l ++ o :: (m ++ c :: r)))
    (distinct : (addresses (z.fill (l ++ o :: (m ++ c :: r)))).Nodup)
    (new : subj.nextId ∉ addresses (z.fill (l ++ o :: (m ++ c :: r))))
    (atOpener : o.id = opener.inlText) (atCloser : c.id = closer.inlText)
    (accepts : ∀ t : NodeType, t.isInline → P.nodeCanContainType (z.owner subj.parent) t) :
    let k := if c.literal.length ≥ 2 && o.literal.length ≥ 2 then 2 else 1
    ∃ d : NodeData, d.type = (if k = 1 then .emph else .strong) ∧ d.as = .empty ∧
      insertEmph P subj below opener closer later =
        { subj := { subj with
            children := z.fill (l ++ (shorten k o ++ .mk subj.nextId d m :: (shorten k c ++ r)))
            nextId := subj.nextId + 1 }
          before := if o.literal.length - k = 0 then below else opener :: below
          after := if c.literal.length - k = 0 then later else closer :: later } := by
  have openerData : dataOf opener.inlText subj.children = o.data := by
    rw [children]
    exact Zone.dataOf_fill distinct (by simp) atOpener
  have closerData : dataOf closer.inlText subj.children = c.data := by
    rw [children]
    exact Zone.dataOf_fill distinct (by simp) atCloser
  intro k
  have used : (if (dataOf closer.inlText subj.children).as.getLiteral.length ≥ 2 &&
      (dataOf opener.inlText subj.children).as.getLiteral.length ≥ 2 then 2 else 1) = k := by
    rw [openerData, closerData]
    rfl
  unfold insertEmph
  dsimp only
  rw [used, openerData, closerData, children, editData_fill _ distinct atOpener]
  have regroup : ∀ (n n' : Node), l ++ n :: (m ++ n' :: r) = (l ++ n :: m) ++ n' :: r := by simp
  -- the run of the closer is shortened
  have distinct' := nodup_setData (truncateLiteral (o.data.as.getLiteral.length - k) o.data) distinct
  rw [regroup] at distinct' ⊢
  rw [editData_fill _ distinct' atCloser]
  have distinct'' := nodup_setData (truncateLiteral (c.data.as.getLiteral.length - k) c.data) distinct'
  rw [← regroup] at distinct'' ⊢
  -- the siblings between the two are wrapped
  have openerHere : (o.setData (truncateLiteral (o.data.as.getLiteral.length - k) o.data)).id =
      opener.inlText := by
    rw [Node.id_setData, atOpener]
  have closerHere : (c.setData (truncateLiteral (c.data.as.getLiteral.length - k) c.data)).id =
      closer.inlText := by
    rw [Node.id_setData, atCloser]
  rw [wrapBetween_fill _ distinct'' openerHere closerHere]
  have accepted : canInsertBeside P subj.parent opener.inlText (if k = 1 then .emph else .strong)
      (z.fill (l ++ o.setData (truncateLiteral (o.data.as.getLiteral.length - k) o.data) ::
        (m ++ c.setData (truncateLiteral (c.data.as.getLiteral.length - k) c.data) :: r))) = true := by
    refine canInsertBeside_fill distinct'' (mem_ids_split openerHere) (accepts _ ?_)
    split <;> rfl
  refine ⟨{ type := if k = 1 then .emph else .strong
            startLine := o.data.startLine
            endLine := c.data.endLine
            startColumn := o.data.startColumn
            endColumn := c.data.endColumn }, rfl, rfl, ?_⟩
  dsimp only [Subject.alloc, Node.leaf, Node.type, Node.data_mk, Node.id_mk] at accepted ⊢
  simp only [accepted, if_true, List.singleton_append]
  congr 2
  -- runs that are used up are freed
  have distinct''' : (addresses (z.fill (l ++ o.setData (truncateLiteral (o.literal.length - k) o.data) ::
      .mk subj.nextId { type := if k = 1 then .emph else .strong
                        startLine := o.data.startLine
                        endLine := c.data.endLine
                        startColumn := o.data.startColumn
                        endColumn := c.data.endColumn } m ::
      c.setData (truncateLiteral (c.literal.length - k) c.data) :: r))).Nodup := by
    have single : ∀ (n : Node) (r' : Forest), l ++ n :: r' = (l ++ [n]) ++ r' := by simp
    rw [Zone.mem_addresses_fill, ← addresses_setData (r := m ++ c :: r)
      (truncateLiteral (o.literal.length - k) o.data), regroup,
      ← addresses_setData (truncateLiteral (c.literal.length - k) c.data), ← regroup,
      ← Zone.mem_addresses_fill] at new
    rw [single] at distinct'' new ⊢
    exact nodup_wrap _ distinct'' new
  rw [shorten, shorten]
  exact freeUsed_fill _ _ distinct''' openerHere closerHere

/-! ### The state of the loop -/

/-- The delimiters of the loop in the order of the text. -/
def Emphasis.stack (e : Emphasis) (upper : List Delimiter) : List Delimiter :=
  upper.reverse ++ e.after

/-- `process_emphasis` works on the siblings `f`: the delimiters from the bottom of the stack on,
`upper` and those to come, have their text nodes there, in order. -/
structure EmphasisZone (P : Config) (z : Zone) (stackBottom : Nat) (below : List Delimiter)
    (e : Emphasis) (upper : List Delimiter) (f : Forest) : Prop where
  children : e.subj.children = z.fill f
  before : e.before = upper ++ below
  distinct : (addresses (z.fill f)).Nodup
  fresh : ∀ i ∈ addresses (z.fill f), i < e.subj.nextId
  accepts : ∀ t : NodeType, t.isInline → P.nodeCanContainType (z.owner e.subj.parent) t
  inline : ∀ n ∈ f, n.type.isInline = true
  order : ((e.stack upper).map Delimiter.inlText).Sublist (f.map Node.id)
  texts : ∀ d ∈ e.stack upper, ∀ n ∈ f, n.id = d.inlText → DelimiterText d n
  above : ∀ d ∈ e.stack upper, stackBottom ≤ d.position

/-- The text node of a run of one character. -/
structure RunText (runs : List NodeId) (x : UInt8) (n : Node) : Prop where
  among : n.id ∈ runs
  text : n.type = .text
  leaf : n.children = []
  run : n.literal = List.replicate n.literal.length x

/-- A turn of the loop changes the siblings in one of these ways, where the runs are text nodes of
delimiters. -/
inductive EmphasisChange (runs : List NodeId) : Forest → Forest → Prop where
  | wrap {l m r : Forest} {o c : Node} {i : NodeId} {d : NodeData} {k : Nat} {x : UInt8}
      (opener : RunText runs x o) (closer : RunText runs x c)
      (uses : k = 1 ∧ d.type = .emph ∨ k = 2 ∧ d.type = .strong) (plain : d.as = .empty)
      (enough : k ≤ o.literal.length ∧ k ≤ c.literal.length) :
      EmphasisChange runs (l ++ o :: (m ++ c :: r))
        (l ++ (shorten k o ++ .mk i d m :: (shorten k c ++ r)))
  | quote {l r : Forest} {n : Node} {s : Bytes} (among : n.id ∈ runs) (text : n.type = .text)
      (quote : s = leftSingleQuote ∨ s = rightSingleQuote ∨ s = leftDoubleQuote ∨
        s = rightDoubleQuote) :
      EmphasisChange runs (l ++ n :: r) (l ++ n.setData (setLiteral s n.data) :: r)
  | strikethrough {l m r : Forest} {o c : Node} {d : NodeData} {x : UInt8}
      (opener : RunText runs x o) (closer : RunText runs x c)
      (whole : o.literal.length = c.literal.length) (type : d.type = strikethroughType)
      (plain : d.as = .empty) :
      EmphasisChange runs (l ++ o :: (m ++ c :: r)) (l ++ .mk o.id d m :: r)

mutual

/-- The text of a node and of those below it, in document order, without that of the runs. -/
def otherText (runs : List NodeId) : Node → Bytes
  | .mk i d children => (if i ∈ runs then [] else d.as.getLiteral) ++ otherTextList runs children

def otherTextList (runs : List NodeId) : Forest → Bytes
  | [] => []
  | n :: f => otherText runs n ++ otherTextList runs f

end

/-- Characters of the delimiters that have not been passed. -/
def emphasisLeft (e : Emphasis) : Nat :=
  (e.after.map fun d => (literalOf d.inlText e.subj.children).length + 1).sum

/-! ### The text between the runs -/

section

variable {runs runs' : List NodeId} {f f' : Forest} {n : Node} {x : UInt8}

theorem otherTextList_append (l r : Forest) :
    otherTextList runs (l ++ r) = otherTextList runs l ++ otherTextList runs r := by
  induction l with
  | nil => rfl
  | cons n l ih => rw [List.cons_append, otherTextList, otherTextList, ih, List.append_assoc]

theorem otherText_setData (among : n.id ∈ runs) (d : NodeData) :
    otherText runs (n.setData d) = otherText runs n := by
  obtain ⟨i, d', children⟩ := n
  have inside : i ∈ runs := among
  simp [Node.setData, otherText, inside]

theorem RunText.otherText_eq (run : RunText runs x n) : otherText runs n = [] := by
  obtain ⟨i, d, children⟩ := n
  obtain rfl : children = [] := run.leaf
  have inside : i ∈ runs := run.among
  simp [otherText, otherTextList, inside]

theorem RunText.otherTextList_shorten (run : RunText runs x n) (k : Nat) :
    otherTextList runs (shorten k n) = [] := by
  unfold shorten
  split
  next => rfl
  next => rw [otherTextList, otherTextList, otherText_setData run.among, run.otherText_eq, List.append_nil]

/-- A turn changes no text but that of the runs. -/
theorem EmphasisChange.otherText_eq (change : EmphasisChange runs f f') :
    otherTextList runs f' = otherTextList runs f := by
  cases change with
  | wrap opener closer _ plain =>
    simp [otherTextList_append, otherTextList, otherText, opener.otherText_eq, closer.otherText_eq,
      opener.otherTextList_shorten, closer.otherTextList_shorten, plain, NodeAs.getLiteral]
  | quote among => simp [otherTextList_append, otherTextList, otherText_setData among]
  | strikethrough opener closer _ _ plain =>
    have inside := opener.among
    simp [otherTextList_append, otherTextList, otherText, opener.otherText_eq, closer.otherText_eq,
      inside]

theorem otherText_eq_of_changes (changes : Relation.ReflTransGen (EmphasisChange runs) f f') :
    otherTextList runs f' = otherTextList runs f := by
  induction changes with
  | refl => rfl
  | tail _ change ih => rw [change.otherText_eq, ih]

theorem RunText.mono (more : runs ⊆ runs') (run : RunText runs x n) : RunText runs' x n :=
  { run with among := more run.among }

theorem EmphasisChange.mono (more : runs ⊆ runs') (change : EmphasisChange runs f f') :
    EmphasisChange runs' f f' := by
  cases change with
  | wrap opener closer uses plain enough =>
    exact .wrap (opener.mono more) (closer.mono more) uses plain enough
  | quote among text quote => exact .quote (more among) text quote
  | strikethrough opener closer whole type plain =>
    exact .strikethrough (opener.mono more) (closer.mono more) whole type plain

end

/-! ### Siblings of a stack -/

/-- The text node of a delimiter in the middle of the stack is in the middle of the siblings. -/
theorem exists_split_of_sublist {as cs : List NodeId} {a : NodeId} {f : Forest}
    (order : (as ++ a :: cs).Sublist (f.map Node.id)) :
    ∃ l n r, f = l ++ n :: r ∧ n.id = a ∧ as.Sublist (l.map Node.id) ∧ cs.Sublist (r.map Node.id) := by
  induction f generalizing as with
  | nil => cases as <;> cases order
  | cons n f ih =>
    rw [List.map_cons] at order
    cases as with
    | nil =>
      rw [List.nil_append] at order
      cases order with
      | cons _ later =>
        obtain ⟨l, m, r, rfl, here, left, right⟩ := @ih [] later
        exact ⟨n :: l, m, r, rfl, here, List.nil_sublist _, right⟩
      | cons_cons _ later => exact ⟨[], n, f, rfl, rfl, .slnil, later⟩
    | cons b as =>
      rw [List.cons_append] at order
      cases order with
      | cons _ later =>
        obtain ⟨l, m, r, rfl, here, left, right⟩ := @ih (b :: as) later
        exact ⟨n :: l, m, r, rfl, here, left.cons n.id, right⟩
      | cons_cons _ later =>
        obtain ⟨l, m, r, rfl, here, left, right⟩ := ih later
        exact ⟨n :: l, m, r, rfl, here, left.cons_cons n.id, right⟩

/-- The delimiters found while looking for an opener are above the bottom of the stack. -/
theorem findOpener_spec {stackBottom openersBottom : Nat} {closer opener : Delimiter}
    {before between below : List Delimiter}
    (found : findOpener stackBottom openersBottom closer before = some (between, opener, below)) :
    before = between ++ opener :: below ∧ delimitersMatch opener closer = true ∧
      (∀ d ∈ between, stackBottom ≤ d.position) ∧ stackBottom ≤ opener.position := by
  induction before generalizing between with
  | nil => cases found
  | cons d before ih =>
    rw [findOpener] at found
    split at found
    next reached =>
      simp only [Bool.and_eq_true, decide_eq_true_eq] at reached
      split at found
      next matched =>
        cases found
        exact ⟨rfl, matched, nofun, reached.1⟩
      next =>
        obtain ⟨⟨between', opener', below'⟩, inner, same⟩ := Option.map_eq_some_iff.mp found
        cases same
        obtain ⟨split, matched, above, bound⟩ := ih inner
        refine ⟨by rw [split]; rfl, matched, fun d' member => ?_, bound⟩
        rcases List.mem_cons.mp member with rfl | later
        · exact reached.1
        · exact above d' later
    next => cases found

/-- What is above the bottom of the stack is not below it. -/
theorem append_split {α : Type} {p : α → Prop} {upper below before rest : List α} {a : α}
    (same : upper ++ below = before ++ a :: rest) (low : ∀ d ∈ below, ¬ p d) (high : ∀ d ∈ before, p d)
    (here : p a) : ∃ upper', upper = before ++ a :: upper' ∧ rest = upper' ++ below := by
  induction before generalizing upper with
  | nil =>
    cases upper with
    | nil =>
      rw [List.nil_append, List.nil_append] at same
      exact absurd here (low a (same ▸ List.mem_cons_self))
    | cons b upper =>
      obtain ⟨rfl, rfl⟩ := List.cons.inj same
      exact ⟨upper, rfl, rfl⟩
  | cons c before ih =>
    cases upper with
    | nil =>
      rw [List.nil_append, List.cons_append] at same
      exact absurd (high c List.mem_cons_self) (low c (same ▸ List.mem_cons_self))
    | cons b upper =>
      obtain ⟨rfl, tail⟩ := List.cons.inj same
      obtain ⟨upper', rfl, rest⟩ := ih tail fun d member => high d (List.mem_cons_of_mem _ member)
      exact ⟨upper', rfl, rest⟩

namespace DelimiterText

variable {d : Delimiter} {n : Node}

/-- Part of a run is still text of its delimiter. -/
theorem truncate (text : DelimiterText d n) {k : Nat} (some : n.literal.length - k ≠ 0) :
    DelimiterText d (n.setData (truncateLiteral (n.literal.length - k) n.data)) := by
  have literal : (n.setData (truncateLiteral (n.literal.length - k) n.data)).literal =
      n.literal.take (n.literal.length - k) := by
    rw [Node.literal, Node.data_setData]
    rfl
  refine ⟨?_, ?_, ?_, ?_, fun notQuote => ?_, text.quote⟩
  · rw [Node.type, Node.data_setData]
    exact text.text
  · rw [Node.children_setData]
    exact text.leaf
  · rw [literal, ← List.length_pos_iff, List.length_take]
    omega
  · rw [literal, List.length_take]
    exact (Nat.min_le_right _ _).trans text.short
  · rw [literal]
    conv_lhs => rw [text.run notQuote]
    rw [List.take_replicate, List.length_take, List.length_replicate]

theorem setLiteral {s : Bytes} (text : DelimiterText d n) (quote : isQuote d.delimChar = true)
    (length : s.length = 3) : DelimiterText d (n.setData (setLiteral s n.data)) := by
  have literal : (n.setData (CmarkGfm.setLiteral s n.data)).literal = s := by
    rw [Node.literal, Node.data_setData]
    rfl
  refine ⟨?_, ?_, ?_, ?_, fun notQuote => ?_, text.quote⟩
  · rw [Node.type, Node.data_setData]
    exact text.text
  · rw [Node.children_setData]
    exact text.leaf
  · rw [literal, ← List.length_pos_iff, length]
    exact Nat.zero_lt_succ 2
  · rw [literal, length, text.quote quote]
  · rw [quote] at notQuote
    cases notQuote

end DelimiterText

/-! ### Passing a closer -/

theorem DelimiterText.runText {d : Delimiter} {n : Node} {runs : List NodeId} {x : UInt8}
    (text : DelimiterText d n) (among : d.inlText ∈ runs) (here : n.id = d.inlText)
    (notQuote : isQuote d.delimChar = false) (same : d.delimChar = x) : RunText runs x n :=
  ⟨here ▸ among, text.text, text.leaf, same ▸ text.run notQuote⟩

section

variable {P : Config} {z : Zone} {stackBottom : Nat} {below : List Delimiter} {e : Emphasis}
  {upper later : List Delimiter} {f : Forest} {closer : Delimiter}

/-- What is left of the text nodes of delimiters that stay. -/
theorem left_eq {f' : Forest} {ds : List Delimiter} (distinct : (addresses (z.fill f)).Nodup)
    (distinct' : (addresses (z.fill f')).Nodup)
    (kept : ∀ d ∈ ds, ∃ n ∈ f, n ∈ f' ∧ n.id = d.inlText) :
    (ds.map fun d => (literalOf d.inlText (z.fill f')).length + 1).sum =
      (ds.map fun d => (literalOf d.inlText (z.fill f)).length + 1).sum := by
  refine congrArg List.sum (List.map_congr_left fun d member => ?_)
  obtain ⟨n, before, after, here⟩ := kept d member
  rw [literalOf, literalOf, Zone.dataOf_fill distinct before here,
    Zone.dataOf_fill distinct' after here]

/-- No two delimiters have the same text node. -/
theorem EmphasisZone.inlText_inj (zone : EmphasisZone P z stackBottom below e upper f)
    {d d' : Delimiter} (member : d ∈ e.stack upper) (member' : d' ∈ e.stack upper)
    (same : d.inlText = d'.inlText) : d = d' := by
  have ids := (ids_sublist_addresses f).nodup (z.nodup_fill.mp zone.distinct).2.1
  exact List.inj_on_of_nodup_map (zone.order.nodup ids) member member' same

/-- Delimiters may be removed from the stack. -/
theorem EmphasisZone.drop {e' : Emphasis} {upper' : List Delimiter}
    (zone : EmphasisZone P z stackBottom below e upper f) (same : e'.subj = e.subj)
    (before : e'.before = upper' ++ below) (fewer : (e'.stack upper').Sublist (e.stack upper)) :
    EmphasisZone P z stackBottom below e' upper' f where
  children := same ▸ zone.children
  before := before
  distinct := zone.distinct
  fresh := same ▸ zone.fresh
  accepts := same ▸ zone.accepts
  inline := zone.inline
  order := (fewer.map _).trans zone.order
  texts d member := zone.texts d (fewer.subset member)
  above d member := zone.above d (fewer.subset member)

theorem stack_skipCloser (next : e.after = closer :: later) :
    (e.skipCloser closer later).stack (closer :: upper) = e.stack upper := by
  rw [Emphasis.stack, Emphasis.stack, next, List.reverse_cons, List.append_assoc,
    List.singleton_append]
  rfl

/-- A turn that leaves the siblings alone and passes the closer. -/
theorem EmphasisZone.skip (zone : EmphasisZone P z stackBottom below e upper f)
    (next : e.after = closer :: later) :
    EmphasisZone P z stackBottom below (e.skipCloser closer later) (closer :: upper) f := by
  refine zone.drop rfl (congrArg (closer :: ·) zone.before) ?_
  rw [stack_skipCloser next]

/-! ### Quotes -/

/-- The quotes of a delimiter are written anew. -/
theorem EmphasisZone.setText {d : Delimiter} {s : Bytes}
    (zone : EmphasisZone P z stackBottom below e upper f) (member : d ∈ e.stack upper)
    (quote : isQuote d.delimChar = true)
    (isText : s = leftSingleQuote ∨ s = rightSingleQuote ∨ s = leftDoubleQuote ∨
      s = rightDoubleQuote) :
    ∃ f', EmphasisZone P z stackBottom below { e with subj := e.subj.setText d.inlText s } upper f' ∧
      EmphasisChange ((e.stack upper).map Delimiter.inlText) f f' ∧
      ∀ n ∈ f, n.id ≠ d.inlText → n ∈ f' := by
  have here : d.inlText ∈ f.map Node.id := zone.order.subset (List.mem_map_of_mem member)
  obtain ⟨l, n, r, rfl, same⟩ := exists_split here
  refine ⟨l ++ n.setData (CmarkGfm.setLiteral s n.data) :: r, ?_, ?_, ?_⟩
  · have length : s.length = 3 := by rcases isText with rfl | rfl | rfl | rfl <;> rfl
    have distinct := nodup_setData (CmarkGfm.setLiteral s n.data) zone.distinct
    have ids : (l ++ n.setData (CmarkGfm.setLiteral s n.data) :: r).map Node.id =
        (l ++ n :: r).map Node.id := by simp
    refine ⟨?_, zone.before, distinct, fun i inside => zone.fresh i ?_, zone.accepts,
      fun m among => ?_, ids ▸ zone.order, fun d' member' m among at' => ?_, zone.above⟩
    · show editData d.inlText (CmarkGfm.setLiteral s) e.subj.children = _
      rw [zone.children, editData_fill _ zone.distinct same]
    · rw [Zone.mem_addresses_fill] at inside ⊢
      rwa [addresses_setData] at inside
    · rw [List.mem_append, List.mem_cons] at among
      rcases among with left | rfl | right
      · exact zone.inline m (List.mem_append_left _ left)
      · rw [Node.type, Node.data_setData]
        exact zone.inline n (by simp)
      · exact zone.inline m (List.mem_append_right _ (List.mem_cons_of_mem _ right))
    · have text := zone.texts d' member'
      rw [List.mem_append, List.mem_cons] at among
      rcases among with left | rfl | right
      · exact text m (List.mem_append_left _ left) at'
      · have at'' : n.id = d'.inlText := by rwa [Node.id_setData] at at'
        have isSame : d' = d := zone.inlText_inj member' member (at''.symm.trans same)
        exact (text n (by simp) at'').setLiteral (isSame ▸ quote) length
      · exact text m (List.mem_append_right _ (List.mem_cons_of_mem _ right)) at'
  · exact .quote (same ▸ List.mem_map_of_mem member) (zone.texts d member n (by simp) same).text isText
  · intro m among other
    rw [List.mem_append, List.mem_cons] at among ⊢
    rcases among with left | rfl | right
    · exact .inl left
    · exact absurd same other
    · exact .inr (.inr right)

/-! ### A turn of the loop -/

/-- What a turn comes to: the siblings were changed, and less is left to do. -/
def Turns (P : Config) (z : Zone) (stackBottom : Nat) (below : List Delimiter) (e : Emphasis)
    (upper : List Delimiter) (f : Forest) (e' : Emphasis) : Prop :=
  ∃ upper' f', EmphasisZone P z stackBottom below e' upper' f' ∧ e'.stack upper' ⊆ e.stack upper ∧
    Relation.ReflTransGen (EmphasisChange ((e.stack upper).map Delimiter.inlText)) f f' ∧
    emphasisLeft e' < emphasisLeft e

/-- The text nodes of the delimiters after the closer are not that of the closer. -/
theorem EmphasisZone.later_apart (zone : EmphasisZone P z stackBottom below e upper f)
    (next : e.after = closer :: later) : ∀ d ∈ later, d.inlText ≠ closer.inlText := by
  have ids := zone.order.nodup ((ids_sublist_addresses f).nodup (z.nodup_fill.mp zone.distinct).2.1)
  rw [Emphasis.stack, next, List.map_append, List.nodup_append, List.map_cons, List.nodup_cons] at ids
  intro d member same
  exact ids.2.1.1 (same ▸ List.mem_map_of_mem member)

/-- The text node of a delimiter. -/
theorem EmphasisZone.exists_text (zone : EmphasisZone P z stackBottom below e upper f)
    {d : Delimiter} (member : d ∈ e.stack upper) : ∃ n ∈ f, n.id = d.inlText :=
  List.mem_map.mp (zone.order.subset (List.mem_map_of_mem member))

theorem mem_stack_of_mem_after {d : Delimiter} (member : d ∈ e.after) : d ∈ e.stack upper :=
  List.mem_append_right _ member

/-- A turn is over when the closer is passed. -/
theorem EmphasisZone.turns {e' : Emphasis} {upper' : List Delimiter} {f' : Forest}
    (zone : EmphasisZone P z stackBottom below e upper f) (next : e.after = closer :: later)
    (zone' : EmphasisZone P z stackBottom below e' upper' f')
    (fewer : e'.stack upper' ⊆ e.stack upper)
    (changes : Relation.ReflTransGen (EmphasisChange ((e.stack upper).map Delimiter.inlText)) f f')
    (passed : e'.after = later) (kept : ∀ d ∈ later, ∀ n ∈ f, n.id = d.inlText → n ∈ f') :
    Turns P z stackBottom below e upper f e' := by
  refine ⟨upper', f', zone', fewer, changes, ?_⟩
  rw [emphasisLeft, emphasisLeft, zone.children, zone'.children, next, passed, List.map_cons,
    List.sum_cons, left_eq zone.distinct zone'.distinct]
  · omega
  · intro d member
    have inStack : d ∈ e.stack upper :=
      mem_stack_of_mem_after (next ▸ List.mem_cons_of_mem closer member)
    obtain ⟨n, among, here⟩ := zone.exists_text inStack
    exact ⟨n, among, kept d member n among here, here⟩

theorem turns_skip (zone : EmphasisZone P z stackBottom below e upper f)
    (next : e.after = closer :: later) :
    Turns P z stackBottom below e upper f (e.skipCloser closer later) :=
  zone.turns next (zone.skip next) (stack_skipCloser next ▸ List.Subset.refl _) .refl rfl fun _ _ _ among _ => among

theorem turns_unmatched (zone : EmphasisZone P z stackBottom below e upper f)
    (next : e.after = closer :: later) :
    Turns P z stackBottom below e upper f (unmatchedCloser P e closer later) := by
  have atCloser : closer ∈ e.stack upper :=
    mem_stack_of_mem_after (next ▸ List.mem_cons_self)
  -- the closer stays below the rest if it can open
  have fewer : ((if closer.canOpen then closer :: upper else upper).reverse ++ later).Sublist
      (e.stack upper) := by
    rw [Emphasis.stack, next]
    split
    next => rw [List.reverse_cons, List.append_assoc, List.singleton_append]
    next => exact .append_left (List.sublist_cons_self _ _) _
  have stays : ∀ subj g, EmphasisZone P z stackBottom below { e with subj := subj } upper g →
      EmphasisZone P z stackBottom below
        { subj := subj
          before := if closer.canOpen then closer :: e.before else e.before
          after := later } (if closer.canOpen then closer :: upper else upper) g := by
    intro subj g zone
    refine zone.drop rfl ?_ fewer
    dsimp only
    rw [zone.before]
    split <;> rfl
  unfold unmatchedCloser
  dsimp only
  split
  next quote =>
    simp only [Bool.and_eq_true] at quote
    obtain ⟨f', zone', change, kept⟩ := zone.setText (d := closer) (s :=
      if closer.delimChar == chr '\'' then rightSingleQuote else rightDoubleQuote) atCloser quote.2
      (by split <;> simp)
    refine zone.turns next (stays _ f' zone') fewer.subset (.single change) rfl fun d member n among here => ?_
    exact kept n among (here ▸ zone.later_apart next d member)
  next => exact zone.turns next (stays _ f zone) fewer.subset .refl rfl fun _ _ _ among _ => among

/-- A quote that is closed. -/
theorem turns_quotes {between upper' : List Delimiter} {opener : Delimiter}
    (zone : EmphasisZone P z stackBottom below e upper f) (next : e.after = closer :: later)
    (split : upper = between ++ opener :: upper') (same : opener.delimChar = closer.delimChar)
    (quote : isQuote closer.delimChar = true) :
    Turns P z stackBottom below e upper f
      { subj := (e.subj.closeQuote closer).openQuote opener closer
        before := between ++ (upper' ++ below)
        after := later } := by
  have stack : e.stack upper = upper'.reverse ++ opener :: (between.reverse ++ closer :: later) := by
    simp [Emphasis.stack, next, split]
  have atCloser : closer ∈ e.stack upper := by simp [stack]
  have atOpener : opener ∈ e.stack upper := by simp [stack]
  obtain ⟨f₁, zone₁, change₁, kept₁⟩ := zone.setText (d := closer) (s :=
    if closer.delimChar == chr '\'' then rightSingleQuote else rightDoubleQuote) atCloser quote
    (by split <;> simp)
  obtain ⟨f₂, zone₂, change₂, kept₂⟩ := zone₁.setText (d := opener) (s :=
    if closer.delimChar == chr '\'' then leftSingleQuote else leftDoubleQuote) atOpener
    (same ▸ quote) (by split <;> simp)
  have fewer : ((between ++ upper').reverse ++ later).Sublist (e.stack upper) := by
    rw [stack, List.reverse_append, List.append_assoc]
    exact .append_left ((List.Sublist.append_left (List.sublist_cons_self _ _) _).trans
      (List.sublist_cons_self _ _)) _
  have zone' := @EmphasisZone.drop _ _ _ _ _ _ _ ⟨(e.subj.closeQuote closer).openQuote opener closer,
    between ++ (upper' ++ below), later⟩ (between ++ upper') zone₂ rfl
    (List.append_assoc _ _ _).symm fewer
  · refine zone.turns next zone' fewer.subset (.tail (.single change₁) change₂) rfl fun d member n among here => ?_
    have apart : d.inlText ≠ opener.inlText := by
      intro equal
      have inStack : d ∈ e.stack upper := by simp [stack, member]
      have ids := zone.order.nodup
        ((ids_sublist_addresses f).nodup (z.nodup_fill.mp zone.distinct).2.1)
      rw [stack, List.map_append, List.nodup_append, List.map_cons, List.nodup_cons] at ids
      refine ids.2.1.1 (equal ▸ List.mem_map_of_mem ?_)
      simp [member]
    exact kept₂ n (kept₁ n among (here ▸ zone.later_apart next d member)) (here ▸ apart)

/-! ### Emphasis -/

/-- An opener and a closer with their text nodes among the siblings. -/
theorem EmphasisZone.exists_runs {between upper' : List Delimiter} {opener : Delimiter}
    (zone : EmphasisZone P z stackBottom below e upper f) (next : e.after = closer :: later)
    (split : upper = between ++ opener :: upper') :
    ∃ l o m c r, f = l ++ o :: (m ++ c :: r) ∧ DelimiterText opener o ∧ DelimiterText closer c ∧
      o.id = opener.inlText ∧ c.id = closer.inlText ∧
      (upper'.reverse.map Delimiter.inlText).Sublist (l.map Node.id) ∧
      (later.map Delimiter.inlText).Sublist (r.map Node.id) := by
  have stack : e.stack upper = upper'.reverse ++ opener :: (between.reverse ++ closer :: later) := by
    simp [Emphasis.stack, next, split]
  have order := zone.order
  rw [stack, List.map_append, List.map_cons] at order
  obtain ⟨l, o, rest, rfl, atOpener, left, order⟩ := exists_split_of_sublist order
  rw [List.map_append, List.map_cons] at order
  obtain ⟨m, c, r, rfl, atCloser, _, right⟩ := exists_split_of_sublist order
  refine ⟨l, o, m, c, r, rfl, ?_, ?_, atOpener, atCloser, left, right⟩
  · exact zone.texts opener (by simp [stack]) o (by simp) atOpener
  · exact zone.texts closer (by simp [stack]) c (by simp) atCloser

theorem addresses_shorten (k : Nat) (n : Node) (g : Forest) :
    (addresses (shorten k n ++ g)).Sublist (addresses (n :: g)) := by
  unfold shorten
  split
  next => exact addresses_remove (l := [])
  next =>
    rw [List.singleton_append]
    exact (addresses_setData (l := []) _).symm ▸ List.Sublist.refl _

/-- The siblings after `S_insert_emph` have no new address but that of the new node. -/
theorem nodup_emph {l m r : Forest} {o c : Node} {i : NodeId} {d : NodeData} {k : Nat}
    (distinct : (addresses (z.fill (l ++ o :: (m ++ c :: r)))).Nodup)
    (new : i ∉ addresses (z.fill (l ++ o :: (m ++ c :: r)))) :
    (addresses (z.fill (l ++ (shorten k o ++ .mk i d m :: (shorten k c ++ r))))).Nodup ∧
      ∀ j ∈ addresses (z.fill (l ++ (shorten k o ++ .mk i d m :: (shorten k c ++ r)))),
        j = i ∨ j ∈ addresses (z.fill (l ++ o :: (m ++ c :: r))) := by
  have fewer : (addresses (l ++ (shorten k o ++ .mk i d m :: (shorten k c ++ r)))).Sublist
      (addresses (l ++ o :: .mk i d m :: c :: r)) := by
    rw [addresses_append l, addresses_append l]
    refine .append_left ((addresses_shorten k o _).trans ?_) _
    rw [addresses_cons, addresses_cons o, addresses_cons, addresses_cons (.mk i d m)]
    refine .append_left (.cons_cons _ (.append_left (.cons_cons _ ?_) _)) _
    exact addresses_shorten k c r
  have single : ∀ g : Forest, l ++ o :: g = (l ++ [o]) ++ g := by simp
  have whole := nodup_wrap (l := l ++ [o]) (m := m) (r := c :: r) (i := i) d
    (by rwa [← single]) (by rwa [← single])
  rw [← single] at whole
  constructor
  · rw [Zone.nodup_fill] at whole ⊢
    exact ⟨whole.1, fewer.nodup whole.2.1, fun j around inside =>
      whole.2.2 j around (fewer.subset inside)⟩
  · intro j inside
    rw [Zone.mem_addresses_fill] at inside ⊢
    rcases inside with around | inside
    · exact .inr (.inl around)
    · have older := fewer.subset inside
      rw [single] at older
      rcases List.mem_cons.mp ((addresses_wrap i d).mem_iff.mp older) with rfl | old
      · exact .inl rfl
      · rw [← single] at old
        exact .inr (.inr old)

/-- `S_insert_emph` is a turn: the closer loses characters, or is passed. -/
theorem turns_insertEmph {between upper' : List Delimiter} {opener : Delimiter}
    (zone : EmphasisZone P z stackBottom below e upper f) (next : e.after = closer :: later)
    (split : upper = between ++ opener :: upper') (same : opener.delimChar = closer.delimChar)
    (notQuote : isQuote closer.delimChar = false) :
    Turns P z stackBottom below e upper f (insertEmph P e.subj (upper' ++ below) opener closer later) := by
  obtain ⟨l, o, m, c, r, rfl, oText, cText, atOpener, atCloser, left, right⟩ :=
    zone.exists_runs next split
  have new : e.subj.nextId ∉ addresses (z.fill (l ++ o :: (m ++ c :: r))) :=
    fun inside => Nat.lt_irrefl _ (zone.fresh _ inside)
  obtain ⟨d, type, plain, result⟩ := insertEmph_fill (upper' ++ below) later zone.children zone.distinct new
    atOpener atCloser zone.accepts
  rw [result]
  generalize uses : (if c.literal.length ≥ 2 && o.literal.length ≥ 2 then 2 else 1) = k at type ⊢
  have some := List.length_pos_iff.mpr oText.remains
  have some' := List.length_pos_iff.mpr cText.remains
  have bounds : 1 ≤ k ∧ k ≤ o.literal.length ∧ k ≤ c.literal.length := by
    rw [← uses]
    split
    next both =>
      simp only [ge_iff_le, Bool.and_eq_true, decide_eq_true_eq] at both
      omega
    next => omega
  obtain ⟨distinct, older⟩ := nodup_emph (k := k) (d := d) zone.distinct new
  have stack : e.stack upper = upper'.reverse ++ opener :: (between.reverse ++ closer :: later) := by
    simp [Emphasis.stack, next, split]
  have left' : ((if o.literal.length - k = 0 then upper' else opener :: upper').reverse.map
      Delimiter.inlText).Sublist ((l ++ shorten k o).map Node.id) := by
    unfold shorten
    split
    next => simpa using left
    next => simpa [atOpener] using left.append (List.Sublist.refl [opener.inlText])
  have right' : ((if c.literal.length - k = 0 then later else closer :: later).map
      Delimiter.inlText).Sublist ((shorten k c ++ r).map Node.id) := by
    unfold shorten
    split
    next => simpa using right
    next => simpa [atCloser] using right.cons_cons closer.inlText
  have fewer : ∀ d' ∈ (if o.literal.length - k = 0 then upper' else opener :: upper').reverse ++
      (if c.literal.length - k = 0 then later else closer :: later), d' ∈ e.stack upper := by
    intro d' member
    rw [stack]
    rw [List.mem_append, List.mem_reverse] at member
    rcases member with lower | higher
    · split at lower
      next => simp [lower]
      next => rcases List.mem_cons.mp lower with rfl | lower <;> simp [*]
    · split at higher
      next => simp [higher]
      next => rcases List.mem_cons.mp higher with rfl | higher <;> simp [*]
  refine ⟨if o.literal.length - k = 0 then upper' else opener :: upper', _,
    ⟨rfl, ?before, distinct, ?fresh, zone.accepts, ?inline, ?order, ?texts, ?above⟩,
    fewer, .single ?change, ?left⟩
  case before =>
    dsimp only
    split <;> rfl
  case fresh =>
    intro j inside
    rcases older j inside with rfl | old
    · exact Nat.lt_succ_self _
    · exact (zone.fresh j old).trans (Nat.lt_succ_self _)
  case inline =>
    have ofRun : ∀ n' : Node, n'.type.isInline = true → ∀ n ∈ shorten k n', n.type.isInline = true := by
      intro n' inline n member
      unfold shorten at member
      split at member
      next => cases member
      next =>
        obtain rfl := List.mem_singleton.mp member
        rwa [Node.type, Node.data_setData]
    intro n among
    rw [List.mem_append, List.mem_append, List.mem_cons, List.mem_append] at among
    rcases among with before | ofOpener | rfl | ofCloser | after
    · exact zone.inline n (by simp [before])
    · exact ofRun o (zone.inline o (by simp)) n ofOpener
    · rw [Node.type, Node.data_mk, type]
      split <;> rfl
    · exact ofRun c (zone.inline c (by simp)) n ofCloser
    · exact zone.inline n (by simp [after])
  case order =>
    have both := left'.append (right'.cons e.subj.nextId)
    simpa [Emphasis.stack] using both
  case texts =>
    intro d' member n among here
    have member' := fewer d' member
    have text := zone.texts d' member'
    rw [List.mem_append, List.mem_append, List.mem_cons, List.mem_append] at among
    rcases among with before | ofOpener | rfl | ofCloser | after
    · exact text n (by simp [before]) here
    · unfold shorten at ofOpener
      split at ofOpener
      next => cases ofOpener
      next remains =>
        obtain rfl := List.mem_singleton.mp ofOpener
        exact (text o (by simp) (by rwa [Node.id_setData] at here)).truncate remains
    · have inside := zone.order.subset (List.mem_map_of_mem member')
      rw [← here] at inside
      exact absurd ((z.mem_addresses_fill).mpr (.inr ((ids_sublist_addresses _).subset inside))) new
    · unfold shorten at ofCloser
      split at ofCloser
      next => cases ofCloser
      next remains =>
        obtain rfl := List.mem_singleton.mp ofCloser
        exact (text c (by simp) (by rwa [Node.id_setData] at here)).truncate remains
    · exact text n (by simp [after]) here
  case above => exact fun d' member => zone.above d' (fewer d' member)
  case change =>
    refine .wrap (oText.runText ?_ atOpener (same ▸ notQuote) same) (cText.runText ?_ atCloser notQuote rfl)
      ?_ plain bounds.2
    · simp [stack]
    · simp [stack]
    · rw [type, ← uses]
      split
      next => exact .inr ⟨rfl, rfl⟩
      next => exact .inl ⟨rfl, rfl⟩
  case left =>
    have among : c ∈ l ++ o :: (m ++ c :: r) := by simp
    have kept := left_eq zone.distinct distinct (fun d' member => by
      obtain ⟨n, inside, here⟩ := List.mem_map.mp (right.subset (List.mem_map_of_mem member))
      exact ⟨n, by simp [inside], by simp [inside], here⟩)
    rw [emphasisLeft, emphasisLeft, next, zone.children, List.map_cons, List.sum_cons,
      literalOf, Zone.dataOf_fill zone.distinct among atCloser]
    change _ < c.literal.length + 1 + _
    dsimp only
    split
    next =>
      rw [kept]
      omega
    next remains =>
      have shortened : c.setData (truncateLiteral (c.literal.length - k) c.data) ∈
          l ++ (shorten k o ++ .mk e.subj.nextId d m :: (shorten k c ++ r)) := by
        simp [shorten, remains]
      rw [List.map_cons, List.sum_cons, kept, literalOf,
        Zone.dataOf_fill distinct shortened (by rw [Node.id_setData, atCloser]), Node.data_setData]
      change (c.literal.take (c.literal.length - k)).length + 1 + _ < _
      rw [List.length_take]
      omega

/-! ### Strikethrough -/

/-- The callback of an extension for delimiters takes a turn: it passes the closer. -/
def Extension.TakesTurns (P : Config) (ext : Extension) : Prop :=
  ∀ insert, ext.insertInlineFromDelim = some insert →
    ∀ {z stackBottom below e upper f closer later between upper' opener},
      EmphasisZone P z stackBottom below e upper f → e.after = closer :: later →
      upper = between ++ opener :: upper' → closer.delimChar ∈ ext.specialInlineChars →
      opener.delimChar = closer.delimChar →
      Turns P z stackBottom below e upper f
        (insert P.options e.subj (upper' ++ below) opener between closer later)

/-- The siblings from the opener to the closer become one node. -/
theorem insertNodes_fill (self : Nat) {l m r : Forest} {o c : Node} {i j : NodeId}
    (closer : NodeData) (distinct : (addresses (z.fill (l ++ o :: (m ++ c :: r)))).Nodup)
    (here : o.id = i) (there : c.id = j) (inline : ∀ n ∈ m, n.type.isInline = true) :
    editSiblings i (Strikethrough.insertNodes self i j closer) (z.fill (l ++ o :: (m ++ c :: r))) =
      z.fill (l ++ .mk o.id (Strikethrough.nodeData self closer o.data) m :: r) := by
  have before := (not_mem_sides distinct here).1
  obtain ⟨between, rest⟩ := between_split distinct there
  have taken : ∀ n ∈ m, Strikethrough.takes n = true := by
    intro n member
    have isInline := inline n member
    cases type : n.type <;> simp [Strikethrough.takes, type, NodeType.isInline] at isInline ⊢
  have refused : m.filter (fun n => !Strikethrough.takes n) = [] := by
    rw [List.filter_eq_nil_iff]
    intro n member
    simp [taken n member]
  rw [Zone.editSiblings_fill distinct (mem_ids_split here)]
  · rw [Strikethrough.insertNodes, siblingsBefore_split here before, siblingsFrom_split here before,
      siblingsAfter_split here before, between, rest, List.filter_eq_self.mpr taken, refused]
    simp
  · intro l' outside
    simp only [Strikethrough.insertNodes, siblingsAfter, siblingsBefore_append outside,
      siblingsFrom_append outside, List.append_assoc]

/-- The text node of an opener is that of no delimiter below it or after the closer. -/
theorem EmphasisZone.opener_apart {between upper' : List Delimiter} {opener : Delimiter}
    (zone : EmphasisZone P z stackBottom below e upper f)
    (stack : e.stack upper = upper'.reverse ++ opener :: (between.reverse ++ closer :: later)) :
    ∀ d ∈ upper'.reverse ++ later, d.inlText ≠ opener.inlText := by
  have ids := zone.order.nodup ((ids_sublist_addresses f).nodup (z.nodup_fill.mp zone.distinct).2.1)
  rw [stack, List.map_append, List.nodup_append, List.map_cons, List.nodup_cons] at ids
  intro d member same
  rcases List.mem_append.mp member with lower | higher
  · exact ids.2.2 d.inlText (List.mem_map_of_mem lower) opener.inlText List.mem_cons_self same
  · refine ids.2.1.1 (same ▸ List.mem_map_of_mem ?_)
    simp [higher]

/-- The siblings after `insert` have fewer addresses. -/
theorem nodup_strikethrough {l m r : Forest} {o c : Node} (d : NodeData)
    (distinct : (addresses (z.fill (l ++ o :: (m ++ c :: r)))).Nodup) :
    (addresses (z.fill (l ++ .mk o.id d m :: r))).Nodup ∧
      ∀ j ∈ addresses (z.fill (l ++ .mk o.id d m :: r)),
        j ∈ addresses (z.fill (l ++ o :: (m ++ c :: r))) := by
  have fewer : (o.id :: addresses (l ++ (m ++ r))).Subperm (addresses (l ++ o :: (m ++ c :: r))) := by
    refine .trans ?_ (@List.Sublist.subperm _ (addresses l ++ o.id :: addresses (m ++ r)) _ ?_)
    · rw [addresses_append l]
      exact List.perm_middle.symm.subperm
    · rw [addresses_append l, addresses_cons o]
      exact .append_left (.trans (.cons_cons _ addresses_remove) (List.sublist_append_right _ _)) _
  obtain ⟨g, same, within⟩ := (addresses_wrap (l := l) (m := m) (r := r) o.id d).subperm.trans fewer
  constructor
  · rw [Zone.nodup_fill] at distinct ⊢
    exact ⟨distinct.1, same.nodup_iff.mp (within.nodup distinct.2.1), fun j around inside =>
      distinct.2.2 j around (within.subset (same.mem_iff.mpr inside))⟩
  · intro j inside
    rw [Zone.mem_addresses_fill] at inside ⊢
    exact inside.imp_right fun inside => within.subset (same.mem_iff.mpr inside)

theorem strikethrough_takesTurns (P : Config) (self : Nat) (contains : NodeData → NodeType → Bool) :
    (strikethroughExtension self contains).TakesTurns P := by
  rintro _ ⟨⟩ z stackBottom below e upper f closer later between upper' opener zone next split special
    same
  have tilde : isQuote closer.delimChar = false := by
    obtain same := List.mem_singleton.mp special
    rw [same]
    rfl
  have stack : e.stack upper = upper'.reverse ++ opener :: (between.reverse ++ closer :: later) := by
    simp [Emphasis.stack, next, split]
  have fewer : (upper'.reverse ++ later).Sublist (e.stack upper) := by
    rw [stack]
    exact .append_left (((List.sublist_cons_self _ _).trans (List.sublist_append_right _ _)).trans
      (List.sublist_cons_self _ _)) _
  obtain ⟨l, o, m, c, r, rfl, oText, cText, atOpener, atCloser, left, right⟩ :=
    zone.exists_runs next split
  have openerData : dataOf opener.inlText e.subj.children = o.data := by
    rw [zone.children]
    exact Zone.dataOf_fill zone.distinct (by simp) atOpener
  have closerData : dataOf closer.inlText e.subj.children = c.data := by
    rw [zone.children]
    exact Zone.dataOf_fill zone.distinct (by simp) atCloser
  unfold Strikethrough.insert
  extract_lets openerInl closerInl accepted children
  by_cases whole : (openerInl.as.getLiteral.length = closerInl.as.getLiteral.length && accepted) = true
  · have changed : children =
        z.fill (l ++ .mk o.id (Strikethrough.nodeData self closerInl o.data) m :: r) := by
      unfold children
      rw [if_pos whole, zone.children]
      exact insertNodes_fill self closerInl zone.distinct atOpener atCloser fun n member =>
        zone.inline n (by simp [member])
    obtain ⟨distinct, older⟩ :=
      nodup_strikethrough (Strikethrough.nodeData self closerInl o.data) zone.distinct
    rw [changed]
    refine @EmphasisZone.turns _ _ _ _ _ _ _ _ _ _ upper' _ zone next ⟨rfl, rfl, distinct, fun i inside =>
      zone.fresh i (older i inside), zone.accepts, ?inline, ?order, ?texts,
      fun d member => zone.above d (fewer.subset member)⟩ fewer.subset (.single ?change) rfl ?kept
    case inline =>
      intro n among
      rw [List.mem_append, List.mem_cons] at among
      rcases among with before | rfl | after
      · exact zone.inline n (by simp [before])
      · rfl
      · exact zone.inline n (by simp [after])
    case order =>
      rw [Emphasis.stack, List.map_append, List.map_append, List.map_cons]
      exact left.append (right.cons _)
    case texts =>
      intro d member n among here
      rw [List.mem_append, List.mem_cons] at among
      rcases among with before | rfl | after
      · exact zone.texts d (fewer.subset member) n (by simp [before]) here
      · exact absurd (here.symm.trans atOpener) (zone.opener_apart stack d member)
      · exact zone.texts d (fewer.subset member) n (by simp [after]) here
    case change =>
      simp only [openerInl, closerInl, openerData, closerData, Bool.and_eq_true,
        decide_eq_true_eq] at whole
      exact .strikethrough (oText.runText (by simp [stack]) atOpener (same ▸ tilde) same)
        (cText.runText (by simp [stack]) atCloser tilde rfl) whole.1 rfl rfl
    case kept =>
      intro d member n among here
      obtain ⟨n', inside, here'⟩ := List.mem_map.mp (right.subset (List.mem_map_of_mem member))
      have ids := (ids_sublist_addresses _).nodup (z.nodup_fill.mp zone.distinct).2.1
      obtain rfl : n = n' :=
        List.inj_on_of_nodup_map ids among (by simp [inside]) (here.trans here'.symm)
      simp [inside]
  · have same : children = e.subj.children := if_neg whole
    have zone' := @EmphasisZone.drop _ _ _ _ _ _ _ ⟨e.subj, upper' ++ below, later⟩ upper' zone rfl rfl fewer
    rw [same]
    exact zone.turns next zone' fewer.subset .refl rfl fun _ _ _ among _ => among

/-! ### The loop -/

theorem turns_matchedCloser (extensions : ∀ ext ∈ P.syntaxExtensions, ext.TakesTurns P)
    {between upper' : List Delimiter} {opener : Delimiter}
    (zone : EmphasisZone P z stackBottom below e upper f) (next : e.after = closer :: later)
    (split : upper = between ++ opener :: upper') (same : opener.delimChar = closer.delimChar) :
    Turns P z stackBottom below e upper f
      (matchedCloser P e between opener (upper' ++ below) closer later) := by
  unfold matchedCloser
  split
  next ext found =>
    have member := mem_syntaxExtensions (List.mem_of_find?_eq_some found)
    have special := List.find?_some found
    split
    next insert callback =>
      exact extensions ext member insert callback zone next split (by simpa using special) same
    next => exact turns_skip zone next
  next =>
    split
    next isEmphasis =>
      refine turns_insertEmph zone next split same ?_
      simp only [isEmphasisChar, Bool.or_eq_true, beq_iff_eq] at isEmphasis
      rcases isEmphasis with star | underscore
      · rw [star]
        rfl
      · rw [underscore]
        rfl
    next =>
      split
      next isQuote => exact turns_quotes zone next split same isQuote
      next => exact turns_skip zone next

/-- One turn of the loop. -/
theorem turns_emphasisStep (extensions : ∀ ext ∈ P.syntaxExtensions, ext.TakesTurns P)
    (limit : OpenersBottom → Delimiter → Nat) (bottom : OpenersBottom)
    (low : ∀ d ∈ below, d.position < stackBottom)
    (zone : EmphasisZone P z stackBottom below e upper f) (more : e.after ≠ []) :
    Turns P z stackBottom below e upper f (emphasisStep P limit stackBottom e bottom).1 := by
  cases next : e.after with
  | nil => exact absurd next more
  | cons closer later =>
    unfold emphasisStep
    rw [next]
    dsimp only
    split
    next =>
      split
      next between opener rest found =>
        obtain ⟨before, matched, above, bound⟩ := findOpener_spec found
        rw [zone.before] at before
        obtain ⟨upper', split, rfl⟩ := append_split (p := fun d => stackBottom ≤ d.position) before
          (fun d member => not_le.mpr (low d member)) above bound
        refine turns_matchedCloser extensions zone next split ?_
        unfold delimitersMatch at matched
        simp only [Bool.and_eq_true, beq_iff_eq] at matched
        exact matched.1.2
      next => exact turns_unmatched zone next
    next => exact turns_skip zone next

/-- Any number of turns of the loop; enough of them pass every delimiter. -/
theorem emphasisLoop_spec (extensions : ∀ ext ∈ P.syntaxExtensions, ext.TakesTurns P)
    (limit : OpenersBottom → Delimiter → Nat) (bottom : OpenersBottom) (turns : Nat)
    (low : ∀ d ∈ below, d.position < stackBottom)
    (zone : EmphasisZone P z stackBottom below e upper f) :
    ∃ upper' f', EmphasisZone P z stackBottom below
        (emphasisLoop P limit stackBottom turns e bottom).1 upper' f' ∧
      (emphasisLoop P limit stackBottom turns e bottom).1.stack upper' ⊆ e.stack upper ∧
      Relation.ReflTransGen (EmphasisChange ((e.stack upper).map Delimiter.inlText)) f f' ∧
      (emphasisLeft e ≤ turns → (emphasisLoop P limit stackBottom turns e bottom).1.after = []) := by
  induction turns generalizing e upper f bottom with
  | zero =>
    refine ⟨upper, f, zone, List.Subset.refl _, .refl, fun enough => ?_⟩
    cases next : e.after with
    | nil => exact next
    | cons d rest =>
      rw [emphasisLeft, next, List.map_cons, List.sum_cons] at enough
      omega
  | succ fuel ih =>
    rw [emphasisLoop]
    by_cases done : e.after = []
    · have stays : emphasisStep P limit stackBottom e bottom = (e, bottom) := by
        unfold emphasisStep
        rw [done]
      rw [stays]
      obtain ⟨upper', f', zone', fewer, changes, passed⟩ := ih bottom zone
      refine ⟨upper', f', zone', fewer, changes, fun _ => passed ?_⟩
      simp [emphasisLeft, done]
    · obtain ⟨upper', f', zone', fewer, changes, less⟩ :=
        turns_emphasisStep extensions limit bottom low zone done
      obtain ⟨upper'', f'', zone'', fewer', changes', passed⟩ :=
        ih (emphasisStep P limit stackBottom e bottom).2 zone'
      have changes'' := Relation.ReflTransGen.mono (fun _ _ change =>
        EmphasisChange.mono (List.map_subset _ fewer) change) _ _ changes'
      exact ⟨upper'', f'', zone'', List.Subset.trans fewer' fewer, changes.trans changes'',
        fun enough => passed (by omega)⟩

/-! ### A whole call -/

/-- The fuel of the loop is enough. -/
theorem emphasisLeft_le_fuel (zone : EmphasisZone P z stackBottom below e upper f) :
    emphasisLeft e ≤ emphasisFuel e := by
  rw [emphasisLeft, emphasisFuel]
  refine List.sum_le_sum fun d member => ?_
  have inStack : d ∈ e.stack upper := mem_stack_of_mem_after member
  obtain ⟨n, among, here⟩ := zone.exists_text inStack
  rw [zone.children, literalOf, Zone.dataOf_fill zone.distinct among here]
  exact Nat.succ_le_succ (zone.texts d inStack n among here).short

/-- The delimiters from the bottom of the stack on, and those below. -/
theorem stack_split {top : List Delimiter} (high : ∀ d ∈ top, stackBottom ≤ d.position)
    (low : ∀ d ∈ below, d.position < stackBottom) :
    (top ++ below).takeWhile (fun d => decide (d.position ≥ stackBottom)) = top ∧
      (top ++ below).dropWhile (fun d => decide (d.position ≥ stackBottom)) = below := by
  have passes : ∀ d ∈ top, decide (d.position ≥ stackBottom) = true := by simpa using high
  rw [List.takeWhile_append_of_pos passes, List.dropWhile_append_of_pos passes]
  cases below with
  | nil => exact ⟨List.append_nil _, rfl⟩
  | cons d rest =>
    have stops : decide (d.position ≥ stackBottom) = false := by
      simpa using low d List.mem_cons_self
    simp [stops]

theorem emphasisStart_eq {subj : Subject} {top : List Delimiter} (split : subj.delims = top ++ below)
    (high : ∀ d ∈ top, stackBottom ≤ d.position) (low : ∀ d ∈ below, d.position < stackBottom) :
    emphasisStart subj stackBottom = ⟨subj, below, top.reverse⟩ := by
  unfold emphasisStart
  rw [split, (stack_split high low).1, (stack_split high low).2]

/-- `process_emphasis` on the siblings `f` of the zone: it comes to its end, has changed the
siblings step by step, and leaves no delimiter from the bottom of the stack on. -/
theorem processEmphasisWith_spec (extensions : ∀ ext ∈ P.syntaxExtensions, ext.TakesTurns P)
    (limit : OpenersBottom → Delimiter → Nat) {subj : Subject} {top : List Delimiter}
    (split : subj.delims = top ++ below) (low : ∀ d ∈ below, d.position < stackBottom)
    (zone : EmphasisZone P z stackBottom below ⟨subj, below, top.reverse⟩ [] f) :
    ∃ f', (processEmphasisWith P limit subj stackBottom).children = z.fill f' ∧
      Relation.ReflTransGen (EmphasisChange (top.map Delimiter.inlText)) f f' ∧
      (addresses (z.fill f')).Nodup ∧
      (∀ i ∈ addresses (z.fill f'), i < (processEmphasisWith P limit subj stackBottom).nextId) ∧
      (processEmphasisWith P limit subj stackBottom).delims = below ∧
      (emphasisLoop P limit stackBottom (emphasisFuel (emphasisStart subj stackBottom))
        (emphasisStart subj stackBottom) (.initial stackBottom)).1.after = [] := by
  have high : ∀ d ∈ top, stackBottom ≤ d.position := fun d member =>
    zone.above d (by simpa [Emphasis.stack] using member)
  have start := emphasisStart_eq split high low
  obtain ⟨upper', f', zone', _, changes, passes⟩ := emphasisLoop_spec extensions limit
    (.initial stackBottom) (emphasisFuel ⟨subj, below, top.reverse⟩) low zone
  have passed := passes (emphasisLeft_le_fuel zone)
  have runs : (Emphasis.stack ⟨subj, below, top.reverse⟩ []).map Delimiter.inlText ⊆
      top.map Delimiter.inlText := List.map_subset _ fun d member => by
    simpa [Emphasis.stack] using member
  refine ⟨f', ?_, Relation.ReflTransGen.mono (fun _ _ => EmphasisChange.mono runs) _ _ changes,
    zone'.distinct, ?_, ?_, ?_⟩
  · unfold processEmphasisWith
    rw [start]
    exact zone'.children
  · unfold processEmphasisWith
    rw [start]
    exact zone'.fresh
  · unfold processEmphasisWith
    dsimp only
    rw [start, passed, zone'.before, List.reverse_nil, List.nil_append]
    refine (stack_split (fun d member => zone'.above d ?_) low).2
    exact List.mem_append_left _ (List.mem_reverse.mpr member)
  · rw [start]
    exact passed

end

end CmarkGfm
