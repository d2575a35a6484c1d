import CmarkGfm.Properties.HtmlSafety
import CmarkGfm.Properties.RenderRuns
import CmarkGfm.Render.Commonmark
import CmarkGfm.Render.Plaintext

/-!
# The prefix of a line

The prefix of a renderer is a stack: every truncation takes off what the same node has appended, so a subtree leaves
the prefix as it was.
-/

namespace CmarkGfm

/-- What has been appended to the prefix, the last first, each with the position of the node that has done it. -/
abbrev PrefixStack := List (List Nat × Bytes)

/-- The stack after a call of the node at `path`. There is none if a truncation does not take off exactly what this
node has appended last. -/
def matchPrefix (path : List Nat) (r : Renderer) (st : PrefixStack) : Call → Option PrefixStack
  | .pushPrefix s => some ((path, s) :: st)
  | .popPrefix size =>
    match st with
    | (p, s) :: st => if p = path ∧ s.length = size ∧ s <:+ r.pref then some st else none
    | [] => none
  | _ => some st

/-- A call that is checked. -/
def Call.runMatched (outc : Outc) (path : List Nat) (s : Renderer × PrefixStack) (call : Call) :
    Option (Renderer × PrefixStack) :=
  match matchPrefix path s.1 s.2 call, call.run outc s.1 with
  | some st, .ok r => some (r, st)
  | _, _ => none

namespace Format

variable (F : Format) (options : Options)

def matchVisit (s : Renderer × PrefixStack) (v : Visit) : Option (Renderer × PrefixStack) :=
  (F.renderNode options s.1 v).foldlM (Call.runMatched F.outc v.place.path) s

/-- The run of a renderer in which every truncation is checked. -/
def matchVisits (vs : List Visit) (s : Renderer × PrefixStack) : Option (Renderer × PrefixStack) :=
  vs.foldlM (F.matchVisit options) s

end Format

/-! ### What is written leaves the prefix alone -/

variable {outc : Outc} {r r' : Renderer}

theorem pref_writeBreaks (n upTo : Nat) (r : Renderer) : (r.writeBreaks n upTo).pref = r.pref := by
  induction n generalizing upTo r with
  | zero => rfl
  | succ n ih =>
    rw [Renderer.writeBreaks, ih]
    dsimp only
    split
    next => rfl
    next =>
      unfold Renderer.endLine
      dsimp only
      split <;> rfl

theorem pref_writeChar (keeps : ∀ r escape c nextc, (outc r escape c nextc).pref = r.pref) (wrap : Bool)
    (escape : Escaping) (c : Nat) (rest : Bytes) (r : Renderer) : (writeChar outc wrap escape c rest r).2.pref = r.pref := by
  unfold writeChar
  split
  next =>
    split <;> rfl
  split
  next =>
    unfold Renderer.putLiteral
    dsimp only
    split <;> rfl
  next => exact keeps r escape c _

theorem pref_out (keeps : ∀ r escape c nextc, (outc r escape c nextc).pref = r.pref) (origin : Origin) (source : Bytes)
    (wrap : Bool) (escape : Escaping) (r : Renderer) : (r.out outc origin source wrap escape).pref = r.pref := by
  have same : StepRelation fun (r : Renderer) (_ : List RenderStep) r' => r'.pref = r.pref :=
    ⟨fun _ => rfl, fun first second => second.trans first⟩
  have startLine (r : Renderer) : r.startLine.pref = r.pref := by
    unfold Renderer.startLine
    split <;> rfl
  have written : (outChars outc (wrap && !r.noLinebreaks) escape (cstr source).length (cstr source)
      (r.startString origin)).pref = (r.startString origin).pref :=
    same.outChars startLine (pref_writeChar keeps _ escape) (fun _ _ => rfl) _ _ _
  rw [Renderer.out, written]
  exact pref_writeBreaks _ _ _

theorem pref_commonmarkOutc (r : Renderer) (escape : Escaping) (c : Nat) (nextc : UInt8) :
    (commonmarkOutc r escape c nextc).pref = r.pref := by
  unfold commonmarkOutc
  repeat' split
  all_goals rfl

/-! ### The calls at one event -/

/-- A call that succeeds and leaves the prefix alone. -/
def Call.Quiet : Call → Prop
  | .out _ none _ _ | .fail _ | .pushPrefix _ | .popPrefix _ => False
  | _ => True

namespace Call

@[simp] theorem quiet_cr : Call.cr.Quiet := trivial

@[simp] theorem quiet_blankline : Call.blankline.Quiet := trivial

@[simp] theorem quiet_beginContent : Call.beginContent.Quiet := trivial

@[simp] theorem quiet_countFootnote : Call.countFootnote.Quiet := trivial

@[simp] theorem quiet_setNoLinebreaks (off : Bool) : (setNoLinebreaks off).Quiet := trivial

@[simp] theorem quiet_setTightListItem (tight : Bool) : (setTightListItem tight).Quiet := trivial

@[simp] theorem quiet_out (origin : Origin) (s : Bytes) (wrap : Bool) (escape : Escaping) :
    (out origin (some s) wrap escape).Quiet := trivial

@[simp] theorem quiet_bytes (s : Bytes) : (bytes s).Quiet := trivial

@[simp] theorem quiet_puts (s : String) : (puts s).Quiet := trivial

@[simp] theorem quiet_text (s : Bytes) (wrap : Bool) (escape : Escaping) : (text s wrap escape).Quiet := trivial

@[simp] theorem quiet_textOrNull (s : Bytes) (wrap : Bool) (escape : Escaping) :
    (textOrNull (some s) wrap escape).Quiet := trivial

@[simp] theorem quiet_space (wrap : Bool) (escape : Escaping) : (space wrap escape).Quiet := trivial

end Call

/-- The calls at the start of a node, which appends `opened` to the prefix. A code block takes off itself what it
appends. -/
inductive OpensPrefix : Option Bytes → List Call → Prop
  | quiet {calls : List Call} : (∀ c ∈ calls, c.Quiet) → OpensPrefix none calls
  | push (calls : List Call) (s : Bytes) : (∀ c ∈ calls, c.Quiet) → OpensPrefix (some s) (calls ++ [.pushPrefix s])
  | both (calls inner rest : List Call) (s : Bytes) : (∀ c ∈ calls, c.Quiet) → (∀ c ∈ inner, c.Quiet) →
      (∀ c ∈ rest, c.Quiet) → OpensPrefix none (calls ++ .pushPrefix s :: (inner ++ .popPrefix s.length :: rest))

/-- The calls at the end of the node. -/
inductive ClosesPrefix : Option Bytes → List Call → Prop
  | quiet {calls : List Call} : (∀ c ∈ calls, c.Quiet) → ClosesPrefix none calls
  | pop (calls rest : List Call) (s : Bytes) : (∀ c ∈ calls, c.Quiet) → (∀ c ∈ rest, c.Quiet) →
      ClosesPrefix (some s) (calls ++ .popPrefix s.length :: rest)

theorem OpensPrefix.append {opened : Option Bytes} {before calls : List Call} (quiet : ∀ c ∈ before, c.Quiet)
    (opens : OpensPrefix opened calls) : OpensPrefix opened (before ++ calls) := by
  cases opens with
  | quiet calls => exact .quiet (List.forall_mem_append.mpr ⟨quiet, calls⟩)
  | push _ s calls =>
    rw [← List.append_assoc]
    exact .push _ s (List.forall_mem_append.mpr ⟨quiet, calls⟩)
  | both _ _ _ s calls inner rest =>
    rw [← List.append_assoc]
    exact .both _ _ _ s (List.forall_mem_append.mpr ⟨quiet, calls⟩) inner rest

theorem ClosesPrefix.append {opened : Option Bytes} {before calls : List Call} (quiet : ∀ c ∈ before, c.Quiet)
    (closes : ClosesPrefix opened calls) : ClosesPrefix opened (before ++ calls) := by
  cases closes with
  | quiet calls => exact .quiet (List.forall_mem_append.mpr ⟨quiet, calls⟩)
  | pop _ _ s calls rest =>
    rw [← List.append_assoc]
    exact .pop _ _ s (List.forall_mem_append.mpr ⟨quiet, calls⟩) rest

/-- The state of the two runs after some calls. -/
structure RunsTo (outc : Outc) (path : List Nat) (calls : List Call) (s s' : Renderer × PrefixStack) : Prop where
  run : calls.foldlM (Call.run outc) s.1 = .ok s'.1
  matched : calls.foldlM (Call.runMatched outc path) s = some s'

variable {path : List Nat} {st st' st'' : PrefixStack} {calls : List Call}

theorem RunsTo.nil : RunsTo outc path [] (r, st) (r, st) := ⟨rfl, rfl⟩

theorem RunsTo.append {r'' : Renderer} {more : List Call} (first : RunsTo outc path calls (r, st) (r', st'))
    (second : RunsTo outc path more (r', st') (r'', st'')) : RunsTo outc path (calls ++ more) (r, st) (r'', st'') := by
  constructor
  · rw [List.foldlM_append, first.run]
    exact second.run
  · rw [List.foldlM_append, first.matched]
    exact second.matched

theorem RunsTo.one {call : Call} (run : call.run outc r = .ok r') (matched : matchPrefix path r st call = some st') :
    RunsTo outc path [call] (r, st) (r', st') := by
  constructor
  · rw [List.foldlM_cons]
    dsimp only
    rw [run]
    rfl
  · rw [List.foldlM_cons, Call.runMatched]
    dsimp only
    rw [run, matched]
    rfl

theorem runsTo_push (s : Bytes) :
    RunsTo outc path [.pushPrefix s] (r, st) ({ r with pref := r.pref ++ s }, (path, s) :: st) :=
  .one rfl rfl

/-- What is taken off is what was appended. -/
theorem runsTo_pop (outc : Outc) (path : List Nat) (st : PrefixStack) {p s : Bytes} (appended : r.pref = p ++ s) :
    ∃ r', RunsTo outc path [.popPrefix s.length] (r, (path, s) :: st) (r', st) ∧ r'.pref = p := by
  refine ⟨{ r with pref := r.pref.take (r.pref.length - s.length) }, .one rfl ?_, ?_⟩
  · rw [matchPrefix, if_pos ⟨rfl, rfl, appended ▸ List.suffix_append p s⟩]
  · show r.pref.take (r.pref.length - s.length) = p
    rw [appended, List.length_append, Nat.add_sub_cancel, List.take_left]

section

variable (keeps : ∀ r escape c nextc, (outc r escape c nextc).pref = r.pref)

include keeps

theorem runsTo_quiet (path : List Nat) (quiet : ∀ c ∈ calls, c.Quiet) (r : Renderer) (st : PrefixStack) :
    ∃ r', RunsTo outc path calls (r, st) (r', st) ∧ r'.pref = r.pref := by
  induction calls generalizing r with
  | nil => exact ⟨r, .nil, rfl⟩
  | cons c calls ih =>
    rw [List.forall_mem_cons] at quiet
    have one : ∃ r₁, c.run outc r = .ok r₁ ∧ matchPrefix path r st c = some st ∧ r₁.pref = r.pref := by
      cases c with
      | out origin source wrap escape =>
        cases source with
        | none => exact quiet.1.elim
        | some source => exact ⟨_, rfl, rfl, pref_out keeps origin source wrap escape r⟩
      | cr | blankline =>
        refine ⟨_, rfl, rfl, ?_⟩
        simp only [Renderer.cr, Renderer.blankline]
        split <;> rfl
      | pushPrefix | popPrefix | fail => exact quiet.1.elim
      | _ => exact ⟨_, rfl, rfl, rfl⟩
    obtain ⟨r₁, run, matched, same⟩ := one
    obtain ⟨r₂, runs, same'⟩ := ih quiet.2 r₁
    exact ⟨r₂, (RunsTo.one run matched).append runs, same'.trans same⟩

theorem runsTo_opens (path : List Nat) {opened : Option Bytes} (opens : OpensPrefix opened calls) (r : Renderer) (st : PrefixStack) :
    ∃ r', RunsTo outc path calls (r, st) (r', (opened.map (path, ·)).toList ++ st) ∧
      r'.pref = r.pref ++ opened.getD [] := by
  cases opens with
  | quiet quiet =>
    obtain ⟨r₁, runs, same⟩ := runsTo_quiet keeps path quiet r st
    exact ⟨r₁, runs, by rw [same]; simp⟩
  | push _ s quiet =>
    obtain ⟨r₁, runs, same⟩ := runsTo_quiet keeps path quiet r st
    exact ⟨_, runs.append (runsTo_push s), by rw [← same]; rfl⟩
  | both _ _ _ s before inner rest =>
    obtain ⟨r₁, runs₁, same₁⟩ := runsTo_quiet keeps path before r st
    obtain ⟨r₂, runs₂, same₂⟩ := runsTo_quiet keeps path inner { r₁ with pref := r₁.pref ++ s } ((path, s) :: st)
    obtain ⟨r₃, runs₃, same₃⟩ := runsTo_pop outc path st same₂
    obtain ⟨r₄, runs₄, same₄⟩ := runsTo_quiet keeps path rest r₃ st
    refine ⟨r₄, runs₁.append ((runsTo_push s).append (runs₂.append (runs₃.append runs₄))), ?_⟩
    rw [same₄, same₃, same₁]
    simp

theorem runsTo_closes (path : List Nat) {opened : Option Bytes} (closes : ClosesPrefix opened calls) {p : Bytes} (st : PrefixStack)
    (appended : r.pref = p ++ opened.getD []) :
    ∃ r', RunsTo outc path calls (r, (opened.map (path, ·)).toList ++ st) (r', st) ∧ r'.pref = p := by
  cases closes with
  | quiet quiet =>
    obtain ⟨r₁, runs, same⟩ := runsTo_quiet keeps path quiet r st
    exact ⟨r₁, runs, by rw [same, appended]; simp⟩
  | pop _ _ s before rest =>
    obtain ⟨r₁, runs₁, same₁⟩ := runsTo_quiet keeps path before r ((path, s) :: st)
    obtain ⟨r₂, runs₂, same₂⟩ := runsTo_pop outc path st (same₁.trans appended)
    obtain ⟨r₃, runs₃, same₃⟩ := runsTo_quiet keeps path rest r₂ st
    exact ⟨r₃, runs₁.append (runs₂.append runs₃), same₃.trans same₂⟩

end

/-! ### The two renderers -/

/-- What the renderers may count on at an event. -/
structure VisitAllowed (literalAt : NodeId → Option Bytes) (v : Visit) : Prop where
  core : v.node.type.isCoreBlock ∨ v.node.type.isCoreInline
  list : v.place.parent.any (·.type == .item) → v.place.grandparent.isSome
  label : v.node.type = .footnoteReference → (v.node.data.parentFootnoteDef.bind literalAt).isSome

theorem quiet_adjustTight {literalAt : NodeId → Option Bytes} {v : Visit} (allowed : VisitAllowed literalAt v) :
    ∀ c ∈ adjustTight v, c.Quiet := by
  have found := allowed.list
  unfold adjustTight
  dsimp only
  cases grandparent : v.place.grandparent with
  | some list =>
    dsimp only
    repeat' split
    all_goals simp
  | none =>
    rw [grandparent] at found
    have noItem : v.place.parent.any (·.type == .item) = false := by simpa using found
    simp only [noItem, Bool.false_eq_true, if_false]
    repeat' split
    all_goals simp

/-- What a node appends to the prefix. -/
def commonmarkPrefix (n : Node) (place : Place) : Option Bytes :=
  match n.type with
  | .blockQuote => some (lit "> ")
  | .item => some (List.replicate (itemMarker place).length 32)
  | .footnoteDefinition => some (lit "    ")
  | _ => none

def plaintextPrefix (n : Node) (place : Place) : Option Bytes :=
  match n.type with
  | .item => some (List.replicate (itemMarker place).length 32)
  | .footnoteDefinition => some (lit "    ")
  | _ => none

theorem quiet_linkTail (d : NodeData) {titleOpener : Call} (quiet : titleOpener.Quiet) :
    ∀ c ∈ linkTail d titleOpener, c.Quiet := by
  unfold linkTail
  dsimp only
  split <;> simp [quiet]

theorem quiet_replicate (n : Nat) {call : Call} (quiet : call.Quiet) : ∀ c ∈ List.replicate n call, c.Quiet :=
  fun _ member => List.eq_of_mem_replicate member ▸ quiet

theorem quiet_codeCalls (d : NodeData) (allowWrap : Bool) : ∀ c ∈ codeCalls d allowWrap, c.Quiet := by
  have ticks := quiet_replicate (shortestUnusedBacktickSequence (cstr d.as.getLiteral)) (Call.quiet_puts "`")
  unfold codeCalls
  dsimp only
  simp only [List.forall_mem_append]
  refine ⟨⟨⟨⟨ticks, ?_⟩, by simp⟩, ?_⟩, ticks⟩
  · split <;> simp
  · split <;> simp

theorem opens_codeBlockCalls (v : Visit) : OpensPrefix none (codeBlockCalls v) := by
  unfold codeBlockCalls
  dsimp only
  rw [List.append_assoc]
  refine .append (by split <;> simp) ?_
  split
  next =>
    show OpensPrefix none ([.puts "    "] ++ .pushPrefix (lit "    ") :: ([.text _ false .literal] ++
      .popPrefix (lit "    ").length :: [.blankline]))
    exact .both _ _ _ _ (by simp) (by simp) (by simp)
  next =>
    apply OpensPrefix.quiet
    simp only [List.forall_mem_append]
    have fence := quiet_replicate (max 3 (longestBacktickSequence (cstr v.node.data.as.getCode.literal) + 1))
      (Call.quiet_bytes [if (cstr v.node.data.as.getCode.info).contains (chr '`') then chr '~' else chr '`'])
    exact ⟨⟨⟨fence, by simp⟩, fence⟩, by simp⟩

theorem exists_literal {d : NodeData} (type : d.type ∈ [NodeType.htmlBlock, .codeBlock, .text, .htmlInline, .code]) :
    ∃ s, d.getLiteral? = some s := by
  unfold NodeData.getLiteral?
  simp only [List.mem_cons, List.not_mem_nil, or_false] at type
  rcases type with type | type | type | type | type <;> rw [type] <;> exact ⟨_, rfl⟩

theorem opens_commonmark {literalAt : NodeId → Option Bytes} {n : Node} {place : Place} {options : Options}
    (allowed : VisitAllowed literalAt ⟨true, n, place⟩) :
    OpensPrefix (commonmarkPrefix n place) (commonmarkRenderNode literalAt options r ⟨true, n, place⟩) := by
  refine .append (quiet_adjustTight allowed) ?_
  have core : n.data.type.isCoreBlock ∨ n.data.type.isCoreInline := allowed.core
  have label := allowed.label
  have literal := exists_literal (d := n.data)
  unfold commonmarkNode commonmarkPrefix
  rw [show n.type = n.data.type from rfl]
  dsimp only
  cases type : n.data.type with
  | none | extensionBlock | extensionInline =>
    rw [type] at core
    simp [NodeType.isCoreBlock, NodeType.isCoreInline] at core
  | blockQuote => exact .push [.puts "> ", .beginContent] _ (by simp)
  | item => exact .push [.bytes _, .beginContent] _ (by simp)
  | footnoteDefinition => exact .push [.countFootnote, .puts "[^", .text _ false .literal, .puts "]:\n"] _ (by simp)
  | codeBlock => exact opens_codeBlockCalls _
  | footnoteReference =>
    obtain ⟨s, found⟩ := Option.isSome_iff_exists.mp (label type)
    rw [found]
    exact .quiet (by simp)
  | heading =>
    have hashes := quiet_replicate n.data.as.getLevel (Call.quiet_puts "#")
    exact .quiet (List.forall_mem_append.mpr ⟨hashes, by simp⟩)
  | htmlBlock | text | htmlInline =>
    obtain ⟨s, found⟩ := literal (by simp [type])
    rw [found]
    exact .quiet (by simp)
  | code => exact .quiet (quiet_codeCalls _ _)
  | linebreak | softbreak | strong | emph =>
    dsimp only
    apply OpensPrefix.quiet
    split_ifs <;> simp
  | link =>
    dsimp only
    simp only [if_true]
    apply OpensPrefix.quiet
    split <;> simp
  | _ => exact .quiet (by simp)

theorem closes_commonmark {literalAt : NodeId → Option Bytes} {n : Node} {place : Place} {options : Options}
    (allowed : VisitAllowed literalAt ⟨false, n, place⟩) (inner : n.type.isLeaf = false) :
    ClosesPrefix (commonmarkPrefix n place) (commonmarkRenderNode literalAt options r ⟨false, n, place⟩) := by
  refine .append (quiet_adjustTight allowed) ?_
  have core : n.data.type.isCoreBlock ∨ n.data.type.isCoreInline := allowed.core
  have inner : n.data.type.isLeaf = false := inner
  unfold commonmarkNode commonmarkPrefix
  rw [show n.type = n.data.type from rfl]
  dsimp only
  cases type : n.data.type with
  | none | extensionBlock | extensionInline =>
    rw [type] at core
    simp [NodeType.isCoreBlock, NodeType.isCoreInline] at core
  | codeBlock | htmlBlock | thematicBreak | text | softbreak | linebreak | code | htmlInline =>
    rw [type] at inner
    cases inner
  | blockQuote => exact .pop [] [.blankline] (lit "> ") (by simp) (by simp)
  | item =>
    have closes : ClosesPrefix (some (List.replicate (itemMarker place).length 32))
        ([] ++ .popPrefix (List.replicate (itemMarker place).length (32 : UInt8)).length :: [.cr]) :=
      .pop _ _ _ (by simp) (by simp)
    rwa [List.length_replicate] at closes
  | footnoteDefinition => exact .pop [] [] (lit "    ") (by simp) (by simp)
  | list | strong | emph =>
    dsimp only
    apply ClosesPrefix.quiet
    split_ifs <;> simp
  | link =>
    dsimp only
    simp only [Bool.false_eq_true, if_false]
    apply ClosesPrefix.quiet
    split
    next => simp
    next => exact quiet_linkTail _ (Call.quiet_puts _)
  | image => exact .quiet (quiet_linkTail _ (Call.quiet_out _ _ _ _))
  | _ => exact .quiet (by simp)

theorem opens_plaintext {literalAt : NodeId → Option Bytes} {n : Node} {place : Place} {options : Options}
    (allowed : VisitAllowed literalAt ⟨true, n, place⟩) :
    OpensPrefix (plaintextPrefix n place) (plaintextRenderNode options r ⟨true, n, place⟩) := by
  refine .append (quiet_adjustTight allowed) ?_
  have core : n.data.type.isCoreBlock ∨ n.data.type.isCoreInline := allowed.core
  have literal := exists_literal (d := n.data)
  unfold plaintextNode plaintextPrefix
  rw [show n.type = n.data.type from rfl]
  dsimp only
  cases type : n.data.type with
  | none | extensionBlock | extensionInline =>
    rw [type] at core
    simp [NodeType.isCoreBlock, NodeType.isCoreInline] at core
  | item => exact .push [.bytes _, .beginContent] _ (by simp)
  | footnoteDefinition => exact .push [.countFootnote, .puts "[^", .bytes _, .puts "]: "] _ (by simp)
  | codeBlock =>
    obtain ⟨s, found⟩ := literal (by simp [type])
    rw [found]
    exact .append (by split <;> simp) (.quiet (by simp))
  | text | code =>
    obtain ⟨s, found⟩ := literal (by simp [type])
    rw [found]
    exact .quiet (by simp)
  | softbreak =>
    dsimp only
    apply OpensPrefix.quiet
    split_ifs <;> simp
  | _ => exact .quiet (by simp)

theorem closes_plaintext {literalAt : NodeId → Option Bytes} {n : Node} {place : Place} {options : Options}
    (allowed : VisitAllowed literalAt ⟨false, n, place⟩) (inner : n.type.isLeaf = false) :
    ClosesPrefix (plaintextPrefix n place) (plaintextRenderNode options r ⟨false, n, place⟩) := by
  refine .append (quiet_adjustTight allowed) ?_
  have core : n.data.type.isCoreBlock ∨ n.data.type.isCoreInline := allowed.core
  have inner : n.data.type.isLeaf = false := inner
  unfold plaintextNode plaintextPrefix
  rw [show n.type = n.data.type from rfl]
  dsimp only
  cases type : n.data.type with
  | none | extensionBlock | extensionInline =>
    rw [type] at core
    simp [NodeType.isCoreBlock, NodeType.isCoreInline] at core
  | codeBlock | htmlBlock | thematicBreak | text | softbreak | linebreak | code | htmlInline =>
    rw [type] at inner
    cases inner
  | item =>
    have closes : ClosesPrefix (some (List.replicate (itemMarker place).length 32))
        ([] ++ .popPrefix (List.replicate (itemMarker place).length (32 : UInt8)).length :: [.cr]) :=
      .pop _ _ _ (by simp) (by simp)
    rwa [List.length_replicate] at closes
  | footnoteDefinition => exact .pop [] [] (lit "    ") (by simp) (by simp)
  | list =>
    dsimp only
    apply ClosesPrefix.quiet
    split_ifs <;> simp
  | _ => exact .quiet (by simp)

/-- A renderer whose nodes append to the prefix when they are entered, and take that off when they are left. -/
structure Format.Bracketed (F : Format) (literalAt : NodeId → Option Bytes) : Prop where
  keeps : ∀ r escape c nextc, (F.outc r escape c nextc).pref = r.pref
  opened : ∃ opened : Node → Place → Option Bytes,
    (∀ {n place} options r, VisitAllowed literalAt ⟨true, n, place⟩ →
      OpensPrefix (opened n place) (F.renderNode options r ⟨true, n, place⟩)) ∧
    (∀ {n place} options r, VisitAllowed literalAt ⟨false, n, place⟩ → n.type.isLeaf = false →
      ClosesPrefix (opened n place) (F.renderNode options r ⟨false, n, place⟩)) ∧
    ∀ n place, n.type.isLeaf || F.skipsContents ⟨true, n, place⟩ → opened n place = none

theorem bracketed_commonmark (literalAt : NodeId → Option Bytes) : (commonmark literalAt).Bracketed literalAt := by
  refine ⟨pref_commonmarkOutc, commonmarkPrefix, fun _ _ => opens_commonmark, fun _ _ => closes_commonmark, ?_⟩
  intro n place single
  unfold commonmarkPrefix
  rcases Bool.or_eq_true_iff.mp single with leaf | skipped
  · cases type : n.type <;> simp_all [NodeType.isLeaf]
  · have link : n.type = .link := by
      by_contra other
      unfold commonmark isAutolink at skipped
      simp [other] at skipped
    rw [link]

theorem bracketed_plaintext (literalAt : NodeId → Option Bytes) : plaintext.Bracketed literalAt := by
  refine ⟨fun _ _ _ _ => rfl, plaintextPrefix, fun _ _ => opens_plaintext, fun _ _ => closes_plaintext, ?_⟩
  intro n place single
  unfold plaintextPrefix
  have leaf : n.type.isLeaf = true := by simpa [plaintext] using single
  cases type : n.type <;> simp_all [NodeType.isLeaf]

/-! ### Whole subtrees -/

section

variable {F : Format} {literalAt : NodeId → Option Bytes} (options : Options)

/-- The state of the two runs after some events. -/
structure VisitsTo (F : Format) (options : Options) (vs : List Visit) (s s' : Renderer × PrefixStack) : Prop where
  run : F.renderVisits options vs s.1 = .ok s'.1
  matched : F.matchVisits options vs s = some s'

theorem VisitsTo.append {vs ws : List Visit} {s s' s'' : Renderer × PrefixStack} (first : VisitsTo F options vs s s')
    (second : VisitsTo F options ws s' s'') : VisitsTo F options (vs ++ ws) s s'' := by
  have run := first.run
  have matched := first.matched
  unfold Format.renderVisits at run
  unfold Format.matchVisits at matched
  constructor
  · rw [Format.renderVisits, List.foldlM_append, run]
    exact second.run
  · rw [Format.matchVisits, List.foldlM_append, matched]
    exact second.matched

theorem VisitsTo.one (v : Visit) {s s' : Renderer × PrefixStack}
    (runs : RunsTo F.outc v.place.path (F.renderNode options s.1 v) s s') : VisitsTo F options [v] s s' := by
  constructor
  · rw [Format.renderVisits, List.foldlM_cons, Format.renderVisit, runs.run]
    rfl
  · rw [Format.matchVisits, List.foldlM_cons, Format.matchVisit, runs.matched]
    rfl

/-- A checked run is a run. -/
theorem run_of_matched {α : Type} {run : Renderer → α → Except RenderError Renderer}
    {matched : Renderer × PrefixStack → α → Option (Renderer × PrefixStack)}
    (each : ∀ s a s', matched s a = some s' → run s.1 a = .ok s'.1) {as : List α} {s s' : Renderer × PrefixStack}
    (done : as.foldlM matched s = some s') : as.foldlM run s.1 = .ok s'.1 := by
  induction as generalizing s with
  | nil =>
    cases done
    rfl
  | cons a as ih =>
    rw [List.foldlM_cons] at done ⊢
    obtain ⟨t, first, rest⟩ := Option.bind_eq_some_iff.mp done
    rw [each s a t first]
    exact ih rest

theorem run_of_runMatched {call : Call} {s s' : Renderer × PrefixStack} (done : call.runMatched outc path s = some s') :
    call.run outc s.1 = .ok s'.1 := by
  unfold Call.runMatched at done
  split at done
  next run =>
    cases done
    exact run
  next => cases done

theorem VisitsTo.of_matched {vs : List Visit} {s s' : Renderer × PrefixStack} (done : F.matchVisits options vs s = some s') :
    VisitsTo F options vs s s' := by
  refine ⟨run_of_matched (fun s v s' visited => ?_) done, done⟩
  exact run_of_matched (fun _ _ _ => run_of_runMatched) visited

/-- What is checked as a whole is checked up to any event. -/
theorem VisitsTo.left {vs ws : List Visit} {s s' : Renderer × PrefixStack} (visits : VisitsTo F options (vs ++ ws) s s') :
    ∃ t, VisitsTo F options vs s t := by
  have matched := visits.matched
  unfold Format.matchVisits at matched
  rw [List.foldlM_append] at matched
  obtain ⟨t, first, _⟩ := Option.bind_eq_some_iff.mp matched
  exact ⟨t, .of_matched options first⟩

/-- The events leave the stack as it was. -/
def Restores (F : Format) (options : Options) (vs : List Visit) : Prop :=
  ∀ r st, ∃ r', VisitsTo F options vs (r, st) (r', st) ∧ r'.pref = r.pref

theorem Restores.nil : Restores F options [] := fun r _ => ⟨r, ⟨rfl, rfl⟩, rfl⟩

theorem Restores.append {vs ws : List Visit} (first : Restores F options vs) (second : Restores F options ws) :
    Restores F options (vs ++ ws) := by
  intro r st
  obtain ⟨r₁, visits₁, same₁⟩ := first r st
  obtain ⟨r₂, visits₂, same₂⟩ := second r₁ st
  exact ⟨r₂, visits₁.append options visits₂, same₂.trans same₁⟩

mutual

/-- What a node appends to the prefix is still there when the node is left, because its children restore the prefix. -/
theorem restores_visitsSkipping (bracketed : F.Bracketed literalAt) (place : Place) : (n : Node) →
    (∀ v ∈ n.visitsSkipping F.skipsContents place, VisitAllowed literalAt v) →
    Restores F options (n.visitsSkipping F.skipsContents place)
  | .mk i d cs, allowed => by
    obtain ⟨opened, opens, closes, single⟩ := bracketed.opened
    have single := single (.mk i d cs) place
    unfold Node.visitsSkipping at allowed ⊢
    dsimp only at allowed ⊢
    intro r st
    split at allowed
    next alone =>
      rw [if_pos alone]
      have enter := opens options r (allowed _ List.mem_cons_self)
      rw [single alone] at enter
      obtain ⟨r', runs, same⟩ := runsTo_opens bracketed.keeps place.path enter r st
      refine ⟨r', .one options _ runs, ?_⟩
      rw [same]
      exact List.append_nil _
    next inside =>
      rw [if_neg inside]
      rw [List.forall_mem_cons, List.forall_mem_append] at allowed
      obtain ⟨allowedEnter, below, allowedLeave⟩ := allowed
      have inner : d.type.isLeaf = false := by
        rw [Bool.or_eq_true, not_or] at inside
        exact Bool.eq_false_iff.mpr inside.1
      have enter := opens options r allowedEnter
      obtain ⟨r₁, runs₁, pref₁⟩ := runsTo_opens bracketed.keeps place.path enter r st
      obtain ⟨r₂, visits, pref₂⟩ := restores_visitsSkippingFrom bracketed place d [] cs below r₁
        (((opened (.mk i d cs) place).map (place.path, ·)).toList ++ st)
      have leave := closes options r₂ (allowedLeave _ List.mem_cons_self) inner
      obtain ⟨r₃, runs₃, pref₃⟩ := runsTo_closes bracketed.keeps place.path leave st (pref₂.trans pref₁)
      have first : VisitsTo F options [⟨true, .mk i d cs, place⟩] (r, st) (r₁, _) := .one options _ runs₁
      have last : VisitsTo F options [⟨false, .mk i d cs, place⟩] (r₂, _) (r₃, st) := .one options _ runs₃
      exact ⟨r₃, first.append options (visits.append options last), pref₃⟩

theorem restores_visitsSkippingFrom (bracketed : F.Bracketed literalAt) (place : Place) (d : NodeData) (before : Forest) : (f : Forest) →
    (∀ v ∈ visitsSkippingFrom F.skipsContents place d before f, VisitAllowed literalAt v) →
    Restores F options (visitsSkippingFrom F.skipsContents place d before f)
  | [], _ => by
    unfold visitsSkippingFrom
    exact .nil options
  | n :: ns, allowed => by
    unfold visitsSkippingFrom at allowed ⊢
    rw [List.forall_mem_append] at allowed
    exact (restores_visitsSkipping bracketed (place.below d before ns) n allowed.1).append options
      (restores_visitsSkippingFrom bracketed place d (n :: before) ns allowed.2)

end

end

/-! ### The index of an item -/

/-- `as.list.start` of the items, by their positions. -/
abbrev ItemIndices := List Nat → Nat

/-- `cmark_node_set_item_index` in `cmark_render`, at every event. -/
def setItemIndex (indices : ItemIndices) (v : Visit) : ItemIndices :=
  if v.node.type = .item then
    Function.update indices v.place.path <|
      match v.place.before, v.place.path with
      | [], _ | _, [] => v.place.listStart
      | previous :: before, _ :: path => 1 + if previous.type = .item then indices (before.length :: path) else 0
  else indices

/-- The index that is set is the one the renderers read. -/
def matchItemIndex (indices : ItemIndices) (v : Visit) : Option ItemIndices :=
  let indices := setItemIndex indices v
  if v.node.type = .item ∧ indices v.place.path ≠ v.place.itemIndex then none else some indices

/-- The index of the item before is set. -/
def PreviousIndexed (indices : ItemIndices) (place : Place) : Prop :=
  match place.before, place.path with
  | [], _ => True
  | _ :: _, [] => False
  | previous :: before, k :: path => k = before.length + 1 ∧
    (previous.type = .item → indices (before.length :: path) = itemIndex place.listStart before)

theorem PreviousIndexed.of_frame {indices indices' : ItemIndices} {place : Place} (previous : PreviousIndexed indices place)
    (frame : ∀ q, ¬ place.path <:+ q → indices' q = indices q) : PreviousIndexed indices' place := by
  unfold PreviousIndexed at previous ⊢
  split at previous
  next => trivial
  next => exact previous.elim
  next p before k path _ isPath =>
    refine ⟨previous.1, fun item => ?_⟩
    rw [frame, previous.2 item]
    -- a position of the same length
    intro below
    rw [isPath] at below
    have same := below.eq_of_length rfl
    have := (List.cons.inj same).1
    omega

theorem setItemIndex_other {indices : ItemIndices} {v : Visit} {path : List Nat} (other : ¬ v.place.path <:+ path) :
    setItemIndex indices v path = indices path := by
  unfold setItemIndex
  split
  next =>
    apply Function.update_of_ne
    rintro rfl
    exact other List.suffix_rfl
  next => rfl

/-- An event sets the right index if the item before has the right one. -/
theorem matchItemIndex_eq {indices : ItemIndices} {v : Visit} (previous : PreviousIndexed indices v.place) :
    matchItemIndex indices v = some (setItemIndex indices v) ∧
      (v.node.type = .item → setItemIndex indices v v.place.path = v.place.itemIndex) := by
  have index (item : v.node.type = .item) : setItemIndex indices v v.place.path = v.place.itemIndex := by
    rw [setItemIndex, if_pos item, Function.update_self]
    unfold PreviousIndexed at previous
    unfold Place.itemIndex
    cases before : v.place.before with
    | nil => rfl
    | cons p b =>
      rw [before] at previous
      cases path : v.place.path with
      | nil =>
        rw [path] at previous
        exact previous.elim
      | cons k path' =>
        rw [path] at previous
        dsimp only at previous ⊢
        rw [itemIndex]
        congr 1
        split
        next isItem => exact previous.2 isItem
        next => rfl
  refine ⟨?_, index⟩
  unfold matchItemIndex
  dsimp only
  rw [if_neg (by rintro ⟨item, wrong⟩; exact wrong (index item))]

mutual

/-- The indices above and beside a node are left alone, so at its end its own is found again. -/
theorem itemIndex_visitsSkipping (skips : Visit → Bool) (place : Place) : (n : Node) → (indices : ItemIndices) →
    PreviousIndexed indices place →
    ∃ indices', (n.visitsSkipping skips place).foldlM matchItemIndex indices = some indices' ∧
      (∀ q, ¬ place.path <:+ q → indices' q = indices q) ∧ (n.type = .item → indices' place.path = place.itemIndex)
  | .mk i d cs, indices, previous => by
    obtain ⟨enter, index⟩ := matchItemIndex_eq (v := ⟨true, .mk i d cs, place⟩) previous
    have frame₁ (q : List Nat) (other : ¬ place.path <:+ q) :
        setItemIndex indices ⟨true, .mk i d cs, place⟩ q = indices q := setItemIndex_other other
    unfold Node.visitsSkipping
    dsimp only
    split
    next =>
      refine ⟨_, ?_, frame₁, index⟩
      rw [List.foldlM_cons, enter]
      rfl
    next =>
      obtain ⟨indices', visited, frame₂⟩ := itemIndex_visitsSkippingFrom skips place d [] cs
        (setItemIndex indices ⟨true, .mk i d cs, place⟩) trivial
      have frame (q : List Nat) (other : ¬ place.path <:+ q) : indices' q = indices q :=
        (frame₂ q other).trans (frame₁ q other)
      obtain ⟨leave, index'⟩ := matchItemIndex_eq (v := ⟨false, .mk i d cs, place⟩) (previous.of_frame frame)
      refine ⟨_, ?_, fun q other => (setItemIndex_other other).trans (frame q other), index'⟩
      rw [List.foldlM_cons, enter]
      show (visitsSkippingFrom skips place d [] cs ++ [_]).foldlM matchItemIndex _ = _
      rw [List.foldlM_append, visited]
      show [_].foldlM matchItemIndex indices' = _
      rw [List.foldlM_cons, leave]
      rfl

theorem itemIndex_visitsSkippingFrom (skips : Visit → Bool) (place : Place) (d : NodeData) (before : Forest) :
    (f : Forest) → (indices : ItemIndices) → PreviousIndexed indices (place.below d before f.tail) →
    ∃ indices', (visitsSkippingFrom skips place d before f).foldlM matchItemIndex indices = some indices' ∧
      ∀ q, ¬ place.path <:+ q → indices' q = indices q
  | [], indices, _ => by
    unfold visitsSkippingFrom
    exact ⟨indices, rfl, fun _ _ => rfl⟩
  | n :: ns, indices, previous => by
    obtain ⟨indices₁, first, frame₁, index⟩ := itemIndex_visitsSkipping skips (place.below d before ns) n indices previous
    have next : PreviousIndexed indices₁ (place.below d (n :: before) ns.tail) := ⟨rfl, index⟩
    obtain ⟨indices₂, second, frame₂⟩ := itemIndex_visitsSkippingFrom skips place d (n :: before) ns indices₁ next
    unfold visitsSkippingFrom
    refine ⟨indices₂, ?_, fun q other => ?_⟩
    · rw [List.foldlM_append, first]
      exact second
    · have deeper : ¬ (place.below d before ns).path <:+ q :=
        fun isSuffix => other ((List.suffix_cons before.length place.path).trans isSuffix)
      exact (frame₂ q other).trans (frame₁ q deeper)

end

/-! ### Documents -/

/-- A node of the core types that the renderers can look up. -/
def Labelled (literalAt : NodeId → Option Bytes) (i : NodeId) (d : NodeData) (cs : Forest) : Prop :=
  CoreNode i d cs ∧ RefersTo (fun f => (literalAt f).isSome) i d cs

mutual

/-- The nodes of a tree of the parser are visited where they may be. -/
theorem allowed_visitsSkipping {literalAt : NodeId → Option Bytes} {skips : Visit → Bool} {place : Place}
    (list : place.parent.any (·.type == .item) → place.grandparent.isSome) : (n : Node) → n.All (Labelled literalAt) →
    (place.ancestors = [] → n.type ≠ .item) → ∀ v ∈ n.visitsSkipping skips place, VisitAllowed literalAt v
  | .mk i d cs, all, top => by
    have here (entering : Bool) : VisitAllowed literalAt ⟨entering, .mk i d cs, place⟩ := by
      refine ⟨all.1.1.core, list, fun reference => ?_⟩
      obtain ⟨f, resolved, found⟩ := all.1.2 reference
      show (d.parentFootnoteDef.bind literalAt).isSome
      rw [resolved]
      exact found
    have below : ∀ v ∈ visitsSkippingFrom skips place d [] cs, VisitAllowed literalAt v :=
      allowed_visitsSkippingFrom (fun item above => top above item) cs all.2
    unfold Node.visitsSkipping
    dsimp only
    split
    next => simpa using here true
    next => simpa [List.forall_mem_append] using ⟨here true, fun v => Or.rec (below v) fun last => last ▸ here false⟩

theorem allowed_visitsSkippingFrom {literalAt : NodeId → Option Bytes} {skips : Visit → Bool} {place : Place} {d : NodeData}
    {before : Forest} (list : d.type = .item → place.ancestors ≠ []) : (f : Forest) → AllList (Labelled literalAt) f →
    ∀ v ∈ visitsSkippingFrom skips place d before f, VisitAllowed literalAt v
  | [], _ => by
    unfold visitsSkippingFrom
    nofun
  | n :: ns, all => by
    unfold visitsSkippingFrom
    rw [List.forall_mem_append]
    refine ⟨allowed_visitsSkipping ?_ n all.1 (fun impossible => nomatch impossible), allowed_visitsSkippingFrom list ns all.2⟩
    intro item
    have above := list (by simpa [Place.parent, Place.below] using item)
    obtain ⟨g, rest, eq⟩ := List.exists_cons_of_ne_nil above
    rw [Place.grandparent, Place.below, List.tail_cons, eq]
    rfl

end

/-- The nodes of every document of the core parser can be looked up. -/
theorem labelled_documentOf {P : Config} (core : P.syntaxExtensions = []) (callback : Option (UInt8 → Bool))
    (chunks : List Bytes) :
    (documentOf P callback chunks).All (Labelled (literalIn (documentOf P callback chunks))) := by
  have nodes := (coreNode_documentOf core callback chunks).1
  refine all_of_postorder _ fun m inTree => ⟨(Node.All.of_mem _ nodes inTree).here, ?_⟩
  by_cases footnotes : P.options.has optFootnotes
  · have refers := (Node.All.of_mem _ (refersTo_documentOf core footnotes callback chunks) inTree).here
    refine RefersTo.imp (fun f left => ?_) refers
    obtain ⟨n, definition, same⟩ := List.mem_map.mp left
    rw [exits_eq_filter] at definition
    have found := find?_isSome (documentOf P callback chunks) ⟨n, (List.mem_filter.mp definition).1, same⟩
    show (((documentOf P callback chunks).find? f).map Node.literal).isSome
    rwa [Option.isSome_map]
  · intro reference
    have checked : (documentOf P callback chunks).All (CheckedNode P) := by
      rw [documentOf_core core, if_neg footnotes]
      exact (consolidateTextNodes_all (t := .document) (stable_checkedNode P).toPrunable
        (fun all => coreNode_text all.toCoreNode) (by decide) _ (checkedNode_parsedDocument core callback chunks)).1
    exact absurd ((Node.All.of_mem _ checked inTree).here.reference reference) footnotes

/-- Whatever subtree the CommonMark or the plain text renderer has rendered, the prefix is as it was before. Every
truncation up to there has taken off exactly what the same node had appended, with the indices of the items as the
driver has set them. -/
theorem render_restores_prefix {P : Config} (core : P.syntaxExtensions = []) (callback : Option (UInt8 → Bool))
    (chunks : List Bytes) (options : Options) (width : Int) (F : Format)
    (known : F = commonmark (literalIn (documentOf P callback chunks)) ∨ F = plaintext) (before : List Visit) (n : Node)
    (place : Place) (after : List Visit)
    (inside : (documentOf P callback chunks).visitsSkipping F.skipsContents {} =
      before ++ n.visitsSkipping F.skipsContents place ++ after) :
    (∃ s, VisitsTo F options before ({ width := width }, []) s) ∧
    (∀ r st, ∃ r', VisitsTo F options (n.visitsSkipping F.skipsContents place) (r, st) (r', st) ∧ r'.pref = r.pref) ∧
    ∀ indices, ∃ indices', ((documentOf P callback chunks).visitsSkipping F.skipsContents {}).foldlM matchItemIndex indices =
      some indices' := by
  obtain ⟨_, document⟩ := coreNode_documentOf core callback chunks
  have labelled := labelled_documentOf core callback chunks
  generalize documentOf P callback chunks = root at known inside document labelled ⊢
  have bracketed : F.Bracketed (literalIn root) := by
    rcases known with rfl | rfl
    · exact bracketed_commonmark _
    · exact bracketed_plaintext _
  have allowed : ∀ v ∈ root.visitsSkipping F.skipsContents {}, VisitAllowed (literalIn root) v := by
    refine allowed_visitsSkipping (fun item => by simp [Place.parent] at item) root labelled fun _ => ?_
    rw [document]
    decide
  refine ⟨?_, ?_, fun indices => ?_⟩
  · obtain ⟨_, whole, _⟩ := restores_visitsSkipping options bracketed {} root allowed { width := width } []
    rw [inside, List.append_assoc] at whole
    exact whole.left
  · apply restores_visitsSkipping options bracketed
    intro v member
    apply allowed
    rw [inside]
    exact List.mem_append_left after (List.mem_append_right before member)
  · obtain ⟨indices', visited, _⟩ := itemIndex_visitsSkipping F.skipsContents {} root indices trivial
    exact ⟨indices', visited⟩

/-- A list in a block quote. -/
def quotedDocument : Node := documentOf { tables := asciiTables, options := 0 } none [lit "> 9. a\n> 10. b\n"]

theorem render_restores_prefix_quoted :
    (∃ s, VisitsTo (commonmark (literalIn quotedDocument)) 0 [] ({ width := 0 }, []) s) ∧
    (∀ r st, ∃ r', VisitsTo (commonmark (literalIn quotedDocument)) 0
      (quotedDocument.visitsSkipping (commonmark (literalIn quotedDocument)).skipsContents {}) (r, st) (r', st) ∧
        r'.pref = r.pref) ∧
    ∀ indices, ∃ indices', (quotedDocument.visitsSkipping (commonmark (literalIn quotedDocument)).skipsContents {}).foldlM
      matchItemIndex indices = some indices' :=
  render_restores_prefix rfl none [lit "> 9. a\n> 10. b\n"] 0 0 _ (.inl rfl) [] quotedDocument {} []
    (by rw [List.nil_append, List.append_nil]; rfl)

end CmarkGfm
