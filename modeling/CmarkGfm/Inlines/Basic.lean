import CmarkGfm.Parser.State

/-! # Reading the subject and making inline nodes (inlines.c) -/

namespace CmarkGfm

/-! ### Positions in the content -/

/-- The position after the bytes from `pos` on that satisfy `p`. -/
def skipWhile (p : UInt8 → Bool) (input : Bytes) (pos : Nat) : Nat :=
  pos + ((input.drop pos).takeWhile p).length

section

variable (p : UInt8 → Bool) (input : Bytes) (pos : Nat)

theorem le_skipWhile : pos ≤ skipWhile p input pos := Nat.le_add_right _ _

theorem skipWhile_le_length (inside : pos ≤ input.length) :
    skipWhile p input pos ≤ input.length := by
  have shorter : ((input.drop pos).takeWhile p).length ≤ (input.drop pos).length :=
    (List.takeWhile_sublist p).length_le
  rw [List.length_drop] at shorter
  unfold skipWhile
  omega

variable {p input pos}

theorem byteAt_eq_getElem {i : Nat} (inside : i < input.length) : byteAt input i = input[i] := by
  simp [byteAt, inside]

/-- A byte that is not NUL is in the content. -/
theorem lt_length_of_byteAt {i : Nat} (notNul : byteAt input i ≠ 0) : i < input.length := by
  by_contra outside
  refine notNul ?_
  rw [byteAt, List.getD_eq_getElem?_getD, List.getElem?_eq_none (by omega)]
  rfl

theorem lt_length_of_byteAt_eq {i : Nat} {c : UInt8} (here : byteAt input i = c)
    (notNul : c ≠ 0) : i < input.length :=
  lt_length_of_byteAt (here ▸ notNul)

/-- The byte at a position is the first of what is left. -/
theorem head?_drop_iff {c : UInt8} (notNul : c ≠ 0) :
    (input.drop pos).head? = some c ↔ byteAt input pos = c := by
  rw [List.head?_drop]
  constructor
  · intro head
    rw [byteAt, List.getD_eq_getElem?_getD, head]
    rfl
  · intro here
    have inside := lt_length_of_byteAt_eq here notNul
    rw [List.getElem?_eq_getElem inside, ← here, byteAt_eq_getElem inside]

/-- The bytes passed satisfy the predicate. -/
theorem holds_of_lt_skipWhile {i : Nat} (from_pos : pos ≤ i) (before : i < skipWhile p input pos) :
    p (byteAt input i) = true := by
  unfold skipWhile at before
  have inside : i - pos < ((input.drop pos).takeWhile p).length := by omega
  have passed := List.all_eq_true.mp (List.all_takeWhile (l := input.drop pos) (p := p)) _
    (List.getElem_mem inside)
  have bound : i < input.length := by
    have shorter := (List.takeWhile_sublist (l := input.drop pos) p).length_le
    rw [List.length_drop] at shorter
    omega
  have same : ((input.drop pos).takeWhile p)[i - pos] = input[i] := by
    rw [(List.takeWhile_prefix p).getElem inside, List.getElem_drop]
    congr 1
    omega
  rwa [same, ← byteAt_eq_getElem bound] at passed

/-- The byte at which skipping stops does not. -/
theorem not_holds_at_skipWhile (stopped : skipWhile p input pos < input.length) :
    p (byteAt input (skipWhile p input pos)) = false := by
  have rest : (input.drop pos).dropWhile p = input.drop (skipWhile p input pos) := by
    rw [← drop_length_takeWhile, List.drop_drop, skipWhile]
  have nonempty : (input.drop pos).dropWhile p ≠ [] := by
    rw [rest]
    simpa using stopped
  have head := List.head_dropWhile_not p nonempty
  rw [byteAt_eq_getElem stopped]
  simpa [rest, List.head_drop] using head

end

def skipSpaces (input : Bytes) (pos : Nat) : Nat := skipWhile isSpaceOrTab input pos

/-- `skip_line_end`; `none` where it returns false, which leaves the position. -/
def skipLineEnd (input : Bytes) (pos : Nat) : Option Nat :=
  let afterCr := if byteAt input pos == 13 then pos + 1 else pos
  let afterLf := if byteAt input afterCr == 10 then afterCr + 1 else afterCr
  if afterLf != pos || input.length ≤ afterLf then some afterLf else none

/-- Zero or more spaces, including at most one newline. -/
def spnl (input : Bytes) (pos : Nat) : Nat :=
  let pos := skipSpaces input pos
  match skipLineEnd input pos with
  | some afterLineEnd => skipSpaces input afterLineEnd
  | none => pos

/-- The loop of `count_newlines`: newlines so far, and bytes since the last one. -/
def countNewlinesFrom : Nat → Nat → Bytes → Nat × Nat
  | nls, sinceNl, [] => (nls, sinceNl)
  | nls, sinceNl, c :: rest =>
    if c == 10 then countNewlinesFrom (nls + 1) 0 rest else countNewlinesFrom nls (sinceNl + 1) rest

def countNewlines (text : Bytes) : Nat × Nat := countNewlinesFrom 0 0 text

namespace Subject

/-- `subject_from_buf`, for the content of a block. -/
def ofBlock (parent : NodeData) (content : Bytes) (children : Forest) (refmap : Map Reference)
    (nextId : NodeId) : Subject where
  input := content
  parent := parent
  line := parent.startLine
  blockOffset := parent.startColumn - 1 + parent.internalOffset
  refmap := refmap
  children := children
  nextId := nextId

def peekCharN (subj : Subject) (n : Nat) : UInt8 := byteAt subj.input (subj.pos + n)

def peekChar (subj : Subject) : UInt8 := subj.peekCharN 0

def isEof (subj : Subject) : Bool := subj.input.length ≤ subj.pos

def advance (subj : Subject) (n : Nat) : Subject := { subj with pos := subj.pos + n }

/-- The column of a position of the content, counted from 1. -/
def column (subj : Subject) (pos : Int) : Int := pos + 1 + subj.columnOffset + subj.blockOffset

/-- Allocate a node. -/
def alloc (subj : Subject) (data : NodeData) : Subject × Node :=
  ({ subj with nextId := subj.nextId + 1 }, .leaf subj.nextId data)

def literalData (subj : Subject) (t : NodeType) (startColumn endColumn : Int) (s : Bytes) :
    NodeData where
  type := t
  startLine := subj.line
  endLine := subj.line
  startColumn := subj.column startColumn
  endColumn := subj.column endColumn
  as := .literal s

def makeLiteral (subj : Subject) (t : NodeType) (startColumn endColumn : Int) (s : Bytes) :
    Subject × Node :=
  subj.alloc (subj.literalData t startColumn endColumn s)

def makeStr (subj : Subject) (startColumn endColumn : Int) (s : Bytes) : Subject × Node :=
  subj.makeLiteral .text startColumn endColumn s

/-- `make_str` of a chunk that points into the content at `chunkPos`. -/
def makeStrAt (subj : Subject) (startColumn endColumn : Int) (chunkPos : Nat) (s : Bytes) :
    Subject × Node :=
  subj.alloc { subj.literalData .text startColumn endColumn s with chunkPos := some chunkPos }

def makeSimple (subj : Subject) (t : NodeType) : Subject × Node := subj.alloc { type := t }

/-- A one-character text node for the character just read. -/
def makeChar (subj : Subject) (c : UInt8) : Subject × Node :=
  subj.makeStr ((subj.pos : Int) - 1) ((subj.pos : Int) - 1) [c]

/-- `append_child` to the block being parsed. -/
def appendChild (subj : Subject) (child : Node) : Subject :=
  { subj with children := subj.children ++ [child] }

/-- `adjust_subj_node_newlines`, on the data of a leaf. -/
def adjustNodeNewlines (options : Options) (subj : Subject) (node : Node) (matchlen extra : Nat) :
    Subject × Node :=
  if !options.has optSourcepos then (subj, node)
  else
    let (newlines, sinceNewline) :=
      countNewlines (chunkDup subj.input (subj.pos - matchlen - extra) matchlen)
    if newlines = 0 then (subj, node)
    else
      ({ subj with
          line := subj.line + newlines
          columnOffset := -(subj.pos : Int) + sinceNewline + extra },
        node.setData { node.data with
          endLine := node.data.endLine + newlines
          endColumn := sinceNewline })

end Subject

/-- `cmark_clean_autolink`. -/
def cleanAutolink (T : Tables) (url : Bytes) (isEmail : Bool) : Bytes :=
  let url := chunkTrim url
  if url.length = 0 then []
  else (if isEmail then lit "mailto:" else []) ++ unescapeHtml T url

/-- `make_autolink`; its text is `make_str_with_entities`. -/
def Subject.makeAutolink (T : Tables) (subj : Subject) (startColumn endColumn : Int) (url : Bytes)
    (isEmail : Bool) : Subject × Node :=
  let (subj, link) := subj.alloc
    { type := .link
      as := .link (cleanAutolink T url isEmail) []
      startLine := subj.line
      endLine := subj.line
      startColumn := subj.column startColumn
      endColumn := subj.column endColumn }
  let (subj, text) :=
    subj.makeStr (startColumn + 1) (endColumn - 1) (unescapeHtml T (chunkTrim url))
  (subj, .mk link.id link.data [text])

/-! ### Insertion with the checks of `S_can_contain` -/

/-- May a node of this type become a sibling of node `i`? -/
def canInsertBeside (P : Config) (parent : NodeData) (i : NodeId) (t : NodeType) (f : Forest) :
    Bool :=
  match familyOf? i parent f with
  | some (owner, _) => P.nodeCanContainType owner t
  | none => false

end CmarkGfm
