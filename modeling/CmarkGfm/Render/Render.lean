import CmarkGfm.Render.Html
import CmarkGfm.Utf8

/-!
# render.c

What the LaTeX, man, CommonMark and plain text renderers share: a buffer to which strings are put
out, broken into lines. A renderer makes its calls at every event of the iterator.
-/

namespace CmarkGfm

/-- `cmark_escaping` -/
inductive Escaping where
  | literal
  | normal
  | title
  | url
  deriving DecidableEq

/-- Who a byte of the output comes from. The source does not keep this. -/
inductive Origin where
  | renderer
  | document
  deriving DecidableEq

/-- A byte of the output. -/
structure OutByte where
  byte : UInt8
  origin : Origin
  deriving DecidableEq

/-- `cmark_renderer`. `pref` is the field `prefix`, `origin` says where the string being put
out comes from. -/
structure Renderer where
  buffer : List OutByte := []
  pref : Bytes := []
  column : Nat := 0
  width : Int
  needCr : Nat := 0
  lastBreakable : Nat := 0
  beginLine : Bool := true
  beginContent : Bool := true
  noLinebreaks : Bool := false
  inTightListItem : Bool := false
  footnoteIx : Nat := 0
  origin : Origin := .renderer

namespace Renderer

def put (origin : Origin) (s : Bytes) (r : Renderer) : Renderer :=
  { r with buffer := r.buffer ++ s.map fun c => ⟨c, origin⟩ }

/-- `S_cr` -/
def cr (r : Renderer) : Renderer := if r.needCr < 1 then { r with needCr := 1 } else r

/-- `S_blankline` -/
def blankline (r : Renderer) : Renderer := if r.needCr < 2 then { r with needCr := 2 } else r

/-- `cmark_render_ascii` -/
def renderAscii (s : Bytes) (r : Renderer) : Renderer :=
  { r.put r.origin s with column := r.column + s.length }

/-- `cmark_render_code_point` -/
def renderCodePoint (c : Nat) (r : Renderer) : Renderer :=
  { r.put r.origin (utf8EncodeChar c) with column := r.column + 1 }

/-! ### S_out -/

/-- Is there no line to end before `upTo`? -/
def newlineAt (upTo : Nat) (r : Renderer) : Bool :=
  upTo == 0 || (r.buffer[upTo - 1]?).any (·.byte == 10)

/-- End a line; `n` is `need_cr`. -/
def endLine (n : Nat) (r : Renderer) : Renderer :=
  let r := r.put .renderer [10]
  if n > 1 then r.put .renderer r.pref else r

/-- The loop over `need_cr`; `upTo` is `k + 1`. -/
def writeBreaks : Nat → Nat → Renderer → Renderer
  | 0, _, r => { r with needCr := 0 }
  | n + 1, upTo, r =>
    let newline := r.newlineAt upTo
    writeBreaks n (if newline then upTo - 1 else upTo)
      { if newline then r else r.endLine (n + 1) with
        column := 0, lastBreakable := 0, beginLine := true, beginContent := true }

/-- A line begins with the prefix. -/
def startLine (r : Renderer) : Renderer :=
  if r.beginLine then { r.put .renderer r.pref with column := r.pref.length } else r

/-- Write a space at which the line may be broken later, if no digit follows. -/
def putSpace (rest : Bytes) (r : Renderer) : Renderer :=
  { r.put r.origin [32] with
    column := r.column + 1
    beginLine := false
    beginContent := false
    lastBreakable := if isdigit (byteAt rest 0) then r.lastBreakable else r.buffer.length }

/-- After a character the line has begun. Its content has not, as long as there are only digits. -/
def afterChar (c : Nat) (r : Renderer) : Renderer :=
  { r with beginLine := false, beginContent := r.beginContent && isdigit (UInt8.ofNat c) }

/-- Write a character without escaping. -/
def putLiteral (c : Nat) (r : Renderer) : Renderer :=
  if c = 10 then
    { r.put r.origin [10] with
      column := 0, beginLine := true, beginContent := true, lastBreakable := 0 }
  else (r.renderCodePoint c).afterChar c

/-- Is the line too long, and is there a place where it can be broken? -/
def breaks (r : Renderer) : Bool :=
  0 < r.width && r.width < r.column && !r.beginLine && 0 < r.lastBreakable

/-- What a break moves to the next line. -/
def remainder (r : Renderer) : List OutByte := r.buffer.drop (r.lastBreakable + 1)

/-- Break the line at the last place where it can be broken. -/
def breakLine (r : Renderer) : Renderer :=
  let line := ({ r with buffer := r.buffer.take r.lastBreakable }.put .renderer [10]).put
    .renderer r.pref
  { line with
    buffer := line.buffer ++ r.remainder
    column := r.pref.length + r.remainder.length
    lastBreakable := 0
    beginLine := false
    beginContent := false }

end Renderer

/-- The function of a renderer that escapes a character and writes it: it is given the kind of
escaping, the character and the byte after it. -/
abbrev Outc := Renderer → Escaping → Nat → UInt8 → Renderer

/-- Write one character; the other part of the result is what is left of the string. -/
def writeChar (outc : Outc) (wrap : Bool) (escape : Escaping) (c : Nat) (rest : Bytes)
    (r : Renderer) : Bytes × Renderer :=
  if c = 32 ∧ wrap then
    if r.beginLine then (rest, r)
    else
      -- skip following spaces
      let rest := rest.dropWhile (· == 32)
      (rest, r.putSpace rest)
  else if escape = .literal then (rest, r.putLiteral c)
  else (rest, (outc r escape c (byteAt rest 0)).afterChar c)

/-- The loop of `S_out` over the characters. Every turn consumes a byte. -/
def outChars (outc : Outc) (wrap : Bool) (escape : Escaping) : Nat → Bytes → Renderer → Renderer
  | 0, _, r => r
  | _, [], r => r
  | fuel + 1, b :: bs, r =>
    let r := r.startLine
    match utf8Iterate (b :: bs) with
    | none => r
    | some (c, len) =>
      let (rest, r) := writeChar outc wrap escape c ((b :: bs).drop len) r
      outChars outc wrap escape fuel rest (if r.breaks then r.breakLine else r)

namespace Renderer

/-- Write the newlines that are due before a string. In a tight list there are no blank lines. -/
def startString (origin : Origin) (r : Renderer) : Renderer :=
  let n := if r.inTightListItem ∧ r.needCr > 1 then 1 else r.needCr
  { r with origin := origin }.writeBreaks n r.buffer.length

/-- `S_out` -/
def out (outc : Outc) (origin : Origin) (source : Bytes) (wrap : Bool) (escape : Escaping)
    (r : Renderer) : Renderer :=
  outChars outc (wrap && !r.noLinebreaks) escape (cstr source).length (cstr source)
    (r.startString origin)

end Renderer

/-! ### The calls of a renderer -/

/-- What `S_render_node` does to the renderer. A string without a value is NULL. -/
inductive Call where
  | cr
  | blankline
  | out (origin : Origin) (source : Option Bytes) (wrap : Bool) (escape : Escaping)
  | setTightListItem (tight : Bool)
  | setNoLinebreaks (off : Bool)
  | beginContent
  | pushPrefix (s : Bytes)
  | popPrefix (size : Nat)
  | countFootnote
  | fail (e : RenderError)

namespace Call

/-- `LIT`, for a string constant or a number. -/
def bytes (s : Bytes) : Call := .out .renderer (some s) false .literal

/-- `LIT` -/
def puts (s : String) : Call := .bytes (CmarkGfm.lit s)

/-- `OUT`, for a string of the document. -/
def text (s : Bytes) (wrap : Bool) (escape : Escaping) : Call := .out .document (some s) wrap escape

/-- A string of the renderer's own that may be wrapped. -/
def space (wrap : Bool) (escape : Escaping) : Call := .out .renderer (some [32]) wrap escape

/-- `OUT`, for the result of an accessor. -/
def textOrNull (s : Option Bytes) (wrap : Bool) (escape : Escaping) : Call :=
  .out .document s wrap escape

def run (outc : Outc) (r : Renderer) : Call → Except RenderError Renderer
  | .cr => .ok r.cr
  | .blankline => .ok r.blankline
  | .out origin (some source) wrap escape => .ok (r.out outc origin source wrap escape)
  | .out _ none _ _ => .error .nullPointer
  | .setTightListItem tight => .ok { r with inTightListItem := tight }
  | .setNoLinebreaks off => .ok { r with noLinebreaks := off }
  | .beginContent => .ok { r with beginContent := true }
  | .pushPrefix s => .ok { r with pref := r.pref ++ s }
  | .popPrefix size => .ok { r with pref := r.pref.take (r.pref.length - size) }
  | .countFootnote => .ok { r with footnoteIx := r.footnoteIx + 1 }
  | .fail e => .error e

end Call

/-! ### cmark_render -/

mutual

/-- The events of the iterator, where the contents of some nodes are skipped: the renderer
returns 0 at the entry of such a node. -/
def Node.visitsSkipping (skips : Visit → Bool) (place : Place) : Node → List Visit
  | .mk i d cs =>
    let enter : Visit := ⟨true, .mk i d cs, place⟩
    if d.type.isLeaf || skips enter then [enter]
    else enter :: (visitsSkippingFrom skips place d [] cs ++ [⟨false, .mk i d cs, place⟩])

def visitsSkippingFrom (skips : Visit → Bool) (place : Place) (d : NodeData) (before : Forest) :
    Forest → List Visit
  | [] => []
  | n :: after =>
    n.visitsSkipping skips (place.below d before after) ++
      visitsSkippingFrom skips place d (n :: before) after

end

/-- The functions a renderer gives to `cmark_render`. -/
structure Format where
  outc : Outc
  renderNode : Options → Renderer → Visit → List Call
  skipsContents : Visit → Bool := fun _ => false

namespace Format

variable (F : Format) (options : Options)

/-- The calls at one event. -/
def renderVisit (r : Renderer) (v : Visit) : Except RenderError Renderer :=
  (F.renderNode options r v).foldlM (Call.run F.outc) r

def renderVisits (vs : List Visit) (r : Renderer) : Except RenderError Renderer :=
  vs.foldlM (F.renderVisit options) r

/-- `cmark_render` -/
def render (width : Int) (root : Node) : Except RenderError (List OutByte) := do
  let r ← F.renderVisits options (root.visitsSkipping F.skipsContents {}) { width := width }
  -- ensure final newline
  return if r.buffer.getLast?.any (·.byte == 10) then r.buffer else r.buffer ++ [⟨10, .renderer⟩]

end Format

/-! ### Fields of nodes -/

/-- `cmark_node_get_literal` -/
def NodeData.getLiteral? (d : NodeData) : Option Bytes :=
  match d.type with
  | .htmlBlock | .text | .htmlInline | .code | .footnoteReference | .footnoteDefinition =>
    some d.as.getLiteral
  | .codeBlock => some d.as.getCode.literal
  | _ => none

/-- `cmark_node_get_list_type` of the parent. -/
def Place.listType (place : Place) : ListType :=
  match place.parent with
  | some d => if d.type = .list then d.as.getList.listType else .noList
  | none => .noList

/-- `cmark_node_get_list_delim` of the parent. -/
def Place.listDelim (place : Place) : DelimType :=
  match place.parent with
  | some d => if d.type = .list then d.as.getList.delimiter else .noDelim
  | none => .noDelim

/-- `cmark_node_get_list_start` of the parent. -/
def Place.listStart (place : Place) : Nat :=
  match place.parent with
  | some d => if d.type = .list then d.as.getList.start else 0
  | none => 0

/-- `cmark_node_get_item_index`, which `cmark_render` has set, of the item after `before`
(nearest first). -/
def itemIndex (start : Nat) : Forest → Nat
  | [] => start
  | n :: before => 1 + if n.type = .item then itemIndex start before else 0

def Place.itemIndex (place : Place) : Nat := CmarkGfm.itemIndex place.listStart place.before

/-! ### Lists -/

/-- What a renderer that keeps `in_tight_list_item` does before it looks at the node. Tight list
status is not adjusted until the list has been started. -/
def adjustTight (v : Visit) : List Call :=
  let parentIsItem := v.place.parent.any (·.type == .item)
  if v.entering then
    if parentIsItem then
      match v.place.grandparent with
      | some list => [.setTightListItem list.as.getList.tight]
      | none => [.fail .nullPointer]
    else []
  else if v.node.type = .list then
    if parentIsItem then
      match v.place.grandparent with
      | some list => [.setTightListItem list.as.getList.tight]
      | none => [.fail .nullPointer]
    else [.setTightListItem false]
  else []

/-- The marker of an item of an ordered list, as `commonmark.c` and `plaintext.c` write it. -/
def listMarker (place : Place) : Bytes :=
  let number := place.itemIndex
  decimal number ++ lit (if place.listDelim = .paren then ")" else ".") ++
    lit (if number < 10 then "  " else " ")

/-- The marker of an item. -/
def itemMarker (place : Place) : Bytes :=
  if place.listType = .bullet then lit "  - " else listMarker place

end CmarkGfm
