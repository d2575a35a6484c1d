import CmarkGfm.Render.Render

/-!
# commonmark.c

Merging the text nodes of a link, before it is compared with its URL, changes nothing in a tree
of the parser and is left out.
-/

namespace CmarkGfm

open Call

/-! ### Characters -/

/-- Characters that are escaped wherever they are in normal text. -/
def alwaysEscaped (c : Nat) : Bool :=
  c < 0x20 || (lit "*_[]#<>\\`~!").contains (UInt8.ofNat c)

/-- `needs_escaping`, for a character that comes after `buffer`. -/
def needsEscaping (r : Renderer) (escape : Escaping) (c : Nat) (nextc : UInt8) : Bool :=
  let followsDigit := r.buffer.getLast?.any fun b => isdigit b.byte
  let is (d : Char) : Bool := c == d.toNat
  c < 0x80 && match escape with
  | .literal => false
  | .normal =>
    alwaysEscaped c || (is '&' && isalpha nextc) || (is '!' && nextc == chr '[') ||
      (is '^' && nextc == chr '[') ||
      -- begin_content doesn't get set to false til we've passed digits at the beginning of line
      (r.beginContent && (is '-' || is '+' || is '=') && !followsDigit) ||
      (r.beginContent && (is '.' || is ')') && followsDigit && (nextc == 0 || isspace nextc))
  | .url => (lit "`<>\\)(").contains (UInt8.ofNat c) || isspace (UInt8.ofNat c)
  | .title => (lit "`<>\"\\").contains (UInt8.ofNat c)

/-- A digit in base 16, as `%X` writes it. -/
def hexDigit (n : Nat) : UInt8 := if n < 10 then 48 + UInt8.ofNat n else 55 + UInt8.ofNat n

/-- `%2X`, for a byte: a number with one digit is preceded by a space. -/
def hex2 (c : Nat) : Bytes := [if c < 16 then 32 else hexDigit (c / 16), hexDigit (c % 16)]

/-- `outc` -/
def commonmarkOutc : Outc := fun r escape c nextc =>
  if needsEscaping r escape c nextc then
    if escape = .url ∧ isspace (UInt8.ofNat c) then
      -- use percent encoding for spaces
      r.renderAscii (chr '%' :: hex2 c)
    else if ispunct (UInt8.ofNat c) then (r.renderAscii (lit "\\")).renderCodePoint c
    else r.renderAscii (lit "&#" ++ decimal c ++ lit ";")
  else r.renderCodePoint c

/-! ### Code -/

/-- The lengths of the sequences of backticks, with the number before the first byte. -/
def backtickRuns : Nat → Bytes → List Nat
  | current, [] => [current]
  | current, c :: code =>
    if c == chr '`' then backtickRuns (current + 1) code else current :: backtickRuns 0 code

/-- `longest_backtick_sequence` -/
def longestBacktickSequence (code : Bytes) : Nat := (backtickRuns 0 code).foldl max 0

/-- `shortest_unused_backtick_sequence`; 32 if all shorter ones are used. -/
def shortestUnusedBacktickSequence (code : Bytes) : Nat :=
  let used := backtickRuns 0 code
  ((List.range 32).find? fun n => n != 0 && !used.contains n).getD 32

/-- A code block in indented form: there is no info, and the code does not begin or end with a
blank line. -/
def indentedForm (info code : Bytes) : Bool :=
  let space (i : Nat) : Bool := isspace (byteAt code i)
  info.isEmpty && code.length > 2 && !space 0 &&
    !(space (code.length - 1) && space (code.length - 2))

/-! ### Links -/

/-- `as.literal` of a node whose union may hold something else: the first chunk. -/
def NodeAs.firstChunk : NodeAs → Bytes
  | .literal s => s
  | .code c => c.info
  | .link url _ => url
  | .attribute attributes => attributes
  | .custom onEnter _ => onEnter
  | _ => []

/-- `is_autolink` -/
def isAutolink (n : Node) : Bool :=
  let url := n.data.as.getUrl
  if n.type ≠ .link then false
  else if url.isEmpty || Scanners.scanAt Scanners.schemeColon url 0 == 0 then false
  else if !n.data.as.getTitle.isEmpty then false
  else match n.children with
  | [] => false
  | linkText :: _ =>
    let realUrl := if (lit "mailto:").isPrefixOf url then url.drop 7 else url
    let literal := linkText.data.as.firstChunk
    realUrl.length == literal.length && cstr realUrl == cstr literal

/-- The closing part of a link or an image. -/
def linkTail (d : NodeData) (titleOpener : Call) : List Call :=
  let title := cstr d.as.getTitle
  [puts "](", text d.as.getUrl false .url] ++
    (if title.isEmpty then [] else [titleOpener, text title false .title, puts "\""]) ++ [puts ")"]

/-! ### Nodes -/

def codeBlockCalls (v : Visit) : List Call :=
  let code := cstr v.node.data.as.getCode.literal
  let info := cstr v.node.data.as.getCode.info
  let firstInListItem := v.place.before.isEmpty && v.place.parent.any (·.type == .item)
  (if firstInListItem then [] else [blankline]) ++
    (if indentedForm info code && !firstInListItem then
      [puts "    ", pushPrefix (lit "    "), text code false .literal, popPrefix 4]
    else
      let fence := List.replicate (max 3 (longestBacktickSequence code + 1))
        (bytes [if info.contains (chr '`') then chr '~' else chr '`'])
      fence ++ [puts " ", text info false .literal, cr, text code false .literal, cr] ++ fence) ++
    [blankline]

def codeCalls (d : NodeData) (allowWrap : Bool) : List Call :=
  let code := cstr d.as.getLiteral
  let ticks := List.replicate (shortestUnusedBacktickSequence code) (puts "`")
  let extraSpaces := code.isEmpty || code.head? == some (chr '`') || code.getLast? == some (chr '`') ||
    code.head? == some 32 || code.getLast? == some 32
  let space := if extraSpaces then [puts " "] else []
  ticks ++ space ++ [text code allowWrap .literal] ++ space ++ ticks

/-- The switch of `S_render_node`, for a node without extension. `literalAt` is the literal of the
node at an address. -/
def commonmarkNode (literalAt : NodeId → Option Bytes) (options : Options) (r : Renderer)
    (v : Visit) : List Call :=
  let d := v.node.data
  let hardbreaks := options.has optHardbreaks
  let allowWrap := 0 < r.width && !options.has optNobreaks && !hardbreaks
  match d.type with
  | .document => []
  | .blockQuote =>
    if v.entering then [puts "> ", beginContent, pushPrefix (lit "> ")]
    else [popPrefix 2, blankline]
  | .list =>
    let next := v.place.after.head?.map Node.type
    if !v.entering && (next == some .codeBlock || next == some .list) then
      -- this ensures that a following indented code block or list is interpreted correctly
      [cr, puts "<!-- end list -->", blankline]
    else []
  | .item =>
    let marker := itemMarker v.place
    if v.entering then
      [bytes marker, beginContent, pushPrefix (List.replicate marker.length 32)]
    else [popPrefix marker.length, cr]
  | .heading =>
    if v.entering then
      List.replicate d.as.getLevel (puts "#") ++ [puts " ", beginContent, setNoLinebreaks true]
    else [setNoLinebreaks false, blankline]
  | .codeBlock => codeBlockCalls v
  | .htmlBlock => [blankline, textOrNull d.getLiteral? false .literal, blankline]
  | .customBlock =>
    [blankline, text (if v.entering then d.as.getOnEnter else d.as.getOnExit) false .literal,
      blankline]
  | .thematicBreak => [blankline, puts "-----", blankline]
  | .paragraph => if v.entering then [] else [blankline]
  | .text => [textOrNull d.getLiteral? allowWrap .normal]
  | .linebreak => (if hardbreaks then [] else [puts "  "]) ++ [cr]
  | .softbreak =>
    if hardbreaks then [puts "  ", cr]
    else if !r.noLinebreaks && r.width = 0 && !options.has optNobreaks then [cr]
    else [space allowWrap .literal]
  | .code => codeCalls d allowWrap
  | .htmlInline => [textOrNull d.getLiteral? false .literal]
  | .customInline => [text (if v.entering then d.as.getOnEnter else d.as.getOnExit) false .literal]
  | .strong => if v.place.parent.any (·.type == .strong) then [] else [puts "**"]
  | .emph =>
    -- EMPH(EMPH(x)) is written *_x_* because **x** is STRONG(x)
    if v.place.parent.any (·.type == .emph) && v.place.after.isEmpty && v.place.before.isEmpty then
      [puts "_"]
    else [puts "*"]
  | .link =>
    if isAutolink v.node then
      if v.entering then
        let url := d.as.getUrl
        [puts "<", text (if (lit "mailto:").isPrefixOf url then url.drop 7 else url) false .literal,
          puts ">"]
      else []
    else if v.entering then [puts "["]
    else linkTail d (puts " \"")
  | .image =>
    if v.entering then [puts "!["]
    else linkTail d (.out .renderer (some (lit " \"")) allowWrap .literal)
  | .attribute =>
    if v.entering then [puts "^["]
    else [puts "](", text d.as.getAttributes false .literal, puts ")"]
  | .footnoteReference =>
    if v.entering then
      match d.parentFootnoteDef.bind literalAt with
      | some label => [puts "[^", text label false .literal, puts "]"]
      | none => [puts "[^", fail .nullPointer]
    else []
  | .footnoteDefinition =>
    if v.entering then
      [countFootnote, puts "[^", text d.as.getLiteral false .literal, puts "]:\n",
        pushPrefix (lit "    ")]
    else [popPrefix 4]
  | .none | .extensionBlock _ | .extensionInline _ => [fail .unreachable]

/-- `S_render_node` -/
def commonmarkRenderNode (literalAt : NodeId → Option Bytes) (options : Options) (r : Renderer)
    (v : Visit) : List Call :=
  adjustTight v ++ commonmarkNode literalAt options r v

def commonmark (literalAt : NodeId → Option Bytes) : Format where
  outc := commonmarkOutc
  renderNode := commonmarkRenderNode literalAt
  skipsContents v := isAutolink v.node

/-- `cmark_render_commonmark` -/
def renderCommonmark (literalAt : NodeId → Option Bytes) (options : Options) (width : Int)
    (root : Node) : Except RenderError (List OutByte) :=
  -- breaking on width has a different meaning with the option
  (commonmark literalAt).render options (if options.has optHardbreaks then 0 else width) root

end CmarkGfm
