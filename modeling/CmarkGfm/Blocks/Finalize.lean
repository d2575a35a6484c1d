import CmarkGfm.Blocks.Store
import CmarkGfm.Blocks.Scan
import CmarkGfm.Inlines.References

/-! # Closing and adding blocks (blocks.c) -/

namespace CmarkGfm

def acceptsLines (t : NodeType) : Bool := t = .paragraph || t = .heading || t = .codeBlock

/-- `contains_inlines`. -/
def containsInlines (P : Config) (node : NodeData) : Bool :=
  match (P.extensionOf node).bind (·.containsInlinesFunc) with
  | some f => f node
  | none => node.type = .paragraph || node.type = .heading

/-- `make_block`. -/
def makeBlock (tag : NodeType) (startLine startColumn : Int) : NodeData where
  type := tag
  isOpen := true
  startLine := startLine
  startColumn := startColumn
  endLine := startLine

/-- `add_line`: append what is left of the line to the content of a block. -/
def addLine (node : NodeId) (ch : Bytes) (p : ParserState) : ParserState :=
  let p := p.assert (p.isOpen node)
  let (p, spaces) :=
    if p.partiallyConsumedTab then
      ({ p with offset := p.offset + 1 }, List.replicate (tabStop - p.column % tabStop) 32)
    else (p, [])
  p.modifyData node fun d => { d with content := d.content ++ spaces ++ ch.drop p.offset }

/-- `S_ends_with_blank_line`. A block is deeper than its parent, so the number of addresses is
fuel enough. -/
def endsWithBlankLineFrom : Nat → NodeId → ParserState → ParserState × Bool
  | 0, node, p => (p, (p.dataOf node).lastLineBlank)
  | fuel + 1, node, p =>
    if (p.dataOf node).lastLineChecked then (p, (p.dataOf node).lastLineBlank)
    else
      let checked := p.modifyData node fun d => { d with lastLineChecked := true }
      match p.lastChild node with
      | some child =>
        if p.typeOf node = .list || p.typeOf node = .item then
          endsWithBlankLineFrom fuel child checked
        else (checked, (p.dataOf node).lastLineBlank)
      | none => (checked, (p.dataOf node).lastLineBlank)

def endsWithBlankLine (node : NodeId) (p : ParserState) : ParserState × Bool :=
  endsWithBlankLineFrom p.nextId node p

/-- Are there spaces between the children of a list item? -/
def looseSubitems (itemHasNext : Bool) : List NodeId → ParserState → ParserState × Bool
  | [], p => (p, false)
  | subitem :: rest, p =>
    if itemHasNext || !rest.isEmpty then
      match endsWithBlankLine subitem p with
      | (p, true) => (p, true)
      | (p, false) => looseSubitems itemHasNext rest p
    else looseSubitems itemHasNext rest p

/-- Is a list with these items loose? -/
def looseItems : List NodeId → ParserState → ParserState × Bool
  | [], p => (p, false)
  | item :: rest, p =>
    -- check for non-final non-empty list item ending with blank line
    if (p.dataOf item).lastLineBlank && !rest.isEmpty then (p, true)
    else
      match looseSubitems (!rest.isEmpty) (p.childrenOf item) p with
      | (p, true) => (p, true)
      | (p, false) => looseItems rest p

/-- The loop of `resolve_reference_link_definitions`: what is left of the content. Every
definition takes some of it. -/
def resolveReferences (T : Tables) : Nat → Bytes → Map Reference → Bytes × Map Reference
  | 0, chunk, refmap => (chunk, refmap)
  | fuel + 1, chunk, refmap =>
    let parsed :=
      if byteAt chunk 0 == chr '[' then parseReferenceInline T chunk refmap
      else if byteAt chunk 0 == chr '^' && byteAt chunk 1 == chr '[' then
        parseReferenceAttributesInline T chunk refmap
      else none
    match parsed with
    | some (pos, refmap) => resolveReferences T fuel (chunk.drop pos) refmap
    | none => (chunk, refmap)

/-- `resolve_reference_link_definitions`; true if content remains. -/
def resolveReferenceLinkDefinitions (T : Tables) (b : NodeId) (p : ParserState) :
    ParserState × Bool :=
  let content := (p.dataOf b).content
  let (rest, refmap) := resolveReferences T content.length content p.refmap
  ({ p.modifyData b fun d => { d with content := rest } with refmap := refmap }, !isBlank rest)

/-- Where a block that is being closed ends. -/
def setEnd (b : NodeId) (p : ParserState) : ParserState :=
  let d := p.dataOf b
  let (endLine, endColumn) : Int × Int :=
    if p.curline.length = 0 then
      -- end of input - line number has not been incremented
      (p.lineNumber, p.lastLineLength)
    else if d.type = .document || (d.type = .codeBlock && d.as.getCode.fenced) ||
        (d.type = .heading && d.as.getSetext) || (p.lineNumber : Int) - 1 < d.endLine then
      (p.lineNumber, lineLength p.curline)
    else ((p.lineNumber : Int) - 1, p.lastLineLength)
  p.modifyData b fun d => { d with endLine := endLine, endColumn := endColumn }

/-- The content of a code block that is being closed. -/
def finalizeCode (T : Tables) (b : NodeId) (p : ParserState) : ParserState :=
  let d := p.dataOf b
  let code := d.as.getCode
  if code.fenced then
    -- first line of contents becomes info
    let line := d.content.takeWhile fun c => !isLineEndChar c
    let p := p.assert (line.length < d.content.length)
    let rest := d.content.drop line.length
    let rest := if byteAt rest 0 == 13 then rest.drop 1 else rest
    let rest := if byteAt rest 0 == 10 then rest.drop 1 else rest
    let info := strbufUnescape (strbufTrim (unescapeHtml T line))
    p.modifyData b fun d => { d with as := .code { code with info := info, literal := rest }, content := [] }
  else
    p.modifyData b fun d =>
      { d with as := .code { code with literal := removeTrailingBlankLines d.content ++ [10] }, content := [] }

/-- The `switch` of `finalize`. -/
def finalizeContent (P : Config) (b : NodeId) (p : ParserState) : ParserState :=
  match p.typeOf b with
  | .paragraph =>
    let (p, hasContent) := resolveReferenceLinkDefinitions P.tables b p
    -- remove blank node (former reference def)
    if !hasContent && !P.options.has optPreserveWhitespace then p.freeBlock b else p
  | .codeBlock => finalizeCode P.tables b p
  | .htmlBlock => p.modifyData b fun d => { d with as := .literal d.content, content := [] }
  | .list =>
    let (p, loose) := looseItems (p.childrenOf b) p
    p.modifyData b fun d => { d with as := .list { d.as.getList with tight := !loose } }
  | _ => p

/-- `finalize`: close a block and return its parent. -/
def finalize (P : Config) (b : NodeId) (p : ParserState) : ParserState × Option NodeId :=
  let parent := p.parentOf b
  let p := p.assert (p.isOpen b)
  let p := p.modifyData b fun d => { d with isOpen := false }
  (finalizeContent P b (setEnd b p), parent)

/-- The loop of `add_child`: back up to a block that can hold the child. Passing the root would
dereference a null pointer, which counts as a failed assertion. -/
def acceptingParent (P : Config) (blockType : NodeType) : Nat → NodeId → ParserState →
    ParserState × NodeId
  | 0, parent, p => (p.assert false, parent)
  | fuel + 1, parent, p =>
    if P.nodeCanContainType (p.dataOf parent) blockType then (p, parent)
    else
      match finalize P parent p with
      | (p, some grandparent) => acceptingParent P blockType fuel grandparent p
      | (p, none) => (p.assert false, parent)

/-- `add_child`. -/
def addChild (P : Config) (parent : NodeId) (blockType : NodeType) (startColumn : Int)
    (p : ParserState) : ParserState × NodeId :=
  let (p, parent) := acceptingParent P blockType (p.nextId + 1) parent p
  p.appendBlock parent (makeBlock blockType p.lineNumber startColumn)

end CmarkGfm
