import CmarkGfm.Inlines.Brackets
import CmarkGfm.Render.Traversal

/-! # Who owns the bytes of a node (chunk.h, inlines.c, iterator.c) -/

namespace CmarkGfm

/-- `cmark_chunk`: bytes of its own, or those of a buffer or a string that belongs to something else. -/
structure Chunk where
  data : Bytes
  alloc : Bool
  deriving DecidableEq, Inhabited

namespace Chunk

/-- `cmark_chunk_literal`, with `CMARK_CHUNK_EMPTY` -/
def literal (data : Bytes) : Chunk := { data := data, alloc := false }

/-- `cmark_chunk_dup` -/
def dup (input : Bytes) (pos len : Nat) : Chunk := { data := chunkDup input pos len, alloc := false }

/-- `cmark_chunk_buf_detach` -/
def bufDetach (buf : Bytes) : Chunk := { data := buf, alloc := true }

/-- `chunk_clone` -/
def clone (src : Bytes) : Chunk := { data := src, alloc := true }

/-- `cmark_chunk_to_cstr` -/
def toCstr (c : Chunk) : Chunk := if c.alloc then c else { data := c.data, alloc := true }

/-- `cmark_clean_url` -/
def cleanUrl (T : Tables) (url : Chunk) : Chunk :=
  if (chunkTrim url.data).length = 0 then literal [] else bufDetach (CmarkGfm.cleanUrl T url.data)

/-- `cmark_clean_title` -/
def cleanTitle (T : Tables) (title : Chunk) : Chunk :=
  if title.data.length = 0 then literal [] else bufDetach (CmarkGfm.cleanTitle T title.data)

end Chunk

/-- The chunks in the union `as` of a node. -/
inductive ChunkField where
  | literal
  | info
  | codeLiteral
  | url
  | title
  | attributes
  | onEnter
  | onExit
  deriving DecidableEq

/-- The chunks that `free_node_as` frees. -/
def NodeType.chunkFields : NodeType → List ChunkField
  | .codeBlock => [.info, .codeLiteral]
  | .text | .htmlInline | .code | .htmlBlock | .footnoteReference | .footnoteDefinition => [.literal]
  | .link | .image => [.url, .title]
  | .attribute => [.attributes]
  | .customBlock | .customInline => [.onEnter, .onExit]
  | _ => []

/-- The bytes of a chunk. -/
def NodeAs.chunkData (as : NodeAs) : ChunkField → Bytes
  | .literal => as.getLiteral
  | .info => as.getCode.info
  | .codeLiteral => as.getCode.literal
  | .url => as.getUrl
  | .title => as.getTitle
  | .attributes => as.getAttributes
  | .onEnter => as.getOnEnter
  | .onExit => as.getOnExit

/-! ### cmark_node_own -/

/-- The chunks of all nodes. -/
abbrev Chunks := NodeId → ChunkField → Chunk

/-- `cmark_chunk_to_cstr(iter->mem, &cur->as...)` -/
def Chunks.toCstr (i : NodeId) (field : ChunkField) (chunks : Chunks) : Chunks :=
  fun j f => if j = i ∧ f = field then (chunks j f).toCstr else chunks j f

/-- The `switch` of `cmark_node_own`. -/
def ownNode (cur : Node) (chunks : Chunks) : Chunks :=
  match cur.type with
  | .text | .htmlInline | .code | .htmlBlock => chunks.toCstr cur.id .literal
  | .link => (chunks.toCstr cur.id .url).toCstr cur.id .title
  | .customInline => (chunks.toCstr cur.id .onEnter).toCstr cur.id .onExit
  | _ => chunks

/-- `cmark_node_own` -/
def nodeOwn (root : Node) (chunks : Chunks) : Chunks :=
  (root.visits {}).foldl (fun chunks ev => if ev.entering then ownNode ev.node chunks else chunks) chunks

/-! ### The chunks of links, images and attributes -/

/-- What `handle_close_bracket` puts into the union `as` of the node that it makes. -/
inductive InlineChunks where
  | link (url title : Chunk)
  | attribute (attributes : Chunk)
  deriving DecidableEq

def InlineChunks.get : InlineChunks → ChunkField → Chunk
  | .link url _, .url => url
  | .link _ title, .title => title
  | .attribute attributes, .attributes => attributes
  | _, _ => .literal []

/-- The chunks of an inline link at `pos`, which is after the link text. -/
def inlineLinkChunks (T : Tables) (input : Bytes) (pos : Nat) : Option InlineChunks :=
  if byteAt input pos == chr '(' then
    let starturl := pos + 1 + Scanners.scanAt Scanners.spacechars input (pos + 1)
    match manualScanLinkUrl input starturl with
    | some (n, url) =>
      let endurl := starturl + n
      let starttitle := endurl + Scanners.scanAt Scanners.spacechars input endurl
      let endtitle := if starttitle = endurl then starttitle
        else starttitle + Scanners.scanAt Scanners.linkTitle input starttitle
      let endall := endtitle + Scanners.scanAt Scanners.spacechars input endtitle
      if byteAt input endall == chr ')' then
        some (.link (.cleanUrl T { data := url, alloc := false })
          (.cleanTitle T (.dup input starttitle (endtitle - starttitle))))
      else none
    | none => none
  else none

/-- The entry of the reference map for the label behind the link text, or for the link text itself. -/
def closingReference (T : Tables) (subj : Subject) (opener : Bracket) : Option Reference :=
  let (pos, label) := referenceLabel subj opener subj.pos
  match label with
  | none => none
  | some label =>
    match (lookupReference T { subj with pos := pos } label).2 with
    | none => none
    | some ref => if ref.isAttributesReference then none else some ref

/-- The attributes of a definition for the label behind `^[content](attributes)`. -/
def definedAttributes (T : Tables) (subj : Subject) : Option Bytes :=
  let pos := match scanInlineAttributes subj.input subj.pos with
    | some (pos, _) => pos
    | none => subj.pos
  (referenceAttributes T { subj with pos := pos } none).2

/-- The variable `attributes` of `handle_close_bracket_attribute`, if there are attributes. -/
def attributesChunk (T : Tables) (subj : Subject) : Option Chunk :=
  match definedAttributes T subj with
  | some attributes => some (.clone attributes)
  | none =>
    match scanInlineAttributes subj.input subj.pos with
    | some (_, attributes) =>
      some (if attributes.length = 0 then .literal [] else { data := attributes, alloc := false })
    | none => none

/-- The chunks of the node that `handle_close_bracket` makes behind the bracket, if it makes one. -/
def closeBracketChunks (T : Tables) (subj : Subject) : Option InlineChunks :=
  match subj.brackets with
  | [] => none
  | opener :: _ =>
    if opener.type = .attribute then (attributesChunk T subj).map .attribute
    else if opener.type = .link && subj.noLinkOpeners then none
    else
      match inlineLinkChunks T subj.input subj.pos with
      | some chunks => some chunks
      | none => (closingReference T subj opener).map fun ref => .link (.clone ref.url) (.clone ref.title)

/-- The chunks of the node that `parse_inline` makes of brackets, if it makes one. -/
def madeChunks (T : Tables) (subj : Subject) : Option InlineChunks :=
  if subj.peekChar == chr ']' then closeBracketChunks T (subj.advance 1) else none

/-- The next inline is a node for attributes in parentheses, without a definition for a label behind them: what is
kept is a slice of the content. -/
def BorrowsAttributes (T : Tables) (subj : Subject) : Prop :=
  subj.peekChar = chr ']' ∧ (∃ opener ∈ subj.brackets.head?, opener.type = .attribute) ∧
    (∃ pos, ∃ attributes ≠ [], scanInlineAttributes subj.input (subj.pos + 1) = some (pos, attributes)) ∧
    definedAttributes T (subj.advance 1) = none

end CmarkGfm
