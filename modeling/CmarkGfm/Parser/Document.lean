import CmarkGfm.Blocks.Process
import CmarkGfm.Inlines.Parse
import CmarkGfm.Parser.Feed

/-! # The document (blocks.c, footnotes.c, iterator.c) -/

namespace CmarkGfm

structure Parser where
  config : Config
  chars : CharTables
  feed : Feed
  state : ParserState

/-- A document node and nothing else. -/
def initialState : ParserState where
  root := 0
  current := 0
  nodes := fun i => if i = 0 then some ⟨makeBlock .document 1 1, none, []⟩ else none
  nextId := 1

/-- `cmark_parser_new`, and the calls that attach the extensions and set the callback. -/
def parserNew (P : Config) (backslashIspunct : Option (UInt8 → Bool)) : Parser where
  config := P
  chars := { defaultCharTables with backslashIspunct := backslashIspunct }
  feed := {}
  state := initialState

/-- `cmark_parser_reset`. It saves the extensions, the options and the character tables, but
not the callback for backslashes. -/
def parserReset (parser : Parser) : Parser where
  config := parser.config
  chars := { parser.chars with backslashIspunct := none }
  feed := {}
  state := initialState

/-- `cmark_parser_feed`. -/
def cmarkParserFeed (parser : Parser) (buffer : Bytes) : Parser :=
  let P := parser.config
  let (feed, state) := parserFeed (processLine P) (P.options.has optPreserveWhitespace) false
    parser.feed parser.state buffer
  { parser with feed := feed, state := state }

/-! ### Inlines -/

/-- The tree below a block. A block is deeper than its parent, so the number of addresses is
fuel enough. -/
def toTree (p : ParserState) : Nat → NodeId → Node
  | 0, i => .leaf i (p.dataOf i)
  | fuel + 1, i => .mk i (p.dataOf i) ((p.childrenOf i).map (toTree p fuel))

/-- The special characters of the extensions, with whether they are for emphasis. -/
def Config.extensionChars (P : Config) : List (UInt8 × Bool) :=
  P.inlineSyntaxExtensions.flatMap fun e => e.specialInlineChars.map fun c => (c, e.emphasis)

/-- `cmark_inlines_add_special_character` and `cmark_inlines_remove_special_character`. -/
def CharTables.setSpecialCharacter (add : Bool) (chars : CharTables) (c : UInt8 × Bool) :
    CharTables where
  specialChars := Function.update chars.specialChars c.1 add
  skipChars := if c.2 then Function.update chars.skipChars c.1 add else chars.skipChars
  backslashIspunct := chars.backslashIspunct

/-- `cmark_manage_extensions_special_characters`. -/
def manageExtensionsSpecialCharacters (P : Config) (add : Bool) (chars : CharTables) : CharTables :=
  P.extensionChars.foldl (CharTables.setSpecialCharacter add) chars

/-- What parsing the inlines of one block passes on to the next. -/
structure InlineState where
  refmap : Map Reference
  nextId : NodeId
  clones : List Clone := []

/-- Parse the inlines of one block. -/
def parseBlockInlines (P : Config) (chars : CharTables) (st : InlineState) (d : NodeData)
    (children : Forest) : InlineState × Forest :=
  let subj := parseInlines P chars (inlineSubject P d children st.refmap st.nextId)
  (⟨subj.refmap, subj.nextId, subj.clones ++ st.clones⟩, subj.children)

mutual

/-- The loop of `process_inlines`. A block that contains inlines has no blocks below it, and
inline nodes have no content. -/
def processInlines (P : Config) (chars : CharTables) (st : InlineState) : Node → InlineState × Node
  | .mk i d children =>
    if containsInlines P d then
      let (st, children) := parseBlockInlines P chars st d children
      (st, .mk i d children)
    else
      let (st, children) := processInlinesList P chars st children
      (st, .mk i d children)

def processInlinesList (P : Config) (chars : CharTables) (st : InlineState) :
    Forest → InlineState × Forest
  | [] => (st, [])
  | n :: ns =>
    let (st, n) := processInlines P chars st n
    let (st, ns) := processInlinesList P chars st ns
    (st, n :: ns)

end

/-! ### Footnotes -/

mutual

/-- The nodes of one type below a node and the node itself, in the order they are left. -/
def Node.exits (t : NodeType) : Node → List Node
  | .mk i d children => exitsList t children ++ if d.type = t then [.mk i d children] else []

def exitsList (t : NodeType) : Forest → List Node
  | [] => []
  | n :: ns => n.exits t ++ exitsList t ns

end

/-- The fields of footnotes that resolving references writes. -/
structure FootnoteState where
  map : Map NodeId
  ix : NodeId → Nat := fun _ => 0
  defCount : NodeId → Nat := fun _ => 0
  lastIx : Nat := 0
  nextId : NodeId

/-- `cmark_footnote_create` for each definition, in order. -/
def collectFootnotes (T : Tables) (root : Node) : Map NodeId :=
  (root.exits .footnoteDefinition).foldl
    (fun map node => footnoteCreate T map node.literal node.id) .new

/-- What becomes of a footnote reference below `owner`: it refers to its definition, or it is
replaced by its text. -/
def resolveFootnote (P : Config) (st : FootnoteState) (owner : NodeData) (i : NodeId)
    (cur : NodeData) : FootnoteState × Forest :=
  match mapLookup P.tables st.map cur.as.getLiteral with
  | (map, some entry) =>
    let footnote := entry.value
    let lastIx := if st.ix footnote = 0 then st.lastIx + 1 else st.lastIx
    let ix := if st.ix footnote = 0 then st.lastIx + 1 else st.ix footnote
    let refIx := st.defCount footnote + 1
    ({ st with
        map := map
        ix := Function.update st.ix footnote ix
        defCount := Function.update st.defCount footnote refIx
        lastIx := lastIx },
      [.leaf i { cur with
        parentFootnoteDef := some footnote, refIx := refIx, as := .literal (decimal ix) }])
  | (map, none) =>
    let text : NodeData := { type := .text, as := .literal (lit "[^" ++ cur.as.getLiteral ++ lit "]") }
    ({ st with map := map, nextId := st.nextId + 1 },
      if P.nodeCanContainType owner .text then [.leaf st.nextId text] else [])

mutual

/-- Resolve the footnote references below a node. -/
def resolveFootnotes (P : Config) (st : FootnoteState) : Node → FootnoteState × Node
  | .mk i d children =>
    let (st, children) := resolveFootnotesList P d st children
    (st, .mk i d children)

def resolveFootnotesList (P : Config) (owner : NodeData) (st : FootnoteState) :
    Forest → FootnoteState × Forest
  | [] => (st, [])
  | n :: ns =>
    let (st, n) := resolveFootnotes P st n
    let (st, resolved) :=
      if n.type = .footnoteReference then resolveFootnote P st owner n.id n.data else (st, [n])
    let (st, ns) := resolveFootnotesList P owner st ns
    (st, resolved ++ ns)

end

mutual

/-- Unlink nodes wherever they are below a node. -/
def Node.unlinkAll (ids : List NodeId) : Node → Node
  | .mk i d children => .mk i d (unlinkAllList ids children)

def unlinkAllList (ids : List NodeId) : Forest → Forest
  | [] => []
  | n :: ns =>
    if ids.contains n.id then unlinkAllList ids ns
    else n.unlinkAll ids :: unlinkAllList ids ns

end

/-- The definitions that were referred to, in the order of their numbers. -/
def usedFootnotes (st : FootnoteState) (definitions : List Node) : List Node :=
  (definitions.filter fun n => st.ix n.id != 0).mergeSort fun a b => st.ix a.id ≤ st.ix b.id

/-- The `def_count` that the references have counted in a definition. -/
def FootnoteState.writeDefCount (st : FootnoteState) (i : NodeId) (d : NodeData) : NodeData :=
  if d.type = .footnoteDefinition then { d with refIx := st.defCount i } else d

/-- `process_footnotes`: number the references, and move the definitions to the end of the
document in the order of their numbers. Those without references are dropped. -/
def processFootnotes (P : Config) (nextId : NodeId) (root : Node) : Node :=
  let map := collectFootnotes P.tables root
  let (st, root) := resolveFootnotes P { map := map, nextId := nextId } root
  let root := root.mapData st.writeDefCount
  let ids := map.refs.map (·.value)
  let definitions := (root.exits .footnoteDefinition).filter fun n => ids.contains n.id
  let used := (usedFootnotes st definitions).map fun n => n.unlinkAll ids
  .mk root.id root.data (unlinkAllList ids root.children ++ used)

/-! ### Text nodes -/

/-- Append the literal of the next text node to a text node. -/
def mergeText (cur tmp : NodeData) : NodeData :=
  { cur with
    as := .literal (cur.as.getLiteral ++ tmp.as.getLiteral)
    endColumn := tmp.endColumn
    chunkPos := none }

mutual

/-- `cmark_consolidate_text_nodes`. -/
def consolidateTextNodes : Node → Node
  | .mk i d children => .mk i d (consolidateList children)

def consolidateList : Forest → Forest
  | [] => []
  | n :: ns =>
    match consolidateTextNodes n, consolidateList ns with
    | .mk i cur [], .mk j tmp cs :: rest =>
      if cur.type = .text ∧ tmp.type = .text then .mk i (mergeText cur tmp) [] :: rest
      else .mk i cur [] :: .mk j tmp cs :: rest
    | n, rest => n :: rest

end

/-! ### The end of the document -/

/-- The first loop of `finalize_document`. -/
def closeToRoot (P : Config) : Nat → ParserState → ParserState
  | 0, p => p
  | fuel + 1, p =>
    if p.current = p.root then p
    else
      match finalize P p.current p with
      | (p, some parent) => closeToRoot P fuel { p with current := parent }
      | (p, none) => p.assert false

/-- Close the blocks that are still open. -/
def finalizeBlocks (P : Config) (p : ParserState) : ParserState :=
  let p := closeToRoot P (p.nextId + 1) p
  (finalize P p.root p).1

/-- The limit `finalize_document` sets on the content created from reference links. -/
def maxRefSize (totalSize : Nat) : Nat := if totalSize > 100000 then totalSize else 100000

/-- The blocks of the document, all finalized, and the state in which `process_inlines` starts. -/
def finalizedDocument (parser : Parser) : InlineState × Node :=
  let p := finalizeBlocks parser.config parser.state
  let refmap := { p.refmap with maxRefSize := maxRefSize parser.feed.totalSize }
  (⟨refmap, p.nextId, []⟩, toTree p p.nextId p.root)

/-- `finalize_document`, with the state of the inlines at its end. -/
def finalizeDocument (parser : Parser) : InlineState × Node :=
  let P := parser.config
  let (st, root) := finalizedDocument parser
  let chars := manageExtensionsSpecialCharacters P true parser.chars
  let (st, root) := processInlines P chars st root
  (st, if P.options.has optFootnotes then processFootnotes P st.nextId root else root)

/-- The `postprocess_func` callbacks, in order. -/
def postprocess (P : Config) (root : Node) : Node :=
  P.syntaxExtensions.foldl
    (fun root ext => (ext.postprocessFunc.bind fun f => f P.options root).getD root) root

/-- The parser when `cmark_parser_finish` has processed the last line. -/
def flushParser (parser : Parser) : Parser :=
  let P := parser.config
  let (feed, state) := flushLine (processLine P) (P.options.has optPreserveWhitespace)
    parser.feed parser.state
  { parser with feed := feed, state := state }

/-- `cmark_parser_finish`: the parser, reset, and the tree. -/
def parserFinish (parser : Parser) : Parser × Node :=
  let parser := flushParser parser
  let (_, root) := finalizeDocument parser
  let chars := manageExtensionsSpecialCharacters parser.config false
    (manageExtensionsSpecialCharacters parser.config true parser.chars)
  (parserReset { parser with chars := chars },
    postprocess parser.config (consolidateTextNodes root))

/-- `cmark_parse_document`. -/
def cmarkParseDocument (P : Config) (buffer : Bytes) : Node :=
  let parser := parserNew P none
  let (feed, state) := parserFeed (processLine P) (P.options.has optPreserveWhitespace) true
    parser.feed parser.state buffer
  (parserFinish { parser with feed := feed, state := state }).2

end CmarkGfm
