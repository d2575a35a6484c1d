import CmarkGfm.Blocks.Finalize

/-! # Matching open blocks and opening new ones (blocks.c) -/

namespace CmarkGfm

def maxListDepth : Nat := 100

/-! ### Prefixes of open blocks -/

def parseBlockQuotePrefix (input : Bytes) (p : ParserState) : ParserState × Bool :=
  if p.indent ≤ 3 && byteAt input p.firstNonspace == chr '>' then
    (advanceOptionalSpace input (advanceOffset input (p.indent + 1) true p), true)
  else (p, false)

def parseFootnoteDefinitionBlockPrefix (input : Bytes) (p : ParserState) : ParserState × Bool :=
  if p.indent ≥ 4 then (advanceOffset input 4 true p, true)
  else (p, byteAt input 0 == 10 || (byteAt input 0 == 13 && byteAt input 1 == 10))

def parseNodeItemPrefix (input : Bytes) (container : NodeId) (p : ParserState) :
    ParserState × Bool :=
  let list := (p.dataOf container).as.getList
  if p.indent ≥ list.markerOffset + list.padding then
    (advanceOffset input (list.markerOffset + list.padding) true p, true)
  else if p.blank && p.childrenOf container ≠ [] then
    -- without a child the opening line of the item was blank after the marker, and the item
    -- is done
    (advanceTo input p.firstNonspace p, true)
  else (p, false)

/-- What became of an open block on the current line. -/
inductive PrefixResult where
  | matched
  | unmatched
  /-- the line is its closing fence -/
  | closed
  deriving DecidableEq

/-- Skip optional spaces of fence offset. -/
def skipFenceOffset (input : Bytes) : Nat → ParserState → ParserState
  | 0, p => p
  | i + 1, p =>
    if isSpaceOrTab (byteAt input p.offset) then
      skipFenceOffset input i (advanceOffset input 1 true p)
    else p

def parseCodeBlockPrefix (P : Config) (input : Bytes) (container : NodeId) (p : ParserState) :
    ParserState × PrefixResult :=
  let code := (p.dataOf container).as.getCode
  if !code.fenced then
    if p.indent ≥ codeIndent then (advanceOffset input codeIndent true p, .matched)
    else if p.blank then (advanceTo input p.firstNonspace p, .matched)
    else (p, .unmatched)
  else
    let matched :=
      if p.indent ≤ 3 && byteAt input p.firstNonspace == code.fenceChar then
        Scanners.scanAt Scanners.closeCodeFence input p.firstNonspace
      else 0
    if matched ≥ code.fenceLength then
      -- closing fence: we're at the end of a line and can stop processing it
      let (p, parent) := finalize P container (advanceOffset input matched false p)
      ({ p with current := parent.getD p.current }, .closed)
    else (skipFenceOffset input code.fenceOffset p, .matched)

def parseHtmlBlockPrefix (container : NodeId) (p : ParserState) : ParserState × Bool :=
  let htmlBlockType := (p.dataOf container).as.getHtmlBlockType
  (p.assert (1 ≤ htmlBlockType && htmlBlockType ≤ 7),
    (1 ≤ htmlBlockType && htmlBlockType ≤ 5) || (6 ≤ htmlBlockType && htmlBlockType ≤ 7 && !p.blank))

/-- `parse_extension_block`. -/
def parseExtensionBlock (P : Config) (ext : Extension) (input : Bytes) (container : NodeId)
    (p : ParserState) : ParserState × Bool :=
  match ext.lastBlockMatches with
  | some lastBlockMatches => lastBlockMatches P.options p input container
  | none => (p, false)

def prefixResult (r : ParserState × Bool) : ParserState × PrefixResult :=
  (r.1, if r.2 then .matched else .unmatched)

/-- One turn of the loop of `check_open_blocks`. -/
def parseBlockPrefix (P : Config) (input : Bytes) (container : NodeId) (p : ParserState) :
    ParserState × PrefixResult :=
  match P.extensionOf (p.dataOf container) with
  | some ext => prefixResult (parseExtensionBlock P ext input container p)
  | none =>
    match p.typeOf container with
    | .blockQuote => prefixResult (parseBlockQuotePrefix input p)
    | .item => prefixResult (parseNodeItemPrefix input container p)
    | .codeBlock => parseCodeBlockPrefix P input container p
    | .heading => (p, .unmatched)
    | .htmlBlock => prefixResult (parseHtmlBlockPrefix container p)
    | .paragraph => (p, if p.blank then .unmatched else .matched)
    | .footnoteDefinition => prefixResult (parseFootnoteDefinitionBlockPrefix input p)
    | _ => (p, .matched)

/-- `S_last_child_is_open`, with the child. -/
def openLastChild (p : ParserState) (container : NodeId) : Option NodeId :=
  (p.lastChild container).filter fun child => p.isOpen child

/-- The loop of `check_open_blocks`: the last matching block, if any, and `all_matched`. A block
is deeper than its parent, so the number of addresses is fuel enough. -/
def checkOpenBlocksFrom (P : Config) (input : Bytes) : Nat → NodeId → ParserState →
    ParserState × Option NodeId × Bool
  | 0, container, p => (p, some container, true)
  | fuel + 1, container, p =>
    match openLastChild p container with
    | none => (p, some container, true)
    | some child =>
      match parseBlockPrefix P input child (findFirstNonspace input p) with
      | (p, .matched) => checkOpenBlocksFrom P input fuel child p
      | (p, .unmatched) => (p, p.parentOf child, false)
      | (p, .closed) => (p, none, false)

/-- `check_open_blocks`. -/
def checkOpenBlocks (P : Config) (input : Bytes) (p : ParserState) :
    ParserState × Option NodeId × Bool :=
  checkOpenBlocksFrom P input p.nextId p.root p

/-! ### New blocks -/

def openBlockQuote (P : Config) (input : Bytes) (container : NodeId) (p : ParserState) :
    ParserState × NodeId :=
  let startpos := p.firstNonspace
  let p := advanceOptionalSpace input (advanceTo input (startpos + 1) p)
  addChild P container .blockQuote (startpos + 1) p

def openAtxHeading (P : Config) (input : Bytes) (matched : Nat) (container : NodeId)
    (p : ParserState) : ParserState × NodeId :=
  let startpos := p.firstNonspace
  let p := advanceTo input (startpos + matched) p
  let (p, heading) := addChild P container .heading (startpos + 1) p
  let level := ((input.drop startpos).takeWhile (· == chr '#')).length
  (p.modifyData heading fun d =>
    { d with as := .heading level false, internalOffset := matched }, heading)

def openFencedCode (P : Config) (input : Bytes) (matched : Nat) (container : NodeId)
    (p : ParserState) : ParserState × NodeId :=
  let (p, code) := addChild P container .codeBlock (p.firstNonspace + 1) p
  let data : CodeData :=
    { info := []
      literal := []
      fenceLength := min matched 255
      fenceOffset := p.firstNonspace - p.offset
      fenceChar := byteAt input p.firstNonspace
      fenced := true }
  let p := p.modifyData code fun d => { d with as := .code data }
  (advanceTo input (p.firstNonspace + matched) p, code)

/-- The tag is part of the text, so the offset is not adjusted. -/
def openHtmlBlock (P : Config) (matched : Nat) (container : NodeId) (p : ParserState) :
    ParserState × NodeId :=
  let (p, html) := addChild P container .htmlBlock (p.firstNonspace + 1) p
  (p.modifyData html fun d => { d with as := .htmlBlockType matched }, html)

/-- A setext heading line: resolve reference links, and turn what is left of the paragraph into
a heading. -/
def setextHeading (P : Config) (input : Bytes) (lev : Nat) (container : NodeId)
    (p : ParserState) : ParserState :=
  match resolveReferenceLinkDefinitions P.tables container p with
  | (p, true) =>
    let p := p.modifyData container fun d => { d with type := .heading, as := .heading lev true }
    advanceTo input (input.length - 1) p
  | (p, false) => p

def openThematicBreak (P : Config) (input : Bytes) (container : NodeId) (p : ParserState) :
    ParserState × NodeId :=
  let (p, thematic) := addChild P container .thematicBreak (p.firstNonspace + 1) p
  (advanceTo input (input.length - 1) p, thematic)

def openFootnoteDefinition (P : Config) (input : Bytes) (matched : Nat) (container : NodeId)
    (p : ParserState) : ParserState × NodeId :=
  let c := (chunkDup input (p.firstNonspace + 2) (matched - 2)).rdropWhile (· != chr ']')
  let stop := p.firstNonspace + matched
  let (p, definition) := addChild P container .footnoteDefinition (stop + 1) (advanceTo input stop p)
  (p.modifyData definition fun d =>
    { d with as := .literal c.dropLast, internalOffset := matched }, definition)

/-- Consume the spaces after a list marker, at most five columns and a tab. -/
def skipMarkerSpaces (input : Bytes) (saveColumn : Nat) : Nat → ParserState → ParserState
  | 0, p => p
  | fuel + 1, p =>
    if p.column - saveColumn ≤ 5 && isSpaceOrTab (byteAt input p.offset) then
      skipMarkerSpaces input saveColumn fuel (advanceOffset input 1 true p)
    else p

/-- The padding of an item whose marker was just passed. -/
def markerPadding (input : Bytes) (matched : Nat) (p : ParserState) : ParserState × Int :=
  let spaces := skipMarkerSpaces input p.column 6 p
  let i := spaces.column - p.column
  if i ≥ 5 || i < 1 || isLineEndChar (byteAt input spaces.offset) then
    -- only spaces after list marker, or an indented code block
    (if i > 0 then advanceOffset input 1 true p else p, matched + 1)
  else (spaces, (matched : Int) + i)

def openListItem (P : Config) (input : Bytes) (matched : Nat) (data : ListData)
    (container : NodeId) (p : ParserState) : ParserState × NodeId :=
  let contType := p.typeOf container
  let startColumn : Int := p.firstNonspace + 1
  let (p, padding) := markerPadding input matched (advanceTo input (p.firstNonspace + matched) p)
  let data := { data with padding := padding, markerOffset := p.indent }
  -- check container; if it's a list, see if this list item can continue the list;
  -- otherwise, create a list container
  let (p, list) :=
    if contType ≠ .list || !listsMatch (p.dataOf container).as.getList data then
      let (p, list) := addChild P container .list startColumn p
      (p.modifyData list fun d => { d with as := .list data }, list)
    else (p, container)
  let (p, item) := addChild P list .item startColumn p
  (p.modifyData item fun d => { d with as := .list data }, item)

def openIndentedCode (P : Config) (input : Bytes) (container : NodeId) (p : ParserState) :
    ParserState × NodeId :=
  let p := advanceOffset input codeIndent true p
  let (p, code) := addChild P container .codeBlock (p.offset + 1) p
  (p.modifyData code fun d => { d with as := .code ⟨[], [], 0, 0, 0, false⟩ }, code)

/-- The `try_opening_block` callbacks, in order. -/
def tryOpeningBlocks (P : Config) (indented : Bool) (input : Bytes) (container : NodeId) :
    List Extension → ParserState → ParserState × Option NodeId
  | [], p => (p, none)
  | ext :: rest, p =>
    match ext.tryOpeningBlock with
    | none => tryOpeningBlocks P indented input container rest p
    | some tryOpeningBlock =>
      match tryOpeningBlock P.options indented p container input with
      | (p, some newContainer) => (p, some newContainer)
      | (p, none) => tryOpeningBlocks P indented input container rest p

/-- A block start that a scanner found, with the length or code the scanner gave. -/
inductive BlockStart where
  | blockQuote
  | atxHeading (matched : Nat)
  | fencedCode (matched : Nat)
  | htmlBlock (matched : Nat)
  | setextHeading (lev : Nat)
  | thematicBreak
  | footnoteDefinition (matched : Nat)
  | listItem (matched : Nat) (data : ListData)
  | indentedCode
  deriving DecidableEq

/-- The HTML block that starts at a position, or 0. -/
def scanHtmlBlock (input : Bytes) (pos : Nat) (contType : NodeType) : Nat :=
  let matched := Scanners.scanAt Scanners.htmlBlockStart input pos
  if matched = 0 && contType ≠ .paragraph then Scanners.scanAt Scanners.htmlBlockStart7 input pos
  else matched

/-- The conditions of `open_new_blocks`, in order, at the first byte that is not a space. -/
def findBlockStart (P : Config) (input : Bytes) (allMatched maybeLazy : Bool) (depth : Nat)
    (container : NodeId) (p : ParserState) : ParserState × Option BlockStart :=
  let indented := p.indent ≥ codeIndent
  let contType := p.typeOf container
  let pos := p.firstNonspace
  let atx := Scanners.scanAt Scanners.atxHeadingStart input pos
  let fence := Scanners.scanAt Scanners.openCodeFence input pos
  let html := scanHtmlBlock input pos contType
  let lev := Scanners.scanAt Scanners.setextHeadingLine input pos
  let footnote := Scanners.scanAt Scanners.footnoteDefinition input pos
  if !indented && byteAt input pos == chr '>' then (p, some .blockQuote)
  else if !indented && atx > 0 then (p, some (.atxHeading atx))
  else if !indented && fence > 0 then (p, some (.fencedCode fence))
  else if !indented && html > 0 then (p, some (.htmlBlock html))
  else if !indented && contType = .paragraph && lev > 0 then (p, some (.setextHeading lev))
  else
    let (p, thematic) :=
      if !indented && !(contType = .paragraph && !allMatched) && p.thematicBreakKillPos ≤ pos then
        scanThematicBreak input p
      else (p, 0)
    if thematic > 0 then (p, some .thematicBreak)
    else if !indented && P.options.has optFootnotes && depth < maxListDepth && footnote > 0 then
      (p, some (.footnoteDefinition footnote))
    else
      let marker :=
        if (!indented || contType = .list) && p.indent < 4 && depth < maxListDepth then
          parseListMarker input pos (contType = .paragraph)
        else none
      match marker with
      | some (matched, data) => (p, some (.listItem matched data))
      | none =>
        if indented && !maybeLazy && !p.blank then (p, some .indentedCode) else (p, none)

/-- Open the block that was found. -/
def openBlock (P : Config) (input : Bytes) (container : NodeId) (p : ParserState) :
    BlockStart → ParserState × NodeId
  | .blockQuote => openBlockQuote P input container p
  | .atxHeading matched => openAtxHeading P input matched container p
  | .fencedCode matched => openFencedCode P input matched container p
  | .htmlBlock matched => openHtmlBlock P matched container p
  | .setextHeading lev => (setextHeading P input lev container p, container)
  | .thematicBreak => openThematicBreak P input container p
  | .footnoteDefinition matched => openFootnoteDefinition P input matched container p
  | .listItem matched data => openListItem P input matched data container p
  | .indentedCode => openIndentedCode P input container p

/-- One turn of the loop of `open_new_blocks`: the new container, if there is one. -/
def openNewBlock (P : Config) (input : Bytes) (allMatched maybeLazy : Bool) (depth : Nat)
    (container : NodeId) (p : ParserState) : ParserState × Option NodeId :=
  let p := findFirstNonspace input p
  let indented : Bool := p.indent ≥ codeIndent
  match findBlockStart P input allMatched maybeLazy depth container p with
  | (p, some start) =>
    let (p, newContainer) := openBlock P input container p start
    (p, some newContainer)
  | (p, none) => tryOpeningBlocks P indented input container P.syntaxExtensions p

/-- The loop of `open_new_blocks`. Every new block but the last takes some of the line. -/
def openNewBlocksFrom (P : Config) (input : Bytes) (allMatched : Bool) : Nat → Bool → Nat →
    NodeId → ParserState → ParserState × NodeId
  | 0, _, _, container, p => (p, container)
  | fuel + 1, maybeLazy, depth, container, p =>
    if p.typeOf container = .codeBlock || p.typeOf container = .htmlBlock then (p, container)
    else
      match openNewBlock P input allMatched maybeLazy (depth + 1) container p with
      | (p, none) => (p, container)
      | (p, some container) =>
        -- if it's a line container, it can't contain other containers
        if acceptsLines (p.typeOf container) then (p, container)
        else openNewBlocksFrom P input allMatched fuel false (depth + 1) container p

/-- `open_new_blocks`. -/
def openNewBlocks (P : Config) (input : Bytes) (allMatched : Bool) (container : NodeId)
    (p : ParserState) : ParserState × NodeId :=
  openNewBlocksFrom P input allMatched (input.length + 2) (p.typeOf p.current = .paragraph) 0
    container p

end CmarkGfm
