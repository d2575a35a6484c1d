import CmarkGfm.Blocks.Open

/-! # One line of the document (blocks.c) -/

namespace CmarkGfm

/-- Clear the flag of the ancestors. A block is deeper than its parent, so the number of
addresses is fuel enough. -/
def clearAncestorsBlank : Nat → NodeId → ParserState → ParserState
  | 0, _, p => p
  | fuel + 1, tmp, p =>
    match p.parentOf tmp with
    | none => p
    | some parent =>
      clearAncestorsBlank fuel parent (p.modifyData parent fun d => { d with lastLineBlank := false })

/-- Set the blank-line flags of a container, its last child and its ancestors. -/
def setLastLineBlank (container : NodeId) (p : ParserState) : ParserState :=
  let p := match p.lastChild container with
    | some child =>
      if p.blank then p.modifyData child fun d => { d with lastLineBlank := true } else p
    | none => p
  let d := p.dataOf container
  -- block quote lines are never blank as they start with >, and we don't count blanks in fenced
  -- code for purposes of tight/loose lists or breaking out of lists; we also don't set
  -- last_line_blank on an empty list item
  let lastLineBlank := p.blank && d.type ≠ .blockQuote && d.type ≠ .heading &&
    d.type ≠ .thematicBreak && !(d.type = .codeBlock && d.as.getCode.fenced) &&
    !(d.type = .item && p.childrenOf container = [] && d.startLine = p.lineNumber)
  let p := p.modifyData container fun d => { d with lastLineBlank := lastLineBlank }
  clearAncestorsBlank p.nextId container p

/-- Finalize blocks that were not matched. -/
def closeUnmatched (P : Config) (lastMatched : NodeId) : Nat → ParserState → ParserState
  | 0, p => p
  | fuel + 1, p =>
    if p.current = lastMatched then p
    else
      match finalize P p.current p with
      | (p, some parent) => closeUnmatched P lastMatched fuel { p with current := parent }
      | (p, none) => p.assert false

/-- Does a line meet the end condition of an HTML block? -/
def matchesEndCondition (htmlBlockType : Nat) (input : Bytes) (pos : Nat) : Bool :=
  match htmlBlockType with
  | 1 => Scanners.scanAt Scanners.htmlBlockEnd1 input pos > 0
  | 2 => Scanners.scanAt Scanners.htmlBlockEnd2 input pos > 0
  | 3 => Scanners.scanAt Scanners.htmlBlockEnd3 input pos > 0
  | 4 => Scanners.scanAt Scanners.htmlBlockEnd4 input pos > 0
  | 5 => Scanners.scanAt Scanners.htmlBlockEnd5 input pos > 0
  | _ => false

/-- Add a line to an HTML block, which it may end. -/
def addHtmlLine (P : Config) (input : Bytes) (container : NodeId) (p : ParserState) :
    ParserState × NodeId :=
  let p := addLine container input p
  if matchesEndCondition (p.dataOf container).as.getHtmlBlockType input p.firstNonspace then
    match finalize P container p with
    | (p, some parent) => (p, parent)
    | (p, none) => (p.assert false, container)
  else (p, container)

/-- Skip the indentation unless white space is preserved. -/
def skipIndentation (P : Config) (input : Bytes) (p : ParserState) : ParserState :=
  if P.options.has optPreserveWhitespace then p else advanceTo input p.firstNonspace p

/-- Create a paragraph container for the line. -/
def addParagraph (P : Config) (input : Bytes) (container : NodeId) (p : ParserState) :
    ParserState × NodeId :=
  let startColumn := if P.options.has optPreserveWhitespace then p.offset + 1 else p.firstNonspace + 1
  let (p, container) := addChild P container .paragraph startColumn p
  (addLine container input (skipIndentation P input p), container)

/-- The line is not a lazy continuation: add it to the container, or to a new paragraph. Also
returns what the line has become. -/
def addContainerLine (P : Config) (input : Bytes) (container : NodeId) (p : ParserState) :
    ParserState × NodeId × Bytes :=
  let d := p.dataOf container
  if d.type = .codeBlock then (addLine container input p, container, input)
  else if d.type = .htmlBlock then
    let (p, container) := addHtmlLine P input container p
    (p, container, input)
  else if p.blank && !P.options.has optPreserveWhitespace then (p, container, input)
  else if acceptsLines d.type then
    let line := if d.type = .heading && !d.as.getSetext then chopTrailingHashtags input else input
    (addLine container line (skipIndentation P input p), container, line)
  else
    let (p, container) := addParagraph P input container p
    (p, container, input)

/-- `add_text_to_container`. It cuts hashtags off the line of a heading, so it returns the
line. -/
def addTextToContainer (P : Config) (input : Bytes) (container lastMatched : NodeId)
    (p : ParserState) : ParserState × Bytes :=
  let p := setLastLineBlank container (findFirstNonspace input p)
  -- treat this as a lazy continuation line if the last line processed belonged to a paragraph,
  -- not all prefixes matched, no new container was started and the line isn't blank
  if p.current ≠ lastMatched && container = lastMatched &&
      (!p.blank || P.options.has optPreserveWhitespace) && p.typeOf p.current = .paragraph then
    (addLine p.current input p, input)
  else
    let p := closeUnmatched P lastMatched (p.nextId + 1) p
    let (p, container, input) := addContainerLine P input container p
    ({ p with current := container }, input)

/-- The line as `S_process_line` reads it. -/
def prepareLine (P : Config) (buffer : Bytes) (ensureEndsInNewline : Bool) : Bytes :=
  let curline := if P.options.has optValidateUtf8 then utf8Check buffer else buffer
  -- ensure line ends with a newline
  if ensureEndsInNewline && !(curline.getLast?.elim false isLineEndChar) then curline ++ [10]
  else curline

/-- The state at the start of a line. -/
def startLine (input : Bytes) (p : ParserState) : ParserState :=
  { p with
    curline := input
    -- Skip UTF-8 BOM
    offset := if p.lineNumber = 0 && input.take 3 = [0xef, 0xbb, 0xbf] then 3 else 0
    column := 0
    firstNonspace := 0
    firstNonspaceColumn := 0
    thematicBreakKillPos := 0
    indent := 0
    blank := false
    partiallyConsumedTab := false
    lineNumber := p.lineNumber + 1 }

/-- `S_process_line`. -/
def processLine (P : Config) (p : ParserState) (buffer : Bytes) (ensureEndsInNewline : Bool) :
    ParserState :=
  let input := prepareLine P buffer ensureEndsInNewline
  let (p, lastMatched, allMatched) := checkOpenBlocks P input (startLine input p)
  let (p, input) := match lastMatched with
    | none => (p, input)
    | some lastMatched =>
      let current := p.current
      -- Only open new blocks if we're not limited to inline
      let (p, container) :=
        if P.options.has optInlineOnly then (p, lastMatched)
        else openNewBlocks P input allMatched lastMatched p
      -- the current block changes only if feed_reentrant was called
      if p.current = current then addTextToContainer P input container lastMatched p
      else (p, input)
  { p with lastLineLength := lineLength input, curline := [] }

end CmarkGfm
