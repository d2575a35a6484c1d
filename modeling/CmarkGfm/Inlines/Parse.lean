import CmarkGfm.Inlines.Backticks
import CmarkGfm.Inlines.Brackets

/-! # The inline parser (inlines.c) -/

namespace CmarkGfm

def emDash : Bytes := [0xE2, 0x80, 0x94]

def enDash : Bytes := [0xE2, 0x80, 0x93]

def ellipses : Bytes := [0xE2, 0x80, 0xA6]

/-! ### Handlers for special characters -/

/-- The numbers of em and en dashes for a run of hyphens. -/
def dashCounts (numhyphens : Nat) : Nat × Nat :=
  if numhyphens % 3 = 0 then (numhyphens / 3, 0)
  else if numhyphens % 2 = 0 then (0, numhyphens / 2)
  else if numhyphens % 3 = 2 then ((numhyphens - 2) / 3, 1)
  else ((numhyphens - 4) / 3, 2)

def handleHyphen (smart : Bool) (subj : Subject) : Subject × Node :=
  let startpos := subj.pos
  let subj := subj.advance 1
  if !smart || subj.peekChar != chr '-' then subj.makeChar (chr '-')
  else
    let subj := { subj with pos := skipWhile (· == chr '-') subj.input subj.pos }
    let (emCount, enCount) := dashCounts (subj.pos - startpos)
    subj.makeStr startpos ((subj.pos : Int) - 1)
      ((List.replicate emCount emDash).flatten ++ (List.replicate enCount enDash).flatten)

def handlePeriod (smart : Bool) (subj : Subject) : Subject × Node :=
  let subj := subj.advance 1
  if smart && subj.peekChar == chr '.' then
    let subj := subj.advance 1
    if subj.peekChar == chr '.' then
      let subj := subj.advance 1
      subj.makeStr ((subj.pos : Int) - 3) ((subj.pos : Int) - 1) ellipses
    else subj.makeStr ((subj.pos : Int) - 2) ((subj.pos : Int) - 1) (lit "..")
  else subj.makeChar (chr '.')

/-- Count a line break that ends before the current position, and skip the spaces at the
beginning of the next line. -/
def Subject.startLine (subj : Subject) : Subject :=
  { subj with
    line := subj.line + 1
    columnOffset := -(subj.pos : Int)
    pos := skipSpaces subj.input subj.pos }

/-- `handle_backslash`. -/
def handleBackslash (chars : CharTables) (subj : Subject) : Subject × Node :=
  let subj := subj.advance 1
  if chars.backslashIspunct.getD ispunct subj.peekChar then
    let subj := subj.advance 1
    subj.makeStrAt ((subj.pos : Int) - 2) ((subj.pos : Int) - 1) (subj.pos - 1)
      (chunkDup subj.input (subj.pos - 1) 1)
  else
    match if subj.isEof then none else skipLineEnd subj.input subj.pos with
    | some pos => (Subject.startLine { subj with pos := pos }).makeSimple .linebreak
    | none => subj.makeChar (chr '\\')

/-- `handle_entity`. -/
def handleEntity (T : Tables) (subj : Subject) : Subject × Node :=
  let subj := subj.advance 1
  match unescapeEnt T (subj.input.drop subj.pos) with
  | none => subj.makeChar (chr '&')
  | some (ent, len) =>
    let subj := subj.advance len
    subj.makeStr ((subj.pos : Int) - 1 - len) ((subj.pos : Int) - 1) ent

/-- `handle_newline`. -/
def handleNewline (subj : Subject) : Subject × Node :=
  let nlpos := subj.pos
  let afterCr := if byteAt subj.input nlpos == 13 then nlpos + 1 else nlpos
  let afterLf := if byteAt subj.input afterCr == 10 then afterCr + 1 else afterCr
  let subj := Subject.startLine { subj with pos := afterLf }
  if nlpos > 1 && byteAt subj.input (nlpos - 1) == 32 && byteAt subj.input (nlpos - 2) == 32 then
    subj.makeSimple .linebreak
  else subj.makeSimple .softbreak

/-! ### Autolinks and raw HTML -/

/-- The length of an HTML construct after the `<` at the current position, and the subject
with the flags that stop later scans. -/
def scanHtml (subj : Subject) : Subject × Nat :=
  let input := subj.input
  let pos := subj.pos
  if pos + 2 ≤ input.length then
    let c := byteAt input pos
    if c == chr '!' && !subj.skipHtmlComment then
      let c := byteAt input (pos + 1)
      if c == chr '-' && byteAt input (pos + 2) == chr '-' then
        if byteAt input (pos + 3) == chr '>' then (subj, 4)
        else if byteAt input (pos + 3) == chr '-' && byteAt input (pos + 4) == chr '>' then (subj, 5)
        else
          let matchlen := Scanners.scanAt Scanners.htmlComment input (pos + 1)
          if matchlen > 0 then (subj, matchlen + 1) else ({ subj with skipHtmlComment := true }, 0)
      else if c == chr '[' then
        if subj.skipHtmlCdata then (subj, 0)
        else
          let matchlen := Scanners.scanAt Scanners.htmlCdata input (pos + 2)
          if matchlen > 0 then
            if pos + (matchlen + 5) > input.length then ({ subj with skipHtmlCdata := true }, 0)
            else (subj, matchlen + 5)
          else (subj, 0)
      else if subj.skipHtmlDeclaration then (subj, 0)
      else
        let matchlen := Scanners.scanAt Scanners.htmlDeclaration input (pos + 1)
        if matchlen > 0 then
          if pos + (matchlen + 2) > input.length then
            ({ subj with skipHtmlDeclaration := true }, 0)
          else (subj, matchlen + 2)
        else (subj, 0)
    else if c == chr '?' then
      if subj.skipHtmlPi then (subj, 0)
      else
        -- an empty match is allowed
        let matchlen := Scanners.scanAt Scanners.htmlPi input (pos + 1) + 3
        if pos + matchlen > input.length then ({ subj with skipHtmlPi := true }, 0)
        else (subj, matchlen)
    else (subj, Scanners.scanAt Scanners.htmlTag input pos)
  else (subj, 0)

/-- The raw HTML of the given length after the `<`. -/
def makeRawHtml (options : Options) (subj : Subject) (matchlen : Nat) : Subject × Node :=
  let contents := chunkDup subj.input (subj.pos - 1) (matchlen + 1)
  let subj := subj.advance matchlen
  let (subj, node) :=
    subj.makeLiteral .htmlInline ((subj.pos : Int) - matchlen - 1) ((subj.pos : Int) - 1) contents
  subj.adjustNodeNewlines options node matchlen 1

/-- `handle_pointy_brace`. -/
def handlePointyBrace (P : Config) (subj : Subject) : Subject × Node :=
  let subj := subj.advance 1
  let autolink := fun (matchlen : Nat) (isEmail : Bool) =>
    let contents := chunkDup subj.input subj.pos (matchlen - 1)
    let subj := subj.advance matchlen
    subj.makeAutolink P.tables ((subj.pos : Int) - 1 - matchlen) ((subj.pos : Int) - 1) contents
      isEmail
  let uri := Scanners.scanAt Scanners.autolinkUri subj.input subj.pos
  let email := Scanners.scanAt Scanners.autolinkEmail subj.input subj.pos
  if uri > 0 then autolink uri false
  else if email > 0 then autolink email true
  else
    let (subj, matchlen) := scanHtml subj
    if matchlen > 0 then makeRawHtml P.options subj matchlen
    else
      let matchlen := if P.options.has optLiberalHtmlTag then
        Scanners.scanAt Scanners.liberalHtmlTag subj.input subj.pos else 0
      if matchlen > 0 then makeRawHtml P.options subj matchlen
      else subj.makeChar (chr '<')

/-! ### Special characters -/

/-- `cmark_set_default_special_chars` and `cmark_set_default_skip_chars`. -/
def defaultCharTables : CharTables where
  specialChars := fun c => (lit "\r\n\\`&_*[]<!^").contains c
  skipChars := fun _ => false

/-- `SMART_PUNCT_CHARS`. -/
def smartPunctChars (c : UInt8) : Bool := (lit "\"'.-").contains c

/-- `subject_find_special_char`. -/
def findSpecialChar (P : Config) (chars : CharTables) (subj : Subject) : Nat :=
  skipWhile (fun c => !(chars.specialChars c || P.options.has optSmart && smartPunctChars c))
    subj.input (subj.pos + 1)

/-! ### One inline -/

/-- `try_extensions`. -/
def tryExtensions (options : Options) (c : UInt8) : List Extension → Subject →
    Subject × Option Node
  | [], subj => (subj, none)
  | ext :: rest, subj =>
    match ext.matchInline with
    | none => tryExtensions options c rest subj
    | some matchInline =>
      match matchInline options subj c with
      | (subj, some node) => (subj, some node)
      | (subj, none) => tryExtensions options c rest subj

/-- A node that is certainly made. -/
def made (result : Subject × Node) : Subject × Option Node := (result.1, some result.2)

/-- The text up to the next special character. -/
def makeText (P : Config) (chars : CharTables) (subj : Subject) : Subject × Node :=
  let startpos := subj.pos
  let endpos := findSpecialChar P chars subj
  if endpos = startpos then
    let subj := subj.advance 1
    subj.makeStrAt startpos startpos startpos (chunkDup subj.input startpos 1)
  else
    let contents := chunkDup subj.input startpos (endpos - startpos)
    let subj := { subj with pos := endpos }
    -- if we're at a newline, strip trailing spaces
    let contents :=
      if !P.options.has optPreserveWhitespace && isLineEndChar subj.peekChar then
        chunkRtrim contents
      else contents
    subj.makeStrAt startpos ((endpos : Int) - 1) startpos contents

/-- An opening bracket: its text node, which is also put on the bracket stack. -/
def openBracket (subj : Subject) (type : BracketType) (s : Bytes) : Subject × Node :=
  let subj := subj.advance s.length
  let (subj, node) := subj.makeStr ((subj.pos : Int) - s.length) ((subj.pos : Int) - 1) s
  (pushBracket subj type node, node)

/-- The `switch` of `parse_inline`. -/
def dispatchInline (P : Config) (chars : CharTables) (subj : Subject) (c : UInt8) :
    Subject × Option Node :=
  let smart := P.options.has optSmart
  if c == 13 || c == 10 then
    if P.options.has optPreserveWhitespace then
      let subj := subj.advance 1
      made (subj.makeStrAt ((subj.pos : Int) - 1) ((subj.pos : Int) - 1) (subj.pos - 1)
        (chunkDup subj.input (subj.pos - 1) 1))
    else made (handleNewline subj)
  else if c == chr '`' then made (handleBackticks P.options subj)
  else if c == chr '\\' then made (handleBackslash chars subj)
  else if c == chr '&' then made (handleEntity P.tables subj)
  else if c == chr '<' then made (handlePointyBrace P subj)
  else if isEmphasisChar c || isQuote c then made (handleDelim chars smart subj c)
  else if c == chr '-' then made (handleHyphen smart subj)
  else if c == chr '.' then made (handlePeriod smart subj)
  else if c == chr '[' then made (openBracket subj .link (lit "["))
  else if c == chr ']' then handleCloseBracket P subj
  else if c == chr '!' && subj.peekCharN 1 == chr '[' && subj.peekCharN 2 != chr '^' then
    made (openBracket subj .image (lit "!["))
  else if c == chr '^' && subj.peekCharN 1 == chr '[' then
    made (openBracket subj .attribute (lit "^["))
  else (subj, none)

/-- The node `parse_inline` makes: that of the `switch`, or else an extension's, or text. -/
def nextInline (P : Config) (chars : CharTables) (subj : Subject) (c : UInt8) :
    Subject × Option Node :=
  let initpos := subj.pos
  match dispatchInline P chars subj c with
  | (subj, some node) => (subj, some node)
  | (subj, none) =>
    if subj.pos = initpos then
      match tryExtensions P.options c P.inlineSyntaxExtensions subj with
      | (subj, some node) => (subj, some node)
      | (subj, none) => made (makeText P chars subj)
    else (subj, none)

/-- `parse_inline`; `none` where it returns 0. -/
def parseInline (P : Config) (chars : CharTables) (subj : Subject) : Option Subject :=
  let c := subj.peekChar
  if c == 0 then none
  else
    let (subj, newInl) := nextInline P chars subj c
    some (newInl.elim subj subj.appendChild)

/-- The loop of `cmark_parse_inlines`. Every turn advances the subject, so the length of the
content is fuel enough. -/
def parseInlinesLoop (P : Config) (chars : CharTables) : Nat → Subject → Subject
  | 0, subj => subj
  | fuel + 1, subj =>
    if subj.isEof then subj
    else match parseInline P chars subj with
    | none => subj
    | some subj => parseInlinesLoop P chars fuel subj

/-- The subject with which the inlines of a block are parsed. -/
def inlineSubject (P : Config) (parent : NodeData) (children : Forest) (refmap : Map Reference)
    (nextId : NodeId) : Subject :=
  let content :=
    if P.options.has optPreserveWhitespace then parent.content else chunkRtrim parent.content
  .ofBlock parent content children refmap nextId

/-- `cmark_parse_inlines`. -/
def parseInlines (P : Config) (chars : CharTables) (subj : Subject) : Subject :=
  let subj := parseInlinesLoop P chars subj.input.length subj
  { processEmphasis P subj 0 with delims := [], brackets := [] }

end CmarkGfm
