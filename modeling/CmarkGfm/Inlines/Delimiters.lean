import CmarkGfm.Inlines.Basic

/-! # Delimiter runs and emphasis (inlines.c) -/

namespace CmarkGfm

def leftDoubleQuote : Bytes := [0xE2, 0x80, 0x9C]

def rightDoubleQuote : Bytes := [0xE2, 0x80, 0x9D]

def leftSingleQuote : Bytes := [0xE2, 0x80, 0x98]

def rightSingleQuote : Bytes := [0xE2, 0x80, 0x99]

def isQuote (c : UInt8) : Bool := c == chr '\'' || c == chr '"'

def isEmphasisChar (c : UInt8) : Bool := c == chr '*' || c == chr '_'

/-! ### Flanking -/

/-- Walk back to the beginning of a UTF-8 sequence, over skipped characters. -/
def beforeCharPos (skipChars : UInt8 → Bool) (input : Bytes) : Nat → Nat
  | 0 => 0
  | pos + 1 =>
    let c := byteAt input (pos + 1)
    if c >>> 6 == 2 || skipChars c then beforeCharPos skipChars input pos else pos + 1

/-- Decode a character next to a run; line feed if that fails or it is skipped. -/
def flankingChar (skipChars : UInt8 → Bool) (str : Bytes) : Nat :=
  match utf8Iterate str with
  | none => 10
  | some (uc, _) => if uc < 256 && skipChars (UInt8.ofNat uc) then 10 else uc

/-- `scan_delims`: the length of the run, `can_open` and `can_close`. -/
def scanDelims (chars : CharTables) (input : Bytes) (pos : Nat) (c : UInt8) : Nat × Bool × Bool :=
  let beforeChar :=
    if pos = 0 then 10
    else
      let before := beforeCharPos chars.skipChars input (pos - 1)
      flankingChar chars.skipChars (chunkDup input before (pos - before))
  let numdelims := if isQuote c then 1 else skipWhile (· == c) input pos - pos
  let stop := pos + numdelims
  let afterChar :=
    if stop = input.length then 10
    else
      let after := skipWhile chars.skipChars input stop
      flankingChar chars.skipChars (input.drop after)
  let leftFlanking := numdelims > 0 && !utf8IsSpace afterChar &&
    (!utf8IsPunctuation afterChar || utf8IsSpace beforeChar || utf8IsPunctuation beforeChar)
  let rightFlanking := numdelims > 0 && !utf8IsSpace beforeChar &&
    (!utf8IsPunctuation beforeChar || utf8IsSpace afterChar || utf8IsPunctuation afterChar)
  if c == chr '_' then
    (numdelims, leftFlanking && (!rightFlanking || utf8IsPunctuation beforeChar),
      rightFlanking && (!leftFlanking || utf8IsPunctuation afterChar))
  else if isQuote c then
    (numdelims, leftFlanking && !rightFlanking && beforeChar != 93 && beforeChar != 41,
      rightFlanking)
  else (numdelims, leftFlanking, rightFlanking)

/-! ### The delimiter stack -/

/-- `push_delimiter`. -/
def pushDelimiter (subj : Subject) (c : UInt8) (canOpen canClose : Bool) (inlText : Node) :
    Subject :=
  { subj with
    delims := ⟨inlText.id, subj.pos, inlText.literal.length, c, canOpen, canClose⟩ :: subj.delims }

/-- `handle_delim`. -/
def handleDelim (chars : CharTables) (smart : Bool) (subj : Subject) (c : UInt8) :
    Subject × Node :=
  let (numdelims, canOpen, canClose) := scanDelims chars subj.input subj.pos c
  let start := subj.pos
  let subj := subj.advance numdelims
  let stop := (subj.pos : Int) - 1
  let (subj, inlText) :=
    if c == chr '\'' && smart then subj.makeStr start stop rightSingleQuote
    else if c == chr '"' && smart then
      subj.makeStr start stop (if canClose then rightDoubleQuote else leftDoubleQuote)
    else subj.makeStrAt start stop start (chunkDup subj.input start numdelims)
  if (canOpen || canClose) && (!isQuote c || smart) then
    (pushDelimiter subj c canOpen canClose inlText, inlText)
  else (subj, inlText)

/-! ### Emphasis -/

/-- Set the literal of a node, which then owns its bytes. -/
def setLiteral (s : Bytes) (d : NodeData) : NodeData := { d with as := .literal s, chunkPos := none }

/-- `as.literal.len = n`. -/
def truncateLiteral (n : Nat) (d : NodeData) : NodeData :=
  { d with as := .literal (d.as.getLiteral.take n) }

/-- Move the siblings between two nodes into the node that `wrap` makes of them. -/
def wrapBetween (opener closer : NodeId) (wrap : Forest → Forest) (f : Forest) : Forest :=
  let after := siblingsAfter opener f
  siblingsBefore opener f ++ (siblingsFrom opener f).take 1 ++
    wrap (after.takeWhile fun n => n.id != closer) ++ after.dropWhile fun n => n.id != closer

/-- `S_insert_emph`. `below` are the delimiters under the opener and `later` those after
the closer; the delimiters between the two are dropped. -/
def insertEmph (P : Config) (subj : Subject) (below : List Delimiter) (opener closer : Delimiter)
    (later : List Delimiter) : Emphasis :=
  let openerInl := dataOf opener.inlText subj.children
  let closerInl := dataOf closer.inlText subj.children
  let openerNumChars := openerInl.as.getLiteral.length
  let closerNumChars := closerInl.as.getLiteral.length
  let useDelims := if closerNumChars ≥ 2 && openerNumChars ≥ 2 then 2 else 1
  -- remove used characters from associated inlines
  let openerNumChars := openerNumChars - useDelims
  let closerNumChars := closerNumChars - useDelims
  let f := editData opener.inlText (truncateLiteral openerNumChars) subj.children
  let f := editData closer.inlText (truncateLiteral closerNumChars) f
  -- create new emph or strong, and splice it in between the opener and closer
  let (subj, emph) := subj.alloc
    { type := if useDelims = 1 then .emph else .strong
      startLine := openerInl.startLine
      endLine := closerInl.endLine
      startColumn := openerInl.startColumn
      endColumn := closerInl.endColumn }
  let accepted := canInsertBeside P subj.parent opener.inlText emph.type f
  let f := editSiblings opener.inlText (wrapBetween opener.inlText closer.inlText fun between =>
    if accepted then [.mk emph.id emph.data between] else []) f
  let f := if openerNumChars = 0 then freeNode opener.inlText f else f
  let f := if closerNumChars = 0 then freeNode closer.inlText f else f
  { subj := { subj with children := f }
    before := if openerNumChars = 0 then below else opener :: below
    after := if closerNumChars = 0 then later else closer :: later }

/-- `get_extension_for_special_char`. -/
def extensionForSpecialChar (P : Config) (c : UInt8) : Option Extension :=
  P.inlineSyntaxExtensions.find? fun e => e.specialInlineChars.contains c

/-- Can the two runs be matched? An interior closer of size 2 can't match an opener of size 1
and of size 1 can't match 2. -/
def delimitersMatch (opener closer : Delimiter) : Bool :=
  opener.canOpen && opener.delimChar == closer.delimChar &&
    (!(closer.canOpen || opener.canClose) || closer.length % 3 == 0 ||
      (opener.length + closer.length) % 3 != 0)

/-- Look backwards for the first matching opener at or above both bounds; the result also has
the delimiters passed and those left. -/
def findOpener (stackBottom openersBottom : Nat) (closer : Delimiter) :
    List Delimiter → Option (List Delimiter × Delimiter × List Delimiter)
  | [] => none
  | opener :: below =>
    if opener.position ≥ stackBottom && opener.position ≥ openersBottom then
      if delimitersMatch opener closer then some ([], opener, below)
      else (findOpener stackBottom openersBottom closer below).map fun r => (opener :: r.1, r.2)
    else none

/-- `openers_bottom`. -/
abbrev OpenersBottom := Nat → UInt8 → Nat

def OpenersBottom.initial (stackBottom : Nat) : OpenersBottom := fun _ c =>
  if isEmphasisChar c || isQuote c then stackBottom else 0

def OpenersBottom.set (bottom : OpenersBottom) (closer : Delimiter) : OpenersBottom :=
  fun i c => if i = closer.length % 3 ∧ c = closer.delimChar then closer.position else bottom i c

/-- The lower bound for the search of a closer that `process_emphasis` takes from its
table. -/
def OpenersBottom.get (bottom : OpenersBottom) (closer : Delimiter) : Nat :=
  bottom (closer.length % 3) closer.delimChar

/-- Pass the closer without a match. -/
def Emphasis.skipCloser (e : Emphasis) (closer : Delimiter) (later : List Delimiter) : Emphasis :=
  { e with before := closer :: e.before, after := later }

/-- Write the literal of the text node of a delimiter. -/
def Subject.setText (subj : Subject) (i : NodeId) (s : Bytes) : Subject :=
  { subj with children := editData i (setLiteral s) subj.children }

/-- A quote that closes takes its closing form. -/
def Subject.closeQuote (subj : Subject) (closer : Delimiter) : Subject :=
  subj.setText closer.inlText
    (if closer.delimChar == chr '\'' then rightSingleQuote else rightDoubleQuote)

/-- The opener of a quote that was closed takes its opening form. -/
def Subject.openQuote (subj : Subject) (opener closer : Delimiter) : Subject :=
  subj.setText opener.inlText
    (if closer.delimChar == chr '\'' then leftSingleQuote else leftDoubleQuote)

/-- A closer for which no opener was found: it stays only if it can open. -/
def unmatchedCloser (P : Config) (e : Emphasis) (closer : Delimiter) (later : List Delimiter) :
    Emphasis :=
  let subj :=
    if (extensionForSpecialChar P closer.delimChar).isNone && isQuote closer.delimChar then
      e.subj.closeQuote closer
    else e.subj
  { subj := subj, before := if closer.canOpen then closer :: e.before else e.before, after := later }

/-- A closer with the opener found for it. -/
def matchedCloser (P : Config) (e : Emphasis) (between : List Delimiter) (opener : Delimiter)
    (below : List Delimiter) (closer : Delimiter) (later : List Delimiter) : Emphasis :=
  match extensionForSpecialChar P closer.delimChar with
  | some extension =>
    match extension.insertInlineFromDelim with
    | some insert => insert P.options e.subj below opener between closer later
    | none => e.skipCloser closer later
  | none =>
    if isEmphasisChar closer.delimChar then insertEmph P e.subj below opener closer later
    else if isQuote closer.delimChar then
      { subj := (e.subj.closeQuote closer).openQuote opener closer
        before := between ++ below
        after := later }
    else e.skipCloser closer later

/-- One turn of the loop of `process_emphasis`. The search for an opener stops at
`limit bottom closer`, which for the code is `bottom.get closer`. -/
def emphasisStep (P : Config) (limit : OpenersBottom → Delimiter → Nat) (stackBottom : Nat)
    (e : Emphasis) (bottom : OpenersBottom) : Emphasis × OpenersBottom :=
  match e.after with
  | [] => (e, bottom)
  | closer :: later =>
    if closer.canClose then
      match findOpener stackBottom (limit bottom closer) closer e.before with
      | some (between, opener, below) =>
        (matchedCloser P e between opener below closer later, bottom)
      | none => (unmatchedCloser P e closer later, bottom.set closer)
    else (e.skipCloser closer later, bottom)

def emphasisLoop (P : Config) (limit : OpenersBottom → Delimiter → Nat) (stackBottom : Nat) :
    Nat → Emphasis → OpenersBottom → Emphasis × OpenersBottom
  | 0, e, bottom => (e, bottom)
  | fuel + 1, e, bottom =>
    let next := emphasisStep P limit stackBottom e bottom
    emphasisLoop P limit stackBottom fuel next.1 next.2

/-- Move back to the first relevant delimiter. -/
def emphasisStart (subj : Subject) (stackBottom : Nat) : Emphasis where
  subj := subj
  before := subj.delims.dropWhile fun d => d.position ≥ stackBottom
  after := (subj.delims.takeWhile fun d => d.position ≥ stackBottom).reverse

/-- Every turn passes a delimiter or uses up characters of one. -/
def emphasisFuel (e : Emphasis) : Nat := (e.after.map fun d => d.length + 1).sum

/-- `process_emphasis`, with the bound of the search for openers as a parameter. -/
def processEmphasisWith (P : Config) (limit : OpenersBottom → Delimiter → Nat) (subj : Subject)
    (stackBottom : Nat) : Subject :=
  let start := emphasisStart subj stackBottom
  let (e, _) := emphasisLoop P limit stackBottom (emphasisFuel start) start (.initial stackBottom)
  -- free all delimiters in list until stack_bottom
  { e.subj with
    delims := (e.after.reverse ++ e.before).dropWhile fun d => d.position ≥ stackBottom }

/-- `process_emphasis`. -/
def processEmphasis (P : Config) (subj : Subject) (stackBottom : Nat) : Subject :=
  processEmphasisWith P OpenersBottom.get subj stackBottom

end CmarkGfm
