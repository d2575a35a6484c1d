import CmarkGfm.Extensions.Tagfilter
import CmarkGfm.Parser.Document
import CmarkGfm.Render.Traversal

/-! # autolink.c -/

namespace CmarkGfm

/-!
### The end of a link

Positions are of type `size_t`: a subtraction below zero and a read behind the data are `none`.
-/

/-- `data[i]`, inside of the data. -/
def readAt (data : Bytes) (i : Nat) : Option UInt8 := data[i]?

/-- The characters that do not belong to a link at whose end they are. -/
def trimsAtEnd (c : UInt8) : Bool := (lit "?!.,:*_~'\"").contains c

/-- The first loop of `autolink_delim`: the end, and the numbers of closing and opening parentheses before it. -/
def countParens (data : Bytes) (linkEnd : Nat) : Nat → Nat → Nat → Nat → Option (Nat × Nat × Nat)
  | 0, _, closing, opening => some (linkEnd, closing, opening)
  | fuel + 1, i, closing, opening =>
    if i < linkEnd then do
      let c ← readAt data i
      if c = chr '<' then some (i, closing, opening)
      else if c = chr '(' then countParens data linkEnd fuel (i + 1) closing (opening + 1)
      else if c = chr ')' then countParens data linkEnd fuel (i + 1) (closing + 1) opening
      else countParens data linkEnd fuel (i + 1) closing opening
    else some (linkEnd, closing, opening)

/-- `a - b` -/
def subSize (a b : Nat) : Option Nat := if b ≤ a then some (a - b) else none

/-- Go back over the letters of an entity. -/
def entityStart (data : Bytes) : Nat → Option Nat
  | 0 => some 0
  | newEnd + 1 => do
    let c ← readAt data (newEnd + 1)
    if isalpha c then entityStart data newEnd else some (newEnd + 1)

/-- The second loop of `autolink_delim`. Every turn makes the link shorter. -/
def trimEnd (data : Bytes) (opening : Nat) : Nat → Nat → Nat → Option Nat
  | 0, _, linkEnd => if linkEnd = 0 then some 0 else none
  | fuel + 1, closing, linkEnd =>
    if linkEnd = 0 then some 0
    else do
      let c ← readAt data (linkEnd - 1)
      if c = chr ')' then
        -- any number of matching parentheses is allowed at the end
        if closing ≤ opening then some linkEnd
        else trimEnd data opening fuel (closing - 1) (linkEnd - 1)
      else if trimsAtEnd c then trimEnd data opening fuel closing (linkEnd - 1)
      else if c = chr ';' then
        let last ← subSize linkEnd 2
        let newEnd ← entityStart data last
        let first ← readAt data newEnd
        if newEnd < last ∧ first = chr '&' then trimEnd data opening fuel closing newEnd
        else trimEnd data opening fuel closing (linkEnd - 1)
      else some linkEnd

/-- `autolink_delim` -/
def autolinkDelim (data : Bytes) (linkEnd : Nat) : Option Nat := do
  let (linkEnd, closing, opening) ← countParens data linkEnd linkEnd 0 0 0
  trimEnd data opening linkEnd closing linkEnd

/-! ### Links in the content -/

/-- `strchr` finds the terminating NUL, too. -/
def strchr (s : Bytes) (c : UInt8) : Bool := c == 0 || s.contains c

def isalnum (c : UInt8) : Bool := isdigit c || isalpha c

def isValidHostchar (link : Bytes) : Bool :=
  match utf8Iterate link with
  | none => false
  | some (ch, _) => !utf8IsSpace ch && !utf8IsPunctuation ch

def validUris : List Bytes := [lit "http://", lit "https://", lit "ftp://"]

/-- `strncasecmp` with the whole of a string in lower case. -/
def startsWithCase (link uri : Bytes) : Bool := (link.take uri.length).map tolower == uri

def sdAutolinkIssafe (link : Bytes) : Bool :=
  validUris.any fun uri =>
    link.length > uri.length && startsWithCase link uri && isValidHostchar (link.drop uri.length)

/-- What the loop of `check_domain` counts. -/
structure DomainScan where
  i : Nat := 1
  np : Nat := 0
  uscore1 : Nat := 0
  uscore2 : Nat := 0

/-- The loop of `check_domain`. Every turn moves `i`. -/
def checkDomainLoop (data : Bytes) : Nat → DomainScan → DomainScan
  | 0, s => s
  | fuel + 1, s =>
    if s.i + 1 < data.length then
      let i := if byteAt data s.i == chr '\\' && s.i + 2 < data.length then s.i + 1 else s.i
      if byteAt data i == chr '_' then
        checkDomainLoop data fuel { s with i := i + 1, uscore2 := s.uscore2 + 1 }
      else if byteAt data i == chr '.' then
        checkDomainLoop data fuel { i := i + 1, np := s.np + 1, uscore1 := s.uscore2, uscore2 := 0 }
      else if !isValidHostchar (data.drop i) && byteAt data i != chr '-' then { s with i := i }
      else checkDomainLoop data fuel { s with i := i + 1 }
    else s

def checkDomain (data : Bytes) (allowShort : Bool) : Nat :=
  let s := checkDomainLoop data data.length {}
  -- if the url is very long then accept it despite the underscores
  if (s.uscore1 > 0 || s.uscore2 > 0) && s.np ≤ 10 then 0
  else if allowShort then s.i
  -- a valid domain needs to have at least a dot
  else if s.np > 0 then s.i else 0

/-- The end of the link whose domain ends at `linkEnd`. -/
def linkEndFrom (data : Bytes) (linkEnd : Nat) : Option Nat :=
  autolinkDelim data (skipWhile (fun c => !isspace c && c != chr '<') data linkEnd)

/-- The link and the text in it, which is the content from `start` on. -/
def Subject.makeLink (subj : Subject) (url : Bytes) (start len : Nat) (startColumn endColumn : Int) :
    Subject × Node :=
  let (subj, link) := subj.alloc
    { type := .link
      as := .link url []
      startLine := subj.line
      endLine := subj.line
      startColumn := startColumn
      endColumn := endColumn }
  let (subj, text) := subj.alloc
    { type := .text
      as := .literal (chunkDup subj.input start len)
      startLine := subj.line
      endLine := subj.line
      startColumn := startColumn
      endColumn := endColumn
      chunkPos := some start }
  (subj, .mk link.id link.data [text])

def wwwMatch (subj : Subject) : Subject × Option Node :=
  let maxRewind := subj.pos
  let data := subj.input.drop maxRewind
  let start := subj.column subj.pos
  let before := byteAt subj.input (maxRewind - 1)
  if maxRewind > 0 && !strchr (lit "*_~(") before && !isspace before then (subj, none)
  else if data.length < 4 || data.take 4 != lit "www." then (subj, none)
  else
    let domain := checkDomain data false
    if domain = 0 then (subj, none)
    else
      let linkEnd := (linkEndFrom data domain).getD 0
      if linkEnd = 0 then (subj, none)
      else
        let subj := { subj with pos := maxRewind + linkEnd }
        let (subj, node) := subj.makeLink (lit "http://" ++ data.take linkEnd) maxRewind linkEnd (start - 1)
          (subj.column subj.pos - 1)
        (subj, some node)

/-- `cmark_node_unput`, on the children with the last one first. -/
def unputFrom : Nat → Forest → Forest
  | _, [] => []
  | n, node :: prevs =>
    if 0 < n ∧ node.type = .text then
      if node.literal.length < n then
        node.setData (truncateLiteral 0 node.data) :: unputFrom (n - node.literal.length) prevs
      else node.setData (truncateLiteral (node.literal.length - n) node.data) :: prevs
    else node :: prevs

/-- `cmark_node_unput` -/
def unput (n : Nat) (children : Forest) : Forest := (unputFrom n children.reverse).reverse

def urlMatch (subj : Subject) : Subject × Option Node :=
  let maxRewind := subj.pos
  let data := subj.input.drop maxRewind
  if data.length < 4 || byteAt data 1 != chr '/' || byteAt data 2 != chr '/' then (subj, none)
  else
    let rewind := ((subj.input.take maxRewind).rtakeWhile isalpha).length
    if !sdAutolinkIssafe (subj.input.drop (maxRewind - rewind)) then (subj, none)
    else
      let domainLen := checkDomain (data.drop 3) true
      if domainLen = 0 then (subj, none)
      else
        let linkEnd := (linkEndFrom data (3 + domainLen)).getD 0
        if linkEnd = 0 then (subj, none)
        else
          let subj := { subj with pos := maxRewind + linkEnd, children := unput rewind subj.children }
          let url := chunkDup subj.input (maxRewind - rewind) (linkEnd + rewind)
          let (subj, node) := subj.makeLink url (maxRewind - rewind) (linkEnd + rewind)
            ((maxRewind - rewind : Nat) : Int) (subj.column subj.pos - 1)
          (subj, some node)

/-- `cmark_inline_parser_in_bracket` -/
def Subject.inBracket (subj : Subject) (type : BracketType) : Bool :=
  subj.brackets.head?.elim false fun b => b.inBracket type

/-- `match` -/
def Autolink.matchInline (_ : Options) (subj : Subject) (c : UInt8) : Subject × Option Node :=
  if subj.inBracket .link || subj.inBracket .image then (subj, none)
  else if c == chr ':' then urlMatch subj
  else if c == chr 'w' then wwwMatch subj
  else (subj, none)

/-! ### Addresses in a text -/

/-- `validate_protocol`; `left` are the bytes to the left, the nearest first. -/
def validateProtocol (protocol left : Bytes) : Bool :=
  if protocol.length > left.length then false
  -- the protocol matches
  else if left.take protocol.length != protocol.reverse then false
  else if protocol.length = left.length then true
  -- the character before the protocol is non-alphanumeric
  else !isalnum (byteAt left protocol.length)

/-- `auto_mailto` and `is_xmpp` -/
structure Protocols where
  autoMailto : Bool := true
  isXmpp : Bool := false
  deriving DecidableEq

/-- The loop that goes to the left from an at sign: the number of bytes passed. -/
def rewindLoop : Bytes → Nat → Protocols → Nat × Protocols
  | [], rewind, protocols => (rewind, protocols)
  | c :: left, rewind, protocols =>
    if isalnum c then rewindLoop left (rewind + 1) protocols
    else if strchr (lit ".+-_") c then rewindLoop left (rewind + 1) protocols
    else if strchr (lit ":") c then
      if validateProtocol (lit "mailto:") (c :: left) then
        rewindLoop left (rewind + 1) { protocols with autoMailto := false }
      else if validateProtocol (lit "xmpp:") (c :: left) then
        rewindLoop left (rewind + 1) { autoMailto := false, isXmpp := true }
      else (rewind, protocols)
    else (rewind, protocols)

/-- The loop that goes on behind an at sign: the end, the number of dots, and whether there is another at sign. -/
def forwardLoop (isXmpp : Bool) : Bytes → Nat → Nat → Nat × Nat × Bool
  | [], linkEnd, np => (linkEnd, np, false)
  | c :: rest, linkEnd, np =>
    if isalnum c then forwardLoop isXmpp rest (linkEnd + 1) np
    else if c == chr '@' then (linkEnd, np, true)
    else if c == chr '.' && rest.head?.any isalnum then forwardLoop isXmpp rest (linkEnd + 1) (np + 1)
    else if c == chr '/' && isXmpp then forwardLoop isXmpp rest (linkEnd + 1) np
    else if c != chr '-' && c != chr '_' then (linkEnd, np, false)
    else forwardLoop isXmpp rest (linkEnd + 1) np

/-- What the search at an at sign ends with: it is continued at an offset, or there is a link from `start` to
`stop`. -/
inductive Address where
  | skip (offset : Nat)
  | link (start stop : Nat) (url : Bytes)
  deriving DecidableEq

/-- From `found_at` on, with the at sign `maxRewind` bytes behind `offset`. Going back to the label moves the
offset. -/
def foundAt (data : Bytes) : Nat → Nat → Nat → Nat → Protocols → Address
  | 0, offset, maxRewind, _, _ => .skip (offset + maxRewind + 1)
  | fuel + 1, offset, maxRewind, np, protocols =>
    let (rewind, protocols) := rewindLoop (chunkDup data offset maxRewind).reverse 0 protocols
    if rewind = 0 then .skip (offset + maxRewind + 1)
    else
      let at' := data.drop (offset + maxRewind)
      let (linkEnd, np, another) := forwardLoop protocols.isXmpp at'.tail 1 np
      if another then foundAt data fuel (offset + maxRewind + 1) (linkEnd - 1) np protocols
      else if linkEnd < 2 || np = 0 || (!isalpha (byteAt at' (linkEnd - 1)) && byteAt at' (linkEnd - 1) != chr '.') then
        .skip (offset + maxRewind + linkEnd)
      else
        let linkEnd := (autolinkDelim at' linkEnd).getD 0
        if linkEnd = 0 then .skip (offset + maxRewind + 1)
        else
          let start := offset + maxRewind - rewind
          .link start (offset + maxRewind + linkEnd)
            ((if protocols.autoMailto then lit "mailto:" else []) ++ chunkDup data start (linkEnd + rewind))

/-- One turn of the loop of `postprocess_text`, on what remains of the text. -/
def findAddress (remaining : Bytes) (offset : Nat) : Option Address :=
  ((remaining.drop offset).findIdx? (· == chr '@')).map fun maxRewind =>
    foundAt remaining remaining.length offset maxRewind 0 {}

/-- The parts of a text. -/
inductive TextPiece where
  | text (literal : Bytes)
  | link (url literal : Bytes)
  deriving DecidableEq

/-- The loop of `postprocess_text`. Every turn moves the offset or takes a part off. -/
def postprocessLoop : Nat → Bytes → Nat → List TextPiece
  | 0, remaining, _ => [.text remaining]
  | fuel + 1, remaining, offset =>
    match findAddress remaining offset with
    | none => [.text remaining]
    | some (.skip offset) => postprocessLoop fuel remaining offset
    | some (.link start stop url) =>
      .text (remaining.take start) :: .link url (chunkDup remaining start (stop - start)) ::
        postprocessLoop fuel (remaining.drop stop) 0

/-- The texts and links into which `postprocess_text` splits a text. -/
def postprocessText (text : Bytes) : List TextPiece := postprocessLoop text.length text 0

/-- The part as a new node. -/
def TextPiece.node (nextId : NodeId) : TextPiece → Node
  | .text literal => .leaf nextId { type := .text, as := .literal literal }
  | .link url literal =>
    .mk nextId { type := .link, as := .link url [] } [.leaf (nextId + 1) { type := .text, as := .literal literal }]

def TextPiece.literal : TextPiece → Bytes
  | .text literal => literal
  | .link _ literal => literal

/-- The parts as new nodes, with the next fresh address. -/
def pieceNodes (nextId : NodeId) : List TextPiece → NodeId × Forest
  | [] => (nextId, [])
  | piece :: pieces =>
    let (next, nodes) := pieceNodes (nextId + 2) pieces
    (next, piece.node nextId :: nodes)

/-- `postprocess_text` on a text node below `owner`, where `contains` is `cmark_node_can_contain_type`. -/
def splitText (contains : NodeData → NodeType → Bool) (owner : NodeData) (nextId : NodeId) (text : Node) :
    NodeId × Forest :=
  let pieces := postprocessText text.literal
  let (nextId, nodes) := pieceNodes nextId pieces.tail
  -- a node that cannot be inserted takes those behind it with it
  let inserted := if !contains owner .link then [] else if !contains owner .text then nodes.take 1 else nodes
  (nextId, text.setData (setLiteral ((pieces.head?.map TextPiece.literal).getD []) text.data) :: inserted)

mutual

/-- The highest address of a tree. -/
def Node.maxId : Node → NodeId
  | .mk i _ children => max i (maxIdList children)

def maxIdList : Forest → NodeId
  | [] => 0
  | n :: ns => max n.maxId (maxIdList ns)

end

/-- The state of the loop of `postprocess`. -/
structure LinkWalk where
  inLink : Bool := false
  nextId : NodeId

mutual

/-- The loop of `postprocess` from entering to leaving a node. Nothing below a leaf is visited, nor are the new
nodes. -/
def postprocessNode (contains : NodeData → NodeType → Bool) (walk : LinkWalk) : Node → LinkWalk × Node
  | .mk i d children =>
    if d.type.isLeaf then (walk, .mk i d children)
    else
      let walk := if d.type = .link then { walk with inLink := true } else walk
      let (walk, children) := postprocessNodes contains d walk children
      (if d.type = .link then { walk with inLink := false } else walk, .mk i d children)

def postprocessNodes (contains : NodeData → NodeType → Bool) (owner : NodeData) (walk : LinkWalk) :
    Forest → LinkWalk × Forest
  | [] => (walk, [])
  | n :: ns =>
    let (walk, replaced) :=
      if n.type = .text && !walk.inLink then
        let (nextId, nodes) := splitText contains owner walk.nextId n
        ({ walk with nextId := nextId }, nodes)
      else
        let (walk, n) := postprocessNode contains walk n
        (walk, [n])
    let (walk, ns) := postprocessNodes contains owner walk ns
    (walk, replaced ++ ns)

end

/-- `postprocess` -/
def Autolink.postprocess (contains : NodeData → NodeType → Bool) (root : Node) : Option Node :=
  let root := consolidateTextNodes root
  some (postprocessNode contains { nextId := root.maxId + 1 } root).2

/-- `create_autolink_extension` -/
def Autolink.extension (contains : NodeData → NodeType → Bool) : Extension where
  matchInline := some Autolink.matchInline
  postprocessFunc := some fun _ root => Autolink.postprocess contains root
  specialInlineChars := [chr ':', chr 'w']

/-- A parser to which only this extension is attached. -/
def withAutolink (tables : Tables) (options : Options) : Config where
  tables := tables
  options := options
  syntaxExtensions := [Autolink.extension fun node childType => node.type.canContainType childType]

end CmarkGfm
