import CmarkGfm.Inlines.Delimiters
import CmarkGfm.Scanners

/-! # Links, images, attributes and footnote references (inlines.c) -/

namespace CmarkGfm

/-! ### Labels, destinations and attributes -/

/-- The loop of `link_label`, with the bytes passed so far: where the closing bracket is. -/
def linkLabelLoop : Nat → Bytes → Option Nat
  | _, [] => none
  | length, [c] => if c == chr ']' then some length else none
  | length, c :: d :: rest =>
    if c == 0 || c == chr '[' then none
    else if c == chr ']' then some length
    else if c == chr '\\' && ispunct d then
      if length + 2 > maxLinkLabelLength then none else linkLabelLoop (length + 2) rest
    else if length + 1 > maxLinkLabelLength then none
    else linkLabelLoop (length + 1) (d :: rest)

/-- `link_label`: the position after the label, and the trimmed label. -/
def linkLabel (input : Bytes) (startpos : Nat) (parseAttributeLabel : Bool) :
    Option (Nat × Bytes) :=
  let pos := if parseAttributeLabel then startpos + 1 else startpos
  if parseAttributeLabel && byteAt input startpos != chr '^' then none
  else if byteAt input pos != chr '[' then none
  else (linkLabelLoop 0 (input.drop (pos + 1))).map fun length =>
    (pos + 1 + length + 1, chunkTrim (chunkDup input (pos + 1) length))

/-- The loop of `manual_scan_link_url_2` and of `manual_scan_attribute_attributes`, with the
number of open parentheses and of bytes passed. White space ends a url. -/
def parenthesizedLoop (isUrl : Bool) : Nat → Nat → Bytes → Option Nat
  | _, _, [] => none
  | nbP, n, c :: rest =>
    if c == chr '\\' && rest.head?.elim false ispunct then
      match rest with
      | [] => none
      | _ :: rest => parenthesizedLoop isUrl nbP (n + 2) rest
    else if c == chr '(' then
      if nbP + 1 > 32 then none else parenthesizedLoop isUrl (nbP + 1) (n + 1) rest
    else if c == chr ')' then
      if nbP = 0 then some n else parenthesizedLoop isUrl (nbP - 1) (n + 1) rest
    else if isUrl && isspace c then
      if n = 0 then none else some n
    else parenthesizedLoop isUrl nbP (n + 1) rest

/-- `manual_scan_link_url_2`: the length of the destination. -/
def manualScanLinkUrl2 (input : Bytes) (offset : Nat) : Option Nat :=
  parenthesizedLoop true 0 0 (input.drop offset)

/-- The loop of `manual_scan_link_url` for a destination in pointy braces: the number of bytes
before the closing brace. -/
def pointyUrlLoop : Nat → Bytes → Option Nat
  | _, [] => none
  | n, [c] => if c == chr '>' then some n else none
  | n, c :: d :: rest =>
    if c == chr '>' then some n
    else if c == chr '\\' then pointyUrlLoop (n + 2) rest
    else if c == 10 || c == chr '<' then none
    else pointyUrlLoop (n + 1) (d :: rest)

/-- `manual_scan_link_url`: the bytes passed, and the destination. -/
def manualScanLinkUrl (input : Bytes) (offset : Nat) : Option (Nat × Bytes) :=
  if byteAt input offset == chr '<' then
    match pointyUrlLoop 0 (input.drop (offset + 1)) with
    | some n =>
      if offset + n + 2 ≥ input.length then none
      else some (n + 2, chunkDup input (offset + 1) n)
    | none => none
  else (manualScanLinkUrl2 input offset).map fun n => (n, chunkDup input offset n)

/-- `manual_scan_attribute_attributes`: the length of the attributes. -/
def manualScanAttributeAttributes (input : Bytes) (offset : Nat) : Option Nat :=
  parenthesizedLoop false 0 0 (input.drop offset)

/-- An inline link at `pos`, which is after the link text: the position after it, the
destination and the title. -/
def scanInlineLink (T : Tables) (input : Bytes) (pos : Nat) : Option (Nat × Bytes × Bytes) :=
  if byteAt input pos == chr '(' then
    let starturl := pos + 1 + Scanners.scanAt Scanners.spacechars input (pos + 1)
    match manualScanLinkUrl input starturl with
    | some (n, url) =>
      let endurl := starturl + n
      let starttitle := endurl + Scanners.scanAt Scanners.spacechars input endurl
      -- ensure there are spaces btw url and title
      let endtitle := if starttitle = endurl then starttitle
        else starttitle + Scanners.scanAt Scanners.linkTitle input starttitle
      let endall := endtitle + Scanners.scanAt Scanners.spacechars input endtitle
      if byteAt input endall == chr ')' then
        some (endall + 1, cleanUrl T url,
          cleanTitle T (chunkDup input starttitle (endtitle - starttitle)))
      else none
    | none => none
  else none

/-! ### The bracket stack -/

/-- `push_bracket`. -/
def pushBracket (subj : Subject) (type : BracketType) (inlText : Node) : Subject :=
  let new : Bracket :=
    { inlText := inlText.id
      position := subj.pos
      type := type
      bracketAfter := false
      inBracket := fun t => t == type || (subj.brackets.head?.elim false fun b => b.inBracket t) }
  let below := match subj.brackets with
    | [] => []
    | last :: rest => { last with bracketAfter := true } :: rest
  { subj with
    brackets := new :: below
    noLinkOpeners := if type = .image then subj.noLinkOpeners else false }

/-- `pop_bracket`. -/
def popBracket (subj : Subject) : Subject := { subj with brackets := subj.brackets.tail }

/-- The text node of a closing bracket that closes nothing. -/
def literalCloseBracket (subj : Subject) : Subject × Option Node :=
  let (subj, node) := subj.makeChar (chr ']')
  (subj, some node)

/-- Look a label up in the reference map. -/
def lookupReference (T : Tables) (subj : Subject) (label : Bytes) :
    Subject × Option Reference :=
  let (refmap, entry) := mapLookup T subj.refmap label
  ({ subj with refmap := refmap }, entry.map (·.value))

/-! ### Links and images -/

/-- Put a node in the place of the opening bracket, with the siblings after it that it takes;
those it refuses stay. -/
def replaceOpener (opener : NodeId) (accepted : Bool) (inl : Node) (takes : Node → Bool)
    (f : Forest) : Forest :=
  editSiblings opener (fun siblings =>
    let after := siblingsAfter opener siblings
    siblingsBefore opener siblings ++
      (if accepted then [.mk inl.id inl.data (after.filter takes)] else []) ++
      after.filter fun n => !takes n) f

/-- The end of `handle_close_bracket` after its label `match`. -/
def matchLink (P : Config) (subj : Subject) (opener : Bracket) (url title : Bytes) : Subject :=
  let isImage := opener.type = .image
  let openerInl := dataOf opener.inlText subj.children
  let (subj, inl) := subj.alloc
    { type := if isImage then .image else .link
      as := .link url title
      startLine := openerInl.startLine
      startColumn := openerInl.startColumn
      endLine := subj.line
      endColumn := (subj.pos : Int) + subj.columnOffset + subj.blockOffset }
  let accepted := canInsertBeside P subj.parent opener.inlText inl.type subj.children
  let subj := { subj with
    children := replaceOpener opener.inlText accepted inl (fun _ => true) subj.children }
  let subj := popBracket (processEmphasis P subj opener.position)
  -- deactivate links until we get a new opener
  { subj with noLinkOpeners := if isImage then subj.noLinkOpeners else true }

/-- The bytes from those of a text node on: the rest of the content, or a text of its own, as that of an
entity. -/
def textFrom (subj : Subject) (next : Node) : Bytes :=
  match next.data.chunkPos with
  | some p => subj.input.drop p
  | none => next.literal

/-- The literal of a footnote reference: `cmark_chunk_dup(literal, 1, len)` reads on behind the literal of
the text node, and does not check where the text to which it points ends. -/
def footnoteLiteral (P : Config) (subj : Subject) (next : Node) (len : Nat) : Bytes :=
  chunkDup (textFrom subj next ++ (List.range len).map (P.tables.memory P.options next.id)) 1 len

/-- The text node after the opening bracket, if it makes the brackets a footnote reference:
it begins with a caret, and there is more than that. -/
def footnoteText (P : Config) (subj : Subject) (opener : Bracket) : Option Node :=
  if P.options.has optFootnotes then
    match (familyOf? opener.inlText subj.parent subj.children).map fun family =>
      siblingsAfter opener.inlText family.2 with
    | some (next :: rest) =>
      if next.type = .text && byteAt next.literal 0 == chr '^' &&
          (next.literal.length > 1 || !rest.isEmpty) then some next
      else none
    | _ => none
  else none

/-- The footnote branch of `handle_close_bracket`, at the position after the bracket. -/
def makeFootnoteReference (P : Config) (subj : Subject) (opener : Bracket) (next : Node) :
    Subject :=
  let startColumn := (dataOf opener.inlText subj.children).startColumn
  let endColumn := (subj.pos : Int) + subj.columnOffset + subj.blockOffset
  let (subj, fnref) := subj.alloc
    { type := .footnoteReference
      as := .literal (footnoteLiteral P subj next (endColumn - startColumn - 2).toNat)
      startLine := subj.line
      endLine := subj.line
      startColumn := startColumn
      endColumn := endColumn }
  let accepted := canInsertBeside P subj.parent opener.inlText fnref.type subj.children
  let insert := fun siblings => siblingsBefore opener.inlText siblings ++
    (if accepted then [fnref] else []) ++ siblingsFrom opener.inlText siblings
  let subj := { subj with children := editSiblings opener.inlText insert subj.children }
  let subj := processEmphasis P subj opener.position
  -- the nodes after the opener are part of the reference
  popBracket { subj with
    children := editSiblings opener.inlText (siblingsBefore opener.inlText) subj.children }

/-- The end of `handle_close_bracket` after its label `noMatch`. -/
def noMatch (P : Config) (subj : Subject) (opener : Bracket) (initialPos : Nat) :
    Subject × Option Node :=
  let subj := { subj with pos := initialPos }
  match footnoteText P subj opener with
  | some next => (makeFootnoteReference P subj opener next, none)
  | none => literalCloseBracket (popBracket subj)

/-- The label that `handle_close_bracket` looks up, with the position after it: the one that
follows, or else the link text itself. -/
def referenceLabel (subj : Subject) (opener : Bracket) (initialPos : Nat) : Nat × Option Bytes :=
  let (pos, label) := match linkLabel subj.input subj.pos false with
    | some (pos, rawLabel) => (pos, some rawLabel)
    | none => (initialPos, none)
  if (label.getD []).length = 0 && !opener.bracketAfter then
    (pos, some (chunkDup subj.input opener.position (initialPos - opener.position - 1)))
  else (pos, label)

/-- Look up a reference for link text that no inline link follows. -/
def closeReference (P : Config) (subj : Subject) (opener : Bracket) (initialPos : Nat) :
    Subject × Option Node :=
  let (pos, label) := referenceLabel subj opener initialPos
  let subj := { subj with pos := pos }
  match label with
  | none => noMatch P subj opener initialPos
  | some label =>
    match lookupReference P.tables subj label with
    | (subj, none) => noMatch P subj opener initialPos
    | (subj, some ref) =>
      if ref.isAttributesReference then noMatch P subj opener initialPos
      else
        let clone := Clone.link (ref.url.length + ref.title.length)
        (matchLink P { subj with clones := clone :: subj.clones } opener ref.url ref.title, none)

/-! ### Attributes -/

/-- `^[content](attributes)`: the position after it and the attributes. -/
def scanInlineAttributes (input : Bytes) (pos : Nat) : Option (Nat × Bytes) :=
  if byteAt input pos == chr '(' then
    match manualScanAttributeAttributes input (pos + 1) with
    | some n =>
      if byteAt input (pos + 1 + n) == chr ')' then
        some (pos + 1 + n + 1, chunkDup input (pos + 1) n)
      else none
    | none => none
  else none

/-- Look for a link label in the reference map; `attributes` are those found so far. -/
def referenceAttributes (T : Tables) (subj : Subject) (attributes : Option Bytes) :
    Subject × Option Bytes :=
  match linkLabel subj.input subj.pos false with
  | none => (subj, attributes)
  | some (pos, rawLabel) =>
    match lookupReference T { subj with pos := pos } rawLabel with
    | (subj, none) => (subj, attributes)
    | (subj, some ref) =>
      if ref.isAttributesReference then
        let clone := Clone.attributes ref.attributes.length
        ({ subj with clones := clone :: subj.clones }, some ref.attributes)
      else (subj, attributes)

/-- The end of `handle_close_bracket_attribute`. -/
def matchAttribute (P : Config) (subj : Subject) (opener : Bracket) (attributes : Bytes) :
    Subject :=
  let (subj, inl) := subj.alloc
    { type := .attribute
      as := .attribute attributes
      startLine := subj.line
      endLine := subj.line
      startColumn := (dataOf opener.inlText subj.children).startColumn
      endColumn := (subj.pos : Int) + subj.columnOffset + subj.blockOffset }
  let accepted := canInsertBeside P subj.parent opener.inlText inl.type subj.children
  let subj := { subj with
    children := replaceOpener opener.inlText accepted inl
      (fun n => P.nodeCanContainType inl.data n.type) subj.children }
  popBracket (processEmphasis P subj opener.position)

/-- `handle_close_bracket_attribute`. A label that follows is looked up in any case, and is
passed even if it is not found. -/
def handleCloseBracketAttribute (P : Config) (subj : Subject) (opener : Bracket) :
    Subject × Option Node :=
  let (pos, attributes) := match scanInlineAttributes subj.input subj.pos with
    | some (pos, attributes) => (pos, some attributes)
    | none => (subj.pos, none)
  let (subj, attributes) := referenceAttributes P.tables { subj with pos := pos } attributes
  match attributes with
  | none => literalCloseBracket (popBracket subj)
  | some attributes => (matchAttribute P subj opener attributes, none)

/-- `handle_close_bracket`. -/
def handleCloseBracket (P : Config) (subj : Subject) : Subject × Option Node :=
  let subj := subj.advance 1
  match subj.brackets with
  | [] => literalCloseBracket subj
  | opener :: _ =>
    if opener.type = .attribute then handleCloseBracketAttribute P subj opener
    else if opener.type = .link && subj.noLinkOpeners then literalCloseBracket (popBracket subj)
    else
      match scanInlineLink P.tables subj.input subj.pos with
      | some (pos, url, title) => (matchLink P { subj with pos := pos } opener url title, none)
      | none => closeReference P subj opener subj.pos

end CmarkGfm
