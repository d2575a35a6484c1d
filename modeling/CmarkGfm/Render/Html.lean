import CmarkGfm.Render.Escape
import CmarkGfm.Render.Traversal
import CmarkGfm.Parser.State
import CmarkGfm.Scanners

/-! # html.c -/

namespace CmarkGfm

def optHardbreaks : Nat := 1 <<< 2

def optNobreaks : Nat := 1 <<< 4

def optGithubPreLang : Nat := 1 <<< 11

def optFullInfoString : Nat := 1 <<< 16

def optUnsafe : Nat := 1 <<< 17

/-- Why a renderer does not get past an event. -/
inductive RenderError where
  | nullPointer
  | unreachable
  deriving DecidableEq

/-- A part of the output: written by the renderer itself, or made of bytes of the
document. -/
inductive Piece where
  | markup (s : Bytes)
  | content (s : Bytes)
  deriving DecidableEq

def Piece.bytes : Piece → Bytes
  | markup s => s
  | content s => s

/-- What the renderer is given: the options, the filters of the extensions (false: the tag at
the start of the text is not let through), and the literal of the node at an address. -/
structure HtmlConfig where
  options : Options
  filterExtensions : List (Bytes → Bool) := []
  literalAt : NodeId → Option Bytes

/-- `cmark_html_renderer`. The node `plain` is given by its position. -/
structure HtmlRenderer where
  html : List Piece := []
  plain : Option (List Nat) := none
  footnoteIx : Nat := 0
  writtenFootnoteIx : Nat := 0

namespace HtmlRenderer

def bytes (r : HtmlRenderer) : Bytes := r.html.flatMap Piece.bytes

def put (p : Piece) (r : HtmlRenderer) : HtmlRenderer := { r with html := r.html ++ [p] }

/-- Write a string constant. -/
def puts (s : String) (r : HtmlRenderer) : HtmlRenderer := r.put (.markup (lit s))

/-- Write a number with `%d`. -/
def putNumber (n : Nat) (r : HtmlRenderer) : HtmlRenderer := r.put (.markup (decimal n))

def putContent (s : Bytes) (r : HtmlRenderer) : HtmlRenderer := r.put (.content s)

/-- `cmark_html_render_cr` -/
def cr (r : HtmlRenderer) : HtmlRenderer :=
  match r.bytes.getLast? with
  | none => r
  | some c => if c == 10 then r else r.puts "\n"

/-- `cmark_html_render_sourcepos` -/
def sourcepos (options : Options) (d : NodeData) (r : HtmlRenderer) : HtmlRenderer :=
  if options.has optSourcepos then
    r |>.puts " data-sourcepos=\"" |>.put (.markup (sourceRange d)) |>.puts "\""
  else r

/-- An opening tag that may carry the source position. -/
def openTag (options : Options) (d : NodeData) (tag close : String) (r : HtmlRenderer) :
    HtmlRenderer :=
  r |>.puts tag |>.sourcepos options d |>.puts close

/-- `escape_html` -/
def escapeHtml (s : Bytes) (r : HtmlRenderer) : HtmlRenderer :=
  r.putContent (CmarkGfm.escapeHtml0 s false)

/-- `houdini_escape_href` -/
def escapeHref (s : Bytes) (r : HtmlRenderer) : HtmlRenderer :=
  r.putContent (CmarkGfm.escapeHref s)

end HtmlRenderer

/-- `filter_html_block` -/
def filterHtmlBlock (filters : List (Bytes → Bool)) : Bytes → Bytes
  | [] => []
  | c :: rest =>
    if c == chr '<' && !filters.all (· (c :: rest)) then lit "&lt;" ++ filterHtmlBlock filters rest
    else c :: filterHtmlBlock filters rest

/-- The links back to the references other than the first one. -/
def putExtraBackrefs (literal : Bytes) (ix : Nat) : List Nat → HtmlRenderer → HtmlRenderer
  | [], r => r
  | i :: is, r => putExtraBackrefs literal ix is <|
    r |>.puts " <a href=\"#fnref-" |>.escapeHref literal |>.puts "-" |>.putNumber i
      |>.puts "\" class=\"footnote-backref\" data-footnote-backref data-footnote-backref-idx=\""
      |>.putNumber ix |>.puts "-" |>.putNumber i
      |>.puts "\" aria-label=\"Back to reference "
      |>.putNumber ix |>.puts "-" |>.putNumber i
      |>.puts "\">" |>.put (.markup [0xe2, 0x86, 0xa9]) |>.puts "<sup class=\"footnote-ref\">"
      |>.putNumber i |>.puts "</sup></a>"

/-- `S_put_footnote_backref` -/
def putFootnoteBackref (d : NodeData) (r : HtmlRenderer) : HtmlRenderer × Bool :=
  if r.writtenFootnoteIx ≥ r.footnoteIx then (r, false)
  else
    let ix := r.footnoteIx
    let r := { r with writtenFootnoteIx := ix }
      |>.puts "<a href=\"#fnref-" |>.escapeHref d.as.getLiteral
      |>.puts "\" class=\"footnote-backref\" data-footnote-backref data-footnote-backref-idx=\""
      |>.putNumber ix |>.puts "\" aria-label=\"Back to reference " |>.putNumber ix
      |>.puts "\">" |>.put (.markup [0xe2, 0x86, 0xa9]) |>.puts "</a>"
    -- for (int i = 2; i <= node->footnote.def_count; i++)
    (putExtraBackrefs d.as.getLiteral ix (List.range' 2 (d.refIx - 1)) r, true)

/-- The switch for nodes inside the image whose alternative text is being written. -/
def renderPlain (d : NodeData) (r : HtmlRenderer) : HtmlRenderer :=
  match d.type with
  | .text | .code | .htmlInline => r.escapeHtml d.as.getLiteral
  | .linebreak | .softbreak => r.puts " "
  | _ => r

def renderListTag (options : Options) (d : NodeData) (entering : Bool) (r : HtmlRenderer) :
    HtmlRenderer :=
  let list := d.as.getList
  if entering then
    if list.listType = .bullet then r.cr.openTag options d "<ul" ">\n"
    else if list.start = 1 then r.cr.openTag options d "<ol" ">\n"
    else
      r.cr |>.puts "<ol start=\"" |>.putNumber list.start |>.puts "\"" |>.sourcepos options d
        |>.puts ">\n"
  else r.puts (if list.listType = .bullet then "</ul>\n" else "</ol>\n")

def renderHeading (options : Options) (d : NodeData) (entering : Bool) (r : HtmlRenderer) :
    HtmlRenderer :=
  let digit : Piece := .markup [48 + UInt8.ofNat d.as.getLevel]
  if entering then r.cr |>.puts "<h" |>.put digit |>.sourcepos options d |>.puts ">"
  else r |>.puts "</h" |>.put digit |>.puts ">\n"

/-- The rest of the info string, after the language. -/
def renderMeta (options : Options) (info lang : Bytes) (r : HtmlRenderer) : HtmlRenderer :=
  if lang.length < info.length && options.has optFullInfoString then
    r |>.puts "\" data-meta=\"" |>.escapeHtml (info.drop (lang.length + 1))
  else r

def renderCodeBlock (options : Options) (d : NodeData) (r : HtmlRenderer) : HtmlRenderer :=
  let code := d.as.getCode
  let r := r.cr
  let r :=
    if code.info.isEmpty then r.openTag options d "<pre" "><code>"
    else
      let lang := code.info.takeWhile fun c => !isspace c
      if options.has optGithubPreLang then
        r |>.openTag options d "<pre" " lang=\"" |>.escapeHtml lang
          |> renderMeta options code.info lang |>.puts "\"><code>"
      else
        r |>.openTag options d "<pre" "><code class=\"language-" |>.escapeHtml lang
          |> renderMeta options code.info lang |>.puts "\">"
  r |>.escapeHtml code.literal |>.puts "</code></pre>\n"

/-- Raw HTML, if it may be written at all; `filter` is what the extensions make of it. -/
def renderRawHtml (H : HtmlConfig) (filter : Bytes → Bytes) (literal : Bytes) (r : HtmlRenderer) :
    HtmlRenderer :=
  if !H.options.has optUnsafe then r.puts "<!-- raw HTML omitted -->"
  else r.putContent (filter literal)

def renderParagraph (options : Options) (v : Visit) (r : HtmlRenderer) :
    Except RenderError HtmlRenderer :=
  let tight := match v.place.grandparent with
    | some d => d.type == NodeType.list && d.as.getList.tight
    | none => false
  if tight then .ok r
  else if v.entering then .ok (r.cr.openTag options v.node.data "<p" ">")
  else match v.place.parent with
    | none => .error .nullPointer
    | some parent =>
      let r :=
        if parent.type == NodeType.footnoteDefinition && v.place.after.isEmpty then
          (putFootnoteBackref parent (r.puts " ")).1
        else r
      .ok (r.puts "</p>\n")

/-- The URL of a link or an image, unless it is dangerous. -/
def renderUrl (options : Options) (url : Bytes) (r : HtmlRenderer) : HtmlRenderer :=
  if options.has optUnsafe || Scanners.scanAt Scanners.dangerousUrl url 0 == 0 then r.escapeHref url
  else r

def renderTitle (title : Bytes) (r : HtmlRenderer) : HtmlRenderer :=
  if title.isEmpty then r else r |>.puts "\" title=\"" |>.escapeHtml title

def renderImage (options : Options) (v : Visit) (r : HtmlRenderer) : HtmlRenderer :=
  if v.entering then
    { r |>.puts "<img src=\"" |> renderUrl options v.node.data.as.getUrl |>.puts "\" alt=\"" with
      plain := some v.place.path }
  else r |> renderTitle v.node.data.as.getTitle |>.puts "\" />"

def renderFootnoteDefinition (d : NodeData) (entering : Bool) (r : HtmlRenderer) :
    HtmlRenderer :=
  if entering then
    let r := if r.footnoteIx = 0 then
        r.puts "<section class=\"footnotes\" data-footnotes>\n<ol>\n" else r
    { r with footnoteIx := r.footnoteIx + 1 }
      |>.puts "<li id=\"fn-" |>.escapeHref d.as.getLiteral |>.puts "\">\n"
  else
    let (r, written) := putFootnoteBackref d r
    (if written then r.puts "\n" else r).puts "</li>\n"

def renderFootnoteReference (H : HtmlConfig) (d : NodeData) (r : HtmlRenderer) :
    Except RenderError HtmlRenderer :=
  match d.parentFootnoteDef.bind H.literalAt with
  | none => .error .nullPointer
  | some label =>
    let r := r |>.puts "<sup class=\"footnote-ref\"><a href=\"#fn-" |>.escapeHref label
      |>.puts "\" id=\"fnref-" |>.escapeHref label
    let r := if d.refIx > 1 then r |>.puts "-" |>.putNumber d.refIx else r
    .ok (r |>.puts "\" data-footnote-ref>" |>.escapeHref d.as.getLiteral |>.puts "</a></sup>")

/-- `S_render_node`, for a node without extension. -/
def renderHtmlNode (H : HtmlConfig) (r : HtmlRenderer) (v : Visit) :
    Except RenderError HtmlRenderer :=
  -- back at original node
  let r := if r.plain = some v.place.path then { r with plain := none } else r
  let d := v.node.data
  if r.plain.isSome then .ok (renderPlain d r)
  else match d.type with
  | .document => .ok r
  | .blockQuote => .ok <|
    if v.entering then r.cr.openTag H.options d "<blockquote" ">\n"
    else r.cr.puts "</blockquote>\n"
  | .list => .ok (renderListTag H.options d v.entering r)
  | .item => .ok <|
    if v.entering then r.cr.openTag H.options d "<li" ">" else r.puts "</li>\n"
  | .heading => .ok (renderHeading H.options d v.entering r)
  | .codeBlock => .ok (renderCodeBlock H.options d r)
  | .htmlBlock => .ok <| HtmlRenderer.cr <|
    renderRawHtml H (filterHtmlBlock H.filterExtensions) d.as.getLiteral r.cr
  | .customBlock => .ok <| HtmlRenderer.cr <|
    r.cr.putContent (if v.entering then d.as.getOnEnter else d.as.getOnExit)
  | .thematicBreak => .ok (r.cr.openTag H.options d "<hr" " />\n")
  | .paragraph => renderParagraph H.options v r
  | .text => .ok (r.escapeHtml d.as.getLiteral)
  | .linebreak => .ok (r.puts "<br />\n")
  | .softbreak => .ok <|
    if H.options.has optHardbreaks then r.puts "<br />\n"
    else if H.options.has optNobreaks then r.puts " "
    else r.puts "\n"
  | .code => .ok (r |>.puts "<code>" |>.escapeHtml d.as.getLiteral |>.puts "</code>")
  | .htmlInline => .ok <|
    renderRawHtml H (fun s => if H.filterExtensions.all (· s) then s else lit "&lt;" ++ s.drop 1)
      d.as.getLiteral r
  | .customInline => .ok <|
    r.putContent (if v.entering then d.as.getOnEnter else d.as.getOnExit)
  | .strong => .ok <|
    if v.place.parent.any (·.type == .strong) then r
    else r.puts (if v.entering then "<strong>" else "</strong>")
  | .emph => .ok (r.puts (if v.entering then "<em>" else "</em>"))
  | .link => .ok <|
    if v.entering then
      r |>.puts "<a href=\"" |> renderUrl H.options d.as.getUrl |> renderTitle d.as.getTitle
        |>.puts "\">"
    else r.puts "</a>"
  | .image => .ok (renderImage H.options v r)
  | .attribute => .ok r
  | .footnoteDefinition => .ok (renderFootnoteDefinition d v.entering r)
  | .footnoteReference => if v.entering then renderFootnoteReference H d r else .ok r
  | .none | .extensionBlock _ | .extensionInline _ => .error .unreachable

/-- `cmark_render_html_with_mem`, for a root at any place of a tree. -/
def renderHtml (H : HtmlConfig) (place : Place) (root : Node) : Except RenderError HtmlRenderer :=
  (fun r : HtmlRenderer => if r.footnoteIx = 0 then r else r.puts "</ol>\n</section>\n") <$>
    (root.visits { place with path := [] }).foldlM (renderHtmlNode H) {}

/-- The `html_render_func` of the extension of a node, if there is one. -/
abbrev HtmlRenderFunc := NodeData → Option (HtmlRenderer → Visit → HtmlRenderer)

/-- `S_render_node`, which leaves a node to its extension. -/
def renderHtmlNodeWith (H : HtmlConfig) (func : HtmlRenderFunc) (r : HtmlRenderer) (v : Visit) :
    Except RenderError HtmlRenderer :=
  let r := if r.plain = some v.place.path then { r with plain := none } else r
  if r.plain.isSome then .ok (renderPlain v.node.data r)
  else match func v.node.data with
  | some f => .ok (f r v)
  | none => renderHtmlNode H r v

/-- `cmark_render_html_with_mem`, with extensions. -/
def renderHtmlWith (H : HtmlConfig) (func : HtmlRenderFunc) (place : Place) (root : Node) :
    Except RenderError HtmlRenderer :=
  (fun r : HtmlRenderer => if r.footnoteIx = 0 then r else r.puts "</ol>\n</section>\n") <$>
    (root.visits { place with path := [] }).foldlM (renderHtmlNodeWith H func) {}

end CmarkGfm
