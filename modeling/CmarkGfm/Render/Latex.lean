import CmarkGfm.Render.Commonmark

/-!
# latex.c

Merging the text nodes of a link, before it is compared with its URL, changes nothing in a tree
of the parser and is left out.
-/

namespace CmarkGfm

open Call

/-- `outc` -/
def latexOutc : Outc := fun r escape c nextc =>
  let escaped (s : String) : Renderer := r.renderAscii (lit s)
  let plain : Renderer := r.renderCodePoint c
  -- typographic characters are written in ASCII, but not in a URL
  let typographic (s : String) : Renderer := if escape = .normal then escaped s else plain
  if escape = .literal then plain
  else match c with
  | 123 | 125 | 35 | 37 | 38 => (escaped "\\").renderCodePoint c
  | 36 | 95 => (if escape = .normal then escaped "\\" else r).renderCodePoint c
  -- prevent ligature
  | 45 => escaped (if nextc == 45 then "-\x7b\x7d" else "-")
  | 126 => typographic "\\textasciitilde\x7b\x7d"
  | 94 => escaped "\\^\x7b\x7d"
  -- / acts as path sep even on windows
  | 92 => escaped (if escape = .url then "/" else "\\textbackslash\x7b\x7d")
  | 124 => escaped "\\textbar\x7b\x7d"
  | 60 => escaped "\\textless\x7b\x7d"
  | 62 => escaped "\\textgreater\x7b\x7d"
  | 91 | 93 => ((escaped "\x7b").renderCodePoint c).renderAscii (lit "\x7d")
  | 34 => escaped "\\textquotedbl\x7b\x7d"
  | 39 => escaped "\\textquotesingle\x7b\x7d"
  | 160 => escaped "~"
  | 8230 => escaped "\\ldots\x7b\x7d"
  | 8216 => typographic "`"
  | 8217 => typographic "'"
  | 8220 => typographic "``"
  | 8221 => typographic "''"
  | 8212 => typographic "---"
  | 8211 => typographic "--"
  | _ => plain

/-! ### Links -/

/-- `link_type` -/
inductive LinkType where
  | noLink
  | urlAutolink
  | emailAutolink
  | normalLink
  | internalLink
  deriving DecidableEq

/-- `get_link_type`, for a link. -/
def getLinkType (n : Node) : LinkType :=
  let url := cstr n.data.as.getUrl
  if url.head? == some (chr '#') then .internalLink
  else if url.isEmpty || Scanners.scanAt Scanners.schemeColon url 0 == 0 then .noLink
  -- if it has a title, we can't treat it as an autolink
  else if !(cstr n.data.as.getTitle).isEmpty then .normalLink
  else match n.children with
  | [] => .noLink
  | linkText :: _ =>
    let isEmail := (lit "mailto:").isPrefixOf url
    let realUrl := if isEmail then url.drop 7 else url
    let literal := linkText.data.as.firstChunk
    if realUrl.length == literal.length && realUrl == cstr literal then
      if isEmail then .emailAutolink else .urlAutolink
    else .normalLink

/-! ### Lists -/

/-- `cmark_node_get_list_type` -/
def NodeData.getListType (d : NodeData) : ListType :=
  if d.type = .list then d.as.getList.listType else .noList

/-- The loop of `S_get_enumlevel` on the way up from a node. -/
def enumlevelFrom (node : NodeData) (enumlevel : Nat) : List NodeData → Nat
  | [] => enumlevel
  | tmp :: above =>
    enumlevelFrom node
      (if tmp.type = .list && node.getListType = .ordered then enumlevel + 1 else enumlevel) above

/-- `S_get_enumlevel` -/
def getEnumlevel (v : Visit) : Nat := enumlevelFrom v.node.data 0 (v.node.data :: v.place.ancestors)

/-- The last part of the name of a counter. -/
def counterSuffix (enumlevel : Nat) : String :=
  match enumlevel with
  | 1 => "i"
  | 2 => "ii"
  | 3 => "iii"
  | 4 => "iv"
  | 5 => "v"
  | _ => "i"

/-- The counter of a list at this level is set. LaTeX normally supports only five levels. -/
def setcounterCalls (enumlevel listNumber : Nat) : List Call :=
  if enumlevel ≥ 1 && enumlevel ≤ 5 then
    [puts "\\setcounter\x7benum", puts (counterSuffix enumlevel), puts "\x7d\x7b",
      .out .renderer (some (decimal listNumber)) false .normal, puts "\x7d"]
  else []

/-- The environment of a list. -/
def listEnvironment (d : NodeData) : String :=
  if d.getListType = .ordered then "enumerate" else "itemize"

def listCalls (v : Visit) : List Call :=
  let d := v.node.data
  if v.entering then
    let listNumber := d.as.getList.start
    [puts "\\begin\x7b", puts (listEnvironment d), puts "\x7d", cr] ++
      (if listNumber > 1 then setcounterCalls (getEnumlevel v) listNumber ++ [cr] else [])
  else [puts "\\end\x7b", puts (listEnvironment d), puts "\x7d", blankline]

/-! ### Nodes -/

def headingCommand (level : Nat) : List Call :=
  match level with
  | 1 => [puts "\\section"]
  | 2 => [puts "\\subsection"]
  | 3 => [puts "\\subsubsection"]
  | 4 => [puts "\\paragraph"]
  | 5 => [puts "\\subparagraph"]
  | _ => []

/-- The opening part of a link. -/
def linkOpening (n : Node) : List Call :=
  let url := n.data.as.getUrl
  match getLinkType n with
  | .urlAutolink => [puts "\\url\x7b", text url false .url, puts "\x7d"]
  | .emailAutolink => [puts "\\href\x7b", text url false .url, puts "\x7d\\nolinkurl\x7b"]
  | .normalLink => [puts "\\href\x7b", text url false .url, puts "\x7d\x7b"]
  | .internalLink => [puts "\\protect\\hyperlink\x7b", text (url.drop 1) false .url, puts "\x7d\x7b"]
  | .noLink => [puts "\x7b"]

/-- `S_render_node`, for a node without extension. -/
def latexRenderNode (options : Options) (r : Renderer) (v : Visit) : List Call :=
  let d := v.node.data
  let allowWrap := 0 < r.width && !options.has optNobreaks
  match d.type with
  | .document | .htmlBlock | .htmlInline | .footnoteDefinition | .footnoteReference | .attribute => []
  | .blockQuote =>
    if v.entering then [puts "\\begin\x7bquote\x7d", cr] else [puts "\\end\x7bquote\x7d", blankline]
  | .list => listCalls v
  | .item => if v.entering then [puts "\\item "] else [cr]
  | .heading =>
    if v.entering then headingCommand d.as.getLevel ++ [puts "\x7b"] else [puts "\x7d", blankline]
  | .codeBlock =>
    [cr, puts "\\begin\x7bverbatim\x7d", cr, textOrNull d.getLiteral? false .literal, cr,
      puts "\\end\x7bverbatim\x7d", blankline]
  | .customBlock =>
    [cr, text (if v.entering then d.as.getOnEnter else d.as.getOnExit) false .literal, cr]
  | .thematicBreak =>
    [blankline,
      puts "\\begin\x7bcenter\x7d\\rule\x7b0.5\\linewidth\x7d\x7b\\linethickness\x7d\\end\x7bcenter\x7d",
      blankline]
  | .paragraph => if v.entering then [] else [blankline]
  | .text => [textOrNull d.getLiteral? allowWrap .normal]
  | .linebreak => [puts "\\\\", cr]
  | .softbreak =>
    if options.has optHardbreaks then [puts "\\\\", cr]
    else if r.width = 0 && !options.has optNobreaks then [cr]
    else [space allowWrap .normal]
  | .code => [puts "\\texttt\x7b", textOrNull d.getLiteral? false .normal, puts "\x7d"]
  | .customInline => [text (if v.entering then d.as.getOnEnter else d.as.getOnExit) false .literal]
  | .strong =>
    if v.place.parent.any (·.type == .strong) then []
    else [puts (if v.entering then "\\textbf\x7b" else "\x7d")]
  | .emph => [puts (if v.entering then "\\emph\x7b" else "\x7d")]
  | .link => if v.entering then linkOpening v.node else [puts "\x7d"]
  | .image =>
    if v.entering then [puts "\\protect\\includegraphics\x7b", text d.as.getUrl false .url, puts "\x7d"]
    else []
  | .none | .extensionBlock _ | .extensionInline _ => [fail .unreachable]

def latex : Format where
  outc := latexOutc
  renderNode := latexRenderNode
  -- don't process further nodes to avoid double-rendering artefacts
  skipsContents v :=
    v.node.type == .image || (v.node.type == .link && getLinkType v.node == .urlAutolink)

/-- `cmark_render_latex` -/
def renderLatex (options : Options) (width : Int) (root : Node) : Except RenderError (List OutByte) :=
  latex.render options width root

end CmarkGfm
