import CmarkGfm.Render.Render

/-! # man.c -/

namespace CmarkGfm

open Call

/-- `S_outc` -/
def manOutc : Outc := fun r escape c _ =>
  if escape = .literal then r.renderCodePoint c
  else match c with
  | 46 => if r.beginLine then r.renderAscii (lit "\\&.") else r.renderCodePoint c
  | 39 => if r.beginLine then r.renderAscii (lit "\\&'") else r.renderCodePoint c
  | 45 => r.renderAscii (lit "\\-")
  | 92 => r.renderAscii (lit "\\e")
  | 8216 => r.renderAscii (lit "\\[oq]")
  | 8217 => r.renderAscii (lit "\\[cq]")
  | 8220 => r.renderAscii (lit "\\[lq]")
  | 8221 => r.renderAscii (lit "\\[rq]")
  | 8212 => r.renderAscii (lit "\\[em]")
  | 8211 => r.renderAscii (lit "\\[en]")
  | _ => r.renderCodePoint c

/-- The requests that break a line. -/
def manLinebreak : List Call := [puts ".PD 0\n.P\n.PD", cr]

/-- `S_render_node`, for a node without extension. -/
def manRenderNode (options : Options) (r : Renderer) (v : Visit) : List Call :=
  let d := v.node.data
  let allowWrap := 0 < r.width && !options.has optNobreaks
  match d.type with
  | .document | .list | .htmlBlock | .htmlInline | .footnoteDefinition | .footnoteReference => []
  | .blockQuote => [cr, puts (if v.entering then ".RS" else ".RE"), cr]
  | .item =>
    if v.entering then
      let marker := if v.place.listType = .bullet then lit "\\[bu] 2"
        else lit "\"" ++ decimal v.place.itemIndex ++ lit ".\" 4"
      [cr, puts ".IP ", bytes marker, cr]
    else [cr]
  | .heading =>
    if v.entering then [cr, puts (if d.as.getLevel = 1 then ".SH" else ".SS"), cr] else [cr]
  | .codeBlock =>
    [cr, puts ".IP\n.nf\n\\f[C]\n", textOrNull d.getLiteral? false .normal, cr,
      puts "\\f[]\n.fi", cr]
  | .customBlock =>
    [cr, text (if v.entering then d.as.getOnEnter else d.as.getOnExit) false .literal, cr]
  | .thematicBreak => [cr, puts ".PP\n  *  *  *  *  *", cr]
  | .paragraph =>
    if v.entering then
      -- no blank line if first paragraph in list
      if v.place.parent.any (·.type == .item) && v.place.before.isEmpty then []
      else [cr, puts ".PP", cr]
    else [cr]
  | .text => [textOrNull d.getLiteral? allowWrap .normal]
  | .linebreak => manLinebreak
  | .softbreak =>
    if options.has optHardbreaks then manLinebreak
    else if r.width = 0 && !options.has optNobreaks then [cr]
    else [space allowWrap .literal]
  | .code => [puts "\\f[C]", textOrNull d.getLiteral? allowWrap .normal, puts "\\f[]"]
  | .customInline => [text (if v.entering then d.as.getOnEnter else d.as.getOnExit) false .literal]
  | .strong =>
    if v.place.parent.any (·.type == .strong) then []
    else [puts (if v.entering then "\\f[B]" else "\\f[]")]
  | .emph => [puts (if v.entering then "\\f[I]" else "\\f[]")]
  | .link => if v.entering then [] else [puts " (", text d.as.getUrl allowWrap .url, puts ")"]
  | .image => [puts (if v.entering then "[IMAGE: " else "]")]
  | .attribute => [textOrNull d.getLiteral? allowWrap .normal]
  | .none | .extensionBlock _ | .extensionInline _ => [fail .unreachable]

def man : Format where
  outc := manOutc
  renderNode := manRenderNode

/-- `cmark_render_man` -/
def renderMan (options : Options) (width : Int) (root : Node) :
    Except RenderError (List OutByte) :=
  man.render options width root

end CmarkGfm
