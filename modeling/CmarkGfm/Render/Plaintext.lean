import CmarkGfm.Render.Render

/-! # plaintext.c -/

namespace CmarkGfm

open Call

/-- `outc` -/
def plaintextOutc : Outc := fun r _ c _ => r.renderCodePoint c

/-- The switch of `S_render_node`, for a node without extension. -/
def plaintextNode (options : Options) (r : Renderer) (v : Visit) : List Call :=
  let d := v.node.data
  let hardbreaks := options.has optHardbreaks
  let allowWrap := 0 < r.width && !options.has optNobreaks && !hardbreaks
  match d.type with
  | .document | .blockQuote | .htmlBlock | .customBlock | .htmlInline | .customInline | .strong | .emph | .link | .image =>
    []
  | .list =>
    let next := v.place.after.head?.map Node.type
    if !v.entering && (next == some .codeBlock || next == some .list) then [cr] else []
  | .item =>
    let marker := itemMarker v.place
    if v.entering then
      [bytes marker, beginContent, pushPrefix (List.replicate marker.length 32)]
    else [popPrefix marker.length, cr]
  | .heading =>
    if v.entering then [beginContent, setNoLinebreaks true] else [setNoLinebreaks false, blankline]
  | .codeBlock =>
    let firstInListItem := v.place.before.isEmpty && v.place.parent.any (·.type == .item)
    (if firstInListItem then [] else [blankline]) ++ [textOrNull d.getLiteral? false .literal, blankline]
  | .thematicBreak => [blankline]
  | .paragraph => if v.entering then [] else [blankline]
  | .text => [textOrNull d.getLiteral? allowWrap .normal]
  | .linebreak => [cr]
  | .softbreak =>
    if hardbreaks then [cr]
    else if !r.noLinebreaks && r.width = 0 && !options.has optNobreaks then [cr]
    else [space allowWrap .literal]
  | .code => [textOrNull d.getLiteral? allowWrap .literal]
  | .attribute => [text d.as.getAttributes false .literal]
  | .footnoteReference =>
    if v.entering then [puts "[^", text d.as.getLiteral false .literal, puts "]"] else []
  | .footnoteDefinition =>
    if v.entering then
      [countFootnote, puts "[^", bytes (decimal (r.footnoteIx + 1)), puts "]: ", pushPrefix (lit "    ")]
    else [popPrefix 4]
  | .none | .extensionBlock _ | .extensionInline _ => [fail .unreachable]

/-- `S_render_node` -/
def plaintextRenderNode (options : Options) (r : Renderer) (v : Visit) : List Call :=
  adjustTight v ++ plaintextNode options r v

def plaintext : Format where
  outc := plaintextOutc
  renderNode := plaintextRenderNode

/-- `cmark_render_plaintext` -/
def renderPlaintext (options : Options) (width : Int) (root : Node) : Except RenderError (List OutByte) :=
  plaintext.render options (if options.has optHardbreaks then 0 else width) root

end CmarkGfm
