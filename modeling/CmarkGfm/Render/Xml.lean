import CmarkGfm.Render.Html

/-! # xml.c -/

namespace CmarkGfm

/-- What `S_render_node` does to the buffer and the indentation. A string without a value is NULL. -/
inductive XmlCall where
  | puts (s : Option Bytes)
  | escapeXml (source : Bytes)
  | indent
  | indentBy (n : Int)

/-- `render_state` -/
structure XmlRenderer where
  xml : Bytes := []
  indent : Int := 0

/-- `MAX_INDENT` -/
def maxIndent : Int := 40

namespace XmlCall

/-- Write a string constant. -/
def text (s : String) : XmlCall := .puts (some (lit s))

/-- Write a number with `%d`. -/
def number (n : Nat) : XmlCall := .puts (some (decimal n))

def run (r : XmlRenderer) : XmlCall → Except RenderError XmlRenderer
  | .puts (some s) => .ok { r with xml := r.xml ++ s }
  | .puts none => .error .nullPointer
  | .escapeXml source => .ok { r with xml := r.xml ++ escapeHtml0 source false }
  | .indent => .ok { r with xml := r.xml ++ List.replicate (min r.indent maxIndent).toNat 32 }
  | .indentBy n => .ok { r with indent := r.indent + n }

end XmlCall

open XmlCall

/-- `cmark_node_get_type_string`, for a node without extension. -/
def NodeData.getTypeString (d : NodeData) : Option Bytes :=
  match d.type with
  | .none => lit "none"
  | .document => lit "document"
  | .blockQuote => lit "block_quote"
  | .list => lit "list"
  | .item => lit "item"
  | .codeBlock => lit "code_block"
  | .htmlBlock => lit "html_block"
  | .customBlock => lit "custom_block"
  | .paragraph => lit "paragraph"
  | .heading => lit "heading"
  | .thematicBreak => lit "thematic_break"
  | .text => lit "text"
  | .softbreak => lit "softbreak"
  | .linebreak => lit "linebreak"
  | .code => lit "code"
  | .htmlInline => lit "html_inline"
  | .customInline => lit "custom_inline"
  | .emph => lit "emph"
  | .strong => lit "strong"
  | .link => lit "link"
  | .image => lit "image"
  | .attribute => lit "attribute"
  | .footnoteDefinition | .footnoteReference | .extensionBlock _ | .extensionInline _ => lit "<unknown>"

/-- A value that is escaped, between quotation marks. -/
def xmlAttribute (opening : String) (value : Bytes) : List XmlCall :=
  [text opening, .escapeXml value, text "\""]

/-- The literal of a node, and the beginning of its closing tag. -/
def xmlLiteral (d : NodeData) (literal : Bytes) : List XmlCall :=
  [text " xml:space=\"preserve\">", .escapeXml literal, text "</", .puts d.getTypeString]

def xmlList (l : ListData) : List XmlCall :=
  (match l.listType with
    | .ordered =>
      [text " type=\"ordered\"", text " start=\"", number l.start, text "\""] ++
        (match l.delimiter with
          | .paren => [text " delim=\"paren\""]
          | .period => [text " delim=\"period\""]
          | .noDelim => [])
    | .bullet => [text " type=\"bullet\""]
    | .noList => []) ++
  [text " tight=\"", text (if l.tight then "true" else "false"), text "\""]

/-- The switch of `S_render_node`, at the entry of a node without extension. -/
def xmlNode (d : NodeData) : List XmlCall :=
  match d.type with
  | .document => [text " xmlns=\"http://commonmark.org/xml/1.0\""]
  | .text | .code | .htmlBlock | .htmlInline => xmlLiteral d d.as.getLiteral
  | .list => xmlList d.as.getList
  | .heading => [text " level=\"", number d.as.getLevel, text "\""]
  | .codeBlock =>
    (if d.as.getCode.info.isEmpty then [] else xmlAttribute " info=\"" d.as.getCode.info) ++
      xmlLiteral d d.as.getCode.literal
  | .customBlock | .customInline =>
    xmlAttribute " on_enter=\"" d.as.getOnEnter ++ xmlAttribute " on_exit=\"" d.as.getOnExit
  | .link | .image => xmlAttribute " destination=\"" d.as.getUrl ++ xmlAttribute " title=\"" d.as.getTitle
  | _ => []

/-- The nodes whose switch writes the literal. -/
def NodeType.writesLiteral : NodeType → Bool
  | .text | .code | .htmlBlock | .htmlInline | .codeBlock => true
  | _ => false

/-- `S_render_node` -/
def xmlRenderNode (options : Options) (v : Visit) : List XmlCall :=
  let d := v.node.data
  if v.entering then
    [.indent, text "<", .puts d.getTypeString] ++
      (if options.has optSourcepos && d.startLine != 0 then
        [text " sourcepos=\"", .puts (some (sourceRange d)), text "\""] else []) ++
      xmlNode d ++
      (if !v.node.children.isEmpty then [.indentBy 2]
        else if d.type.writesLiteral then [] else [text " /"]) ++ [text ">\n"]
  else if !v.node.children.isEmpty then
    [.indentBy (-2), .indent, text "</", .puts d.getTypeString, text ">\n"]
  else []

/-- `cmark_render_xml` -/
def renderXml (options : Options) (root : Node) : Except RenderError Bytes := do
  let prolog := lit "<?xml version=\"1.0\" encoding=\"UTF-8\"?>\n" ++ lit "<!DOCTYPE document SYSTEM \"CommonMark.dtd\">\n"
  let r ← (root.visits {}).foldlM (fun r v => (xmlRenderNode options v).foldlM XmlCall.run r) { xml := prolog }
  return r.xml

end CmarkGfm
