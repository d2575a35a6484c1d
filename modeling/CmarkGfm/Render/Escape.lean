import CmarkGfm.Node.Types

/-! # houdini_html_e.c, houdini_href_e.c and numbers -/

namespace CmarkGfm

/-- `HTML_ESCAPES[HTML_ESCAPE_TABLE[c]]`, for the bytes that have an escape. -/
def htmlEscape (c : UInt8) : Option Bytes :=
  if c == chr '"' then lit "&quot;"
  else if c == chr '&' then lit "&amp;"
  else if c == chr '\'' then lit "&#39;"
  else if c == chr '/' then lit "&#47;"
  else if c == chr '<' then lit "&lt;"
  else if c == chr '>' then lit "&gt;"
  else none

/-- `HTML_ESCAPES` -/
def htmlEscapes : List Bytes :=
  [lit "&quot;", lit "&amp;", lit "&#39;", lit "&#47;", lit "&lt;", lit "&gt;"]

/-- What `houdini_escape_html0` writes for a byte. The forward slash and the single quote are
only escaped in secure mode. -/
def escapeHtmlByte (secure : Bool) (c : UInt8) : Bytes :=
  if (c == chr '/' || c == chr '\'') && !secure then [c] else (htmlEscape c).getD [c]

/-- `houdini_escape_html0` -/
def escapeHtml0 (src : Bytes) (secure : Bool) : Bytes := src.flatMap (escapeHtmlByte secure)

/-- `HREF_SAFE` -/
def hrefSafe (c : UInt8) : Bool :=
  c == 33 || (35 ≤ c && c ≤ 37) || (40 ≤ c && c ≤ 59) || c == 61 || (63 ≤ c && c ≤ 90) ||
    c == 95 || (97 ≤ c && c ≤ 122) || c == 126

/-- `hex_chars[n]` -/
def hexChar (n : UInt8) : UInt8 := if n < 10 then 48 + n else 55 + n

/-- What `houdini_escape_href` writes for a byte. -/
def escapeHrefByte (c : UInt8) : Bytes :=
  if hrefSafe c then [c]
  else if c == chr '&' then lit "&amp;"
  else if c == chr '\'' then lit "&#x27;"
  else [chr '%', hexChar ((c >>> 4) &&& 0xF), hexChar (c &&& 0xF)]

/-- `houdini_escape_href` -/
def escapeHref (src : Bytes) : Bytes := src.flatMap escapeHrefByte

/-- The loop of both encoders: a run of bytes that stay is copied at once. Every turn but the last consumes a
byte that is escaped. -/
def escapeRuns (stays : UInt8 → Bool) (escape : UInt8 → Bytes) : Nat → Bytes → Bytes
  | 0, _ => []
  | fuel + 1, src =>
    let run := src.takeWhile stays
    match src.dropWhile stays with
    | [] => run
    | c :: rest => run ++ escape c ++ escapeRuns stays escape fuel rest

/-- `houdini_escape_html0`, run by run. -/
def houdiniEscapeHtml0 (src : Bytes) (secure : Bool) : Bytes :=
  escapeRuns (fun c => (htmlEscape c).isNone) (escapeHtmlByte secure) (src.length + 1) src

/-- `houdini_escape_href`, run by run. -/
def houdiniEscapeHref (src : Bytes) : Bytes :=
  escapeRuns hrefSafe escapeHrefByte (src.length + 1) src

/-- What `%d` prints. -/
def printInt : Int → Bytes
  | .ofNat n => decimal n
  | .negSucc n => chr '-' :: decimal (n + 1)

/-- `%d:%d-%d:%d`, the lines and columns of a node. -/
def sourceRange (d : NodeData) : Bytes :=
  printInt d.startLine ++ chr ':' :: printInt d.startColumn ++
    chr '-' :: printInt d.endLine ++ chr ':' :: printInt d.endColumn

end CmarkGfm
