import CmarkGfm.Library.Regex
import CmarkGfm.Bytes

/-!
# scanners.re

Each scanner is the regular expression of the source. A scanner reads a
zero-terminated string and no class contains NUL, so the end of the list stands for
the terminator.
-/

namespace CmarkGfm

/-- A bracket expression: ranges, possibly negated. -/
structure CharClass where
  negated : Bool
  ranges : List (UInt8 × UInt8)
  deriving DecidableEq

namespace CharClass

def mem (k : CharClass) (c : UInt8) : Bool :=
  k.negated != k.ranges.any fun r => r.1 ≤ c && c ≤ r.2

end CharClass

namespace Scanners

open Regex

abbrev Re := Regex.Re CharClass

def range (a b : Char) : UInt8 × UInt8 := (chr a, chr b)

/-- The single characters of a string, as ranges. -/
def chars (s : String) : List (UInt8 × UInt8) := (lit s).map fun c => (c, c)

def nul : UInt8 × UInt8 := (0, 0)

def oneOf (ranges : List (UInt8 × UInt8)) : Re := .cls ⟨false, ranges⟩

/-- A byte of a character above ASCII, but the first. -/
def continuation : Re := oneOf [(0x80, 0xbf)]

/-- A character above ASCII: the scanners are generated for UTF-8. -/
def multibyte : Re := .alts [
  .seq (oneOf [(0xc2, 0xdf)]) continuation,
  .seqs [oneOf [(0xe0, 0xe0)], oneOf [(0xa0, 0xbf)], continuation],
  .seqs [oneOf [(0xe1, 0xec), (0xee, 0xef)], continuation, continuation],
  .seqs [oneOf [(0xed, 0xed)], oneOf [(0x80, 0x9f)], continuation],
  .seqs [oneOf [(0xf0, 0xf0)], oneOf [(0x90, 0xbf)], continuation, continuation],
  .seqs [oneOf [(0xf1, 0xf3)], continuation, continuation, continuation],
  .seqs [oneOf [(0xf4, 0xf4)], oneOf [(0x80, 0x8f)], continuation, continuation]]

/-- A negated class of ASCII characters. -/
def noneOf (ranges : List (UInt8 × UInt8)) : Re :=
  .alt (.cls ⟨true, nul :: (0x80, 0xff) :: ranges⟩) multibyte

def str (s : String) : Re := .seqs ((lit s).map fun c => oneOf [(c, c)])

def upper (c : UInt8) : UInt8 := if 97 ≤ c && c ≤ 122 then c - 32 else c

/-- A case-insensitive string, given in lower case. All strings of the source are, since the
scanners are generated with `--case-insensitive`. -/
def istr (s : String) : Re := .seqs ((lit s).map fun c => oneOf [(c, c), (upper c, upper c)])

def alpha : List (UInt8 × UInt8) := [range 'A' 'Z', range 'a' 'z']

def alnum : List (UInt8 × UInt8) := alpha ++ [range '0' '9']

def spaces : List (UInt8 × UInt8) := [(9, 13), (32, 32)]

/-! ### Definitions of the re2c block -/

def spacechar : Re := oneOf spaces

def escapedChar : Re :=
  .seq (str "\\") (oneOf [(33, 47), (58, 64), (91, 96), (123, 126)])

def tagname : Re := .seq (oneOf alpha) (.star (oneOf (alnum ++ chars "-")))

def blocktagname : Re := .alts (["address", "article", "aside", "base", "basefont", "blockquote",
  "body", "caption", "center", "col", "colgroup", "dd", "details", "dialog", "dir", "div", "dl",
  "dt", "fieldset", "figcaption", "figure", "footer", "form", "frame", "frameset", "h1", "h2",
  "h3", "h4", "h5", "h6", "head", "header", "hr", "html", "iframe", "legend", "li", "link",
  "main", "menu", "menuitem", "nav", "noframes", "ol", "optgroup", "option", "p", "param",
  "section", "source", "title", "summary", "table", "tbody", "td", "tfoot", "th", "thead",
  "title", "tr", "track", "ul"].map istr)

def attributename : Re :=
  .seq (oneOf (alpha ++ chars "_:")) (.star (oneOf (alnum ++ chars ":._-")))

def unquotedvalue : Re := .plus (noneOf (spaces ++ chars "\"'=<>`"))

def singlequotedvalue : Re := .seqs [str "'", .star (noneOf (chars "'")), str "'"]

def doublequotedvalue : Re := .seqs [str "\"", .star (noneOf (chars "\"")), str "\""]

def attributevalue : Re := .alts [unquotedvalue, singlequotedvalue, doublequotedvalue]

def attributevaluespec : Re :=
  .seqs [.star spacechar, str "=", .star spacechar, attributevalue]

def tagattribute : Re := .seqs [.plus spacechar, attributename, .opt attributevaluespec]

def opentag : Re := .seqs [tagname, .star tagattribute, .star spacechar, .opt (str "/"), str ">"]

def closetag : Re := .seqs [str "/", tagname, .star spacechar, str ">"]

def htmlcomment : Re := .seqs [str "--",
  .star (.alts [.plus (noneOf (chars "-")), .seq (str "-") (noneOf (chars "-")),
    .seq (str "--") (noneOf (chars ">"))]), str "-->"]

def processinginstruction : Re :=
  .plus (.alts [.plus (noneOf (chars "?>")), .seq (str "?") (noneOf (chars ">")), str ">"])

def declaration : Re :=
  .seqs [.plus (oneOf [range 'A' 'Z']), .plus spacechar, .star (noneOf (chars ">"))]

def cdata : Re := .seqs [istr "cdata[",
  .star (.alts [.plus (noneOf (chars "]")), .seq (str "]") (noneOf (chars "]")),
    .seq (str "]]") (noneOf (chars ">"))])]

def htmltag : Re := .alt opentag closetag

def scheme : Re := .seq (oneOf alpha) (.between (oneOf (alnum ++ chars ".+-")) 1 31)

/-! ### Scanners -/

/-- A scanner with one rule that returns the length of the match. -/
def scan (r : Re) (input : Bytes) : Nat := (longestMatch CharClass.mem r input).getD 0

/-- A scanner whose rules return codes: the longest match, the first rule on a tie. -/
def scanCode : List (Re × Nat) → Bytes → Nat
  | rules, input =>
    let found := rules.filterMap fun rule =>
      (longestMatch CharClass.mem rule.1 input).map fun n => (n, rule.2)
    (found.foldl (fun best r => match best with
      | some b => if b.1 < r.1 then some r else some b
      | none => some r) (none : Option (Nat × Nat))).elim 0 (·.2)

/-- A scanner with trailing context; the rules exclude each other. -/
def scanTrailing : List (Re × Re) → Bytes → Nat
  | [], _ => 0
  | (r, t) :: rules, input =>
    match trailingMatch CharClass.mem r t input with
    | some n => n
    | none => scanTrailing rules input

/-- `_scan_at`: the scanner sees the chunk from `offset` to its end. -/
def scanAt {α : Type} (scanner : Bytes → α) (input : Bytes) (offset : Nat) : α :=
  scanner (input.drop offset)

def schemeColon : Bytes → Nat := scan (.seq scheme (str ":"))

def autolinkUri : Bytes → Nat := scan (.seqs [scheme, str ":",
  .star (noneOf [(1, 32), (60, 60), (62, 62)]), str ">"])

def domainLabel : Re :=
  .seq (oneOf alnum) (.opt (.seq (.upTo (oneOf (alnum ++ chars "-")) 61) (oneOf alnum)))

def autolinkEmail : Bytes → Nat := scan (.seqs [
  .plus (oneOf (alnum ++ chars ".!#$%&'*+/=?^_`\x7b|\x7d~-")), str "@", domainLabel,
  .star (.seq (str ".") domainLabel), str ">"])

def htmlTag : Bytes → Nat := scan htmltag

def liberalHtmlTag : Bytes → Nat := scan (.seq (.plus (noneOf (chars "\n"))) (str ">"))

def htmlComment : Bytes → Nat := scan htmlcomment

def htmlPi : Bytes → Nat := scan processinginstruction

def htmlDeclaration : Bytes → Nat := scan declaration

def htmlCdata : Bytes → Nat := scan cdata

def rawTag : Re := .alts (["script", "pre", "textarea", "style"].map istr)

def htmlBlockStart : Bytes → Nat := scanCode [
  (.seqs [str "<", rawTag, .alt spacechar (str ">")], 1),
  (str "<!--", 2),
  (str "<?", 3),
  (.seq (str "<!") (oneOf [range 'A' 'Z']), 4),
  (istr "<![cdata[", 5),
  (.seqs [str "<", .opt (str "/"), blocktagname, .alt spacechar (.seq (.opt (str "/")) (str ">"))], 6)]

def htmlBlockStart7 : Bytes → Nat := scanCode [
  (.seqs [str "<", .alt opentag closetag, .star (oneOf (chars "\t\n\x0c ")),
    oneOf (chars "\r\n")], 7)]

/-- `[^\n\x00]*` followed by the end marker of an HTML block. -/
def htmlBlockEnd (marker : Re) : Bytes → Nat := scan (.seq (.star (noneOf (chars "\n"))) marker)

def htmlBlockEnd1 : Bytes → Nat := htmlBlockEnd (.seqs [str "</", rawTag, str ">"])

def htmlBlockEnd2 : Bytes → Nat := htmlBlockEnd (str "-->")

def htmlBlockEnd3 : Bytes → Nat := htmlBlockEnd (str "?>")

def htmlBlockEnd4 : Bytes → Nat := htmlBlockEnd (str ">")

def htmlBlockEnd5 : Bytes → Nat := htmlBlockEnd (str "]]>")

def linkTitle : Bytes → Nat := scan (.alts [
  .seqs [str "\"", .star (.alt escapedChar (noneOf (chars "\""))), str "\""],
  .seqs [str "'", .star (.alt escapedChar (noneOf (chars "'"))), str "'"],
  .seqs [str "(", .star (.alt escapedChar (noneOf (chars "()"))), str ")"]])

def spacechars : Bytes → Nat := scan (.plus spacechar)

def atxHeadingStart : Bytes → Nat :=
  scan (.seq (.between (str "#") 1 6) (.alt (.plus (oneOf (chars " \t"))) (oneOf (chars "\r\n"))))

def setextHeadingLine : Bytes → Nat := scanCode [
  (.seqs [.plus (str "="), .star (oneOf (chars " \t")), oneOf (chars "\r\n")], 1),
  (.seqs [.plus (str "-"), .star (oneOf (chars " \t")), oneOf (chars "\r\n")], 2)]

def openCodeFence : Bytes → Nat := scanTrailing [
  (.atLeast (str "`") 3, .seq (.star (noneOf (chars "`\r\n"))) (oneOf (chars "\r\n"))),
  (.atLeast (str "~") 3, .seq (.star (noneOf (chars "\r\n"))) (oneOf (chars "\r\n")))]

def closeCodeFence : Bytes → Nat := scanTrailing [
  (.atLeast (str "`") 3, .seq (.star (oneOf (chars " \t"))) (oneOf (chars "\r\n"))),
  (.atLeast (str "~") 3, .seq (.star (oneOf (chars " \t"))) (oneOf (chars "\r\n")))]

/-- Only compared with zero, so 1 stands for the length of the match. -/
def dangerousUrl : Bytes → Nat := scanCode [
  (.seq (istr "data:image/") (.alts (["png", "gif", "jpeg", "webp"].map istr)), 0),
  (.alts (["javascript:", "vbscript:", "file:", "data:"].map istr), 1)]

def footnoteDefinition : Bytes → Nat := scan (.seqs [str "[^",
  .plus (noneOf (chars "] \r\n\t")), str "]:", .star (oneOf (chars " \t"))])

end Scanners

end CmarkGfm
