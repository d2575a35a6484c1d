import CmarkGfm.Blocks.Open

/-! # tasklist.c -/

namespace CmarkGfm

namespace Scanners

open Regex

/-- `spacechar` of ext_scanners.re has no line ends. -/
def extSpacechar : Re := oneOf [(9, 9), (11, 12), (32, 32)]

def listMarker : Re := .alts [str "-", str "+", str "*",
  .seq (.plus (oneOf [range '0' '9'])) (noneOf (chars "\n"))]

/-- The scanners are generated with `--case-insensitive`, too. -/
def taskItem : Re := .seqs [.star extSpacechar, listMarker, .plus extSpacechar,
  .alt (str "[ ]") (istr "[x]"), .plus extSpacechar]

def tasklist : Bytes → Nat := scan taskItem

end Scanners

/-- `strstr`, whether it finds something. -/
def strstr (haystack needle : Bytes) : Bool := (cstr haystack).tails.any needle.isPrefixOf

namespace Tasklist

/-- Either an upper or lower case X means the task is completed. -/
def lineChecked (input : Bytes) : Bool := strstr input (lit "[x]") || strstr input (lit "[X]")

/-- `open_tasklist_item`, where `self` is the place of the extension among those of the parser. -/
def openTasklistItem (self : Nat) (p : ParserState) (parentContainer : NodeId) (input : Bytes) :
    ParserState × Option NodeId :=
  if p.typeOf parentContainer ≠ .item then (p, none)
  else if Scanners.scanAt Scanners.tasklist input 0 = 0 then (p, none)
  else
    let p := p.modifyData parentContainer fun d => { d with extension := some self }
    let p := advanceOffset input 3 false p
    (p.modifyData parentContainer fun d =>
      { d with as := .list { d.as.getList with checked := lineChecked input } }, none)

/-- `can_contain` -/
def canContain (node : NodeData) (_ : NodeType) : Bool := node.type = .item

/-- `create_tasklist_extension`, as far as it concerns parsing. -/
def extension (self : Nat) : Extension where
  lastBlockMatches := some fun _ p input container => parseNodeItemPrefix input container p
  tryOpeningBlock := some fun _ _ p container input => openTasklistItem self p container input
  canContainFunc := some canContain

/-- `cmark_gfm_extensions_get_tasklist_item_checked` -/
def getTasklistItemChecked (self : Nat) (d : NodeData) : Bool :=
  if d.extension = some self then d.as.getList.checked else false

/-- `cmark_gfm_extensions_set_tasklist_item_checked` -/
def setTasklistItemChecked (self : Nat) (isChecked : Bool) (d : NodeData) : NodeData × Bool :=
  if d.extension = some self then
    ({ d with as := .list { d.as.getList with checked := isChecked } }, true)
  else (d, false)

end Tasklist

end CmarkGfm
