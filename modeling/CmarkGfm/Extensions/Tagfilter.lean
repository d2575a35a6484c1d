import CmarkGfm.Bytes

/-! # tagfilter.c -/

namespace CmarkGfm

/-- `blacklist` -/
def blacklist : List Bytes :=
  [lit "title", lit "textarea", lit "style", lit "xmp", lit "iframe", lit "noembed", lit "noframes", lit "script",
    lit "plaintext"]

/-- `tolower`, of the C locale. -/
def tolower (c : UInt8) : UInt8 := if 65 ≤ c && c ≤ 90 then c + 32 else c

/-- The loop of `is_tag`: what is left behind the name. -/
def matchTagname : Bytes → Bytes → Option Bytes
  | rest, [] => some rest
  -- i == tag_size
  | [], _ :: _ => some []
  | c :: rest, t :: tagname => if tolower c = t then matchTagname rest tagname else none

/-- `is_tag` -/
def isTag (tagData tagname : Bytes) : Bool :=
  if tagData.length < 3 || byteAt tagData 0 != chr '<' then false
  else
    match matchTagname (tagData.drop (if byteAt tagData 1 == chr '/' then 2 else 1)) tagname with
    | none => false
    | some [] => false
    | some (c :: rest) => isspace c || c == chr '>' || (c == chr '/' && rest.head? == some (chr '>'))

/-- `filter` -/
def tagFilter (tag : Bytes) : Bool := !blacklist.any (isTag tag)

end CmarkGfm
