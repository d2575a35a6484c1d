import CmarkGfm.Inlines.Brackets

/-! # Reference definitions (inlines.c) -/

namespace CmarkGfm

/-- `cmark_parse_reference_inline`: the position after the definition, and the map with it. -/
def parseReferenceInline (T : Tables) (input : Bytes) (refmap : Map Reference) :
    Option (Nat × Map Reference) :=
  match linkLabel input 0 false with
  | none => none
  | some (pos, lab) =>
    if lab.length = 0 || byteAt input pos != chr ':' then none
    else
      let pos := spnl input (pos + 1)
      match manualScanLinkUrl input pos with
      | none => none
      | some (matchlen, url) =>
        let beforetitle := pos + matchlen
        let starttitle := spnl input beforetitle
        let titlelen := if starttitle = beforetitle then 0
          else Scanners.scanAt Scanners.linkTitle input starttitle
        let title := chunkDup input starttitle titlelen
        let endtitle := if titlelen > 0 then starttitle + titlelen else beforetitle
        match skipLineEnd input (skipSpaces input endtitle) with
        | some pos => some (pos, referenceCreate T refmap lab url title)
        | none =>
          -- try rewinding before title
          if titlelen > 0 then
            (skipLineEnd input (skipSpaces input beforetitle)).map fun pos =>
              (pos, referenceCreate T refmap lab url title)
          else none

/-- `cmark_parse_reference_attributes_inline`. -/
def parseReferenceAttributesInline (T : Tables) (input : Bytes) (refmap : Map Reference) :
    Option (Nat × Map Reference) :=
  match linkLabel input 0 true with
  | none => none
  | some (pos, lab) =>
    if lab.length = 0 || byteAt input pos != chr ':' then none
    else
      let startpos := spnl input (pos + 1)
      -- read until next newline
      let stop := skipWhile (fun c => c != 0 && !isLineEndChar c) input startpos
      if stop = startpos then none
      else
        (skipLineEnd input (skipSpaces input stop)).map fun pos =>
          (pos, referenceCreateAttributes T refmap lab (chunkDup input startpos (stop - startpos)))

end CmarkGfm
