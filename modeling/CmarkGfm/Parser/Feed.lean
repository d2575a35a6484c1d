import CmarkGfm.Parser.State

/-!
# Cutting the input into lines (blocks.c)

`S_parser_feed` hands every line to `S_process_line`, which is a parameter here.
-/

namespace CmarkGfm

/-- The fields of `cmark_parser` that carry the input from one call to the next. -/
structure Feed where
  linebuf : Bytes := []
  lastBufferEndedWithCr : Bool := false
  totalSize : Nat := 0
  deriving DecidableEq

/-- Count the bytes of a buffer, up to `UINT_MAX`. -/
def Feed.count (feed : Feed) (len : Nat) : Feed :=
  { feed with
    totalSize := if len > uintMax - feed.totalSize then uintMax else feed.totalSize + len }

/-- Neither a line end nor a NUL byte. -/
def isPlain (c : UInt8) : Bool := !isLineEndChar c && c != 0

section

variable {σ : Type} (emit : σ → Bytes → Bool → σ) (preserveWhitespace eof : Bool)

/-- Process a line that ends with what `linebuf` does not hold yet. -/
def processChunk (feed : Feed) (s : σ) (chunk : Bytes) (ensureEndsInNewline : Bool) : Feed × σ :=
  ({ feed with linebuf := [] }, emit s (feed.linebuf ++ chunk) ensureEndsInNewline)

/-- The loop of `S_parser_feed`. Every turn takes some of the buffer, so its length is fuel
enough. -/
def feedLoop : Nat → Bytes → Feed → σ → Feed × σ
  | 0, _, feed, s => (feed, s)
  | fuel + 1, buffer, feed, s =>
    if buffer = [] then (feed, s)
    else
      let chunk := buffer.takeWhile isPlain
      match buffer.drop chunk.length with
      | [] =>
        if eof then processChunk emit feed s chunk (!preserveWhitespace || !eof)
        else ({ feed with linebuf := feed.linebuf ++ chunk }, s)
      | c :: rest =>
        if c == 0 then
          -- omit NULL byte, add replacement character
          feedLoop fuel rest { feed with linebuf := feed.linebuf ++ chunk ++ encodeUnknown } s
        else
          let (feed, s) := processChunk emit feed s chunk true
          -- skip over line ending characters
          if c == 13 then
            let feed := { feed with lastBufferEndedWithCr := rest.isEmpty }
            feedLoop fuel (if rest.head? == some 10 then rest.tail else rest) feed s
          else feedLoop fuel rest feed s

/-- `S_parser_feed`. -/
def parserFeed (feed : Feed) (s : σ) (buffer : Bytes) : Feed × σ :=
  let feed := feed.count buffer.length
  -- skip NL if last buffer ended with CR
  let buffer := if feed.lastBufferEndedWithCr && byteAt buffer 0 == 10 then buffer.drop 1 else buffer
  feedLoop emit preserveWhitespace eof buffer.length buffer
    { feed with lastBufferEndedWithCr := false } s

/-- The first step of `cmark_parser_finish`: the line without a line end. -/
def flushLine (feed : Feed) (s : σ) : Feed × σ :=
  if feed.linebuf.length > 0 then processChunk emit feed s [] (!preserveWhitespace) else (feed, s)

end

end CmarkGfm
