import CmarkGfm.Bytes

/-!
# buffer.c

Here a buffer is memory that is written byte by byte. What `realloc` adds to it holds arbitrary
bytes. An operation that goes outside the memory, or computes a size that does not fit, is an error,
as is one that aborts.
-/

namespace CmarkGfm

/-- `abort` is a call of `abort` or an assertion that fails. The other two are undefined. -/
inductive BufferError where
  | abort
  | overflow
  | outOfBounds
  deriving DecidableEq

/-- `INT32_MAX` -/
abbrev int32Max : Int := 2147483647

/-- The result of signed arithmetic. -/
def int32 (n : Int) : Except BufferError Int :=
  if -int32Max - 1 ≤ n ∧ n ≤ int32Max then .ok n else .error .overflow

/-- `(bufsize_t)n` -/
def castInt32 (n : Nat) : Int := ((n : Int) + int32Max + 1) % 4294967296 - int32Max - 1

/-- `cmark_strbuf`; `mem` is the memory at `ptr`. -/
structure Strbuf where
  mem : Bytes
  asize : Nat
  size : Nat
  deriving DecidableEq

/-- The bytes that memory happens to hold. -/
abbrev Junk := Nat → UInt8

namespace Strbuf

/-- A buffer that points to `cmark_strbuf__initbuf`. -/
def empty : Strbuf := ⟨[0], 0, 0⟩

/-! ### Access to the memory -/

/-- `ptr[i]`, not beyond the byte after the contents. -/
def load (i : Nat) (b : Strbuf) : Except BufferError UInt8 :=
  if i ≤ b.size ∧ i < b.mem.length then .ok (byteAt b.mem i) else .error .outOfBounds

/-- `ptr[i] = c` -/
def store (i : Nat) (c : UInt8) (b : Strbuf) : Except BufferError Strbuf :=
  if i < b.mem.length then .ok { b with mem := b.mem.set i c } else .error .outOfBounds

/-- `memmove(ptr + i, s, ..)` -/
def move (i : Nat) (s : Bytes) (b : Strbuf) : Except BufferError Strbuf :=
  if i + s.length ≤ b.mem.length then
    .ok { b with mem := b.mem.take i ++ s ++ b.mem.drop (i + s.length) }
  else .error .outOfBounds

/-- `size = n; ptr[size] = '\0'` -/
def terminate (n : Nat) (b : Strbuf) : Except BufferError Strbuf := { b with size := n }.store n 0

/-- `realloc`, or an allocation if nothing was allocated before. -/
def realloc (junk : Junk) (newSize : Nat) (b : Strbuf) : Strbuf :=
  let old := if b.asize = 0 then [] else b.mem
  { b with
    mem := old ++ (List.range (newSize - old.length)).map fun i => junk (old.length + i)
    asize := newSize }

/-! ### Growing -/

/-- `cmark_strbuf_grow` -/
def grow (junk : Junk) (targetSize : Int) (b : Strbuf) : Except BufferError Strbuf :=
  if targetSize ≤ 0 then .error .abort
  else if targetSize < b.asize then .ok b
  else if targetSize > int32Max / 2 then .error .abort
  else do
    -- Oversize the buffer by 50% to guarantee amortized linear time complexity on append operations.
    let newSize ← int32 (targetSize + targetSize / 2)
    let newSize ← int32 (newSize + 1)
    let newSize ← int32 (newSize + 7)
    return b.realloc junk (newSize / 8 * 8).toNat

/-- `S_strbuf_grow_by` -/
def growBy (junk : Junk) (add : Int) (b : Strbuf) : Except BufferError Strbuf := do
  let targetSize ← int32 (b.size + add)
  b.grow junk targetSize

/-- `cmark_strbuf_init` -/
def init (junk : Junk) (initialSize : Int) : Except BufferError Strbuf :=
  if initialSize > 0 then empty.grow junk initialSize else .ok empty

/-! ### Setting and appending -/

/-- `cmark_strbuf_clear` -/
def clear (b : Strbuf) : Except BufferError Strbuf :=
  if b.asize > 0 then b.terminate 0 else .ok { b with size := 0 }

/-- An argument that points to bytes: NULL, the start of the buffer, or other memory. -/
inductive Data where
  | null
  | self
  | bytes (s : Bytes)
  deriving DecidableEq

/-- `cmark_strbuf_set` -/
def set (junk : Junk) (data : Data) (len : Int) (b : Strbuf) : Except BufferError Strbuf :=
  if len ≤ 0 then b.clear
  else match data with
  | .null => b.clear
  | .self => if len > b.size then .error .outOfBounds else b.terminate len.toNat
  | .bytes s => do
    let b ← (if len ≥ b.asize then b.grow junk len else .ok b)
    if len > s.length then .error .outOfBounds
    else
      let b ← b.move 0 (s.take len.toNat)
      b.terminate len.toNat

/-- `cmark_strbuf_sets` -/
def sets (junk : Junk) (string : Option Bytes) (b : Strbuf) : Except BufferError Strbuf :=
  match string with
  | none => b.set junk .null 0
  | some s => b.set junk (.bytes (cstr s)) (castInt32 (cstr s).length)

/-- `cmark_strbuf_putc` -/
def putc (junk : Junk) (c : Int) (b : Strbuf) : Except BufferError Strbuf := do
  let b ← b.growBy junk 1
  let b' ← b.store b.size (UInt8.ofNat (c % 256).toNat)
  b'.terminate (b.size + 1)

/-- `cmark_strbuf_put` -/
def put (junk : Junk) (data : Bytes) (len : Int) (b : Strbuf) : Except BufferError Strbuf :=
  if len ≤ 0 then .ok b
  else do
    let b ← b.growBy junk len
    if len > data.length then .error .outOfBounds
    else
      let b' ← b.move b.size (data.take len.toNat)
      b'.terminate (b.size + len.toNat)

/-- `cmark_strbuf_puts` -/
def puts (junk : Junk) (string : Bytes) (b : Strbuf) : Except BufferError Strbuf :=
  b.put junk (cstr string) (castInt32 (cstr string).length)

/-- `cmark_strbuf_detach`: the memory that is returned, and the buffer after that. -/
def detach (b : Strbuf) : Bytes × Strbuf := if b.asize = 0 then ([0], b) else (b.mem, empty)

/-! ### Taking bytes away -/

/-- `cmark_strbuf_truncate` -/
def truncate (len : Int) (b : Strbuf) : Except BufferError Strbuf :=
  let len := if len < 0 then 0 else len.toNat
  if len < b.size then b.terminate len else .ok b

/-- `cmark_strbuf_drop` -/
def drop (n : Int) (b : Strbuf) : Except BufferError Strbuf :=
  if n > 0 then do
    let n := if n > b.size then b.size else n.toNat
    let b' ← (if b.size - n = 0 then .ok b else b.move 0 ((b.mem.drop n).take (b.size - n)))
    b'.terminate (b.size - n)
  else .ok b

/-- The loop of `cmark_strbuf_rtrim`: what is left of the size. -/
def rtrimLoop (b : Strbuf) : Nat → Except BufferError Nat
  | 0 => .ok 0
  | size + 1 => do
    let c ← b.load size
    if isspace c then b.rtrimLoop size else return size + 1

/-- `cmark_strbuf_rtrim` -/
def rtrim (b : Strbuf) : Except BufferError Strbuf :=
  if b.size = 0 then .ok b
  else do
    let size ← b.rtrimLoop b.size
    b.terminate size

/-- The loop of `cmark_strbuf_trim`: `n` bytes are left behind `i`. -/
def trimLoop (b : Strbuf) : Nat → Nat → Except BufferError Nat
  | 0, i => .ok i
  | n + 1, i => do
    let c ← b.load i
    if isspace c then b.trimLoop n (i + 1) else return i

/-- `cmark_strbuf_trim` -/
def trim (b : Strbuf) : Except BufferError Strbuf :=
  if b.size = 0 then .ok b
  else do
    let i ← b.trimLoop b.size 0
    let b ← b.drop i
    b.rtrim

/-! ### Rewriting in place -/

/-- The loop of `cmark_strbuf_normalize_whitespace`: `n` bytes are left behind `r`. -/
def normalizeLoop : Nat → Nat → Nat → Bool → Strbuf → Except BufferError (Nat × Strbuf)
  | 0, _, w, _, s => .ok (w, s)
  | n + 1, r, w, lastCharWasSpace, s => do
    let c ← s.load r
    if isspace c then
      if lastCharWasSpace then normalizeLoop n (r + 1) w true s
      else
        let s ← s.store w 32
        normalizeLoop n (r + 1) (w + 1) true s
    else
      let s ← s.store w c
      normalizeLoop n (r + 1) (w + 1) false s

/-- `cmark_strbuf_normalize_whitespace` -/
def normalizeWhitespace (s : Strbuf) : Except BufferError Strbuf := do
  let (w, s) ← normalizeLoop s.size 0 0 false s
  s.truncate w

/-- The loop of `cmark_strbuf_unescape`; every turn moves `r`. -/
def unescapeLoop : Nat → Nat → Nat → Strbuf → Except BufferError (Nat × Strbuf)
  | 0, _, w, b => .ok (w, b)
  | fuel + 1, r, w, b =>
    if r < b.size then do
      let c ← b.load r
      let skips ← (if c == chr '\\' then do
          let d ← b.load (r + 1)
          return ispunct d
        else return false)
      let r := if skips then r + 1 else r
      let c ← b.load r
      let b ← b.store w c
      unescapeLoop fuel (r + 1) (w + 1) b
    else .ok (w, b)

/-- `cmark_strbuf_unescape` -/
def unescape (b : Strbuf) : Except BufferError Strbuf := do
  let (w, b) ← unescapeLoop b.size 0 0 b
  b.truncate w

end Strbuf

/-! ### Operations -/

/-- An operation on one buffer. -/
inductive StrbufOp where
  | grow (targetSize : Int)
  | clear
  | free
  | set (data : Strbuf.Data) (len : Int)
  | sets (string : Option Bytes)
  | putc (c : Int)
  | put (data : Bytes) (len : Int)
  | puts (string : Bytes)
  | truncate (len : Int)
  | drop (n : Int)
  | trim
  | rtrim
  | normalizeWhitespace
  | unescape
  | detach
  deriving DecidableEq

def StrbufOp.run (junk : Junk) (b : Strbuf) : StrbufOp → Except BufferError Strbuf
  | .grow targetSize => b.grow junk targetSize
  | .clear => b.clear
  | .free => .ok .empty
  | .set data len => b.set junk data len
  | .sets string => b.sets junk string
  | .putc c => b.putc junk c
  | .put data len => b.put junk data len
  | .puts string => b.puts junk string
  | .truncate len => b.truncate len
  | .drop n => b.drop n
  | .trim => b.trim
  | .rtrim => b.rtrim
  | .normalizeWhitespace => b.normalizeWhitespace
  | .unescape => b.unescape
  | .detach => .ok b.detach.2

end CmarkGfm
