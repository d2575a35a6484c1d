import Mathlib.Algebra.GroupWithZero.Nat
import Mathlib.Logic.Function.Basic
import CmarkGfm.Library.MarkedStack

/-!
# The arena allocator (arena.c)

A `size_t` has 64 bits; its values are natural numbers here, and every operation wraps. The memory that `calloc` hands
out is told apart by numbers, and a pointer is such a number with an offset. Where the source calls `abort`, the value
is `none`.
-/

namespace CmarkGfm

/-- The value of an expression of type `size_t`. -/
def toSize (n : Nat) : Nat := n % 2 ^ 64

/-- `struct arena_chunk`; `prev` is the next one of a list. -/
structure ArenaChunk where
  ptr : Nat
  sz : Nat
  used : Nat := 0
  pushPoint : Bool := false
  deriving DecidableEq

def ArenaChunk.setPushPoint (v : Bool) (c : ArenaChunk) : ArenaChunk := { c with pushPoint := v }

/-- A place in the memory of a chunk. -/
structure ArenaPtr where
  base : Nat
  offset : Nat
  deriving DecidableEq

/-- The bytes of what `calloc` has handed out. -/
abbrev ArenaMemory := Nat → Nat → UInt8

namespace ArenaMemory

/-- `*((size_t *) ptr) = v`, with the lowest byte first. -/
def writeSize (memory : ArenaMemory) (p : ArenaPtr) (v : Nat) : ArenaMemory := fun base k =>
  if base = p.base ∧ p.offset ≤ k ∧ k < p.offset + 8 then UInt8.ofNat (v / 256 ^ (k - p.offset)) else memory base k

/-- `*((size_t *) ptr)` -/
def readSize (memory : ArenaMemory) (p : ArenaPtr) : Nat :=
  ((List.range 8).map fun k => (memory p.base (p.offset + k)).toNat * 256 ^ k).sum

/-- `memcpy` -/
def memcpy (memory : ArenaMemory) (dst src : ArenaPtr) (n : Nat) : ArenaMemory := fun base k =>
  if base = dst.base ∧ dst.offset ≤ k ∧ k < dst.offset + n then memory src.base (src.offset + (k - dst.offset))
  else memory base k

/-- A store to one byte. -/
def writeByte (memory : ArenaMemory) (p : ArenaPtr) (v : UInt8) : ArenaMemory := fun base k =>
  if base = p.base ∧ k = p.offset then v else memory base k

end ArenaMemory

/-- The list `A`, what is in memory, and the number of the memory that `calloc` hands out next. -/
structure Arena where
  chunks : List ArenaChunk := []
  memory : ArenaMemory := fun _ _ => 0
  fresh : Nat := 0

namespace Arena

/-- `alloc_arena_chunk`. No object has more than `PTRDIFF_MAX` bytes. -/
def allocArenaChunk (a : Arena) (sz : Nat) : Option (ArenaChunk × Arena) :=
  if sz < 2 ^ 63 then
    some ({ ptr := a.fresh, sz := sz },
      { a with memory := Function.update a.memory a.fresh fun _ => 0, fresh := a.fresh + 1 })
  else none

/-- `cmark_arena_push` -/
def push (a : Arena) : Option Arena :=
  match a.chunks with
  | [] => some a
  | head :: rest => do
    let (c, a) ← a.allocArenaChunk 10240
    some { a with chunks := c :: head.setPushPoint true :: rest }

/-- `cmark_arena_pop`: the arena, and the value that is returned. -/
def pop (a : Arena) : Arena × Bool :=
  ({ a with chunks := MarkedStack.close ArenaChunk.pushPoint (ArenaChunk.setPushPoint false) a.chunks },
    !a.chunks.isEmpty)

/-- `init_arena` -/
def initArena (a : Arena) : Option Arena := do
  let (c, a) ← a.allocArenaChunk (4 * 1048576)
  some { a with chunks := [c] }

/-- `if (!A) init_arena()` -/
def ensure (a : Arena) : Option Arena := if a.chunks.isEmpty then a.initArena else some a

/-- `cmark_arena_reset` -/
def reset (a : Arena) : Arena := { a with chunks := [] }

/-- The number of bytes that `arena_calloc` takes from a chunk. -/
def allocationSize (nmem size : Nat) : Nat :=
  let sz := toSize (toSize (nmem * size) + 8)
  -- Round allocation sizes to largest integer size
  toSize (sz + 7) / 8 * 8

/-- The end of `arena_calloc`: take the bytes from the chunk, which stands at its place among the others. -/
def take (a : Arena) (before : List ArenaChunk) (chunk : ArenaChunk) (behind : List ArenaChunk) (sz : Nat) :
    ArenaPtr × Arena :=
  (⟨chunk.ptr, chunk.used + 8⟩,
    { a with
      chunks := before ++ { chunk with used := toSize (chunk.used + sz) } :: behind
      memory := a.memory.writeSize ⟨chunk.ptr, chunk.used⟩ (toSize (sz + 2 ^ 64 - 8)) })

/-- `arena_calloc` -/
def calloc (a : Arena) (nmem size : Nat) : Option (ArenaPtr × Arena) := do
  let a ← a.ensure
  let sz := allocationSize nmem size
  match a.chunks with
  | [] => none
  | head :: rest =>
    if sz > head.sz then do
      let (chunk, a) ← a.allocArenaChunk sz
      some (a.take [head] chunk rest sz)
    else if sz > toSize (head.sz + 2 ^ 64 - head.used) then do
      let (chunk, a) ← a.allocArenaChunk (toSize (head.sz + head.sz / 2))
      some (a.take [] chunk (head :: rest) sz)
    else some (a.take [] head rest sz)

/-- `arena_realloc` -/
def realloc (a : Arena) (ptr : Option ArenaPtr) (size : Nat) : Option (ArenaPtr × Arena) := do
  let a ← a.ensure
  let (newPtr, a) ← a.calloc 1 size
  match ptr with
  | none => some (newPtr, a)
  | some ptr =>
    let len := a.memory.readSize ⟨ptr.base, ptr.offset - 8⟩
    some (newPtr, { a with memory := a.memory.memcpy newPtr ptr len })

end Arena

/-! ### Who uses an arena -/

/-- A pointer that was handed out, and how many bytes were asked for. -/
structure ArenaBlock where
  ptr : ArenaPtr
  size : Nat
  deriving DecidableEq

/-- The arena, and the blocks that are in use: those from each push on that has not been popped, the last push first,
and at the end those from before every push. -/
structure ArenaUse where
  arena : Arena := {}
  scopes : List (List ArenaBlock) := [[]]

inductive ArenaCall where
  | calloc (nmem size : Nat)
  | realloc (block : Option ArenaBlock) (size : Nat)
  | write (block : ArenaBlock) (i : Nat) (v : UInt8)
  | push
  | pop
  | reset

namespace ArenaUse

/-- The blocks in use. -/
def live (s : ArenaUse) : List ArenaBlock := s.scopes.flatten

/-- A byte of a block. -/
def byte (s : ArenaUse) (b : ArenaBlock) (i : Nat) : UInt8 := s.arena.memory b.ptr.base (b.ptr.offset + i)

/-- The block belongs to the last push. -/
def hold (s : ArenaUse) (a : Arena) (b : ArenaBlock) : ArenaUse where
  arena := a
  scopes := s.scopes.modifyHead (b :: ·)

/-- A call, or a store to a byte of a block. -/
def step (s : ArenaUse) : ArenaCall → Option ArenaUse
  | .calloc nmem size => do
    let (ptr, a) ← s.arena.calloc nmem size
    some (s.hold a ⟨ptr, nmem * size⟩)
  | .realloc block size => do
    let (ptr, a) ← s.arena.realloc (block.map (·.ptr)) size
    some (s.hold a ⟨ptr, size⟩)
  | .write block i v =>
    some { s with
      arena := { s.arena with memory := s.arena.memory.writeByte ⟨block.ptr.base, block.ptr.offset + i⟩ v } }
  | .push => do
    let a ← s.arena.push
    some ⟨a, [] :: s.scopes⟩
  | .pop => some ⟨s.arena.pop.1, s.scopes.tail⟩
  | .reset => some ⟨s.arena.reset, s.scopes.map fun _ => []⟩

/-- What a caller may do: ask for a size that does not overflow with the header and the rounding, make a block in use
not smaller, write to one, and pop what was pushed. -/
def Allowed (s : ArenaUse) : ArenaCall → Prop
  | .calloc nmem size => nmem * size + 8 + 7 < 2 ^ 64
  | .realloc block size => (∀ b ∈ block, b ∈ s.live ∧ b.size ≤ size) ∧ size + 8 + 7 < 2 ^ 64
  | .write block i _ => block ∈ s.live ∧ i < block.size
  | .pop => 1 < s.scopes.length
  | .push | .reset => True

/-- The states after any calls that a caller may make, from an empty arena on. -/
inductive Reachable : ArenaUse → Prop
  | start : Reachable {}
  | step {s s' : ArenaUse} {call : ArenaCall} : Reachable s → s.Allowed call → s.step call = some s' → Reachable s'

end ArenaUse

end CmarkGfm
