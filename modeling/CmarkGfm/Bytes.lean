import Mathlib.Data.List.DropRight
import Mathlib.Data.UInt

/-!
# Bytes, character classes, chunks and string buffers

`cmark_ctype.c`, and the parts of `chunk.h` and `buffer.c` that act on contents. A
chunk or a buffer is its list of bytes; reading past the end gives the terminating
NUL, which is what the zero-terminated buffers of the source give at their size.
-/

namespace CmarkGfm

abbrev Bytes := List UInt8

-- a property of the bytes of a string is decided along the string, not by going through all bytes
instance (priority := 2000) (s : Bytes) (p : UInt8 → Prop) [DecidablePred p] :
    Decidable (∀ c ∈ s, p c) := List.decidableBAll p s

instance (priority := 2000) (s : Bytes) (p : UInt8 → Prop) [DecidablePred p] :
    Decidable (∃ c ∈ s, p c) := List.decidableBEx p s

/-- The bytes of a C character constant. -/
def chr (c : Char) : UInt8 := UInt8.ofNat c.toNat

/-- The bytes of a C string constant with characters below 128. -/
def lit (s : String) : Bytes := s.toList.map chr

/-- The digits of a number. -/
def decimal (n : Nat) : Bytes := (Nat.toDigits 10 n).map chr

/-- `data[i]`, with the terminator past the end. -/
def byteAt (data : Bytes) (i : Nat) : UInt8 := data.getD i 0

theorem drop_length_takeWhile {α : Type} (p : α → Bool) (l : List α) :
    l.drop (l.takeWhile p).length = l.dropWhile p := by
  induction l with
  | nil => rfl
  | cons a l ih =>
    cases holds : p a with
    | true => simpa [holds] using ih
    | false => simp [holds]

theorem rdropWhile_append_of_pos {α : Type} {p : α → Bool} {l m : List α} (all : ∀ a ∈ m, p a = true) :
    (l ++ m).rdropWhile p = l.rdropWhile p := by
  rw [List.rdropWhile, List.rdropWhile, List.reverse_append, List.dropWhile_append_of_pos]
  intro a member
  exact all a (List.mem_reverse.mp member)

/-! ### cmark_ctype.c -/

def isspace (c : UInt8) : Bool := c == 9 || c == 10 || c == 13 || c == 32

def ispunct (c : UInt8) : Bool :=
  (33 ≤ c && c ≤ 47) || (58 ≤ c && c ≤ 64) || (91 ≤ c && c ≤ 96) || (123 ≤ c && c ≤ 126)

def isdigit (c : UInt8) : Bool := 48 ≤ c && c ≤ 57

def isalpha (c : UInt8) : Bool := (65 ≤ c && c ≤ 90) || (97 ≤ c && c ≤ 122)

def isLineEndChar (c : UInt8) : Bool := c == 10 || c == 13

def isSpaceOrTab (c : UInt8) : Bool := c == 32 || c == 9

/-! ### chunk.h -/

def chunkLtrim (c : Bytes) : Bytes := c.dropWhile isspace

def chunkRtrim (c : Bytes) : Bytes := c.rdropWhile isspace

def chunkTrim (c : Bytes) : Bytes := chunkRtrim (chunkLtrim c)

def chunkDup (c : Bytes) (pos len : Nat) : Bytes := (c.drop pos).take len

/-! ### buffer.c -/

def strbufTrim (b : Bytes) : Bytes := chunkTrim b

/-- Remove backslashes before punctuation. -/
def strbufUnescape : Bytes → Bytes
  | [] => []
  | [c] => [c]
  | c :: d :: rest =>
    if c == chr '\\' && ispunct d then d :: strbufUnescape rest
    else c :: strbufUnescape (d :: rest)

/-- Collapse runs of whitespace into one space; the flag is `last_char_was_space`. -/
def normalizeWhitespaceFrom : Bool → Bytes → Bytes
  | _, [] => []
  | lastCharWasSpace, c :: rest =>
    if isspace c then
      if lastCharWasSpace then normalizeWhitespaceFrom true rest
      else 32 :: normalizeWhitespaceFrom true rest
    else c :: normalizeWhitespaceFrom false rest

def strbufNormalizeWhitespace (b : Bytes) : Bytes := normalizeWhitespaceFrom false b

/-- What a reader of a C string sees of a buffer. -/
def cstr (b : Bytes) : Bytes := b.takeWhile (· != 0)

end CmarkGfm
