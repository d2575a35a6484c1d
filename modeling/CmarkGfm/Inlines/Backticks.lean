import CmarkGfm.Inlines.Basic

/-! # Code spans (inlines.c) -/

namespace CmarkGfm

def maxBackticks : Nat := 80

def isbacktick (c : UInt8) : Bool := c == chr '`'

def isNonBacktick (c : UInt8) : Bool := c != 0 && c != chr '`'

/-- The first run of backticks at or after `pos`: its start and its end. -/
def nextBacktickRun (input : Bytes) (pos : Nat) : Option (Nat × Nat) :=
  let start := skipWhile isNonBacktick input pos
  if input.length ≤ start then none else some (start, skipWhile isbacktick input start)

/-- The loop of `scan_to_closing_backticks`: the position after the closing run, if any, and
the array of positions. Every turn passes a run, so the length of the content is fuel
enough. -/
def scanClosingRuns (input : Bytes) (openticklength : Nat) :
    Nat → Nat → (Nat → Nat) → Option Nat × (Nat → Nat)
  | 0, _, backticks => (none, backticks)
  | fuel + 1, pos, backticks =>
    match nextBacktickRun input pos with
    | none => (none, backticks)
    | some (start, stop) =>
      let numticks := stop - start
      -- store position of ender
      let backticks :=
        if numticks ≤ maxBackticks then Function.update backticks numticks start else backticks
      if numticks = openticklength then (some stop, backticks)
      else scanClosingRuns input openticklength fuel stop backticks

/-- `scan_to_closing_backticks`. The position in the subject is left to the caller, who sets
it in both cases. -/
def scanToClosingBackticks (subj : Subject) (openticklength : Nat) : Subject × Option Nat :=
  if openticklength > maxBackticks then (subj, none)
  else if subj.scannedForBackticks && subj.backticks openticklength ≤ subj.pos then (subj, none)
  else
    match scanClosingRuns subj.input openticklength (subj.input.length + 1) subj.pos
      subj.backticks with
    | (some endpos, backticks) => ({ subj with backticks := backticks }, some endpos)
    | (none, backticks) =>
      ({ subj with backticks := backticks, scannedForBackticks := true }, none)

/-- The loop of `S_normalize_code`: what it writes, and `contains_nonspace`. It reads back
`s->ptr[r]` after writing, which is the byte just written as long as nothing was dropped. -/
def normalizeCodeFrom : Bool → Bytes → Bytes × Bool
  | _, [] => ([], false)
  | dropped, c :: rest =>
    if c == 13 && rest.head? == some 10 then ((normalizeCodeFrom true rest).1, true)
    else
      let d := if c == 13 || c == 10 then 32 else c
      let (written, containsNonspace) := normalizeCodeFrom dropped rest
      (d :: written, (if dropped then c else d) != 32 || containsNonspace)

/-- `S_normalize_code`. -/
def normalizeCode (s : Bytes) : Bytes :=
  let (written, containsNonspace) := normalizeCodeFrom false s
  if containsNonspace && byteAt written 0 == 32 && byteAt written (written.length - 1) == 32 then
    (written.drop 1).take (written.length - 2)
  else written

/-- `handle_backticks`: a code span, or the opening backticks as text. -/
def handleBackticks (options : Options) (subj : Subject) : Subject × Node :=
  let initpos := subj.pos
  let startpos := skipWhile isbacktick subj.input initpos
  let openticks := startpos - initpos
  match scanToClosingBackticks { subj with pos := startpos } openticks with
  | (subj, none) =>
    subj.makeStrAt initpos ((initpos + openticks : Nat) - 1) initpos
      (chunkDup subj.input initpos openticks)
  | (subj, some endpos) =>
    let subj := { subj with pos := endpos }
    let code := normalizeCode (chunkDup subj.input startpos (endpos - startpos - openticks))
    let (subj, node) := subj.makeLiteral .code startpos ((endpos : Int) - openticks - 1) code
    subj.adjustNodeNewlines options
      (node.setData { node.data with backtickCount := openticks }) (endpos - startpos) openticks

end CmarkGfm
