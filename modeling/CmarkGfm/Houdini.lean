import CmarkGfm.Utf8

/-! # houdini_html_u.c -/

namespace CmarkGfm

/-- `strncmp(s, name, s.length)`, where `name` ends with a NUL. -/
def strncmp : Bytes → Bytes → Ordering
  | [], _ => .eq
  | c :: s, name =>
    let d := byteAt name 0
    if c < d then .lt
    else if d < c then .gt
    else if c == 0 then .eq
    else strncmp s name.tail

/-- `S_lookup`. The interval shrinks in every call, so the number of entities is fuel
enough. -/
def lookupEntityFrom (entities : List (Bytes × Bytes)) (s : Bytes) :
    Nat → Nat → Nat → Nat → Option Bytes
  | 0, _, _, _ => none
  | fuel + 1, i, low, hi =>
    match entities[i]? with
    | none => none
    | some (name, bytes) =>
      let cmp := strncmp s name
      if cmp == .eq && byteAt name s.length == 0 then some bytes
      else if cmp != .gt && i > low then
        let j := i - (i - low) / 2
        lookupEntityFrom entities s fuel (if j == i then j - 1 else j) low (i - 1)
      else if cmp == .gt && i < hi then
        let j := i + (hi - i) / 2
        lookupEntityFrom entities s fuel (if j == i then j + 1 else j) (i + 1) hi
      else none

/-- `S_lookup_entity`. -/
def lookupEntity (T : Tables) (s : Bytes) : Option Bytes :=
  let n := T.entities.length
  lookupEntityFrom T.entities s n (n / 2) 0 (n - 1)

/-- `_isxdigit`: `strchr` finds NUL as well, at the end of the digits. -/
def isxdigit (c : UInt8) : Bool :=
  isdigit c || (65 ≤ c && c ≤ 70) || (97 ≤ c && c ≤ 102) || c == 0

/-- Value and number of the digits at the start of a string, the value cut off at
0x110000 so that it cannot overflow. -/
def scanDigits (isDigit : UInt8 → Bool) (base : Nat) (value : UInt8 → Nat) :
    Bytes → Nat → Nat → Nat × Nat
  | [], codepoint, numDigits => (codepoint, numDigits)
  | c :: rest, codepoint, numDigits =>
    if isDigit c then
      scanDigits isDigit base value rest (min (codepoint * base + value c) 0x110000) (numDigits + 1)
    else (codepoint, numDigits)

/-- The loop over named entities: `i` is the position of `rest` in `src`. -/
def unescapeNamed (T : Tables) (src : Bytes) : Bytes → Nat → Option (Bytes × Nat)
  | [], _ => none
  | c :: rest, i =>
    if c == chr ' ' then none
    else if c == chr ';' then
      (lookupEntity T (src.take i)).map fun entity => (entity, i + 1)
    else unescapeNamed T src rest (i + 1)

/-- `houdini_unescape_ent` after the ampersand: what it appends and consumes. -/
def unescapeEnt (T : Tables) (src : Bytes) : Option (Bytes × Nat) :=
  if src.length ≥ 3 && byteAt src 0 == chr '#' then
    let c := byteAt src 1
    let (codepoint, numDigits, i) :=
      if isdigit c then
        let (cp, n) := scanDigits isdigit 10 (fun d => d.toNat - 48) (src.drop 1) 0 0
        (cp, n, n + 1)
      else if c == chr 'x' || c == chr 'X' then
        let (cp, n) := scanDigits isxdigit 16 (fun d => (d.toNat ||| 32) % 39 - 9) (src.drop 2) 0 0
        (cp, n, n + 2)
      else (0, 0, 0)
    if 1 ≤ numDigits && numDigits ≤ 8 && i < src.length && byteAt src i == chr ';' then
      let codepoint :=
        if codepoint == 0 || (codepoint ≥ 0xD800 && codepoint < 0xE000) || codepoint ≥ 0x110000
        then 0xFFFD else codepoint
      some (utf8EncodeChar codepoint, i + 1)
    else none
  else
    -- CMARK_ENTITY_MIN_LENGTH is 2 and CMARK_ENTITY_MAX_LENGTH is 32
    let src := src.take 32
    unescapeNamed T src (src.drop 2) 2

/-- What `houdini_unescape_html_f` appends to its output. -/
def unescapeHtmlFuel (T : Tables) : Nat → Bytes → Bytes
  | 0, _ => []
  | _, [] => []
  | fuel + 1, c :: rest =>
    if c == chr '&' then
      match unescapeEnt T rest with
      | some (bytes, n) => bytes ++ unescapeHtmlFuel T fuel (rest.drop n)
      | none => c :: unescapeHtmlFuel T fuel rest
    else c :: unescapeHtmlFuel T fuel rest

def unescapeHtml (T : Tables) (src : Bytes) : Bytes := unescapeHtmlFuel T src.length src

/-- The loop of `houdini_unescape_html`: a run without ampersand is copied at once. -/
def unescapeRuns (T : Tables) : Nat → Bytes → Bytes
  | 0, _ => []
  | fuel + 1, src =>
    let run := src.takeWhile (· != chr '&')
    match src.dropWhile (· != chr '&') with
    | [] => run
    | _ :: rest =>
      run ++ match unescapeEnt T rest with
      | some (bytes, n) => bytes ++ unescapeRuns T fuel (rest.drop n)
      -- not really an entity
      | none => chr '&' :: unescapeRuns T fuel rest

/-- `houdini_unescape_html`, which writes nothing and returns 0 if there is no ampersand. -/
def houdiniUnescapeHtml (T : Tables) (src : Bytes) : Option Bytes :=
  if src ≠ [] ∧ src.all (· != chr '&') then none else some (unescapeRuns T (src.length + 1) src)

/-- `houdini_unescape_html_f` -/
def houdiniUnescapeHtmlF (T : Tables) (src : Bytes) : Bytes := (houdiniUnescapeHtml T src).getD src

end CmarkGfm
