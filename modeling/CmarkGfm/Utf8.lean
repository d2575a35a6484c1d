import CmarkGfm.Bytes

/-! # utf8.c -/

namespace CmarkGfm

def utf8Class (c : UInt8) : Nat :=
  if c < 0x80 then 1
  else if c < 0xC0 then 0
  else if c < 0xE0 then 2
  else if c < 0xF0 then 3
  else if c < 0xF8 then 4
  else 0

/-- The bytes of U+FFFD. -/
def encodeUnknown : Bytes := [239, 191, 189]

def isContinuation (c : UInt8) : Bool := c &&& 0xC0 == 0x80

/-- `utf8proc_charlen`; `none` for its negative results. -/
def utf8Charlen (str : Bytes) : Option Nat :=
  match str with
  | [] => some 0
  | c :: _ =>
    let length := utf8Class c
    if length == 0 then none
    else if str.length < length then none
    else if ((str.take length).drop 1).all isContinuation then some length
    else none

/-- `utf8proc_valid` on a non-empty string: the length of the first character, or in
`error` the number of bytes to skip. -/
def utf8Valid (str : Bytes) : Except Nat Nat :=
  let s := byteAt str
  let length := utf8Class (s 0)
  if length == 0 then .error 1
  else if str.length < length then .error str.length
  else match length with
  | 2 =>
    if !isContinuation (s 1) then .error 1
    else if s 0 < 0xC2 then .error length
    else .ok length
  | 3 =>
    if !isContinuation (s 1) then .error 1
    else if !isContinuation (s 2) then .error 2
    else if s 0 == 0xE0 && s 1 < 0xA0 then .error length
    else if s 0 == 0xED && s 1 ≥ 0xA0 then .error length
    else .ok length
  | 4 =>
    if !isContinuation (s 1) then .error 1
    else if !isContinuation (s 2) then .error 2
    else if !isContinuation (s 3) then .error 3
    else if s 0 == 0xF0 && s 1 < 0x90 then .error length
    else if s 0 ≥ 0xF4 && (s 0 > 0xF4 || s 1 ≥ 0x90) then .error length
    else .ok length
  | _ => .ok length

/-- The loop of `cmark_utf8proc_check`, one character at a time. Every turn consumes a
byte, so the length of the line is fuel enough. -/
def utf8CheckFuel : Nat → Bytes → Bytes
  | 0, _ => []
  | _, [] => []
  | fuel + 1, c :: rest =>
    if c == 0 then encodeUnknown ++ utf8CheckFuel fuel rest
    else if c < 0x80 then c :: utf8CheckFuel fuel rest
    else match utf8Valid (c :: rest) with
    | .ok n => (c :: rest).take n ++ utf8CheckFuel fuel ((c :: rest).drop n)
    | .error n => encodeUnknown ++ utf8CheckFuel fuel ((c :: rest).drop n)

def utf8Check (line : Bytes) : Bytes := utf8CheckFuel line.length line

/-- `cmark_utf8proc_iterate`: code point and length of the first character. -/
def utf8Iterate (str : Bytes) : Option (Nat × Nat) :=
  let s := fun i => (byteAt str i).toNat
  match utf8Charlen str with
  | none => none
  | some length =>
    match length with
    | 1 => some (s 0, 1)
    | 2 =>
      let uc := (s 0 &&& 0x1F) <<< 6 + (s 1 &&& 0x3F)
      if uc < 0x80 then none else some (uc, 2)
    | 3 =>
      let uc := (s 0 &&& 0x0F) <<< 12 + (s 1 &&& 0x3F) <<< 6 + (s 2 &&& 0x3F)
      if uc < 0x800 || (uc ≥ 0xD800 && uc < 0xE000) then none else some (uc, 3)
    | 4 =>
      let uc := (s 0 &&& 0x07) <<< 18 + (s 1 &&& 0x3F) <<< 12 + (s 2 &&& 0x3F) <<< 6 +
        (s 3 &&& 0x3F)
      if uc < 0x10000 || uc ≥ 0x110000 then none else some (uc, 4)
    | _ => none

/-- `cmark_utf8proc_encode_char`. -/
def utf8EncodeChar (uc : Nat) : Bytes :=
  if uc < 0x80 then [UInt8.ofNat uc]
  else if uc < 0x800 then [UInt8.ofNat (0xC0 + uc >>> 6), UInt8.ofNat (0x80 + (uc &&& 0x3F))]
  else if uc == 0xFFFF then [0xFF]
  else if uc == 0xFFFE then [0xFE]
  else if uc < 0x10000 then
    [UInt8.ofNat (0xE0 + uc >>> 12), UInt8.ofNat (0x80 + (uc >>> 6 &&& 0x3F)),
      UInt8.ofNat (0x80 + (uc &&& 0x3F))]
  else if uc < 0x110000 then
    [UInt8.ofNat (0xF0 + uc >>> 18), UInt8.ofNat (0x80 + (uc >>> 12 &&& 0x3F)),
      UInt8.ofNat (0x80 + (uc >>> 6 &&& 0x3F)), UInt8.ofNat (0x80 + (uc &&& 0x3F))]
  else encodeUnknown

/-- Data of the generated files `case_fold_switch.inc` and `entities.inc`, and what is read behind the end of a text. -/
structure Tables where
  /-- The code points a `case` of the switch pushes, `none` for its default. -/
  caseFold : Nat → Option (List Nat)
  /-- `cmark_entities`: name and replacement. -/
  entities : List (Bytes × Bytes)
  /-- What stands in memory behind the text to which the literal of a node points, in a run with the options. -/
  memory (options id : Nat) : Nat → UInt8 := fun _ => 0

/-- The tables for documents in ASCII that name no entities. -/
def asciiTables : Tables where
  caseFold := fun c => if 65 ≤ c ∧ c ≤ 90 then some [c + 32] else none
  entities := []

def utf8CaseFoldFuel (T : Tables) : Nat → Bytes → Bytes
  | 0, _ => []
  | _, [] => []
  | fuel + 1, c :: rest =>
    match utf8Iterate (c :: rest) with
    | some (uc, n) =>
      ((T.caseFold uc).getD [uc]).flatMap utf8EncodeChar ++
        utf8CaseFoldFuel T fuel ((c :: rest).drop n)
    | none => encodeUnknown ++ utf8CaseFoldFuel T fuel rest

/-- `cmark_utf8proc_case_fold`. -/
def utf8CaseFold (T : Tables) (str : Bytes) : Bytes := utf8CaseFoldFuel T str.length str

/-- Anything in the Zs class, plus LF, CR, TAB, FF. -/
def utf8IsSpace (uc : Nat) : Bool :=
  uc == 9 || uc == 10 || uc == 12 || uc == 13 || uc == 32 || uc == 160 || uc == 5760 ||
    (uc ≥ 8192 && uc ≤ 8202) || uc == 8239 || uc == 8287 || uc == 12288

/-- The ranges `cmark_utf8proc_is_punctuation` tests beyond ASCII, in its order. -/
def punctuationRanges : List (Nat × Nat) :=
  [(161, 161), (167, 167), (171, 171), (182, 182), (183, 183), (187, 187), (191, 191), (894, 894),
    (903, 903), (1370, 1375), (1417, 1417), (1418, 1418), (1470, 1470), (1472, 1472),
    (1475, 1475), (1478, 1478), (1523, 1523), (1524, 1524), (1545, 1545), (1546, 1546),
    (1548, 1548), (1549, 1549), (1563, 1563), (1566, 1566), (1567, 1567), (1642, 1645),
    (1748, 1748), (1792, 1805), (2039, 2041), (2096, 2110), (2142, 2142), (2404, 2404),
    (2405, 2405), (2416, 2416), (2800, 2800), (3572, 3572), (3663, 3663), (3674, 3674),
    (3675, 3675), (3844, 3858), (3860, 3860), (3898, 3901), (3973, 3973), (4048, 4052),
    (4057, 4057), (4058, 4058), (4170, 4175), (4347, 4347), (4960, 4968), (5120, 5120),
    (5741, 5741), (5742, 5742), (5787, 5787), (5788, 5788), (5867, 5869), (5941, 5941),
    (5942, 5942), (6100, 6102), (6104, 6106), (6144, 6154), (6468, 6468), (6469, 6469),
    (6686, 6686), (6687, 6687), (6816, 6822), (6824, 6829), (7002, 7008), (7164, 7167),
    (7227, 7231), (7294, 7294), (7295, 7295), (7360, 7367), (7379, 7379), (8208, 8231),
    (8240, 8259), (8261, 8273), (8275, 8286), (8317, 8317), (8318, 8318), (8333, 8333),
    (8334, 8334), (8968, 8971), (9001, 9001), (9002, 9002), (10088, 10101), (10181, 10181),
    (10182, 10182), (10214, 10223), (10627, 10648), (10712, 10715), (10748, 10748),
    (10749, 10749), (11513, 11516), (11518, 11518), (11519, 11519), (11632, 11632),
    (11776, 11822), (11824, 11842), (12289, 12291), (12296, 12305), (12308, 12319),
    (12336, 12336), (12349, 12349), (12448, 12448), (12539, 12539), (42238, 42238),
    (42239, 42239), (42509, 42511), (42611, 42611), (42622, 42622), (42738, 42743),
    (43124, 43127), (43214, 43214), (43215, 43215), (43256, 43258), (43310, 43310),
    (43311, 43311), (43359, 43359), (43457, 43469), (43486, 43486), (43487, 43487),
    (43612, 43615), (43742, 43742), (43743, 43743), (43760, 43760), (43761, 43761),
    (44011, 44011), (64830, 64830), (64831, 64831), (65040, 65049), (65072, 65106),
    (65108, 65121), (65123, 65123), (65128, 65128), (65130, 65130), (65131, 65131),
    (65281, 65283), (65285, 65290), (65292, 65295), (65306, 65306), (65307, 65307),
    (65311, 65311), (65312, 65312), (65339, 65341), (65343, 65343), (65371, 65371),
    (65373, 65373), (65375, 65381), (65792, 65794), (66463, 66463), (66512, 66512),
    (66927, 66927), (67671, 67671), (67871, 67871), (67903, 67903), (68176, 68184),
    (68223, 68223), (68336, 68342), (68409, 68415), (68505, 68508), (69703, 69709),
    (69819, 69819), (69820, 69820), (69822, 69825), (69952, 69955), (70004, 70004),
    (70005, 70005), (70085, 70088), (70093, 70093), (70200, 70205), (70854, 70854),
    (71105, 71113), (71233, 71235), (74864, 74868), (92782, 92782), (92783, 92783),
    (92917, 92917), (92983, 92987), (92996, 92996), (113823, 113823)]

/-- Anything in the P[cdefios] classes. -/
def utf8IsPunctuation (uc : Nat) : Bool :=
  (uc < 128 && ispunct (UInt8.ofNat uc)) || punctuationRanges.any fun r => r.1 ≤ uc && uc ≤ r.2

end CmarkGfm
