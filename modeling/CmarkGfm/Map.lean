import CmarkGfm.Houdini
import CmarkGfm.Library.Search

/-!
# map.c and references.c

A map of definitions. `refs` is the linked list, newest entry first; `sorted` is the
table that the first lookup builds.
-/

namespace CmarkGfm

def maxLinkLabelLength : Nat := 1000

structure MapEntry (α : Type) where
  label : Bytes
  age : Nat
  size : Nat
  value : α
  deriving Inhabited

structure Map (α : Type) where
  refs : List (MapEntry α)
  sorted : Option (List (MapEntry α))
  size : Nat
  refSize : Nat
  maxRefSize : Nat

def uintMax : Nat := 2 ^ 32 - 1

/-- `cmark_map_new`. -/
def Map.new {α : Type} : Map α := ⟨[], none, 0, 0, uintMax⟩

/-- `normalize_map_label`: case fold, collapse and trim white space. -/
def normalizeMapLabel (T : Tables) (ref : Bytes) : Option Bytes :=
  if ref.length = 0 then none
  else
    let normalized := strbufNormalizeWhitespace (strbufTrim (utf8CaseFold T ref))
    let result := cstr normalized
    if result = [] then none else some result

/-- `strcmp` on strings given without their terminators. -/
def strcmp : Bytes → Bytes → Ordering
  | [], [] => .eq
  | [], _ :: _ => .lt
  | _ :: _, [] => .gt
  | a :: as, b :: bs => if a < b then .lt else if b < a then .gt else strcmp as bs

/-- Conversion to a 32-bit `int`. -/
def toInt (n : Nat) : Int := (n : Int).bmod (2 ^ 32)

section

variable {α : Type}

/-- `refcmp(r1, r2) <= 0`. -/
def refLe (r1 r2 : MapEntry α) : Bool :=
  match strcmp r1.label r2.label with
  | .lt => true
  | .gt => false
  | .eq => (toInt r1.age - toInt r2.age).bmod (2 ^ 32) ≤ 0

/-- The loop of `sort_map` that keeps the first entry of each label; `last` is the entry
kept last. -/
def dropDuplicates : MapEntry α → List (MapEntry α) → List (MapEntry α)
  | last, [] => [last]
  | last, r :: rest =>
    if strcmp r.label last.label != .eq then last :: dropDuplicates r rest
    else dropDuplicates last rest

/-- The table `sort_map` builds: sorted, without duplicates. -/
def sortedEntries (refs : List (MapEntry α)) : List (MapEntry α) :=
  match refs.insertionSort (fun a b => refLe a b) with
  | [] => []
  | first :: rest => dropDuplicates first rest

/-- `sort_map`. -/
def sortMap (map : Map α) : Map α :=
  let sorted := sortedEntries map.refs
  { map with sorted := some sorted, size := sorted.length - 1 + 1 }

/-- Subtraction of `size_t` values. -/
def sizeSub (a b : Nat) : Nat := if b ≤ a then a - b else a + 2 ^ 64 - b

/-- The table `cmark_map_lookup` searches: built by the first lookup. -/
def ensureSorted (map : Map α) : Map α :=
  match map.sorted with
  | some _ => map
  | none => sortMap map

/-- The end of `cmark_map_lookup`: search, check the expansion limit and charge. -/
def searchSorted (map : Map α) (norm : Bytes) : Map α × Option (MapEntry α) :=
  let map := ensureSorted map
  match Search.bsearch (fun ref => strcmp norm ref.label) (map.sorted.getD []) with
  | none => (map, none)
  | some r =>
    if r.size > sizeSub map.maxRefSize map.refSize then (map, none)
    else ({ map with refSize := map.refSize + r.size }, some r)

/-- `cmark_map_lookup`. -/
def mapLookup (T : Tables) (map : Map α) (label : Bytes) : Map α × Option (MapEntry α) :=
  if label.length < 1 || label.length > maxLinkLabelLength then (map, none)
  else if map.size = 0 then (map, none)
  else match normalizeMapLabel T label with
  | none => (map, none)
  | some norm => searchSorted map norm

/-- The common body of `cmark_reference_create`, `cmark_reference_create_attributes` and
`cmark_footnote_create`: prepend an entry unless the label normalizes to nothing. -/
def Map.create (T : Tables) (map : Map α) (label : Bytes) (size : Nat) (value : α) : Map α :=
  match normalizeMapLabel T label with
  | none => map
  | some reflabel =>
    { map with refs := ⟨reflabel, map.size, size, value⟩ :: map.refs, size := map.size + 1 }

end

/-! ### Cleaning of destinations and titles (inlines.c) -/

def cleanUrl (T : Tables) (url : Bytes) : Bytes :=
  let url := chunkTrim url
  if url.length = 0 then [] else strbufUnescape (unescapeHtml T url)

def cleanTitle (T : Tables) (title : Bytes) : Bytes :=
  if title.length = 0 then []
  else
    let first := byteAt title 0
    let last := byteAt title (title.length - 1)
    let quoted := (first == chr '\'' && last == chr '\'') || (first == chr '(' && last == chr ')') ||
      (first == chr '"' && last == chr '"')
    let inner := if quoted then chunkDup title 1 (title.length - 2) else title
    strbufUnescape (unescapeHtml T inner)

def cleanAttributes (T : Tables) (attributes : Bytes) : Bytes := cleanUrl T attributes

/-! ### references.c -/

structure Reference where
  isAttributesReference : Bool
  url : Bytes
  title : Bytes
  attributes : Bytes
  deriving DecidableEq, Inhabited

/-- `cmark_reference_create`. -/
def referenceCreate (T : Tables) (map : Map Reference) (label url title : Bytes) :
    Map Reference :=
  let url := cleanUrl T url
  let title := cleanTitle T title
  map.create T label (url.length + title.length) ⟨false, url, title, []⟩

/-- `cmark_reference_create_attributes`. It never writes `entry.size`, which stays the
zero of `calloc`. -/
def referenceCreateAttributes (T : Tables) (map : Map Reference) (label attributes : Bytes) :
    Map Reference :=
  map.create T label 0 ⟨true, [], [], cleanAttributes T attributes⟩

/-! ### footnotes.c -/

/-- `cmark_footnote_create`; footnotes have no size either. -/
def footnoteCreate (T : Tables) (map : Map Nat) (label : Bytes) (node : Nat) : Map Nat :=
  map.create T label 0 node

end CmarkGfm
