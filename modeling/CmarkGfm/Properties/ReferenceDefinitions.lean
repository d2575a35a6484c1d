import CmarkGfm.Properties.BlockTree
import CmarkGfm.Properties.LinkDestinations
import CmarkGfm.Properties.Progress

/-!
# Reference definitions

The label, the destination and the title that are recorded are slices of the content, and a
definition takes the lines in which they are, except for a title that is given up: it stays
recorded.
-/

namespace CmarkGfm

/-! ### What is recorded -/

/-- A slice of the content, as `cmark_chunk` has it. -/
structure Slice where
  start : Nat
  length : Nat
  deriving DecidableEq

namespace Slice

def bytes (s : Slice) (input : Bytes) : Bytes := chunkDup input s.start s.length

/-- The slice lies in the first `n` bytes. -/
def Within (s : Slice) (n : Nat) : Prop := s.start + s.length ≤ n

/-- `cmark_chunk_trim`, as it moves the slice. -/
def trim (s : Slice) (input : Bytes) : Slice where
  start := s.start + ((s.bytes input).takeWhile isspace).length
  length := (chunkTrim (s.bytes input)).length

section

variable {s : Slice} {input : Bytes} {n : Nat}

theorem trim_fits : (s.trim input).start + (s.trim input).length ≤ s.start + (s.bytes input).length := by
  have shorter : (chunkTrim (s.bytes input)).length ≤ (chunkLtrim (s.bytes input)).length :=
    (List.rdropWhile_prefix isspace _).length_le
  have split := congrArg List.length (List.takeWhile_append_dropWhile (p := isspace) (l := s.bytes input))
  rw [List.length_append] at split
  unfold trim
  unfold chunkLtrim at shorter
  dsimp only
  omega

theorem length_bytes_le : (s.bytes input).length ≤ s.length := List.length_take_le _ _

theorem Within.trim (within : s.Within n) : (s.trim input).Within n :=
  trim_fits.trans ((Nat.add_le_add_left length_bytes_le _).trans within)

/-- What a trimmed slice holds. -/
theorem bytes_trim : (s.trim input).bytes input = chunkTrim (s.bytes input) := by
  have front : chunkLtrim (s.bytes input) =
      (input.drop (s.trim input).start).take
        (s.length - ((s.bytes input).takeWhile isspace).length) := by
    rw [chunkLtrim, ← drop_length_takeWhile]
    conv_lhs => rw [bytes, chunkDup, List.drop_take, List.drop_drop]
    rfl
  have back : chunkTrim (s.bytes input) =
      (chunkLtrim (s.bytes input)).take (chunkTrim (s.bytes input)).length :=
    List.prefix_iff_eq_take.mp (List.rdropWhile_prefix isspace _)
  have shorter : (chunkTrim (s.bytes input)).length ≤ (chunkLtrim (s.bytes input)).length :=
    (List.rdropWhile_prefix isspace _).length_le
  rw [front, List.length_take] at shorter
  rw [front, List.take_take, Nat.min_eq_left (by omega)] at back
  exact back.symm

end

end Slice

/-- The label between the bracket at `pos` and the one in front of `stop`. -/
def labelSlice (input : Bytes) (pos stop : Nat) : Slice :=
  Slice.trim ⟨pos + 1, stop - pos - 2⟩ input

/-- A destination of `n` bytes, without its pointy braces. -/
def urlSlice (input : Bytes) (pos n : Nat) : Slice :=
  if byteAt input pos == chr '<' then ⟨pos + 1, n - 2⟩ else ⟨pos, n⟩

/-- What `cmark_parse_reference_inline` records, and the position behind it. -/
structure LinkDefinition where
  label : Slice
  url : Slice
  title : Slice
  stop : Nat
  deriving DecidableEq

/-- What `cmark_parse_reference_attributes_inline` records, and the position behind it. -/
structure AttributesDefinition where
  label : Slice
  attributes : Slice
  stop : Nat

/-- The length of the optional title behind a destination, or 0. -/
def titleLength (input : Bytes) (beforetitle : Nat) : Nat :=
  let starttitle := spnl input beforetitle
  if starttitle = beforetitle then 0 else Scanners.scanAt Scanners.linkTitle input starttitle

/-- The optional title. Where there is none, an empty slice stands for the empty literal. -/
def titleSlice (input : Bytes) (beforetitle : Nat) : Slice :=
  if titleLength input beforetitle > 0 then
    ⟨spnl input beforetitle, titleLength input beforetitle⟩
  else ⟨beforetitle, 0⟩

/-- The position behind the final spaces and the line end. -/
def finalLineEnd (input : Bytes) (pos : Nat) : Option Nat :=
  skipLineEnd input (skipSpaces input pos)

/-- The position behind the optional title, or behind the destination if the title is given up. -/
def definitionStop (input : Bytes) (beforetitle : Nat) : Option Nat :=
  let title := titleSlice input beforetitle
  match finalLineEnd input (title.start + title.length) with
  | some pos => some pos
  | none => if title.length > 0 then finalLineEnd input beforetitle else none

/-- `cmark_parse_reference_inline` up to the creation of the reference. -/
def linkDefinition (input : Bytes) : Option LinkDefinition :=
  match linkLabel input 0 false with
  | none => none
  | some (afterLabel, lab) =>
    if lab.length = 0 || byteAt input afterLabel != chr ':' then none
    else
      let starturl := spnl input (afterLabel + 1)
      match manualScanLinkUrl input starturl with
      | none => none
      | some (matchlen, _) =>
        let beforetitle := starturl + matchlen
        (definitionStop input beforetitle).map
          (.mk (labelSlice input 0 afterLabel) (urlSlice input starturl matchlen)
            (titleSlice input beforetitle))

/-- `cmark_parse_reference_attributes_inline` up to the creation of the reference. -/
def attributesDefinition (input : Bytes) : Option AttributesDefinition :=
  match linkLabel input 0 true with
  | none => none
  | some (afterLabel, lab) =>
    if lab.length = 0 || byteAt input afterLabel != chr ':' then none
    else
      let startpos := spnl input (afterLabel + 1)
      let stop := skipWhile (fun c => c != 0 && !isLineEndChar c) input startpos
      if stop = startpos then none
      else
        (skipLineEnd input (skipSpaces input stop)).map
          (.mk (labelSlice input 1 afterLabel) ⟨startpos, stop - startpos⟩)

def LinkDefinition.create (T : Tables) (d : LinkDefinition) (input : Bytes)
    (refmap : Map Reference) : Map Reference :=
  referenceCreate T refmap (d.label.bytes input) (d.url.bytes input) (d.title.bytes input)

def AttributesDefinition.create (T : Tables) (d : AttributesDefinition) (input : Bytes)
    (refmap : Map Reference) : Map Reference :=
  referenceCreateAttributes T refmap (d.label.bytes input) (d.attributes.bytes input)

section

variable {input lab url : Bytes} {pos stop n : Nat}

/-- The label and the brackets around it. -/
theorem linkLabel_slice {parseAttributeLabel : Bool}
    (found : linkLabel input pos parseAttributeLabel = some (stop, lab)) :
    lab = (labelSlice input (if parseAttributeLabel then pos + 1 else pos) stop).bytes input ∧
      (labelSlice input (if parseAttributeLabel then pos + 1 else pos) stop).Within stop ∧
      0 < stop ∧ stop ≤ input.length := by
  unfold linkLabel at found
  extract_lets start at found
  obtain ⟨_, found⟩ := Option.ite_none_left_eq_some.mp found
  obtain ⟨_, found⟩ := Option.ite_none_left_eq_some.mp found
  obtain ⟨length, scanned, same⟩ := Option.map_eq_some_iff.mp found
  obtain ⟨rfl, rfl⟩ := Prod.mk.inj same
  have bound := linkLabelLoop_le scanned
  rw [List.length_drop] at bound
  have inner : start + 1 + length + 1 - start - 2 = length := by omega
  refine ⟨?_, ?_, by omega, by omega⟩
  · show _ = (labelSlice input start _).bytes input
    rw [labelSlice, inner, Slice.bytes_trim]
    rfl
  · show (labelSlice input start _).Within _
    rw [labelSlice, inner]
    apply Slice.Within.trim
    show start + 1 + length ≤ start + 1 + length + 1
    omega

/-- The destination and the braces around it. -/
theorem manualScanLinkUrl_slice (found : manualScanLinkUrl input pos = some (n, url)) :
    url = (urlSlice input pos n).bytes input ∧ (urlSlice input pos n).Within (pos + n) ∧
      pos + n ≤ input.length := by
  unfold urlSlice
  by_cases brace : byteAt input pos = chr '<'
  · obtain ⟨s, more, eq, _, body, rfl, rfl⟩ :=
      (manualScanLinkUrl_pointy (head?_drop_eq_brace.mpr brace)).mp found
    have positive := List.length_pos_of_ne_nil body.ne_nil
    have lengths := congrArg List.length eq
    rw [List.length_cons, List.length_append, List.length_drop] at lengths
    rw [if_pos (by simpa using brace)]
    refine ⟨rfl, ?_, by omega⟩
    show pos + 1 + (s.length + 1 - 2) ≤ pos + (s.length + 1)
    omega
  · obtain ⟨s, stop, more, e, eq, rfl, _, _, rfl⟩ :=
      (manualScanLinkUrl_bare (mt head?_drop_eq_brace.mp brace)).mp found
    have lengths := congrArg List.length eq
    rw [List.length_append, List.length_cons, List.length_drop] at lengths
    rw [if_neg (by simpa using brace)]
    exact ⟨rfl, le_rfl, by omega⟩

theorem spnl_within (inside : pos ≤ input.length) :
    pos ≤ spnl input pos ∧ spnl input pos ≤ input.length := by
  have skipped : pos ≤ skipSpaces input pos := le_skipWhile _ _ _
  have bound : skipSpaces input pos ≤ input.length := skipWhile_le_length _ _ _ inside
  unfold spnl
  dsimp only
  split
  next after passed =>
    obtain ⟨further, bound'⟩ := le_of_skipLineEnd bound passed
    exact ⟨skipped.trans (further.trans (le_skipWhile _ _ _)), skipWhile_le_length _ _ _ bound'⟩
  next => exact ⟨skipped, bound⟩

/-! ### The end of a definition -/

theorem titleSlice_titled {before : Nat} (titled : 0 < titleLength input before) :
    titleSlice input before = ⟨spnl input before, titleLength input before⟩ := if_pos titled

theorem titleSlice_untitled {before : Nat} (untitled : titleLength input before = 0) :
    titleSlice input before = ⟨before, 0⟩ := if_neg (by omega)

theorem definitionStop_titled {before : Nat} (titled : 0 < titleLength input before) :
    definitionStop input before =
      (finalLineEnd input (spnl input before + titleLength input before)).or
        (finalLineEnd input before) := by
  unfold definitionStop
  rw [titleSlice_titled titled]
  dsimp only
  rw [if_pos titled]
  cases finalLineEnd input (spnl input before + titleLength input before) <;> rfl

theorem definitionStop_untitled {before : Nat} (untitled : titleLength input before = 0) :
    definitionStop input before = finalLineEnd input before := by
  unfold definitionStop
  rw [titleSlice_untitled untitled]
  show (match finalLineEnd input before with | some pos => some pos | none => none) = _
  cases finalLineEnd input before <;> rfl

/-! ### Recording -/

/-- The parser creates the reference from what is recorded. -/
theorem parseReferenceInline_eq (T : Tables) (input : Bytes) (refmap : Map Reference) :
    parseReferenceInline T input refmap =
      (linkDefinition input).map fun d => (d.stop, d.create T input refmap) := by
  unfold parseReferenceInline linkDefinition
  cases label : linkLabel input 0 false with
  | none => rfl
  | some r =>
    obtain ⟨afterLabel, lab⟩ := r
    dsimp only
    split
    next => rfl
    next =>
      cases scanned : manualScanLinkUrl input (spnl input (afterLabel + 1)) with
      | none => rfl
      | some r =>
        obtain ⟨matchlen, url⟩ := r
        dsimp only
        rw [(linkLabel_slice label).1, (manualScanLinkUrl_slice scanned).1]
        generalize spnl input (afterLabel + 1) + matchlen = before
        rw [show (if spnl input before = before then 0 else
          Scanners.scanAt Scanners.linkTitle input (spnl input before)) =
            titleLength input before from rfl]
        by_cases titled : titleLength input before > 0
        · rw [definitionStop_titled titled, titleSlice_titled titled, if_pos titled, if_pos titled]
          unfold finalLineEnd
          cases skipLineEnd input (skipSpaces input
            (spnl input before + titleLength input before)) with
          | none => cases skipLineEnd input (skipSpaces input before) <;> rfl
          | some stop => rfl
        · have untitled := Nat.eq_zero_of_not_pos titled
          rw [definitionStop_untitled untitled, titleSlice_untitled untitled, if_neg titled,
            if_neg titled, untitled]
          unfold finalLineEnd
          cases skipLineEnd input (skipSpaces input before) <;> rfl

theorem parseReferenceAttributesInline_eq (T : Tables) (input : Bytes) (refmap : Map Reference) :
    parseReferenceAttributesInline T input refmap =
      (attributesDefinition input).map fun d => (d.stop, d.create T input refmap) := by
  unfold parseReferenceAttributesInline attributesDefinition
  cases label : linkLabel input 0 true with
  | none => rfl
  | some r =>
    obtain ⟨afterLabel, lab⟩ := r
    dsimp only
    split
    next => rfl
    next =>
      split
      next => rfl
      next =>
        rw [(linkLabel_slice label).1, Option.map_map]
        rfl

end

/-! ### What a definition takes -/

/-- A position at the end, or behind a whole line ending. -/
def EndsLine (input : Bytes) (n : Nat) : Prop :=
  n = input.length ∨
    (0 < n ∧ isLineEndChar (byteAt input (n - 1)) = true ∧
      ¬ (byteAt input (n - 1) = 13 ∧ byteAt input n = 10))

/-- The title is followed by something on its line, and the destination is the end of its line, so
the title is given up. -/
def GivesUpTitle (input : Bytes) (beforetitle : Nat) : Prop :=
  0 < titleLength input beforetitle ∧
    finalLineEnd input (spnl input beforetitle + titleLength input beforetitle) = none ∧
    finalLineEnd input beforetitle ≠ none

/-- A label, a colon and a destination, behind which a title is given up. -/
def RewindsTitle (input : Bytes) : Prop :=
  ∃ afterLabel lab matchlen url, linkLabel input 0 false = some (afterLabel, lab) ∧ lab ≠ [] ∧
    byteAt input afterLabel = chr ':' ∧
    manualScanLinkUrl input (spnl input (afterLabel + 1)) = some (matchlen, url) ∧
    GivesUpTitle input (spnl input (afterLabel + 1) + matchlen)

section

variable {input : Bytes} {pos stop n before : Nat}

theorem endsLine_skipLineEnd (inside : pos ≤ input.length)
    (passed : skipLineEnd input pos = some stop) : EndsLine input stop := by
  unfold skipLineEnd at passed
  extract_lets afterCr afterLf at passed
  obtain ⟨ends, same⟩ := Option.ite_none_right_eq_some.mp passed
  obtain rfl := Option.some.inj same
  by_cases newline : byteAt input afterCr = 10
  · have stop : afterLf = afterCr + 1 := if_pos (by simpa using newline)
    right
    rw [stop, Nat.add_sub_cancel, newline]
    exact ⟨Nat.succ_pos _, rfl, fun both => absurd both.1 (by decide)⟩
  · have stop : afterLf = afterCr := if_neg (by simpa using newline)
    rw [stop] at ends ⊢
    by_cases return_ : byteAt input pos = 13
    · have behind : afterCr = pos + 1 := if_pos (by simpa using return_)
      right
      rw [behind] at newline ⊢
      rw [Nat.add_sub_cancel, return_]
      exact ⟨Nat.succ_pos _, rfl, fun both => newline both.2⟩
    · have still : afterCr = pos := if_neg (by simpa using return_)
      left
      rw [still] at ends ⊢
      simp only [bne_self_eq_false, Bool.false_or, decide_eq_true_eq] at ends
      exact Nat.le_antisymm inside ends

theorem finalLineEnd_within (inside : pos ≤ input.length)
    (passed : finalLineEnd input pos = some stop) :
    pos ≤ stop ∧ stop ≤ input.length ∧ EndsLine input stop := by
  have bound : skipSpaces input pos ≤ input.length := skipWhile_le_length _ _ _ inside
  obtain ⟨further, within⟩ := le_of_skipLineEnd bound passed
  exact ⟨(le_skipWhile _ _ _).trans further, within, endsLine_skipLineEnd bound passed⟩

/-- A title that is given up starts behind the line end. -/
theorem le_spnl_of_finalLineEnd (passed : finalLineEnd input before = some stop) :
    stop ≤ spnl input before := by
  unfold spnl
  dsimp only
  rw [show skipLineEnd input (skipSpaces input before) = some stop from passed]
  exact le_skipWhile _ _ _

theorem titleLength_within (inside : before ≤ input.length) :
    spnl input before + titleLength input before ≤ input.length := by
  have bound := (spnl_within inside).2
  unfold titleLength
  dsimp only
  split
  next => exact bound
  next => exact add_scanAt_le _ bound

/-- Behind the destination a definition ends with a line, and the title lies in it unless it is
given up. -/
theorem definitionStop_within (inside : before ≤ input.length)
    (stops : definitionStop input before = some stop) :
    before ≤ stop ∧ stop ≤ input.length ∧ EndsLine input stop ∧
      ((titleSlice input before).Within stop ↔ ¬ GivesUpTitle input before) := by
  rcases Nat.eq_zero_or_pos (titleLength input before) with untitled | titled
  · rw [definitionStop_untitled untitled] at stops
    obtain ⟨further, within, ends⟩ := finalLineEnd_within inside stops
    refine ⟨further, within, ends, ?_⟩
    rw [titleSlice_untitled untitled]
    exact ⟨fun _ gives => absurd gives.1 (by omega), fun _ => further⟩
  · rw [definitionStop_titled titled] at stops
    rw [titleSlice_titled titled]
    have title := titleLength_within inside
    have starts := (spnl_within inside).1
    cases taken : finalLineEnd input (spnl input before + titleLength input before) with
    | some pos =>
      rw [taken] at stops
      cases stops
      obtain ⟨further, within, ends⟩ := finalLineEnd_within title taken
      refine ⟨by omega, within, ends, fun _ gives => ?_, fun _ => further⟩
      rw [gives.2.1] at taken
      cases taken
    | none =>
      rw [taken] at stops
      have rewound : finalLineEnd input before = some stop := stops
      obtain ⟨further, within, ends⟩ := finalLineEnd_within inside rewound
      have behind := le_spnl_of_finalLineEnd rewound
      refine ⟨further, within, ends, fun inTitle => ?_, fun kept => ?_⟩
      · have fits : spnl input before + titleLength input before ≤ stop := inTitle
        omega
      · exact absurd ⟨titled, taken, by rw [rewound]; exact Option.some_ne_none _⟩ kept

/-- What is recorded lies in what the definition takes, except for a title that is given up. -/
theorem linkDefinition_within {d : LinkDefinition} (found : linkDefinition input = some d) :
    0 < d.stop ∧ d.stop ≤ input.length ∧ EndsLine input d.stop ∧ d.label.Within d.stop ∧
      d.url.Within d.stop ∧ (d.title.Within d.stop ↔ ¬ RewindsTitle input) := by
  unfold linkDefinition at found
  split at found
  next => cases found
  next afterLabel lab label =>
    split at found
    next => cases found
    next here =>
      simp only [Bool.or_eq_true, decide_eq_true_eq, bne_iff_ne, ne_eq, not_or, Decidable.not_not,
        List.length_eq_zero_iff] at here
      extract_lets starturl at found
      split at found
      next => cases found
      next matchlen url scanned =>
        obtain ⟨stop, stops, rfl⟩ := Option.map_eq_some_iff.mp found
        obtain ⟨_, labelWithin, positive, _⟩ := linkLabel_slice label
        have colon := lt_length_of_byteAt_eq here.2 (by decide)
        have start := spnl_within (show afterLabel + 1 ≤ input.length from colon)
        obtain ⟨_, urlWithin, inside⟩ := manualScanLinkUrl_slice scanned
        obtain ⟨further, within, ends, titleWithin⟩ := definitionStop_within inside stops
        have labelEnds : afterLabel ≤ stop := by
          have skipped : afterLabel + 1 ≤ starturl := start.1
          omega
        refine ⟨by dsimp only; omega, within, ends, labelWithin.trans labelEnds,
          urlWithin.trans further, titleWithin.trans (not_congr ?_)⟩
        constructor
        · intro gives
          exact ⟨afterLabel, lab, matchlen, url, label, here.1, here.2, scanned, gives⟩
        · rintro ⟨_, _, _, _, label', _, _, scanned', gives⟩
          rw [label] at label'
          cases label'
          rw [show manualScanLinkUrl input (spnl input (afterLabel + 1)) = _ from scanned] at scanned'
          cases scanned'
          exact gives

theorem attributesDefinition_within {d : AttributesDefinition}
    (found : attributesDefinition input = some d) :
    0 < d.stop ∧ d.stop ≤ input.length ∧ EndsLine input d.stop ∧ d.label.Within d.stop ∧
      d.attributes.Within d.stop := by
  unfold attributesDefinition at found
  split at found
  next => cases found
  next afterLabel lab label =>
    split at found
    next => cases found
    next here =>
      simp only [Bool.or_eq_true, decide_eq_true_eq, bne_iff_ne, ne_eq, not_or, Decidable.not_not]
        at here
      extract_lets startpos stop at found
      obtain ⟨_, found⟩ := Option.ite_none_left_eq_some.mp found
      obtain ⟨pos, ended, rfl⟩ := Option.map_eq_some_iff.mp found
      obtain ⟨_, labelWithin, positive, _⟩ := linkLabel_slice label
      have colon := lt_length_of_byteAt_eq here.2 (by decide)
      obtain ⟨skipped, bound⟩ := spnl_within (show afterLabel + 1 ≤ input.length from colon)
      have read : startpos ≤ stop := le_skipWhile _ _ _
      have inside : stop ≤ input.length := skipWhile_le_length _ _ _ bound
      obtain ⟨further, within, ends⟩ := finalLineEnd_within inside ended
      have labelEnds : afterLabel ≤ pos := by
        have skipped : afterLabel + 1 ≤ startpos := skipped
        omega
      refine ⟨by dsimp only; omega, within, ends, labelWithin.trans labelEnds, ?_⟩
      show startpos + (stop - startpos) ≤ pos
      omega

end

/-! ### The definitions at the start of a paragraph -/

/-- One turn of the loop of `resolve_reference_link_definitions`. -/
def parseDefinition (T : Tables) (chunk : Bytes) (refmap : Map Reference) :
    Option (Nat × Map Reference) :=
  if byteAt chunk 0 == chr '[' then parseReferenceInline T chunk refmap
  else if byteAt chunk 0 == chr '^' && byteAt chunk 1 == chr '[' then
    parseReferenceAttributesInline T chunk refmap
  else none

/-- The definitions at the start are the first `k` bytes, and they make the second map of the
first. Where none is left, the map stays as it is. -/
inductive Resolves (T : Tables) : Bytes → Map Reference → Nat → Map Reference → Prop
  | done {chunk : Bytes} {refmap : Map Reference} : parseDefinition T chunk refmap = none →
      Resolves T chunk refmap 0 refmap
  | next {chunk : Bytes} {refmap refmap' refmap'' : Map Reference} {n k : Nat} :
      parseDefinition T chunk refmap = some (n, refmap') → 0 < n → n ≤ chunk.length →
      Resolves T (chunk.drop n) refmap' k refmap'' → Resolves T chunk refmap (n + k) refmap''

section

variable {T : Tables} {chunk : Bytes} {refmap refmap' : Map Reference} {n : Nat}

theorem parseDefinition_within (found : parseDefinition T chunk refmap = some (n, refmap')) :
    0 < n ∧ n ≤ chunk.length := by
  unfold parseDefinition at found
  split at found
  next =>
    rw [parseReferenceInline_eq] at found
    obtain ⟨d, recorded, same⟩ := Option.map_eq_some_iff.mp found
    obtain ⟨rfl, _⟩ := Prod.mk.inj same
    obtain ⟨positive, within, _⟩ := linkDefinition_within recorded
    exact ⟨positive, within⟩
  next =>
    obtain ⟨_, found⟩ := Option.ite_none_right_eq_some.mp found
    rw [parseReferenceAttributesInline_eq] at found
    obtain ⟨d, recorded, same⟩ := Option.map_eq_some_iff.mp found
    obtain ⟨rfl, _⟩ := Prod.mk.inj same
    obtain ⟨positive, within, _⟩ := attributesDefinition_within recorded
    exact ⟨positive, within⟩

theorem resolveReferences_succ (fuel : Nat) :
    resolveReferences T (fuel + 1) chunk refmap =
      match parseDefinition T chunk refmap with
      | some (pos, refmap) => resolveReferences T fuel (chunk.drop pos) refmap
      | none => (chunk, refmap) := rfl

/-- The loop ends, since every definition takes some of the content, and leaves what is behind the
definitions. -/
theorem resolves_resolveReferences {fuel : Nat} (enough : chunk.length ≤ fuel) :
    ∃ k ≤ chunk.length, (resolveReferences T fuel chunk refmap).1 = chunk.drop k ∧
      Resolves T chunk refmap k (resolveReferences T fuel chunk refmap).2 := by
  induction fuel generalizing chunk refmap with
  | zero =>
    obtain rfl := List.length_eq_zero_iff.mp (Nat.le_zero.mp enough)
    exact ⟨0, le_rfl, rfl, .done rfl⟩
  | succ fuel ih =>
    rw [resolveReferences_succ]
    cases found : parseDefinition T chunk refmap with
    | none => exact ⟨0, Nat.zero_le _, rfl, .done found⟩
    | some r =>
      obtain ⟨n, refmap'⟩ := r
      obtain ⟨positive, within⟩ := parseDefinition_within found
      have shorter : (chunk.drop n).length ≤ fuel := by
        rw [List.length_drop]
        omega
      obtain ⟨k, bound, rest, resolves⟩ := @ih _ refmap' shorter
      rw [List.length_drop] at bound
      refine ⟨n + k, by omega, ?_, .next found positive within resolves⟩
      rw [← List.drop_drop]
      exact rest

end

/-- What is recorded of the definitions of this content lies in what they take, they end with a
line, and the loop over them leaves the content behind them. -/
structure ConsumesRecorded (T : Tables) (input : Bytes) : Prop where
  link : ∀ refmap n refmap', parseReferenceInline T input refmap = some (n, refmap') →
    ∃ d, linkDefinition input = some d ∧ d.stop = n ∧ d.create T input refmap = refmap' ∧
      d.label.Within n ∧ d.url.Within n ∧ d.title.Within n ∧ n ≤ input.length ∧ EndsLine input n
  attributes : ∀ refmap n refmap', parseReferenceAttributesInline T input refmap = some (n, refmap') →
    ∃ d, attributesDefinition input = some d ∧ d.stop = n ∧ d.create T input refmap = refmap' ∧
      d.label.Within n ∧ d.attributes.Within n ∧ n ≤ input.length ∧ EndsLine input n
  resolves : ∀ p b, (p.dataOf b).content = input →
    ∃ k ≤ input.length,
      Resolves T input p.refmap k (resolveReferenceLinkDefinitions T b p).1.refmap ∧
      ((resolveReferenceLinkDefinitions T b p).1.dataOf b).content = input.drop k

section

variable {T : Tables} {input : Bytes}

theorem content_resolveReferenceLinkDefinitions (p : ParserState) (b : NodeId) :
    ((resolveReferenceLinkDefinitions T b p).1.dataOf b).content =
      (resolveReferences T (p.dataOf b).content.length (p.dataOf b).content p.refmap).1 := by
  have absent : p.nodes b = none →
      (resolveReferences T (p.dataOf b).content.length (p.dataOf b).content p.refmap).1 = [] := by
    intro block
    have empty : (p.dataOf b).content = [] := by
      rw [ParserState.dataOf, ParserState.block, block]
      rfl
    rw [empty]
    rfl
  unfold resolveReferenceLinkDefinitions
  dsimp only
  generalize resolveReferences T (p.dataOf b).content.length (p.dataOf b).content p.refmap = r
    at absent ⊢
  obtain ⟨rest, refmap⟩ := r
  show (((p.modifyData b fun d => { d with content := rest }).nodes b).getD
    default).data.content = rest
  rw [nodes_modifyData, if_pos rfl]
  cases block : p.nodes b with
  | none => exact (absent block).symm
  | some found => rfl

/-- Where a title is given up, a definition is recorded. -/
theorem linkDefinition_of_rewinds (rewinds : RewindsTitle input) :
    ∃ d, linkDefinition input = some d := by
  obtain ⟨afterLabel, lab, matchlen, url, label, nonempty, colon, scanned, titled, noLineEnd,
    rewound⟩ := rewinds
  have here : ¬ (decide (lab.length = 0) || byteAt input afterLabel != chr ':') = true := by
    simp [nonempty, colon]
  obtain ⟨stop, ends⟩ := Option.ne_none_iff_exists'.mp rewound
  refine ⟨⟨labelSlice input 0 afterLabel, urlSlice input (spnl input (afterLabel + 1)) matchlen,
    titleSlice input (spnl input (afterLabel + 1) + matchlen), stop⟩, ?_⟩
  unfold linkDefinition
  rw [label]
  dsimp only
  rw [if_neg here, scanned]
  dsimp only
  rw [definitionStop_titled titled, noLineEnd, ends]
  rfl

end

/-- The definitions of a content take what they record, unless a title is given up. -/
theorem consumesRecorded_iff (T : Tables) (input : Bytes) :
    ConsumesRecorded T input ↔ ¬ RewindsTitle input := by
  constructor
  · rintro ⟨link, _, _⟩ rewinds
    obtain ⟨d, recorded⟩ := linkDefinition_of_rewinds rewinds
    have parsed : parseReferenceInline T input .new = some (d.stop, d.create T input .new) := by
      rw [parseReferenceInline_eq, recorded]
      rfl
    obtain ⟨d', recorded', _, _, _, _, title, _⟩ := link _ _ _ parsed
    rw [recorded] at recorded'
    cases recorded'
    obtain ⟨_, _, _, _, _, within⟩ := linkDefinition_within recorded
    exact within.mp title rewinds
  · intro kept
    refine ⟨?_, ?_, ?_⟩
    · intro refmap n refmap' found
      rw [parseReferenceInline_eq] at found
      obtain ⟨d, recorded, same⟩ := Option.map_eq_some_iff.mp found
      obtain ⟨rfl, rfl⟩ := Prod.mk.inj same
      obtain ⟨_, within, ends, label, url, title⟩ := linkDefinition_within recorded
      exact ⟨d, recorded, rfl, rfl, label, url, title.mpr kept, within, ends⟩
    · intro refmap n refmap' found
      rw [parseReferenceAttributesInline_eq] at found
      obtain ⟨d, recorded, same⟩ := Option.map_eq_some_iff.mp found
      obtain ⟨rfl, rfl⟩ := Prod.mk.inj same
      obtain ⟨_, within, ends, label, attributes⟩ := attributesDefinition_within recorded
      exact ⟨d, recorded, rfl, rfl, label, attributes, within, ends⟩
    · rintro p b rfl
      obtain ⟨k, bound, rest, resolves⟩ :=
        @resolves_resolveReferences T _ p.refmap _ (le_refl (p.dataOf b).content.length)
      refine ⟨k, bound, resolves, ?_⟩
      rw [content_resolveReferenceLinkDefinitions, rest]

/-- What is left of the title's line is no title, but the title stays recorded. -/
theorem rewindsTitle_of_text :
    linkDefinition (lit "[a]: b\n\"title\" x\n") = some ⟨⟨1, 1⟩, ⟨5, 1⟩, ⟨7, 7⟩, 7⟩ ∧
      ∀ T, ¬ ConsumesRecorded T (lit "[a]: b\n\"title\" x\n") := by
  have recorded : linkDefinition (lit "[a]: b\n\"title\" x\n") =
      some ⟨⟨1, 1⟩, ⟨5, 1⟩, ⟨7, 7⟩, 7⟩ := by decide +kernel
  refine ⟨recorded, fun T consumes => ?_⟩
  have parsed := parseReferenceInline_eq T (lit "[a]: b\n\"title\" x\n") .new
  rw [recorded] at parsed
  obtain ⟨d, same, _, _, _, _, title, _⟩ := consumes.link _ _ _ parsed
  rw [recorded] at same
  cases same
  exact absurd title (by unfold Slice.Within; decide)

end CmarkGfm
