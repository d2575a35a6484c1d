import CmarkGfm.Properties.TableRows
import CmarkGfm.Properties.ManLines
import CmarkGfm.Properties.RenderedTrees
import CmarkGfm.Render.Tables

/-!
# What CommonMark writes within a line

Where lines are not broken, an inline without line breaks is written on the line that the renderer is in. In a
cell of a table, every pipe that comes from it is behind a backslash.
-/

namespace CmarkGfm

/-! ### In the middle of a line -/

namespace Renderer

/-- The bytes that are written. -/
def bytes (r : Renderer) : Bytes := r.buffer.map OutByte.byte

/-- The renderer is in the middle of a line, which is not going to be broken. -/
structure MidLine (r : Renderer) : Prop where
  width : r.width ≤ 0
  needCr : r.needCr = 0
  beginLine : r.beginLine = false
  beginContent : r.beginContent = false

/-- More is written, and the line goes on. -/
structure Wrote (r : Renderer) (w : Bytes) (r' : Renderer) : Prop where
  bytes : r'.bytes = r.bytes ++ w
  pref : r'.pref = r.pref
  midLine : r'.MidLine

variable {r r' r'' : Renderer} {u w : Bytes}

theorem MidLine.refl (mid : r.MidLine) : r.Wrote [] r := ⟨(List.append_nil _).symm, rfl, mid⟩

theorem Wrote.trans (first : r.Wrote u r') (second : r'.Wrote w r'') : r.Wrote (u ++ w) r'' :=
  ⟨by rw [second.bytes, first.bytes, List.append_assoc], second.pref.trans first.pref, second.midLine⟩

theorem bytes_put (origin : Origin) (s : Bytes) (r : Renderer) : (r.put origin s).bytes = r.bytes ++ s := by
  simp [bytes, put, Function.comp_def]

theorem bytes_renderCodePoint (c : Nat) (r : Renderer) :
    (r.renderCodePoint c).bytes = r.bytes ++ utf8EncodeChar c := bytes_put r.origin (utf8EncodeChar c) r

theorem bytes_renderAscii (s : Bytes) (r : Renderer) : (r.renderAscii s).bytes = r.bytes ++ s :=
  bytes_put r.origin s r

theorem MidLine.put (mid : r.MidLine) (origin : Origin) (s : Bytes) : r.Wrote s (r.put origin s) :=
  ⟨bytes_put origin s r, rfl, mid.1, mid.2, mid.3, mid.4⟩

theorem MidLine.startLine (mid : r.MidLine) : r.startLine = r := by
  rw [Renderer.startLine, if_neg (by simp [mid.beginLine])]

theorem MidLine.breaks (mid : r.MidLine) : r.breaks = false := by
  have narrow : ¬0 < r.width := Int.not_lt.mpr mid.width
  simp [Renderer.breaks, narrow]

theorem MidLine.startString (mid : r.MidLine) (origin : Origin) : r.Wrote [] (r.startString origin) := by
  have none : (if r.inTightListItem ∧ r.needCr > 1 then 1 else r.needCr) = 0 := by simp [mid.needCr]
  rw [Renderer.startString, none, writeBreaks]
  exact ⟨(List.append_nil _).symm, rfl, mid.width, rfl, mid.beginLine, mid.beginContent⟩

end Renderer

open Renderer

/-! ### Characters -/

/-- What is written for a character in the middle of a line. -/
def characterText (escape : Escaping) (c : Nat) (nextc : UInt8) : Bytes :=
  let mid : Renderer := { width := 0, beginLine := false, beginContent := false }
  if escape = .literal then utf8EncodeChar c
  else if needsEscaping mid escape c nextc then
    if escape = .url ∧ isspace (UInt8.ofNat c) then chr '%' :: hex2 c
    else if ispunct (UInt8.ofNat c) then lit "\\" ++ utf8EncodeChar c
    else lit "&#" ++ decimal c ++ lit ";"
  else utf8EncodeChar c

theorem needsEscaping_midLine {r : Renderer} (mid : r.MidLine) (escape : Escaping) (c : Nat) (nextc : UInt8) :
    needsEscaping r escape c nextc =
      needsEscaping { width := 0, beginLine := false, beginContent := false } escape c nextc := by
  simp [needsEscaping, mid.beginContent]

theorem wrote_afterChar {r r' : Renderer} {w : Bytes} (c : Nat) (bytes : r'.bytes = r.bytes ++ w)
    (pref : r'.pref = r.pref) (width : r'.width ≤ 0) (needCr : r'.needCr = 0)
    (beginContent : r'.beginContent = false) :
    r.Wrote w (r'.afterChar c) :=
  ⟨bytes, pref, width, needCr, rfl, by simp [Renderer.afterChar, beginContent]⟩

theorem wrote_commonmarkOutc {r : Renderer} (mid : r.MidLine) {escape : Escaping} (other : escape ≠ .literal)
    (c : Nat) (nextc : UInt8) :
    r.Wrote (characterText escape c nextc) ((commonmarkOutc r escape c nextc).afterChar c) := by
  rw [characterText, if_neg other, commonmarkOutc, needsEscaping_midLine mid]
  split
  next =>
    split
    next => exact wrote_afterChar c (bytes_renderAscii _ _) rfl mid.width mid.needCr mid.beginContent
    next =>
      split
      next =>
        refine wrote_afterChar c ?_ rfl mid.width mid.needCr mid.beginContent
        rw [bytes_renderCodePoint, bytes_renderAscii, List.append_assoc]
      next => exact wrote_afterChar c (bytes_renderAscii _ _) rfl mid.width mid.needCr mid.beginContent
  next => exact wrote_afterChar c (bytes_renderCodePoint c r) rfl mid.width mid.needCr mid.beginContent

/-- A character is written on the same line, unless it ends the line and is written as it is. -/
theorem wrote_writeChar {r : Renderer} (mid : r.MidLine) (escape : Escaping) {c : Nat} (visible : c ≠ 10)
    (rest : Bytes) :
    (writeChar commonmarkOutc false escape c rest r).1 = rest ∧
      r.Wrote (characterText escape c (byteAt rest 0)) (writeChar commonmarkOutc false escape c rest r).2 := by
  rw [writeChar, if_neg (by simp)]
  split
  next literal =>
    refine ⟨rfl, ?_⟩
    rw [putLiteral, if_neg visible, characterText, if_pos literal]
    exact wrote_afterChar c (bytes_renderCodePoint c r) rfl mid.width mid.needCr mid.beginContent
  next other => exact ⟨rfl, wrote_commonmarkOutc mid other c (byteAt rest 0)⟩

/-! ### Strings -/

/-- What is written for a string in the middle of a line. -/
def stringText (escapes : Nat → Bool) (escape : Escaping) : Nat → Bytes → Bytes
  | 0, _ => []
  | _, [] => []
  | fuel + 1, b :: bs =>
    match utf8Iterate (b :: bs) with
    | none => []
    | some (c, len) =>
      (if escapes c then [92] else []) ++ characterText escape c (byteAt ((b :: bs).drop len) 0) ++
        stringText escapes escape fuel ((b :: bs).drop len)

/-- A byte that does not end a line is not read as a character that does. -/
theorem utf8Iterate_ne_newline {b : UInt8} {bs : Bytes} {c len : Nat} (read : utf8Iterate (b :: bs) = some (c, len))
    (visible : b ≠ 10) : c ≠ 10 := by
  rintro rfl
  rcases utf8Iterate_visible read with high | same
  · omega
  · exact visible (List.cons.inj same).1.symm

theorem wrote_outChars (escapes : Nat → Bool) (escape : Escaping) (fuel : Nat) {s : Bytes} {r : Renderer}
    (mid : r.MidLine) (line : 10 ∉ s) :
    r.Wrote (stringText escapes escape fuel s)
      (Table.outCharsEscaped escapes commonmarkOutc false escape fuel s r) := by
  induction fuel generalizing s r with
  | zero => exact mid.refl
  | succ fuel ih =>
    cases s with
    | nil => exact mid.refl
    | cons b bs =>
      rw [Table.outCharsEscaped, stringText, mid.startLine]
      cases read : utf8Iterate (b :: bs) with
      | none => exact mid.refl
      | some char =>
        obtain ⟨c, len⟩ := char
        have visible : c ≠ 10 := utf8Iterate_ne_newline read fun same => line (same ▸ List.mem_cons_self)
        dsimp only
        have escaped : r.Wrote (if escapes c then [92] else []) (if escapes c then r.put .renderer [92] else r) := by
          split
          next => exact mid.put .renderer [92]
          next => exact mid.refl
        generalize (if escapes c then r.put .renderer [92] else r) = r₁ at escaped ⊢
        obtain ⟨rest, wrote⟩ := wrote_writeChar escaped.midLine escape visible ((b :: bs).drop len)
        generalize writeChar commonmarkOutc false escape c ((b :: bs).drop len) r₁ = result at rest wrote ⊢
        obtain ⟨rest', r₂⟩ := result
        subst rest
        have noBreak : (if r₂.breaks then r₂.breakLine else r₂) = r₂ := by
          rw [if_neg (by simp [wrote.midLine.breaks])]
        have later : 10 ∉ (b :: bs).drop len := fun member => line (List.mem_of_mem_drop member)
        dsimp only
        rw [noBreak]
        exact (escaped.trans wrote).trans (ih wrote.midLine later)

/-! ### Pipes -/

theorem mem_utf8EncodeChar_ascii {c : Nat} {b : UInt8} (member : b ∈ utf8EncodeChar c) (ascii : b < 0x80) :
    c = b.toNat := by
  rcases utf8EncodeChar_cases c with ⟨low, eq⟩ | ⟨-, d, t, eq, high⟩
  · rw [eq, List.mem_singleton] at member
    rw [member, UInt8.toNat_ofNat_of_lt' (show c < 0x100 by omega)]
  · exact absurd (high b (eq ▸ member)) (UInt8.not_le.mpr ascii)

/-- A pipe is written as it is, and nothing else is written with a pipe. -/
theorem pipe_characterText (escape : Escaping) (nextc : UInt8) : characterText escape 124 nextc = lit "|" := by
  cases escape <;> rfl

theorem pipe_notMem_characterText {c : Nat} (other : c ≠ 124) (escape : Escaping) (nextc : UInt8) :
    chr '|' ∉ characterText escape c nextc := by
  have encoded : chr '|' ∉ utf8EncodeChar c := fun member => other (mem_utf8EncodeChar_ascii member (by decide))
  unfold characterText
  dsimp only
  split
  next => exact encoded
  next =>
    split
    next needs =>
      have ascii : c < 0x80 := by
        simp only [needsEscaping, Bool.and_eq_true, decide_eq_true_eq] at needs
        exact needs.1
      split
      next =>
        have all : ∀ c < 0x80, chr '|' ∉ chr '%' :: hex2 c := by decide +kernel
        exact all c ascii
      next =>
        split
        next =>
          rw [List.mem_append]
          rintro (first | second)
          · exact absurd first (by decide)
          · exact encoded second
        next =>
          have all : ∀ c < 0x80, chr '|' ∉ lit "&#" ++ decimal c ++ lit ";" := by decide +kernel
          exact all c ascii
    next => exact encoded

/-- Every pipe of a string in a cell is behind a backslash. -/
theorem pipesEscaped_stringText (escape : Escaping) (fuel : Nat) (s : Bytes) :
    Table.PipesEscaped (stringText Table.escapes escape fuel s) := by
  have none : Table.PipesEscaped [] := Table.pipesEscaped_of_not_mem List.not_mem_nil
  induction fuel generalizing s with
  | zero => exact none
  | succ fuel ih =>
    cases s with
    | nil => exact none
    | cons b bs =>
      rw [stringText]
      cases utf8Iterate (b :: bs) with
      | none => exact none
      | some char =>
        obtain ⟨c, len⟩ := char
        refine Table.PipesEscaped.append ?_ (ih _)
        by_cases pipe : c = 124
        · subst pipe
          rw [pipe_characterText]
          exact Table.pipesEscaped_pair
        · have other : Table.escapes c = false := by simp [Table.escapes, pipe]
          rw [other]
          exact Table.pipesEscaped_of_not_mem (pipe_notMem_characterText pipe escape _)

/-- What a text in a line has none of. -/
def WithinLine (s : Bytes) : Prop := ∀ b ∈ s, b ≠ 0 ∧ isLineEndChar b = false

instance (s : Bytes) : Decidable (WithinLine s) :=
  inferInstanceAs (Decidable (∀ b ∈ s, b ≠ 0 ∧ isLineEndChar b = false))

theorem withinLine_characterText {c : Nat} (nul : c ≠ 0) (newline : c ≠ 10) (cr : c ≠ 13) (escape : Escaping)
    (nextc : UInt8) : WithinLine (characterText escape c nextc) := by
  have encoded : WithinLine (utf8EncodeChar c) := by
    intro b member
    constructor
    · rintro rfl
      exact nul (mem_utf8EncodeChar_ascii member (by decide))
    · rw [isLineEndChar, Bool.or_eq_false_iff, beq_eq_false_iff_ne, beq_eq_false_iff_ne]
      constructor
      · rintro rfl
        exact newline (mem_utf8EncodeChar_ascii member (by decide))
      · rintro rfl
        exact cr (mem_utf8EncodeChar_ascii member (by decide))
  unfold characterText
  dsimp only
  split
  next => exact encoded
  next =>
    split
    next needs =>
      have ascii : c < 0x80 := by
        simp only [needsEscaping, Bool.and_eq_true, decide_eq_true_eq] at needs
        exact needs.1
      split
      next =>
        have all : ∀ c < 0x80, ∀ b ∈ chr '%' :: hex2 c, b ≠ 0 ∧ isLineEndChar b = false := by decide +kernel
        exact all c ascii
      next =>
        split
        next => exact List.forall_mem_append.mpr ⟨by decide, encoded⟩
        next =>
          have all : ∀ c < 0x80, ∀ b ∈ lit "&#" ++ decimal c ++ lit ";", b ≠ 0 ∧ isLineEndChar b = false := by
            decide +kernel
          exact all c ascii
    next => exact encoded

/-- A small character is its byte. -/
theorem utf8Iterate_small {b : UInt8} {bs : Bytes} {c len : Nat} (read : utf8Iterate (b :: bs) = some (c, len))
    (small : c ≤ 32) : b = UInt8.ofNat c := by
  rcases utf8Iterate_visible read with high | same
  · omega
  · rw [utf8EncodeChar, if_pos (by omega)] at same
    exact (List.cons.inj same).1.symm

theorem withinLine_stringText (escapes : Nat → Bool) (escape : Escaping) (fuel : Nat) {s : Bytes}
    (plain : WithinLine s) : WithinLine (stringText escapes escape fuel s) := by
  induction fuel generalizing s with
  | zero => exact List.forall_mem_nil _
  | succ fuel ih =>
    cases s with
    | nil => exact List.forall_mem_nil _
    | cons b bs =>
      rw [stringText]
      cases read : utf8Iterate (b :: bs) with
      | none => exact List.forall_mem_nil _
      | some char =>
        obtain ⟨c, len⟩ := char
        obtain ⟨⟨nul, lineEnd⟩, -⟩ := List.forall_mem_cons.mp plain
        have later : WithinLine ((b :: bs).drop len) := fun b member => plain b (List.mem_of_mem_drop member)
        have visible {n : Nat} (small : n ≤ 32) (other : b ≠ UInt8.ofNat n) : c ≠ n := by
          rintro rfl
          exact other (utf8Iterate_small read small)
        have notLineEnd : b ≠ 10 ∧ b ≠ 13 := by simpa [isLineEndChar] using lineEnd
        refine List.forall_mem_append.mpr ⟨List.forall_mem_append.mpr ⟨?_, ?_⟩, ih later⟩
        · split
          next => decide
          next => exact List.forall_mem_nil _
        · exact withinLine_characterText (visible (by omega) nul) (visible (by omega) notLineEnd.1)
            (visible (by omega) notLineEnd.2) escape _

/-! ### Calls -/

/-- What a call writes in the middle of a line. -/
def callText (escapes : Nat → Bool) : Call → Bytes
  | .out _ (some s) _ escape => stringText escapes escape (cstr s).length (cstr s)
  | _ => []

/-- A call that goes on with the line. -/
inductive Call.KeepsLine : Call → Prop where
  | out (origin : Origin) {s : Bytes} (escape : Escaping) : WithinLine s →
      Call.KeepsLine (.out origin (some s) false escape)

theorem withinLine_cstr {s : Bytes} (plain : WithinLine s) : WithinLine (cstr s) :=
  fun b member => plain b (List.takeWhile_subset _ member)

theorem Call.KeepsLine.wrote {call : Call} (within : call.KeepsLine) (escapes : Nat → Bool) {r : Renderer}
    (mid : r.MidLine) :
    ∃ r', Table.runEscaped escapes commonmarkOutc r call = .ok r' ∧ r.Wrote (callText escapes call) r' := by
  cases within with
  | @out origin s escape plain =>
    have start := mid.startString origin
    have line : 10 ∉ cstr s := fun member => absurd (withinLine_cstr plain 10 member).2 (by decide)
    exact ⟨_, rfl, start.trans (wrote_outChars escapes escape _ start.midLine line)⟩

theorem wrote_calls {calls : List Call} (within : ∀ call ∈ calls, call.KeepsLine) (escapes : Nat → Bool)
    {r : Renderer} (mid : r.MidLine) :
    ∃ r', calls.foldlM (Table.runEscaped escapes commonmarkOutc) r = .ok r' ∧
      r.Wrote (calls.flatMap (callText escapes)) r' := by
  induction calls generalizing r with
  | nil => exact ⟨r, rfl, mid.refl⟩
  | cons call rest ih =>
    obtain ⟨here, later⟩ := List.forall_mem_cons.mp within
    obtain ⟨r₁, run, wrote⟩ := here.wrote escapes mid
    obtain ⟨r₂, runs, wrote'⟩ := ih later wrote.midLine
    refine ⟨r₂, ?_, wrote.trans wrote'⟩
    rw [List.foldlM_cons, run]
    exact runs

/-- Plain ASCII is written as it is. -/
theorem stringText_ascii (escape : Escaping) {s : Bytes} (literal : escape = .literal) (ascii : ∀ b ∈ s, b < 0x80) :
    stringText (fun _ => false) escape s.length s = s := by
  induction s with
  | nil => rfl
  | cons b bs ih =>
    obtain ⟨here, later⟩ := List.forall_mem_cons.mp ascii
    have one : utf8Iterate (b :: bs) = some (b.toNat, 1) := by
      have isOne : utf8Class b = 1 := by rw [utf8Class, if_pos here]
      simp [utf8Iterate, utf8Charlen, isOne, byteAt]
    rw [List.length_cons, stringText, one]
    dsimp only
    rw [List.drop_one, List.tail_cons, ih later, characterText, if_pos literal, utf8EncodeChar,
      if_pos (show b.toNat < 0x80 from here), UInt8.ofNat_toNat]
    simp

theorem callText_bytes {s : Bytes} (nul : 0 ∉ s) (ascii : ∀ b ∈ s, b < 0x80) :
    callText (fun _ => false) (.bytes s) = s := by
  have whole : cstr s = s := by
    rw [cstr, List.takeWhile_eq_self_iff]
    intro b member
    rw [bne_iff_ne]
    rintro rfl
    exact nul member
  rw [Call.bytes, callText, whole, stringText_ascii .literal rfl ascii]

/-! ### Inlines -/

/-- An inline that can be written within a line: it is no line break, and there is none in its strings. -/
structure InlineOfLine (literalAt : NodeId → Option Bytes) (d : NodeData) : Prop where
  type : d.type ∈ [NodeType.text, .code, .htmlInline, .customInline, .emph, .strong, .link, .image, .attribute,
    .footnoteReference]
  strings : ∀ s ∈ [d.as.getLiteral, d.as.getUrl, d.as.getTitle, d.as.getAttributes, d.as.getOnEnter, d.as.getOnExit],
    WithinLine s
  label : d.type = .footnoteReference → ∃ label, d.parentFootnoteDef.bind literalAt = some label ∧ WithinLine label

/-- A renderer that does not break lines. -/
def unbroken : Renderer := { width := 0 }

variable {literalAt : NodeId → Option Bytes} {options : Options} {r : Renderer} {v : Visit}

/-- The calls for such an inline do not depend on the renderer. -/
theorem commonmarkNode_unbroken (inline : InlineOfLine literalAt v.node.data) (narrow : r.width ≤ 0) :
    commonmarkNode literalAt options r v = commonmarkNode literalAt options unbroken v := by
  have noWrap : decide (0 < r.width) = false := by simpa using narrow
  have noWrap' : decide (0 < unbroken.width) = false := rfl
  have type := inline.type
  unfold commonmarkNode
  simp only [noWrap, noWrap', Bool.false_and]
  simp only [List.mem_cons, List.not_mem_nil, or_false] at type
  rcases type with type | type | type | type | type | type | type | type | type | type <;> simp only [type]

theorem Call.KeepsLine.puts {s : String} (plain : WithinLine (lit s)) : (Call.puts s).KeepsLine :=
  .out .renderer .literal plain

theorem Call.KeepsLine.text {s : Bytes} (escape : Escaping) (plain : WithinLine s) :
    (Call.text s false escape).KeepsLine :=
  .out .document escape plain

theorem keepsLine_codeCalls {d : NodeData} (plain : WithinLine d.as.getLiteral) :
    ∀ call ∈ codeCalls d false, call.KeepsLine := by
  have tick : (Call.puts "`").KeepsLine := .puts (by decide)
  have space : (Call.puts " ").KeepsLine := .puts (by decide)
  have code : (Call.text (cstr d.as.getLiteral) false .literal).KeepsLine := .text .literal (withinLine_cstr plain)
  intro call member
  simp only [codeCalls, List.mem_append, List.mem_replicate, List.mem_singleton] at member
  rcases member with (((⟨-, rfl⟩ | blank) | rfl) | blank) | ⟨-, rfl⟩
  · exact tick
  · split at blank
    next => exact List.mem_singleton.mp blank ▸ space
    next => cases blank
  · exact code
  · split at blank
    next => exact List.mem_singleton.mp blank ▸ space
    next => cases blank
  · exact tick

theorem keepsLine_linkTail {d : NodeData} (url : WithinLine d.as.getUrl) (title : WithinLine d.as.getTitle)
    {titleOpener : Call} (opener : titleOpener.KeepsLine) : ∀ call ∈ linkTail d titleOpener, call.KeepsLine := by
  have title' : (Call.text (cstr d.as.getTitle) false .title).KeepsLine := .text .title (withinLine_cstr title)
  have quote : (Call.puts "\"").KeepsLine := .puts (by decide)
  unfold linkTail
  refine List.forall_mem_append.mpr ⟨List.forall_mem_append.mpr ⟨?_, ?_⟩, ?_⟩
  · exact List.forall_mem_cons.mpr ⟨.puts (by decide), List.forall_mem_singleton.mpr (.text .url url)⟩
  · split
    next => exact List.forall_mem_nil _
    next =>
      exact List.forall_mem_cons.mpr ⟨opener, List.forall_mem_cons.mpr ⟨title', List.forall_mem_singleton.mpr quote⟩⟩
  · exact List.forall_mem_singleton.mpr (.puts (by decide))

/-- The calls for such an inline go on with the line. -/
theorem keepsLine_commonmarkNode (options : Options) (inline : InlineOfLine literalAt v.node.data) :
    ∀ call ∈ commonmarkNode literalAt options unbroken v, call.KeepsLine := by
  have noWrap : decide (0 < unbroken.width) = false := rfl
  obtain ⟨type, strings, label⟩ := inline
  simp only [List.forall_mem_cons, List.not_mem_nil, false_imp_iff, implies_true, and_true] at strings
  obtain ⟨literal, url, title, attributes, onEnter, onExit⟩ := strings
  have one {call : Call} (keeps : call.KeepsLine) : ∀ c ∈ [call], c.KeepsLine := List.forall_mem_singleton.mpr keeps
  have custom : WithinLine (if v.entering then v.node.data.as.getOnEnter else v.node.data.as.getOnExit) := by
    split
    next => exact onEnter
    next => exact onExit
  unfold commonmarkNode
  simp only [noWrap, Bool.false_and]
  simp only [List.mem_cons, List.not_mem_nil, or_false] at type
  rcases type with type | type | type | type | type | type | type | type | type | type <;> simp only [type]
  · rw [NodeData.getLiteral?, type]
    exact one (.out .document .normal literal)
  · exact keepsLine_codeCalls literal
  · rw [NodeData.getLiteral?, type]
    exact one (.out .document .literal literal)
  · exact one (.text .literal custom)
  · split
    next => exact one (.puts (by decide))
    next => exact one (.puts (by decide))
  · split
    next => exact List.forall_mem_nil _
    next => exact one (.puts (by decide))
  · split
    next =>
      split
      next =>
        -- an address is written without its scheme
        have address : WithinLine (if (lit "mailto:").isPrefixOf v.node.data.as.getUrl then
            v.node.data.as.getUrl.drop 7 else v.node.data.as.getUrl) := by
          split
          next => exact fun b member => url b (List.mem_of_mem_drop member)
          next => exact url
        exact List.forall_mem_cons.mpr ⟨.puts (by decide), List.forall_mem_cons.mpr ⟨.text .literal address,
          one (.puts (by decide))⟩⟩
      next => exact List.forall_mem_nil _
    next =>
      split
      next => exact one (.puts (by decide))
      next => exact keepsLine_linkTail url title (.puts (by decide))
  · split
    next => exact one (.puts (by decide))
    next => exact keepsLine_linkTail url title (.out .renderer .literal (by decide))
  · split
    next => exact one (.puts (by decide))
    next =>
      exact List.forall_mem_cons.mpr ⟨.puts (by decide), List.forall_mem_cons.mpr ⟨.text .literal attributes,
        one (.puts (by decide))⟩⟩
  · split
    next =>
      obtain ⟨s, found, plain⟩ := label type
      rw [found]
      exact List.forall_mem_cons.mpr ⟨.puts (by decide), List.forall_mem_cons.mpr ⟨.text .literal plain,
        one (.puts (by decide))⟩⟩
    next => exact List.forall_mem_nil _

/-- What is written for the visit of such an inline in a cell. -/
def visitText (literalAt : NodeId → Option Bytes) (options : Options) (v : Visit) : Bytes :=
  (commonmarkNode literalAt options unbroken v).flatMap (callText Table.escapes)

/-- An inline in a cell, or below another inline. -/
structure VisitOfLine (literalAt : NodeId → Option Bytes) (v : Visit) : Prop where
  inline : InlineOfLine literalAt v.node.data
  parent : v.place.parent.any (·.type == .item) = false

theorem wrote_visit (options : Options) (visit : VisitOfLine literalAt v) (mid : r.MidLine) :
    ∃ r', (commonmarkRenderNode literalAt options r v).foldlM (Table.runEscaped Table.escapes commonmarkOutc) r =
        .ok r' ∧
      r.Wrote (visitText literalAt options v) r' := by
  have notList : v.node.type ≠ .list := by
    intro list
    have type := visit.inline.type
    rw [show v.node.data.type = .list from list] at type
    exact absurd type (by decide)
  have tight : adjustTight v = [] := by
    unfold adjustTight
    rw [visit.parent]
    simp [notList]
  rw [commonmarkRenderNode, tight, List.nil_append, commonmarkNode_unbroken visit.inline mid.width]
  exact wrote_calls (keepsLine_commonmarkNode options visit.inline) Table.escapes mid

/-- The inlines of a cell are written within its line, with every pipe behind a backslash. -/
theorem wrote_visits (options : Options) {vs : List Visit} (visits : ∀ v ∈ vs, VisitOfLine literalAt v)
    (mid : r.MidLine) :
    ∃ r', vs.foldlM (fun r v =>
        (commonmarkRenderNode literalAt options r v).foldlM (Table.runEscaped Table.escapes commonmarkOutc) r) r =
        .ok r' ∧
      r.Wrote (vs.flatMap (visitText literalAt options)) r' := by
  induction vs generalizing r with
  | nil => exact ⟨r, rfl, mid.refl⟩
  | cons v rest ih =>
    obtain ⟨here, later⟩ := List.forall_mem_cons.mp visits
    obtain ⟨r₁, run, wrote⟩ := wrote_visit options here mid
    obtain ⟨r₂, runs, wrote'⟩ := ih later wrote.midLine
    refine ⟨r₂, ?_, wrote.trans wrote'⟩
    rw [List.foldlM_cons, run]
    exact runs

theorem callText_keepsLine {call : Call} (keeps : call.KeepsLine) :
    Table.PipesEscaped (callText Table.escapes call) ∧ WithinLine (callText Table.escapes call) := by
  cases keeps with
  | out origin escape plain =>
    exact ⟨pipesEscaped_stringText escape _ _, withinLine_stringText Table.escapes escape _ (withinLine_cstr plain)⟩

theorem visitsText_spec (options : Options) {vs : List Visit} (visits : ∀ v ∈ vs, VisitOfLine literalAt v) :
    Table.PipesEscaped (vs.flatMap (visitText literalAt options)) ∧
      WithinLine (vs.flatMap (visitText literalAt options)) := by
  have calls {cs : List Call} (keeps : ∀ c ∈ cs, c.KeepsLine) :
      Table.PipesEscaped (cs.flatMap (callText Table.escapes)) ∧
        WithinLine (cs.flatMap (callText Table.escapes)) := by
    induction cs with
    | nil => exact ⟨Table.pipesEscaped_of_not_mem List.not_mem_nil, List.forall_mem_nil _⟩
    | cons c cs ih =>
      obtain ⟨here, later⟩ := List.forall_mem_cons.mp keeps
      exact ⟨(callText_keepsLine here).1.append (ih later).1,
        List.forall_mem_append.mpr ⟨(callText_keepsLine here).2, (ih later).2⟩⟩
  induction vs with
  | nil => exact ⟨Table.pipesEscaped_of_not_mem List.not_mem_nil, List.forall_mem_nil _⟩
  | cons v rest ih =>
    obtain ⟨here, later⟩ := List.forall_mem_cons.mp visits
    have visit := calls (keepsLine_commonmarkNode options here.inline)
    exact ⟨visit.1.append (ih later).1, List.forall_mem_append.mpr ⟨visit.2, (ih later).2⟩⟩

end CmarkGfm
