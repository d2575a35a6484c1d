import CmarkGfm.Properties.Chunking
import CmarkGfm.Properties.RenderRuns
import CmarkGfm.Render.Man

/-!
# Requests in the output of the man renderer

A line of roff that begins with a period or an apostrophe is a request. The renderer escapes
these characters if `begin_line` is set, which is not always so where a line begins.
-/

namespace CmarkGfm

/-- The characters that make a line a request. -/
def isControl (c : UInt8) : Bool := c == 46 || c == 39

/-- A line begins behind this output. -/
def atLineStart (out : List OutByte) : Bool := out.getLast?.all (·.byte == 10)

/-- Every line that begins with a control character begins with one of the renderer itself. -/
def OwnRequests (out : List OutByte) : Prop :=
  ∀ before b after, out = before ++ b :: after → atLineStart before → isControl b.byte →
    b.origin = .renderer

/-- The same, read from the left; `start` says whether a line begins here. -/
def ownRequestsFrom : Bool → List OutByte → Bool
  | _, [] => true
  | start, b :: out =>
    !(start && isControl b.byte && b.origin == .document) && ownRequestsFrom (b.byte == 10) out

/-- Does a line begin behind more output? -/
def lineStartFrom (start : Bool) (out : List OutByte) : Bool := out.getLast?.elim start (·.byte == 10)

theorem lineStartFrom_cons (start : Bool) (b : OutByte) (out : List OutByte) :
    lineStartFrom start (b :: out) = lineStartFrom (b.byte == 10) out := by
  cases out with
  | nil => rfl
  | cons c out => simp [lineStartFrom, List.getLast?_cons]

theorem lineStartFrom_true (out : List OutByte) : lineStartFrom true out = atLineStart out := by
  unfold lineStartFrom atLineStart
  cases out.getLast? <;> rfl

theorem ownRequestsFrom_append (start : Bool) (out more : List OutByte) :
    ownRequestsFrom start (out ++ more) =
      (ownRequestsFrom start out && ownRequestsFrom (lineStartFrom start out) more) := by
  induction out generalizing start with
  | nil => rfl
  | cons b out ih =>
    rw [List.cons_append, ownRequestsFrom, ih, ownRequestsFrom, lineStartFrom_cons]
    simp only [Bool.and_assoc]

theorem ownRequestsFrom_iff (start : Bool) (out : List OutByte) :
    ownRequestsFrom start out ↔
      ∀ before b after, out = before ++ b :: after → lineStartFrom start before →
        isControl b.byte → b.origin = .renderer := by
  constructor
  · rintro own before b after rfl begins control
    rw [ownRequestsFrom_append, ownRequestsFrom, begins, control] at own
    cases same : b.origin with
    | renderer => rfl
    | document => simp [same] at own
  · intro own
    induction out generalizing start with
    | nil => rfl
    | cons b out ih =>
      have later : ownRequestsFrom (b.byte == 10) out := by
        refine ih _ fun before c after split begins => own (b :: before) c after ?_ ?_
        · rw [split, List.cons_append]
        · rwa [lineStartFrom_cons]
      have first := own [] b out rfl
      unfold ownRequestsFrom
      rw [later]
      cases start <;> cases control : isControl b.byte <;> simp
      rw [first rfl control]
      nofun

theorem ownRequests_iff (out : List OutByte) : OwnRequests out ↔ ownRequestsFrom true out := by
  simp only [ownRequestsFrom_iff, lineStartFrom_true]
  rfl

/-! ### Output that is appended -/

theorem ownRequestsFrom_renderer (start : Bool) (s : Bytes) :
    ownRequestsFrom start (s.map fun c => ⟨c, .renderer⟩) := by
  induction s generalizing start with
  | nil => rfl
  | cons c s ih => simpa [ownRequestsFrom] using ih _

/-- What is not at the start of a line is no request. -/
theorem ownRequestsFrom_noNewline {s : Bytes} (line : 10 ∉ s) (origin : Origin) :
    ownRequestsFrom false (s.map fun c => ⟨c, origin⟩) := by
  induction s with
  | nil => rfl
  | cons c s ih =>
    simp only [List.mem_cons, not_or] at line
    have other : (c == 10) = false := by simpa using Ne.symm line.1
    simpa [ownRequestsFrom, other] using ih line.2

/-- Text of one line is a request if its first character is a control character of the document
at the start of a line. -/
theorem ownRequestsFrom_text (start : Bool) (c : UInt8) {s : Bytes} (line : 10 ∉ s) (origin : Origin)
    (single : c = 10 → s = []) :
    ownRequestsFrom start ((c :: s).map fun c => ⟨c, origin⟩) ↔
      ¬(origin = .document ∧ isControl c ∧ start) := by
  have rest : ownRequestsFrom (c == 10) (s.map fun c => ⟨c, origin⟩) := by
    by_cases newline : c = 10
    · rw [single newline]
      rfl
    · rw [beq_false_of_ne newline]
      exact ownRequestsFrom_noNewline line origin
  rw [List.map_cons, ownRequestsFrom, rest]
  cases start <;> cases isControl c <;> simp

/-! ### What a step writes -/

/-- More output, and otherwise the same for the lines. -/
structure Renderer.Writes (r : Renderer) (origin : Origin) (s : Bytes) (r' : Renderer) : Prop where
  buffer : r'.buffer = r.buffer ++ s.map fun c => ⟨c, origin⟩
  pref : r'.pref = r.pref
  breakable : r'.lastBreakable = r.lastBreakable

theorem writes_renderAscii (r : Renderer) (s : Bytes) : r.Writes r.origin s (r.renderAscii s) :=
  ⟨rfl, rfl, rfl⟩

theorem writes_renderCodePoint (r : Renderer) (c : Nat) :
    r.Writes r.origin (utf8EncodeChar c) (r.renderCodePoint c) :=
  ⟨rfl, rfl, rfl⟩

/-- One byte for ASCII, and otherwise only bytes above ASCII. -/
theorem utf8EncodeChar_cases (c : Nat) :
    (c < 0x80 ∧ utf8EncodeChar c = [UInt8.ofNat c]) ∨
      (0x80 ≤ c ∧ ∃ b t, utf8EncodeChar c = b :: t ∧ ∀ x ∈ b :: t, 0x80 ≤ x) := by
  have byte {n : Nat} (low : 0x80 ≤ n) (high : n < 0x100) : 0x80 ≤ UInt8.ofNat n := by
    rw [UInt8.le_iff_toNat_le, UInt8.toNat_ofNat_of_lt' high]
    exact low
  have tail (n : Nat) : 0x80 ≤ UInt8.ofNat (0x80 + (n &&& 0x3F)) := by
    have small : n &&& 0x3F ≤ 0x3F := Nat.and_le_right
    exact byte (by omega) (by omega)
  by_cases ascii : c < 0x80
  · exact .inl ⟨ascii, by rw [utf8EncodeChar, if_pos ascii]⟩
  · refine .inr ⟨Nat.le_of_not_lt ascii, ?_⟩
    rw [utf8EncodeChar, if_neg ascii]
    simp only [Nat.shiftRight_eq_div_pow]
    split
    next =>
      refine ⟨_, _, rfl, ?_⟩
      simp only [List.forall_mem_cons]
      exact ⟨byte (by omega) (by omega), tail _, nofun⟩
    next =>
      split
      next => exact ⟨_, _, rfl, by decide +kernel⟩
      next =>
        split
        next => exact ⟨_, _, rfl, by decide +kernel⟩
        next =>
          split
          next =>
            refine ⟨_, _, rfl, ?_⟩
            simp only [List.forall_mem_cons]
            exact ⟨byte (by omega) (by omega), tail _, tail _, nofun⟩
          next =>
            split
            next =>
              refine ⟨_, _, rfl, ?_⟩
              simp only [List.forall_mem_cons]
              exact ⟨byte (by omega) (by omega), tail _, tail _, tail _, nofun⟩
            next => exact ⟨_, _, rfl, by decide +kernel⟩

theorem isControl_ofNat {c : Nat} (ascii : c < 0x80) :
    isControl (UInt8.ofNat c) ↔ c = 46 ∨ c = 39 := by
  have toNat : (UInt8.ofNat c).toNat = c := UInt8.toNat_ofNat_of_lt' (show c < 0x100 by omega)
  simp only [isControl, Bool.or_eq_true, beq_iff_eq, ← UInt8.toNat_inj, toNat]
  rfl

/-- A line of text that starts with a control character if and only if `control` holds. -/
structure LineText (s : Bytes) (control : Prop) : Prop where
  text : ∃ c t, s = c :: t ∧ 10 ∉ t ∧ (c = 10 → t = []) ∧ (isControl c ↔ control)

theorem lineText_encode (c : Nat) : LineText (utf8EncodeChar c) (c = 46 ∨ c = 39) := by
  rcases utf8EncodeChar_cases c with ⟨ascii, eq⟩ | ⟨high, b, t, eq, above⟩
  · exact ⟨_, _, eq, by simp, fun _ => rfl, isControl_ofNat ascii⟩
  · have first := above b List.mem_cons_self
    refine ⟨b, t, eq, fun newline => ?_, ?_, ?_⟩
    · exact absurd (above 10 (List.mem_cons_of_mem b newline)) (by decide)
    · rintro rfl
      exact absurd first (by decide)
    · refine iff_of_false (fun control => ?_) (by omega)
      simp only [isControl, Bool.or_eq_true, beq_iff_eq] at control
      rcases control with rfl | rfl <;> exact absurd first (by decide)

/-- An escape begins with a backslash. -/
theorem lineText_escape {s : Bytes} {control : Prop} (backslash : s.head? = some 92) (line : 10 ∉ s)
    (none : ¬control) : LineText s control := by
  cases s with
  | nil => cases backslash
  | cons c t =>
    cases backslash
    exact ⟨_, _, rfl, fun newline => line (List.mem_cons_of_mem _ newline), nofun,
      iff_of_false (by decide) none⟩

/-- The man renderer writes a control character as it is if it is not at the start of a line as
far as `begin_line` says so, and in strings that are not escaped. -/
theorem writes_manOutc (r : Renderer) (escape : Escaping) (c : Nat) (nextc : UInt8) :
    ∃ s, r.Writes r.origin s (manOutc r escape c nextc) ∧
      LineText s ((c = 46 ∨ c = 39) ∧ (escape = .literal ∨ ¬r.beginLine)) := by
  have asItIs (written : (c = 46 ∨ c = 39) → escape = .literal ∨ ¬r.beginLine) :
      ∃ s, r.Writes r.origin s (r.renderCodePoint c) ∧
        LineText s ((c = 46 ∨ c = 39) ∧ (escape = .literal ∨ ¬r.beginLine)) := by
    refine ⟨_, writes_renderCodePoint r c, ?_⟩
    rw [and_iff_left_of_imp written]
    exact lineText_encode c
  unfold manOutc
  split
  next literal => exact asItIs fun _ => .inl literal
  next escaped =>
    split
    case h_1 | h_2 =>
      split
      next begins =>
        exact ⟨_, writes_renderAscii r _, lineText_escape (by decide) (by decide)
          fun asItIs => asItIs.2.elim escaped fun clear => clear begins⟩
      next inLine => exact asItIs fun _ => .inr inLine
    case h_11 _ other other' _ _ _ _ _ _ _ _ => exact asItIs fun control => (control.elim other other').elim
    all_goals exact ⟨_, writes_renderAscii r _, lineText_escape (by decide) (by decide)
      fun asItIs => absurd asItIs.1 (by decide)⟩

/-! ### The lines along a run -/

/-- Man has no prefix, and a line is broken at a space. -/
structure LineState (r : Renderer) : Prop where
  pref : r.pref = []
  breakable : 0 < r.lastBreakable → (r.buffer[r.lastBreakable]?).any (·.byte == 32)

/-- The step puts no control character of the document at the start of a line: none is written
there as it is, and a line that is broken does not go on with one. -/
def RenderStep.KeepsRequests : RenderStep → Prop
  | .write escape c r =>
    ¬(r.origin = .document ∧ (c = 46 ∨ c = 39) ∧ atLineStart r.buffer ∧
      (escape = .literal ∨ ¬r.beginLine))
  | .breakLine r => ∀ b, r.remainder.head? = some b → isControl b.byte → b.origin = .renderer

/-- The requests are the renderer's own after some steps if and only if they were before and every
step keeps them so. -/
def LinesRun (r : Renderer) (steps : List RenderStep) (r' : Renderer) : Prop :=
  LineState r → LineState r' ∧ (ownRequestsFrom true r'.buffer ↔
    ownRequestsFrom true r.buffer ∧ ∀ step ∈ steps, step.KeepsRequests)

theorem stepRelation_linesRun : StepRelation LinesRun where
  refl r := fun state => ⟨state, by simp⟩
  trans first second := fun state => by
    obtain ⟨state', own'⟩ := first state
    obtain ⟨state'', own''⟩ := second state'
    refine ⟨state'', ?_⟩
    rw [own'', own', List.forall_mem_append, and_assoc]

theorem LinesRun.then {r r' r'' : Renderer} {steps : List RenderStep} (run : LinesRun r steps r')
    (later : LinesRun r' [] r'') : LinesRun r steps r'' := by
  rw [← List.append_nil steps]
  exact stepRelation_linesRun.trans run later

/-- Nothing that matters for the lines changes. -/
theorem linesRun_same {r r' : Renderer} (buffer : r'.buffer = r.buffer) (pref : r'.pref = r.pref)
    (breakable : r'.lastBreakable = r.lastBreakable) : LinesRun r [] r' := by
  intro state
  refine ⟨⟨pref.trans state.pref, ?_⟩, by simp [buffer]⟩
  rw [buffer, breakable]
  exact state.breakable

/-- Output is appended. -/
theorem linesRun_append {r r' : Renderer} (more : List OutByte) {steps : List RenderStep}
    (buffer : r'.buffer = r.buffer ++ more) (pref : r'.pref = r.pref)
    (breakable : r'.lastBreakable = r.lastBreakable ∨ r'.lastBreakable = 0 ∨
      (r'.lastBreakable = r.buffer.length ∧ more.head?.any (·.byte == 32)))
    (safe : ownRequestsFrom (atLineStart r.buffer) more ↔ ∀ step ∈ steps, step.KeepsRequests) :
    LinesRun r steps r' := by
  intro state
  refine ⟨⟨pref.trans state.pref, fun positive => ?_⟩, ?_⟩
  · rcases breakable with same | zero | ⟨here, space⟩
    · rw [same] at positive ⊢
      have before := state.breakable positive
      have inside : r.lastBreakable < r.buffer.length := by
        by_contra outside
        rw [List.getElem?_eq_none (Nat.le_of_not_lt outside)] at before
        cases before
      rwa [buffer, List.getElem?_append_left inside]
    · rw [zero] at positive
      exact absurd positive (Nat.lt_irrefl 0)
    · rwa [buffer, here, List.getElem?_append_right (Nat.le_refl _), Nat.sub_self,
        ← List.head?_eq_getElem?]
  · rw [buffer, ownRequestsFrom_append, Bool.and_eq_true, lineStartFrom_true, safe]

theorem linesRun_startLine (r : Renderer) : LinesRun r [] r.startLine := by
  intro state
  unfold Renderer.startLine
  split
  next =>
    refine linesRun_same ?_ rfl rfl state
    simp [Renderer.put, state.pref]
  next => exact stepRelation_linesRun.refl r state

theorem linesRun_writeBreaks (n : Nat) : ∀ (upTo : Nat) (r : Renderer),
    LinesRun r [] (r.writeBreaks n upTo) := by
  induction n with
  | zero => exact fun _ r => linesRun_same rfl rfl rfl
  | succ n ih =>
    intro upTo r
    unfold Renderer.writeBreaks
    dsimp only
    refine LinesRun.then ?_ (ih _ _)
    split
    next =>
      refine linesRun_append [] (List.append_nil _).symm rfl (.inr (.inl rfl)) ?_
      exact iff_of_true rfl nofun
    next =>
      have ends : ∃ s, r.Writes .renderer s (r.endLine (n + 1)) := by
        unfold Renderer.endLine
        dsimp only
        split
        next => exact ⟨[10] ++ r.pref, by simp [Renderer.put], rfl, rfl⟩
        next => exact ⟨[10], rfl, rfl, rfl⟩
      obtain ⟨s, writes⟩ := ends
      exact linesRun_append _ writes.buffer writes.pref (.inr (.inl rfl))
        (by simp [ownRequestsFrom_renderer])

/-- A character that is written. -/
theorem linesRun_write {r r' : Renderer} {s : Bytes} {escape : Escaping} {c : Nat}
    (writes : r.Writes r.origin s r')
    (line : LineText s ((c = 46 ∨ c = 39) ∧ (escape = .literal ∨ ¬r.beginLine))) :
    LinesRun r [.write escape c r] r' := by
  refine linesRun_append _ writes.buffer writes.pref (.inl writes.breakable) ?_
  obtain ⟨b, t, rfl, oneLine, single, control⟩ := line.text
  rw [ownRequestsFrom_text _ b oneLine r.origin single, control]
  simp only [List.forall_mem_singleton, RenderStep.KeepsRequests]
  tauto

theorem linesRun_writeChar (wrap : Bool) (escape : Escaping) (c : Nat) (rest : Bytes) (r : Renderer) :
    LinesRun r [.write escape c r] (writeChar manOutc wrap escape c rest r).2 := by
  have noControl {c : Nat} (other : ¬(c = 46 ∨ c = 39)) :
      ∀ step ∈ [RenderStep.write escape c r], step.KeepsRequests := by
    simp only [List.forall_mem_singleton, RenderStep.KeepsRequests]
    exact fun unsafe' => other unsafe'.2.1
  unfold writeChar
  split
  next space =>
    rw [space.1]
    split
    next =>
      refine linesRun_append [] (List.append_nil _).symm rfl (.inl rfl) ?_
      exact iff_of_true rfl (noControl (by decide))
    next =>
      refine linesRun_append [⟨32, r.origin⟩] rfl rfl ?_ (iff_of_true ?_ (noControl (by decide)))
      · dsimp only [Renderer.putSpace]
        split
        next => exact .inl rfl
        next => exact .inr (.inr ⟨rfl, rfl⟩)
      · cases atLineStart r.buffer <;> rfl
  next =>
    split
    next literal =>
      subst literal
      unfold Renderer.putLiteral
      split
      next newline =>
        subst newline
        refine linesRun_append [⟨10, r.origin⟩] rfl rfl (.inr (.inl rfl))
          (iff_of_true ?_ (noControl (by decide)))
        cases atLineStart r.buffer <;> rfl
      next =>
        refine (linesRun_write (writes_renderCodePoint r c) ?_).then (linesRun_same rfl rfl rfl)
        simpa using lineText_encode c
    next =>
      obtain ⟨s, writes, line⟩ := writes_manOutc r escape c (byteAt rest 0)
      exact (linesRun_write writes line).then (linesRun_same rfl rfl rfl)

/-- Only the first character of a line makes a difference. -/
theorem ownRequestsFrom_true (out : List OutByte) :
    ownRequestsFrom true out ↔ ownRequestsFrom false out ∧
      ∀ b, out.head? = some b → isControl b.byte → b.origin = .renderer := by
  cases out with
  | nil => simp [ownRequestsFrom]
  | cons b out =>
    cases control : isControl b.byte <;> cases same : b.origin <;>
      simp [ownRequestsFrom, control, same]

theorem linesRun_breakLine (r : Renderer) (breaks : r.breaks) :
    LinesRun r [.breakLine r] r.breakLine := by
  intro state
  have positive : 0 < r.lastBreakable := by
    simp only [Renderer.breaks, Bool.and_eq_true, decide_eq_true_eq] at breaks
    exact breaks.2
  refine ⟨⟨state.pref, fun again => absurd again (Nat.lt_irrefl 0)⟩, ?_⟩
  have space := state.breakable positive
  obtain ⟨b, here⟩ : ∃ b, r.buffer[r.lastBreakable]? = some b := by
    cases found : r.buffer[r.lastBreakable]? with
    | none => rw [found] at space; cases space
    | some b => exact ⟨b, rfl⟩
  rw [here, Option.any_some, beq_iff_eq] at space
  obtain ⟨inside, at'⟩ := List.getElem?_eq_some_iff.mp here
  have before : r.buffer = r.buffer.take r.lastBreakable ++ b :: r.remainder := by
    rw [Renderer.remainder, ← at', List.cons_getElem_drop_succ, List.take_append_drop]
  have after : r.breakLine.buffer =
      r.buffer.take r.lastBreakable ++ ⟨10, .renderer⟩ :: r.remainder := by
    simp [Renderer.breakLine, Renderer.put, state.pref]
  have newline (start : Bool) : ownRequestsFrom start (⟨10, .renderer⟩ :: r.remainder) =
      ownRequestsFrom true r.remainder := by
    cases start <;> rfl
  have blank (start : Bool) : ownRequestsFrom start (b :: r.remainder) =
      ownRequestsFrom false r.remainder := by
    rw [ownRequestsFrom, space]
    cases start <;> rfl
  have own : ownRequestsFrom true r.buffer ↔
      ownRequestsFrom true (r.buffer.take r.lastBreakable) ∧ ownRequestsFrom false r.remainder := by
    conv_lhs => rw [before, ownRequestsFrom_append, blank, Bool.and_eq_true]
  rw [after, ownRequestsFrom_append, newline, Bool.and_eq_true, ownRequestsFrom_true r.remainder, own,
    and_assoc]
  simp only [List.forall_mem_singleton, RenderStep.KeepsRequests]

/-! ### The man renderer -/

/-- The calls of the man renderer leave the prefix alone. -/
def Call.KeepsPrefix : Call → Prop
  | .pushPrefix _ | .popPrefix _ => False
  | _ => True

theorem keepsPrefix_manRenderNode (options : Options) (r : Renderer) (v : Visit) :
    ∀ call ∈ manRenderNode options r v, call.KeepsPrefix := by
  unfold manRenderNode
  dsimp only
  repeat' split
  all_goals simp [manLinebreak, Call.KeepsPrefix, Call.puts, Call.bytes, Call.text, Call.textOrNull,
    Call.space]

theorem linesRun_call {call : Call} (keeps : call.KeepsPrefix) {r r' : Renderer}
    (done : call.run manOutc r = .ok r') : LinesRun r (call.steps manOutc r) r' := by
  cases call with
  | out origin source wrap escape =>
    cases source with
    | none => cases done
    | some source =>
      cases done
      have started : LinesRun r [] (r.startString origin) := by
        unfold Renderer.startString
        dsimp only
        have same : LinesRun r [] { r with origin := origin } := linesRun_same rfl rfl rfl
        exact same.then (linesRun_writeBreaks _ _ _)
      have written := stepRelation_linesRun.outChars linesRun_startLine
        (linesRun_writeChar (wrap && !r.noLinebreaks) escape) linesRun_breakLine
        (cstr source).length (cstr source) (r.startString origin)
      exact stepRelation_linesRun.trans started written
  | cr | blankline =>
    cases done
    simp only [Renderer.cr, Renderer.blankline]
    split <;> exact linesRun_same rfl rfl rfl
  | setTightListItem | setNoLinebreaks | beginContent | countFootnote =>
    cases done
    exact linesRun_same rfl rfl rfl
  | pushPrefix | popPrefix => exact keeps.elim
  | fail => cases done

theorem linesRun_visits (options : Options) {vs : List Visit} {r r' : Renderer}
    (done : vs.foldlM (man.renderVisit options) r = .ok r') :
    LinesRun r (foldSteps (man.renderVisit options) (man.visitSteps options) vs r) r' :=
  stepRelation_linesRun.foldlM (fun v _ _ _ visited =>
    stepRelation_linesRun.foldlM (fun call among _ _ called =>
      linesRun_call (keepsPrefix_manRenderNode options _ v call among) called) visited) done

/-- The lines of the output that begin with a control character are the renderer's own requests
if and only if no step puts a control character of the document at the start of a line: none is
written there while `begin_line` is clear, and no line that is broken goes on with one. -/
theorem renderMan_ownRequests_iff {options : Options} {width : Int} {root : Node}
    {out : List OutByte} (rendered : renderMan options width root = .ok out) :
    OwnRequests out ↔ ∀ step ∈ man.steps options width root, step.KeepsRequests := by
  unfold renderMan Format.render Format.renderVisits at rendered
  cases done : (root.visitsSkipping man.skipsContents {}).foldlM (man.renderVisit options)
      { width := width } with
  | error e => rw [done] at rendered; cases rendered
  | ok r =>
    rw [done] at rendered
    have ends : ∃ s : Bytes, out = r.buffer ++ s.map fun c => ⟨c, .renderer⟩ := by
      cases rendered
      split
      next => exact ⟨[], by simp⟩
      next => exact ⟨[10], rfl⟩
    obtain ⟨s, rfl⟩ := ends
    have start : LineState { width := width } := ⟨rfl, nofun⟩
    obtain ⟨_, own⟩ := linesRun_visits options done start
    rw [ownRequests_iff, ownRequestsFrom_append, ownRequestsFrom_renderer, Bool.and_true, own]
    exact and_iff_right rfl

/-- The document whose bytes are `s`. -/
def asciiDocument (s : Bytes) : Node :=
  documentOf { tables := asciiTables, options := 0 } none [s]

/-- A line of code begins with a period. -/
def codeDocument : Node := asciiDocument (lit "```\na\n.b\n```\n")

/-- A paragraph that begins with a period, and goes on with one. -/
def periodDocument : Node := asciiDocument (lit ".a .b\n")

theorem renderMan_ownRequests_period :
    ∃ out, renderMan 0 0 periodDocument = .ok out ∧
      (OwnRequests out ↔ ∀ step ∈ man.steps 0 0 periodDocument, step.KeepsRequests) := by
  have rendered : renderMan 0 0 periodDocument =
      .ok ((renderMan 0 0 periodDocument).toOption.getD []) := by decide +kernel
  exact ⟨_, rendered, renderMan_ownRequests_iff rendered⟩

/-- After a newline within code `begin_line` is clear, and in a narrow column the line is broken
before a period that was written in the middle of it. -/
theorem not_ownRequests :
    (∃ out, renderMan 0 0 codeDocument = .ok out ∧ ¬OwnRequests out) ∧
      ∃ out, renderMan 0 3 periodDocument = .ok out ∧ ¬OwnRequests out := by
  simp only [ownRequests_iff]
  exact ⟨⟨(renderMan 0 0 codeDocument).toOption.getD [], by decide +kernel, by decide +kernel⟩,
    ⟨(renderMan 0 3 periodDocument).toOption.getD [], by decide +kernel, by decide +kernel⟩⟩

end CmarkGfm
