import CmarkGfm.Render.Render

/-!
# The steps of a renderer

A run of `cmark_render`, taken apart into the characters it writes and the lines it breaks, each
with the state before it.
-/

namespace CmarkGfm

/-- A step of `S_out`, from a state: a character is written, or the line is broken. -/
inductive RenderStep where
  | write (escape : Escaping) (c : Nat) (r : Renderer)
  | breakLine (r : Renderer)

/-- The steps of `outChars`. -/
def outSteps (outc : Outc) (wrap : Bool) (escape : Escaping) :
    Nat → Bytes → Renderer → List RenderStep
  | 0, _, _ => []
  | _, [], _ => []
  | fuel + 1, b :: bs, r =>
    let r := r.startLine
    match utf8Iterate (b :: bs) with
    | none => []
    | some (c, len) =>
      let (rest, r') := writeChar outc wrap escape c ((b :: bs).drop len) r
      .write escape c r ::
        if r'.breaks then .breakLine r' :: outSteps outc wrap escape fuel rest r'.breakLine
        else outSteps outc wrap escape fuel rest r'

def Call.steps (outc : Outc) (r : Renderer) : Call → List RenderStep
  | .out origin (some source) wrap escape =>
    outSteps outc (wrap && !r.noLinebreaks) escape (cstr source).length (cstr source)
      (r.startString origin)
  | _ => []

/-- The steps of a fold that may fail, up to its failure. -/
def foldSteps {σ α ε β : Type} (run : σ → α → Except ε σ) (steps : σ → α → List β) :
    List α → σ → List β
  | [], _ => []
  | a :: as, s =>
    steps s a ++ match run s a with
      | .ok s' => foldSteps run steps as s'
      | .error _ => []

namespace Format

variable (F : Format) (options : Options)

/-- The steps at one event. -/
def visitSteps (r : Renderer) (v : Visit) : List RenderStep :=
  foldSteps (Call.run F.outc) (Call.steps F.outc) (F.renderNode options r v) r

/-- The steps of `cmark_render`. -/
def steps (width : Int) (root : Node) : List RenderStep :=
  foldSteps (F.renderVisit options) (F.visitSteps options) (root.visitsSkipping F.skipsContents {})
    { width := width }

end Format

/-- A relation between two states and the steps between them, which can be composed. -/
structure StepRelation {σ β : Type} (R : σ → List β → σ → Prop) : Prop where
  refl : ∀ s, R s [] s
  trans : ∀ {s s' s'' l l'}, R s l s' → R s' l' s'' → R s (l ++ l') s''

/-- What every turn of a fold keeps holds for the fold. -/
theorem StepRelation.foldlM {σ α ε β : Type} {R : σ → List β → σ → Prop} (rel : StepRelation R)
    {run : σ → α → Except ε σ} {steps : σ → α → List β} :
    ∀ {as : List α} {s s' : σ},
      (∀ a ∈ as, ∀ t t', run t a = .ok t' → R t (steps t a) t') →
      as.foldlM run s = .ok s' → R s (foldSteps run steps as s) s'
  | [], s, s', _, done => by
    cases done
    exact rel.refl s
  | a :: as, s, s', each, done => by
    rw [List.foldlM_cons] at done
    cases first : run s a with
    | error e => rw [first] at done; cases done
    | ok t =>
      rw [first] at done
      have later := StepRelation.foldlM rel (fun b later => each b (List.mem_cons_of_mem a later)) done
      unfold foldSteps
      rw [first]
      exact rel.trans (each a List.mem_cons_self s t first) later

/-- What every character written and every line broken keep holds for a string. -/
theorem StepRelation.outChars {R : Renderer → List RenderStep → Renderer → Prop}
    (rel : StepRelation R) {outc : Outc} {wrap : Bool} {escape : Escaping}
    (start : ∀ r : Renderer, R r [] r.startLine)
    (write : ∀ (c : Nat) (rest : Bytes) (r : Renderer),
      R r [.write escape c r] (writeChar outc wrap escape c rest r).2)
    (broken : ∀ r : Renderer, r.breaks → R r [.breakLine r] r.breakLine) :
    ∀ (fuel : Nat) (s : Bytes) (r : Renderer),
      R r (outSteps outc wrap escape fuel s r) (CmarkGfm.outChars outc wrap escape fuel s r)
  | 0, _, r => rel.refl r
  | _ + 1, [], r => rel.refl r
  | fuel + 1, b :: bs, r => by
    unfold outSteps CmarkGfm.outChars
    dsimp only
    cases utf8Iterate (b :: bs) with
    | none => exact start r
    | some char =>
      obtain ⟨c, len⟩ := char
      dsimp only
      have written := rel.trans (start r) (write c ((b :: bs).drop len) r.startLine)
      generalize writeChar outc wrap escape c ((b :: bs).drop len) r.startLine = w at written ⊢
      obtain ⟨rest, r'⟩ := w
      by_cases breaks : r'.breaks
      · simp only [breaks, if_true]
        have later := StepRelation.outChars rel start write broken fuel rest r'.breakLine
        exact rel.trans written (rel.trans (broken r' breaks) later)
      · simp only [breaks, if_false, Bool.false_eq_true]
        exact rel.trans written (StepRelation.outChars rel start write broken fuel rest r')

end CmarkGfm
