import CmarkGfm.Properties.Expansion
import CmarkGfm.Properties.OpenBlocks

/-!
# The steps in which blocks change

Whatever the block parser does to the blocks comes down to a few steps: data is edited, a block is
linked behind another one, a paragraph is dropped. What every step keeps, a whole document keeps.
-/

namespace CmarkGfm

/-- What happens to the data of a block that is there: text is added, the block is closed, or a
setext heading line makes a heading of a paragraph. -/
inductive DataStep : NodeData → NodeData → Prop
  | content {d e : NodeData} : e.type = d.type → e.as = d.as → e.extension = d.extension →
      (e.isOpen → d.isOpen) → DataStep d e
  | close {d e : NodeData} : e.type = d.type → e.extension = d.extension → e.isOpen = false →
      (d.type = .codeBlock ∨ d.type = .htmlBlock ∨ d.type = .list) → DataStep d e
  | setext {d : NodeData} (lev : Nat) : d.type = .paragraph → 1 ≤ lev → lev ≤ 6 →
      DataStep d { d with type := .heading, as := .heading lev true }

/-- A block as the block parser makes it: headings have a level, and the label of a footnote
definition starts with a visible character. -/
structure FreshBlock (P : Config) (d : NodeData) : Prop where
  core : d.type.isCoreBlock
  extension : d.extension = none
  heading : d.type = .heading → 1 ≤ d.as.getLevel ∧ d.as.getLevel ≤ 6
  definition : d.type = .footnoteDefinition → P.options.has optFootnotes ∧
    ∃ c rest, d.as.getLiteral = c :: rest ∧ c ≠ 0 ∧ isspace c = false

/-- The steps of the block parser. `E` holds between the states before and after a callback. -/
inductive BlockStep (P : Config) (E : ParserState → ParserState → Prop) :
    ParserState → ParserState → Prop
  | quiet {p p' : ParserState} : p'.shape = p.shape → p'.root = p.root → p'.nextId = p.nextId →
      (p'.asserts → p.asserts) → BlockStep P E p p'
  | edit {p : ParserState} (i : NodeId) (f : NodeData → NodeData) :
      (∀ b, p.nodes i = some b → DataStep b.data (f b.data)) → BlockStep P E p (p.modifyData i f)
  | append {p : ParserState} (parent : NodeId) (data : NodeData) : FreshBlock P data →
      (p.asserts → P.nodeCanContainType (p.dataOf parent) data.type) →
      BlockStep P E p (p.appendBlock parent data).1
  | free {p : ParserState} (i : NodeId) : p.typeOf i = .paragraph → BlockStep P E p (p.freeBlock i)
  | callback {p p' : ParserState} : E p p' → BlockStep P E p p'
  | trans {p p' p'' : ParserState} : BlockStep P E p p' → BlockStep P E p' p'' → BlockStep P E p p''

section

variable {P : Config} {E : ParserState → ParserState → Prop} {p p' : ParserState}

theorem BlockStep.refl (p : ParserState) : BlockStep P E p p := .quiet rfl rfl rfl id

theorem Quiet.step (quiet : Quiet p p') : BlockStep P E p p' :=
  .quiet quiet.shape quiet.root quiet.nextId (quiet.asserts ▸ id)

theorem BlockStep.assert (p : ParserState) (condition : Bool) :
    BlockStep P E p (p.assert condition) :=
  .quiet rfl rfl rfl fun holds => (Bool.and_eq_true_iff.mp holds).1

/-- Text is added, or flags and positions change. -/
theorem BlockStep.content (p : ParserState) (i : NodeId) (f : NodeData → NodeData)
    (same : ∀ d, (f d).type = d.type ∧ (f d).as = d.as ∧ (f d).extension = d.extension ∧
      ((f d).isOpen → d.isOpen)) :
    BlockStep P E p (p.modifyData i f) :=
  .edit i f fun b _ => .content (same b.data).1 (same b.data).2.1 (same b.data).2.2.1
    (same b.data).2.2.2

/-- A state with other fields for the line, the map of references or the current block. -/
theorem BlockStep.reframe {q : ParserState} (step : BlockStep P E p p') (nodes : q.nodes = p'.nodes)
    (root : q.root = p'.root) (nextId : q.nextId = p'.nextId) (asserts : q.asserts = p'.asserts) :
    BlockStep P E p q := by
  refine step.trans (.quiet ?_ root nextId (asserts ▸ id))
  funext i
  rw [ParserState.shape, nodes]
  rfl

/-! ### Closing blocks -/

theorem step_resolveReferenceLinkDefinitions (T : Tables) (b : NodeId) (p : ParserState) :
    BlockStep P E p (resolveReferenceLinkDefinitions T b p).1 := by
  unfold resolveReferenceLinkDefinitions
  extract_lets content
  generalize resolveReferences T content.length content p.refmap = r
  obtain ⟨rest, refmap⟩ := r
  exact (BlockStep.content p b (fun d => { d with content := rest }) fun _ => ⟨rfl, rfl, rfl, id⟩).reframe
    rfl rfl rfl rfl

/-- The block has been closed before its content is looked at. -/
def Shut (p : ParserState) (b : NodeId) : Prop := ∀ e, p.nodes b = some e → e.data.isOpen = false

theorem Shut.of_shape {q : ParserState} {b : NodeId} (shut : Shut p b) (same : q.shape b = p.shape b) :
    Shut q b := by
  intro e block
  rw [ParserState.shape, ParserState.shape, block] at same
  obtain ⟨e', block', equal⟩ := Option.map_eq_some_iff.mp same.symm
  exact (congrArg BlockShape.isOpen equal).symm.trans (shut e' block')

theorem step_finalizeCode (T : Tables) {b : NodeId} (code : p.typeOf b = .codeBlock)
    (shut : Shut p b) : BlockStep P E p (finalizeCode T b p) := by
  have type {q : ParserState} (same : q.nodes = p.nodes) {e : Block} (block : q.nodes b = some e) :
      e.data.type = .codeBlock := by
    rw [same] at block
    rw [← code, ParserState.typeOf, ParserState.dataOf, ParserState.block, block]
    rfl
  unfold finalizeCode
  extract_lets d data line q rest rest' rest'' info
  split
  next =>
    refine .trans (.assert p _) (.edit b _ fun e block => .close rfl rfl (shut e block) (.inl ?_))
    exact type rfl block
  next => exact .edit b _ fun e block => .close rfl rfl (shut e block) (.inl (type rfl block))

theorem step_finalizeContent (P : Config) {b : NodeId} {p : ParserState} (shut : Shut p b) :
    BlockStep P E p (finalizeContent P b p) := by
  have type {q : ParserState} {t : NodeType} (isType : q.typeOf b = t) {e : Block}
      (block : q.nodes b = some e) : e.data.type = t := by
    rw [← isType, ParserState.typeOf, ParserState.dataOf, ParserState.block, block]
    rfl
  unfold finalizeContent
  split
  next paragraph =>
    have resolved : BlockStep P E p _ := step_resolveReferenceLinkDefinitions P.tables b p
    have alters : Alters b p (resolveReferenceLinkDefinitions P.tables b p).1 :=
      alters_resolveReferenceLinkDefinitions P.tables
    generalize resolveReferenceLinkDefinitions P.tables b p = r at resolved alters ⊢
    obtain ⟨q, hasContent⟩ := r
    dsimp only at resolved alters ⊢
    split
    next =>
      refine resolved.trans (.free b ?_)
      obtain ⟨l, block, _⟩ := typeOf_paragraph_links paragraph
      obtain ⟨f, face⟩ := (face_isSome_iff p b).mpr ⟨l, block⟩
      obtain ⟨f', face', same, _⟩ := alters.self face
      rw [typeOf_of_face face', same, ← typeOf_of_face face, paragraph]
    next => exact resolved
  next code => exact step_finalizeCode P.tables code shut
  next html =>
    exact .edit b _ fun e block => .close rfl rfl (shut e block) (.inr (.inl (type html block)))
  next list =>
    have loose := quiet_looseItems p (p.childrenOf b)
    generalize looseItems (p.childrenOf b) p = r at loose ⊢
    obtain ⟨q, isLoose⟩ := r
    have shut' : Shut q b := shut.of_shape (congrFun loose.shape b)
    refine loose.step.trans (.edit b _ fun e block =>
      .close rfl rfl (shut' e block) (.inr (.inr ?_)))
    exact type ((loose.typeOf b).trans list) block
  next => exact .refl p

theorem step_finalize (P : Config) (b : NodeId) (p : ParserState) :
    BlockStep P E p (finalize P b p).1 := by
  have closed : BlockStep P E p ((p.assert (p.isOpen b)).modifyData b fun d => { d with isOpen := false }) :=
    .trans (.assert p _) (.content _ b _ fun _ => ⟨rfl, rfl, rfl, nofun⟩)
  have shut : Shut ((p.assert (p.isOpen b)).modifyData b fun d => { d with isOpen := false }) b := by
    intro e block
    rw [nodes_modifyData, if_pos rfl] at block
    obtain ⟨e', _, rfl⟩ := Option.map_eq_some_iff.mp block
    rfl
  exact (closed.trans (quiet_setEnd _ b).step).trans
    (step_finalizeContent P (shut.of_shape (congrFun (quiet_setEnd _ b).shape b)))

theorem step_closeUnmatched (P : Config) (lastMatched : NodeId) (fuel : Nat) (p : ParserState) :
    BlockStep P E p (closeUnmatched P lastMatched fuel p) := by
  induction fuel generalizing p with
  | zero => exact .refl p
  | succ fuel ih =>
    unfold closeUnmatched
    split
    next => exact .refl p
    next =>
      have closed : BlockStep P E p _ := step_finalize P p.current p
      generalize finalize P p.current p = r at closed ⊢
      obtain ⟨p', parent⟩ := r
      cases parent with
      | some parent => exact (closed.reframe (q := { p' with current := parent }) rfl rfl rfl rfl).trans (ih _)
      | none => exact closed.trans (.assert p' false)

theorem step_closeToRoot (P : Config) (fuel : Nat) (p : ParserState) :
    BlockStep P E p (closeToRoot P fuel p) := by
  induction fuel generalizing p with
  | zero => exact .refl p
  | succ fuel ih =>
    unfold closeToRoot
    split
    next => exact .refl p
    next =>
      have closed : BlockStep P E p _ := step_finalize P p.current p
      generalize finalize P p.current p = r at closed ⊢
      obtain ⟨p', parent⟩ := r
      cases parent with
      | some parent => exact (closed.reframe (q := { p' with current := parent }) rfl rfl rfl rfl).trans (ih _)
      | none => exact closed.trans (.assert p' false)

theorem step_finalizeBlocks (P : Config) (p : ParserState) : BlockStep P E p (finalizeBlocks P p) :=
  (step_closeToRoot P _ p).trans (step_finalize P _ _)

/-! ### Adding blocks -/

/-- The block that `add_child` links the child to accepts it, unless an assertion failed. -/
theorem acceptingParent_steps (P : Config) (t : NodeType) (fuel : Nat) (parent : NodeId)
    (p : ParserState) : ∃ q i, acceptingParent P t fuel parent p = (q, i) ∧ BlockStep P E p q ∧
      (q.asserts → P.nodeCanContainType (q.dataOf i) t) := by
  have failed (q : ParserState) (i : NodeId) :
      (q.assert false).asserts → P.nodeCanContainType ((q.assert false).dataOf i) t := by
    intro holds
    exact absurd (Bool.and_eq_true_iff.mp holds).2 Bool.false_ne_true
  induction fuel generalizing parent p with
  | zero => exact ⟨_, parent, rfl, .assert p false, failed p parent⟩
  | succ fuel ih =>
    unfold acceptingParent
    split
    next accepts => exact ⟨p, parent, rfl, .refl p, fun _ => accepts⟩
    next =>
      have closed : BlockStep P E p _ := step_finalize P parent p
      generalize finalize P parent p = r at closed ⊢
      obtain ⟨p', grandparent⟩ := r
      cases grandparent with
      | some grandparent =>
        obtain ⟨q, i, eq, step, accepts⟩ := ih grandparent p'
        exact ⟨q, i, eq, closed.trans step, accepts⟩
      | none => exact ⟨_, parent, rfl, closed.trans (.assert p' false), failed p' parent⟩

/-- A new block that is filled in at once is linked with the data it gets. -/
theorem modifyData_appendBlock (p : ParserState) (parent : NodeId) (data : NodeData)
    (f : NodeData → NodeData) : (p.appendBlock parent data).1.modifyData p.nextId f =
      (p.appendBlock parent (f data)).1 := by
  unfold ParserState.appendBlock ParserState.modifyData
  dsimp only
  rw [ParserState.modify]
  congr 1
  funext j
  by_cases here : j = p.nextId <;> simp [here]

theorem step_addChild (parent : NodeId) {t : NodeType} (startColumn : Int) (p : ParserState)
    (f : NodeData → NodeData) (type : ∀ d, (f d).type = d.type)
    (fresh : ∀ line, FreshBlock P (f (makeBlock t line startColumn))) :
    BlockStep P E p ((addChild P parent t startColumn p).1.modifyData
      (addChild P parent t startColumn p).2 f) := by
  obtain ⟨q, i, eq, step, accepts⟩ := acceptingParent_steps (E := E) P t (p.nextId + 1) parent p
  unfold addChild
  rw [eq]
  dsimp only
  rw [show (q.appendBlock i _).2 = q.nextId from rfl, modifyData_appendBlock]
  exact step.trans (.append i _ (fresh _) fun holds => (type _).symm ▸ accepts holds)

theorem modifyData_id (p : ParserState) (i : NodeId) : p.modifyData i id = p := by
  unfold ParserState.modifyData ParserState.modify
  congr 1
  funext j
  split
  next here =>
    rw [here]
    exact congrFun Option.map_id (p.nodes i)
  next => rfl

theorem step_addLine (node : NodeId) (ch : Bytes) (p : ParserState) :
    BlockStep P E p (addLine node ch p) := by
  have asserted : BlockStep P E p (p.assert (p.isOpen node)) := .assert p _
  unfold addLine
  dsimp only
  split
  all_goals
    refine .trans ?_ (.content _ node _ fun _ => ⟨rfl, rfl, rfl, id⟩)
    exact asserted.reframe rfl rfl rfl rfl

/-! ### What the scanners find -/

namespace Scanners

open Regex

theorem scan_sound {r : Re} {input : Bytes} (found : 0 < scan r input) :
    scan r input ≤ input.length ∧ Matches CharClass.mem r (input.take (scan r input)) := by
  unfold scan at found ⊢
  cases longest : longestMatch CharClass.mem r input with
  | none =>
    rw [longest] at found
    exact absurd found (lt_irrefl 0)
  | some n => exact longestMatch_sound CharClass.mem r input n longest

theorem mem_single {c d : UInt8} (inClass : CharClass.mem ⟨false, [(c, c)]⟩ d = true) : d = c := by
  simp only [CharClass.mem, List.any_cons, List.any_nil, Bool.or_false, bne_iff_ne, ne_eq,
    Bool.false_eq, Bool.not_eq_false, Bool.and_eq_true, decide_eq_true_eq] at inClass
  exact UInt8.le_antisymm inClass.2 inClass.1

/-- A number sign, as a class. -/
def numberSign : Re := oneOf [(chr '#', chr '#')]

/-- The number signs of an ATX heading. -/
theorem atxHeadingStart_level {input : Bytes} (found : 0 < atxHeadingStart input) :
    1 ≤ (input.takeWhile (· == chr '#')).length ∧ (input.takeWhile (· == chr '#')).length ≤ 6 := by
  obtain ⟨_, matched⟩ := scan_sound found
  generalize taken : input.take (scan _ input) = w at matched
  have whole : input = w ++ input.drop (scan _ input) := taken ▸ (List.take_append_drop _ input).symm
  generalize input.drop (scan _ input) = after at whole
  cases matched with
  | @seq _ _ u v hashes blank =>
    -- between one and six number signs
    have signs : 1 ≤ u.length ∧ u.length ≤ 6 ∧ ∀ c ∈ u, c = chr '#' := by
      cases hashes with
      | @seq _ _ u' v' one more =>
        cases one with
        | seq sign none =>
          cases none
          have first : Matches CharClass.mem numberSign _ := sign
          cases first with
          | @cls _ c' inClass =>
            have upTo : Matches CharClass.mem (.upTo numberSign 5) v' := more
            obtain ⟨few, members⟩ := mem_of_matches_upTo upTo
            refine ⟨by simp, by simp; omega, ?_⟩
            intro c member
            rcases List.mem_append.mp member with here | later
            · have same : c = c' := by simpa using here
              rw [same]
              exact mem_single inClass
            · exact mem_single (members c later)
    -- and a blank or the end of the line
    obtain ⟨d, rest, eq, other⟩ : ∃ d rest, v = d :: rest ∧ d ≠ chr '#' := by
      cases blank with
      | left spaces =>
        cases spaces with
        | seq space rest =>
          cases space with
          | @cls _ c inClass =>
            refine ⟨c, _, rfl, ?_⟩
            rintro rfl
            exact absurd inClass (by decide)
      | right lineEnd =>
        cases lineEnd with
        | @cls _ c inClass =>
          refine ⟨c, [], rfl, ?_⟩
          rintro rfl
          exact absurd inClass (by decide)
    have counted : input.takeWhile (· == chr '#') = u := by
      rw [whole, eq, List.append_assoc, List.takeWhile_append_of_pos]
      · simp [other]
      · intro c member
        exact beq_iff_eq.mpr (signs.2.2 c member)
    rw [counted]
    exact ⟨signs.1, signs.2.1⟩

theorem setextHeadingLine_level (input : Bytes) : setextHeadingLine input ≤ 2 := by
  rcases scanCode_mem _ input with none | member
  · exact none.le.trans (Nat.zero_le 2)
  · rcases List.mem_cons.mp member with one | later
    · exact one.le.trans (by decide)
    · exact (List.mem_singleton.mp later).le

theorem cons_of_matches_oneOf {ranges : List (UInt8 × UInt8)} {b : Re} {w : Bytes} {low : UInt8}
    (bound : ∀ r ∈ ranges, low ≤ r.1) (matched : Matches CharClass.mem (.seq (oneOf ranges) b) w) :
    ∃ c more, w = c :: more ∧ low ≤ c := by
  cases matched with
  | seq first rest =>
    cases first with
    | @cls _ c inClass =>
      refine ⟨c, _, rfl, ?_⟩
      simp only [CharClass.mem, bne_iff_ne, ne_eq, Bool.false_eq, Bool.not_eq_false,
        List.any_eq_true, Bool.and_eq_true, decide_eq_true_eq] at inClass
      obtain ⟨r, member, above, _⟩ := inClass
      exact UInt8.le_trans (bound r member) above

theorem cons_of_matches_multibyte {w : Bytes} (matched : Matches CharClass.mem multibyte w) :
    ∃ c more, w = c :: more ∧ 0x80 ≤ c := by
  obtain ⟨r, member, matched⟩ := (matches_alts_iff _ w).mp matched
  simp only [List.mem_cons, List.not_mem_nil, or_false] at member
  rcases member with rfl | rfl | rfl | rfl | rfl | rfl | rfl
  all_goals exact cons_of_matches_oneOf (by simp) matched

/-- A character outside a class of ASCII characters starts with a byte outside the class. -/
theorem cons_of_matches_noneOf {ranges : List (UInt8 × UInt8)} {w : Bytes}
    (matched : Matches CharClass.mem (noneOf ranges) w) :
    ∃ c more, w = c :: more ∧ (CharClass.mem ⟨true, nul :: ranges⟩ c = true ∨ 0x80 ≤ c) := by
  cases matched with
  | left one =>
    cases one with
    | @cls _ c inClass =>
      refine ⟨c, [], rfl, .inl ?_⟩
      simp only [CharClass.mem, List.any_cons] at inClass ⊢
      grind
  | right many =>
    obtain ⟨c, more, rfl, high⟩ := cons_of_matches_multibyte many
    exact ⟨c, more, rfl, .inr high⟩

/-- The label of a footnote definition: visible characters up to the bracket that closes it. -/
theorem footnoteDefinition_label {input : Bytes} (found : 0 < footnoteDefinition input) :
    ∃ c rest, (((input.drop 2).take (footnoteDefinition input - 2)).rdropWhile
      (· != chr ']')).dropLast = c :: rest ∧ c ≠ 0 ∧ isspace c = false := by
  obtain ⟨_, matched⟩ := scan_sound found
  have taken : (input.drop 2).take (footnoteDefinition input - 2) =
      (input.take (footnoteDefinition input)).drop 2 := by
    rw [List.drop_take]
  rw [taken]
  change Matches CharClass.mem _ (input.take (footnoteDefinition input)) at matched
  generalize input.take (footnoteDefinition input) = w at matched
  cases matched with
  | @seq _ _ w₁ _ opening rest =>
    cases rest with
    | @seq _ _ w₂ _ label rest =>
      cases rest with
      | @seq _ _ w₃ w₄ closing spaces =>
        obtain ⟨a, b, rfl⟩ : ∃ a b, w₁ = [a, b] := by
          have two : Matches CharClass.mem (.seq (oneOf [(chr '[', chr '[')])
            (oneOf [(chr '^', chr '^')])) w₁ := opening
          cases two with
          | seq first second =>
            cases first
            cases second
            exact ⟨_, _, rfl⟩
        obtain ⟨d, rfl, colon⟩ : ∃ d, w₃ = [chr ']', d] ∧ d = chr ':' := by
          have two : Matches CharClass.mem (.seq (oneOf [(chr ']', chr ']')])
            (oneOf [(chr ':', chr ':')])) w₃ := closing
          cases two with
          | seq first second =>
            cases first with
            | cls bracket =>
              cases second with
              | cls colon => exact ⟨_, by rw [mem_single bracket]; rfl, mem_single colon⟩
        obtain ⟨c, more, rfl, visible⟩ : ∃ c more, w₂ = c :: more ∧
            (c = 0 ∨ isspace c = true → False) := by
          cases label with
          | seq first rest =>
            obtain ⟨c, more, rfl, inClass⟩ := cons_of_matches_noneOf first
            refine ⟨c, more ++ _, rfl, ?_⟩
            rintro (rfl | space)
            · exact absurd inClass (by decide)
            · simp only [isspace, Bool.or_eq_true, beq_iff_eq] at space
              rcases space with ((rfl | rfl) | rfl) | rfl <;> exact absurd inClass (by decide)
        have after : ∀ x ∈ d :: w₄, (x != chr ']') = true := by
          intro x member
          rcases List.mem_cons.mp member with rfl | blank
          · rw [colon]
            decide
          · have repeated : Matches CharClass.mem (.star (oneOf (chars " \t"))) w₄ := spaces
            have inClass := mem_of_matches_star repeated x blank
            rw [bne_iff_ne]
            rintro rfl
            exact absurd inClass (by decide)
        refine ⟨c, more, ?_, ?_, ?_⟩
        · have shape : List.drop 2 ([a, b] ++ (c :: more ++ ([chr ']', d] ++ w₄))) =
              (c :: more ++ [chr ']']) ++ (d :: w₄) := by simp
          rw [shape, rdropWhile_append_of_pos after, List.rdropWhile_concat_neg _ _ _ (by decide),
            List.dropLast_concat]
        · exact fun nul => visible (.inl nul)
        · exact Bool.eq_false_iff.mpr fun space => visible (.inr space)

end Scanners

/-! ### Opening blocks -/

/-- What the scanners found about a block start. -/
def BlockStart.Fits (P : Config) (input : Bytes) (container : NodeId) (p : ParserState) :
    BlockStart → Prop
  | .atxHeading _ =>
    1 ≤ ((input.drop p.firstNonspace).takeWhile (· == chr '#')).length ∧
      ((input.drop p.firstNonspace).takeWhile (· == chr '#')).length ≤ 6
  | .setextHeading lev => p.typeOf container = .paragraph ∧ 1 ≤ lev ∧ lev ≤ 6
  | .footnoteDefinition matched => P.options.has optFootnotes ∧
    ∃ c rest, ((chunkDup input (p.firstNonspace + 2) (matched - 2)).rdropWhile
      (· != chr ']')).dropLast = c :: rest ∧ c ≠ 0 ∧ isspace c = false
  | _ => True

/-- Add a block of a type that needs nothing more. -/
theorem step_addOther {t : NodeType} (core : t.isCoreBlock)
    (other : t ≠ .heading ∧ t ≠ .footnoteDefinition) (parent : NodeId) (startColumn : Int)
    (as : NodeAs) (p : ParserState) :
    BlockStep P E p ((addChild P parent t startColumn p).1.modifyData
      (addChild P parent t startColumn p).2 fun d => { d with as := as }) :=
  step_addChild parent startColumn p _ (fun _ => rfl) fun _ =>
    ⟨core, rfl, fun type => absurd type other.1, fun type => absurd type other.2⟩

theorem step_addPlain {t : NodeType} (core : t.isCoreBlock)
    (other : t ≠ .heading ∧ t ≠ .footnoteDefinition) (parent : NodeId) (startColumn : Int)
    (p : ParserState) : BlockStep P E p (addChild P parent t startColumn p).1 := by
  have step : BlockStep P E p _ := step_addChild parent startColumn p id (fun _ => rfl) fun _ =>
    (⟨core, rfl, fun type => absurd type other.1, fun type => absurd type other.2⟩ :
      FreshBlock P (makeBlock t _ startColumn))
  rwa [modifyData_id] at step

theorem step_setextHeading (P : Config) (input : Bytes) {lev : Nat} {container : NodeId}
    {p : ParserState} (paragraph : p.typeOf container = .paragraph) (low : 1 ≤ lev) (high : lev ≤ 6) :
    BlockStep P E p (setextHeading P input lev container p) := by
  have resolved : BlockStep P E p _ :=
    step_resolveReferenceLinkDefinitions P.tables container p
  have alters : Alters container p (resolveReferenceLinkDefinitions P.tables container p).1 :=
    alters_resolveReferenceLinkDefinitions P.tables
  unfold setextHeading
  generalize resolveReferenceLinkDefinitions P.tables container p = r at resolved alters ⊢
  obtain ⟨q, hasContent⟩ := r
  cases hasContent with
  | false => exact resolved
  | true =>
    dsimp only at resolved alters ⊢
    have stillParagraph : q.typeOf container = .paragraph := by
      obtain ⟨l, block, _⟩ := typeOf_paragraph_links paragraph
      obtain ⟨f, face⟩ := (face_isSome_iff p container).mpr ⟨l, block⟩
      obtain ⟨f', face', same, _⟩ := alters.self face
      rw [typeOf_of_face face', same, ← typeOf_of_face face, paragraph]
    refine resolved.trans (.trans (.edit container _ fun b block => ?_) (quiet_advanceTo input _ _).step)
    refine .setext lev ?_ low high
    rw [← stillParagraph, ParserState.typeOf, ParserState.dataOf, ParserState.block, block]
    rfl

theorem step_openListItem (P : Config) (input : Bytes) (matched : Nat) (data : ListData)
    (container : NodeId) (p : ParserState) :
    BlockStep P E p (openListItem P input matched data container p).1 := by
  unfold openListItem
  extract_lets contType startColumn
  have padded : BlockStep P E p
      (markerPadding input matched (advanceTo input (p.firstNonspace + matched) p)).1 :=
    ((quiet_advanceTo input p _).trans (quiet_markerPadding input _ matched)).step
  generalize markerPadding input matched _ = r at padded ⊢
  obtain ⟨q, padding⟩ := r
  dsimp -zeta only at padded ⊢
  extract_lets data
  split
  next =>
    exact (padded.trans (step_addOther rfl (by decide) container startColumn _ q)).trans
      (step_addOther rfl (by decide) _ startColumn _ _)
  next => exact padded.trans (step_addOther rfl (by decide) container startColumn _ q)

theorem step_openBlock (P : Config) (input : Bytes) (container : NodeId) (p : ParserState)
    {start : BlockStart} (fits : start.Fits P input container p) :
    BlockStep P E p (openBlock P input container p start).1 := by
  cases start with
  | blockQuote =>
    have read := (quiet_advanceTo input p (p.firstNonspace + 1)).trans
      (quiet_advanceOptionalSpace input _)
    exact read.step.trans (step_addPlain rfl (by decide) container _ _)
  | atxHeading matched =>
    refine (quiet_advanceTo input p (p.firstNonspace + matched)).step.trans ?_
    exact step_addChild container _ _ (fun d => { d with
      as := .heading ((input.drop p.firstNonspace).takeWhile (· == chr '#')).length false
      internalOffset := matched }) (fun _ => rfl) fun _ =>
        ⟨rfl, rfl, fun _ => fits, fun type => NodeType.noConfusion type⟩
  | fencedCode matched =>
    exact (step_addOther rfl (by decide) container _ _ p).trans (quiet_advanceTo input _ _).step
  | htmlBlock matched => exact step_addOther rfl (by decide) container _ _ p
  | setextHeading lev => exact step_setextHeading P input fits.1 fits.2.1 fits.2.2
  | thematicBreak =>
    exact (step_addPlain rfl (by decide) container _ p).trans (quiet_advanceTo input _ _).step
  | footnoteDefinition matched =>
    refine (quiet_advanceTo input p (p.firstNonspace + matched)).step.trans ?_
    exact step_addChild container _ _ (fun d => { d with
      as := .literal ((chunkDup input (p.firstNonspace + 2) (matched - 2)).rdropWhile
        (· != chr ']')).dropLast
      internalOffset := matched }) (fun _ => rfl) fun _ =>
        ⟨rfl, rfl, fun type => NodeType.noConfusion type, fun _ => fits⟩
  | listItem matched data => exact step_openListItem P input matched data container p
  | indentedCode =>
    refine (quiet_advanceOffset input p codeIndent true).step.trans ?_
    exact step_addOther rfl (by decide) container _ _ _

/-- What is found fits the line. -/
theorem findBlockStart_fits (P : Config) (input : Bytes) (allMatched maybeLazy : Bool) (depth : Nat)
    (container : NodeId) (p : ParserState) : ∀ start,
    (findBlockStart P input allMatched maybeLazy depth container p).2 = some start →
      start.Fits P input container
        (findBlockStart P input allMatched maybeLazy depth container p).1 := by
  obtain ⟨killPos, same⟩ := findBlockStart_fst input p P allMatched maybeLazy depth container
  have fits := (findBlockStart_found input p P allMatched maybeLazy depth container).2
  intro start result
  have found := fits start result
  rw [same]
  cases start with
  | atxHeading matched =>
    obtain ⟨_, rfl, some⟩ := found
    exact Scanners.atxHeadingStart_level some
  | setextHeading lev =>
    obtain ⟨_, paragraph, rfl, some⟩ := found
    exact ⟨paragraph, some, (Scanners.setextHeadingLine_level _).trans (by decide)⟩
  | footnoteDefinition matched =>
    obtain ⟨enabled, rfl, some⟩ := found
    have label := Scanners.footnoteDefinition_label some
    refine ⟨enabled, ?_⟩
    dsimp only
    rw [chunkDup, ← List.drop_drop]
    exact label
  | _ => trivial

end

/-! ### One line -/

/-- The callbacks that an extension has for blocks make steps only. -/
structure Extension.Steps (P : Config) (E : ParserState → ParserState → Prop) (e : Extension) :
    Prop where
  lastBlockMatches : ∀ f, e.lastBlockMatches = some f → ∀ p input container,
    BlockStep P E p (f P.options p input container).1
  tryOpeningBlock : ∀ f, e.tryOpeningBlock = some f → ∀ indented p container input,
    BlockStep P E p (f P.options indented p container input).1

/-- The callbacks for blocks that are open make steps only. -/
def MatchSteps (P : Config) (E : ParserState → ParserState → Prop) : Prop :=
  ∀ e ∈ P.syntaxExtensions, ∀ f, e.lastBlockMatches = some f → ∀ p input container,
    BlockStep P E p (f P.options p input container).1

section

variable {P : Config} {E : ParserState → ParserState → Prop}
  (extensions : ∀ e ∈ P.syntaxExtensions, e.Steps P E) (matching : MatchSteps P E) (input : Bytes)

include extensions in
theorem matchSteps_of_steps : MatchSteps P E := fun e member => (extensions e member).lastBlockMatches

theorem step_parseCodeBlockPrefix (P : Config) (container : NodeId) (p : ParserState) :
    BlockStep P E p (parseCodeBlockPrefix P input container p).1 := by
  unfold parseCodeBlockPrefix
  extract_lets code matched
  split
  next =>
    split
    next => exact (quiet_advanceOffset input p _ _).step
    next =>
      split
      next => exact (quiet_advanceTo input p _).step
      next => exact .refl p
  next =>
    split
    next =>
      have closed : BlockStep P E p _ := (quiet_advanceOffset input p matched false).step.trans
        (step_finalize P container _)
      exact closed.reframe rfl rfl rfl rfl
    next => exact (quiet_skipFenceOffset input p _).step

include matching in
theorem step_parseBlockPrefix (container : NodeId) (p : ParserState) :
    BlockStep P E p (parseBlockPrefix P input container p).1 := by
  unfold parseBlockPrefix
  split
  next ext found =>
    have member : ext ∈ P.syntaxExtensions := by
      obtain ⟨i, _, at_i⟩ := Option.bind_eq_some_iff.mp found
      exact List.mem_of_getElem? at_i
    unfold prefixResult parseExtensionBlock
    dsimp only
    split
    next f callback => exact matching ext member f callback _ _ _
    next => exact .refl p
  next =>
    split
    next => exact (quiet_parseBlockQuotePrefix input p).step
    next => exact (quiet_parseNodeItemPrefix input container p).step
    next => exact step_parseCodeBlockPrefix input P container p
    next => exact .refl p
    next => exact .assert p _
    next => exact .refl p
    next => exact (quiet_parseFootnoteDefinitionBlockPrefix input p).step
    next => exact .refl p

include matching in
theorem step_checkOpenBlocksFrom (fuel : Nat) (container : NodeId) (p : ParserState) :
    BlockStep P E p (checkOpenBlocksFrom P input fuel container p).1 := by
  induction fuel generalizing container p with
  | zero => exact .refl p
  | succ fuel ih =>
    unfold checkOpenBlocksFrom
    split
    next => exact .refl p
    next child _ =>
      have step := (quiet_findFirstNonspace input p).step.trans
        (step_parseBlockPrefix matching input child (findFirstNonspace input p))
      generalize parseBlockPrefix P input child (findFirstNonspace input p) = r at step ⊢
      obtain ⟨p', result⟩ := r
      cases result with
      | matched => exact step.trans (ih child p')
      | unmatched => exact step
      | closed => exact step

theorem step_tryOpeningBlocks (indented : Bool) (container : NodeId) (exts : List Extension)
    (steps : ∀ e ∈ exts, e.Steps P E) (p : ParserState) :
    BlockStep P E p (tryOpeningBlocks P indented input container exts p).1 := by
  induction exts generalizing p with
  | nil => exact .refl p
  | cons ext rest ih =>
    have later := ih fun e member => steps e (List.mem_cons_of_mem ext member)
    unfold tryOpeningBlocks
    split
    next => exact later p
    next f callback =>
      have step := (steps ext (List.mem_cons_self ..)).tryOpeningBlock f callback indented p
        container input
      generalize f P.options indented p container input = r at step ⊢
      obtain ⟨p', newContainer⟩ := r
      cases newContainer with
      | some newContainer => exact step
      | none => exact step.trans (later p')

/-- One turn of the loop, if what the callbacks do when no block start is found is made of steps. -/
theorem step_openNewBlock_of {allMatched maybeLazy : Bool} {depth : Nat} {container : NodeId} {p : ParserState}
    (tries : (findBlockStart P input allMatched maybeLazy depth container (findFirstNonspace input p)).2 = none →
      ∀ indented q, Quiet p q →
        BlockStep P E q (tryOpeningBlocks P indented input container P.syntaxExtensions q).1) :
    BlockStep P E p (openNewBlock P input allMatched maybeLazy depth container p).1 := by
  unfold openNewBlock
  extract_lets p' indented
  have found : Quiet p _ := (quiet_findFirstNonspace input p).trans
    (quiet_findBlockStart input p' P allMatched maybeLazy depth container)
  have fits := findBlockStart_fits P input allMatched maybeLazy depth container p'
  generalize findBlockStart P input allMatched maybeLazy depth container p' = r at tries found fits ⊢
  obtain ⟨q, start⟩ := r
  cases start with
  | some start => exact found.step.trans (step_openBlock P input container q (fits start rfl))
  | none => exact found.step.trans (tries rfl indented q found)

include extensions in
theorem step_openNewBlock (allMatched maybeLazy : Bool) (depth : Nat) (container : NodeId)
    (p : ParserState) :
    BlockStep P E p (openNewBlock P input allMatched maybeLazy depth container p).1 :=
  step_openNewBlock_of input fun _ indented q _ => step_tryOpeningBlocks input indented container _ extensions q

include extensions in
theorem step_openNewBlocksFrom (allMatched : Bool) (fuel : Nat) (maybeLazy : Bool) (depth : Nat)
    (container : NodeId) (p : ParserState) :
    BlockStep P E p (openNewBlocksFrom P input allMatched fuel maybeLazy depth container p).1 := by
  induction fuel generalizing maybeLazy depth container p with
  | zero => exact .refl p
  | succ fuel ih =>
    unfold openNewBlocksFrom
    split
    next => exact .refl p
    next =>
      have step := step_openNewBlock extensions input allMatched maybeLazy (depth + 1) container p
      generalize openNewBlock P input allMatched maybeLazy (depth + 1) container p = r at step ⊢
      obtain ⟨p', newContainer⟩ := r
      cases newContainer with
      | none => exact step
      | some newContainer =>
        dsimp only
        split
        next => exact step
        next => exact step.trans (ih _ _ _ p')

theorem step_addHtmlLine (container : NodeId) (p : ParserState) :
    BlockStep P E p (addHtmlLine P input container p).1 := by
  have added : BlockStep P E p _ := step_addLine container input p
  unfold addHtmlLine
  dsimp only
  split
  next =>
    have closed : BlockStep P E p _ := added.trans (step_finalize P container _)
    generalize finalize P container (addLine container input p) = r at closed ⊢
    obtain ⟨p', parent⟩ := r
    cases parent with
    | some parent => exact closed
    | none => exact closed.trans (.assert p' false)
  next => exact added

theorem step_addParagraph (container : NodeId) (p : ParserState) :
    BlockStep P E p (addParagraph P input container p).1 := by
  unfold addParagraph
  extract_lets startColumn
  have added : BlockStep P E p _ :=
    step_addPlain (t := .paragraph) rfl (by decide) container startColumn p
  generalize addChild P container .paragraph startColumn p = r at added ⊢
  obtain ⟨p', paragraph⟩ := r
  exact (added.trans (quiet_skipIndentation input p' P).step).trans (step_addLine paragraph input _)

theorem step_addContainerLine (container : NodeId) (p : ParserState) :
    BlockStep P E p (addContainerLine P input container p).1 := by
  unfold addContainerLine
  dsimp only
  split
  next => exact step_addLine container input p
  next =>
    split
    next => exact step_addHtmlLine input container p
    next =>
      split
      next => exact .refl p
      next =>
        split
        next => exact (quiet_skipIndentation input p P).step.trans (step_addLine container _ _)
        next => exact step_addParagraph input container p

theorem step_addTextToContainer (container lastMatched : NodeId) (p : ParserState) :
    BlockStep P E p (addTextToContainer P input container lastMatched p).1 := by
  have flagged : BlockStep P E p _ := ((quiet_findFirstNonspace input p).trans
    (quiet_setLastLineBlank (findFirstNonspace input p) container)).step
  unfold addTextToContainer
  dsimp only
  generalize setLastLineBlank container (findFirstNonspace input p) = p' at flagged ⊢
  refine flagged.trans ?_
  split
  next => exact step_addLine _ input p'
  next =>
    have added : BlockStep P E p' _ := (step_closeUnmatched P lastMatched (p'.nextId + 1) p').trans
      (step_addContainerLine input container _)
    exact added.reframe rfl rfl rfl rfl

end

section

variable {P : Config} {E : ParserState → ParserState → Prop}

/-- A line changes the blocks in steps, if opening blocks behind the last one that matches does. -/
theorem step_processLine_of (matching : MatchSteps P E) {p : ParserState} {buffer : Bytes}
    {ensureEndsInNewline : Bool}
    (opens : ∀ q lastMatched allMatched,
      checkOpenBlocks P (prepareLine P buffer ensureEndsInNewline)
        (startLine (prepareLine P buffer ensureEndsInNewline) p) = (q, some lastMatched, allMatched) →
      P.options.has optInlineOnly = false → BlockStep P E p q → BlockStep P E q
        (openNewBlocks P (prepareLine P buffer ensureEndsInNewline) allMatched lastMatched q).1) :
    BlockStep P E p (processLine P p buffer ensureEndsInNewline) := by
  unfold processLine
  extract_lets input
  have checked : BlockStep P E p (checkOpenBlocks P input (startLine input p)).1 :=
    (quiet_startLine input p).step.trans (step_checkOpenBlocksFrom matching input _ _ _)
  change ∀ q lastMatched allMatched,
    checkOpenBlocks P input (startLine input p) = (q, some lastMatched, allMatched) → _ at opens
  generalize checkOpenBlocks P input (startLine input p) = r at checked opens ⊢
  obtain ⟨q, lastMatched, allMatched⟩ := r
  cases lastMatched with
  | none => exact checked.reframe rfl rfl rfl rfl
  | some lastMatched =>
    dsimp -zeta only at checked ⊢
    extract_lets current
    have opened : BlockStep P E q (if P.options.has optInlineOnly then (q, lastMatched)
        else openNewBlocks P input allMatched lastMatched q).1 := by
      split
      next => exact .refl q
      next more => exact opens q lastMatched allMatched rfl (by simpa using more) checked
    generalize (if P.options.has optInlineOnly then (q, lastMatched)
      else openNewBlocks P input allMatched lastMatched q) = r at opened ⊢
    obtain ⟨q', container⟩ := r
    dsimp only at opened ⊢
    split
    next =>
      exact ((checked.trans opened).trans
        (step_addTextToContainer input container lastMatched q')).reframe rfl rfl rfl rfl
    next => exact (checked.trans opened).reframe rfl rfl rfl rfl

variable (extensions : ∀ e ∈ P.syntaxExtensions, e.Steps P E)

include extensions

/-- A line changes the blocks in steps. -/
theorem step_processLine (p : ParserState) (buffer : Bytes) (ensureEndsInNewline : Bool) :
    BlockStep P E p (processLine P p buffer ensureEndsInNewline) :=
  step_processLine_of (matchSteps_of_steps extensions) fun _ _ _ _ _ _ =>
    step_openNewBlocksFrom extensions _ _ _ _ _ _ _

theorem step_replay (lines : List (Bytes × Bool)) (p : ParserState) :
    BlockStep P E p (replay (processLine P) p lines) := by
  induction lines generalizing p with
  | nil => exact .refl p
  | cons line lines ih => exact (step_processLine extensions p line.1 line.2).trans (ih _)

/-- The blocks of a document come from the document node in steps. -/
theorem step_flushedParser (callback : Option (UInt8 → Bool)) (chunks : List Bytes) :
    BlockStep P E initialState (finalizeBlocks P (flushedParser P callback chunks).state) := by
  rw [flushedParser, flushedState_eq]
  exact (step_replay extensions _ _).trans (step_finalizeBlocks P _)

end

/-! ### What every block keeps -/

section

variable {P : Config} {E : ParserState → ParserState → Prop} {q : NodeData → Prop}
  {qAt : NodeId → NodeData → Prop} {p p' : ParserState}

/-- Blocks have addresses below the next one. -/
def ParserState.Bounded (p : ParserState) : Prop := ∀ {i b}, p.nodes i = some b → i < p.nextId

/-- The condition holds of the address and the data of every block. -/
def ParserState.EveryBlockAt (q : NodeId → NodeData → Prop) (p : ParserState) : Prop :=
  ∀ {i b}, p.nodes i = some b → q i b.data

/-- The condition holds of the data of every block. -/
def ParserState.EveryBlock (q : NodeData → Prop) (p : ParserState) : Prop :=
  ∀ {i b}, p.nodes i = some b → q b.data

theorem nodes_isSome_modify (p : ParserState) (i : NodeId) (f : Block → Block) (j : NodeId) :
    ((p.modify i f).nodes j).isSome = (p.nodes j).isSome := by
  unfold ParserState.modify
  dsimp only
  split
  next here => rw [here, Option.isSome_map]
  next => rfl

/-- Addresses are given out in order, and every block has one. -/
theorem BlockStep.bounded (step : BlockStep P E p p')
    (callback : ∀ {p p'}, E p p' → p.nextId ≤ p'.nextId ∧ (p.Bounded → p'.Bounded)) :
    p.nextId ≤ p'.nextId ∧ (p.Bounded → p'.Bounded) := by
  have same {p p' : ParserState} (nextId : p'.nextId = p.nextId)
      (old : ∀ i, (p'.nodes i).isSome = true → (p.nodes i).isSome = true) :
      p.nextId ≤ p'.nextId ∧ (p.Bounded → p'.Bounded) := by
    refine ⟨nextId.ge, fun bounded i b block => ?_⟩
    obtain ⟨b', before⟩ := Option.isSome_iff_exists.mp (old i (by rw [block]; rfl))
    exact nextId ▸ bounded before
  induction step with
  | @quiet p p' shape _ nextId =>
    refine same nextId fun i here => ?_
    have equal := congrArg Option.isSome (congrFun shape i)
    rw [ParserState.shape, ParserState.shape, Option.isSome_map, Option.isSome_map] at equal
    exact equal ▸ here
  | edit i f => exact same rfl fun j here => (nodes_isSome_modify _ i _ j) ▸ here
  | @append p parent data =>
    refine ⟨Nat.le_succ _, fun bounded i b block => ?_⟩
    by_cases new : i = p.nextId
    · exact new ▸ Nat.lt_succ_self _
    · unfold ParserState.appendBlock at block
      dsimp only at block
      rw [if_neg new] at block
      have here := nodes_isSome_modify p parent (fun b => { b with children := b.children ++ [p.nextId] }) i
      rw [block] at here
      obtain ⟨b', before⟩ := Option.isSome_iff_exists.mp here.symm
      exact (bounded before).trans (Nat.lt_succ_self _)
  | @free p i =>
    refine same ?_ fun j here => ?_
    · unfold ParserState.freeBlock
      dsimp only
      split <;> rfl
    · unfold ParserState.freeBlock at here
      dsimp only at here
      split at here
      next => cases here
      next =>
        split at here
        next => exact (nodes_isSome_modify _ _ _ j) ▸ here
        next => exact here
  | callback called => exact callback called
  | trans _ _ first second => exact ⟨first.1.trans second.1, fun bounded => second.2 (first.2 bounded)⟩

theorem everyBlock_modify {i : NodeId} {f : Block → Block}
    (every : p.EveryBlockAt qAt) (keeps : ∀ b, p.nodes i = some b → qAt i b.data → qAt i (f b).data) :
    (p.modify i f).EveryBlockAt qAt := by
  intro j b block
  unfold ParserState.modify at block
  dsimp only at block
  split at block
  next here =>
    obtain ⟨b', found, rfl⟩ := Option.map_eq_some_iff.mp block
    exact here ▸ keeps b' found (every found)
  next => exact every block

/-- What editing data keeps, and new blocks meet, holds of every block. -/
theorem BlockStep.everyBlockAt (step : BlockStep P E p p')
    (edit : ∀ {i d e}, DataStep d e → qAt i d → qAt i e) (fresh : ∀ {i d}, FreshBlock P d → qAt i d)
    (callback : ∀ {p p'}, E p p' → p.EveryBlockAt qAt → p'.EveryBlockAt qAt) (every : p.EveryBlockAt qAt) :
    p'.EveryBlockAt qAt := by
  induction step with
  | @quiet p p' shape =>
    intro i b block
    have same : p.shape i = some b.shape := by
      rw [← shape, ParserState.shape, block]
      rfl
    obtain ⟨b', found, equal⟩ := Option.map_eq_some_iff.mp same
    exact edit (.content (congrArg BlockShape.type equal).symm (congrArg BlockShape.as equal).symm
      (congrArg BlockShape.extension equal).symm (congrArg BlockShape.isOpen equal).trans) (every found)
  | edit i f edits =>
    exact everyBlock_modify every fun b found holds => edit (edits b found) holds
  | @append p parent data new =>
    intro i b block
    unfold ParserState.appendBlock at block
    dsimp only at block
    split at block
    next =>
      cases block
      exact fresh new
    next =>
      refine everyBlock_modify every (f := fun b => { b with children := b.children ++ [p.nextId] }) ?_
        block
      exact fun _ _ holds => holds
  | @free p i =>
    intro j b block
    unfold ParserState.freeBlock at block
    dsimp only at block
    split at block
    next => cases block
    next =>
      split at block
      next =>
        refine everyBlock_modify every
          (f := fun b => { b with children := b.children.filter (· != i) }) ?_ block
        exact fun _ _ holds => holds
      next => exact every block
  | callback called => exact callback called every
  | trans _ _ first second => exact second (first every)

/-- The same for a condition on the data alone. -/
theorem BlockStep.everyBlock (step : BlockStep P E p p')
    (edit : ∀ {d e}, DataStep d e → q d → q e) (fresh : ∀ {d}, FreshBlock P d → q d)
    (callback : ∀ {p p'}, E p p' → p.EveryBlock q → p'.EveryBlock q) (every : p.EveryBlock q) :
    p'.EveryBlock q := by
  show p'.EveryBlockAt fun _ => q
  exact step.everyBlockAt edit fresh callback every

/-- Editing makes a block for lines only of a block for lines. -/
theorem DataStep.type {d e : NodeData} (step : DataStep d e) :
    (d.type.isCoreBlock → e.type.isCoreBlock) ∧ (e.type.isLeafBlock → d.type.isLeafBlock) := by
  cases step with
  | content type _ _ _ => exact ⟨type ▸ id, type ▸ id⟩
  | close type _ _ _ => exact ⟨type ▸ id, type ▸ id⟩
  | setext lev paragraph _ _ => exact ⟨fun _ => rfl, fun _ => by rw [paragraph]; rfl⟩

/-- Blocks have core types, and those for lines have no children. -/
def ParserState.LeavesChildless (p : ParserState) : Prop :=
  ∀ i b, p.nodes i = some b → b.data.type.isCoreBlock ∧ (b.data.type.isLeafBlock → b.children = [])

theorem leavesChildless_modify {i : NodeId} {f : Block → Block} (leaves : p.LeavesChildless)
    (keeps : ∀ b, p.nodes i = some b → b.data.type.isCoreBlock ∧ (b.data.type.isLeafBlock → b.children = []) →
      (f b).data.type.isCoreBlock ∧ ((f b).data.type.isLeafBlock → (f b).children = [])) :
    (p.modify i f).LeavesChildless := by
  intro j b block
  unfold ParserState.modify at block
  dsimp only at block
  split at block
  next =>
    obtain ⟨b', found, rfl⟩ := Option.map_eq_some_iff.mp block
    exact keeps b' found (leaves _ _ found)
  next => exact leaves _ _ block

/-- Where blocks for lines may contain no blocks, they have no children unless an assertion fails. -/
theorem BlockStep.leavesChildless (step : BlockStep P E p p')
    (leaf : ∀ {d t}, d.type.isLeafBlock → t.isCoreBlock → P.nodeCanContainType d t = false)
    (callback : ∀ {p p'}, E p p' → (p'.asserts → p.asserts) ∧ (p.LeavesChildless → p'.LeavesChildless)) :
    (p'.asserts → p.asserts) ∧ (p'.asserts → p.LeavesChildless → p'.LeavesChildless) := by
  induction step with
  | @quiet p p' shape _ _ asserts =>
    refine ⟨asserts, fun _ leaves i b block => ?_⟩
    have same : p.shape i = some b.shape := by
      rw [← shape, ParserState.shape, block]
      rfl
    obtain ⟨b', found, equal⟩ := Option.map_eq_some_iff.mp same
    have type : b'.data.type = b.data.type := congrArg BlockShape.type equal
    have children : b'.children = b.children := congrArg BlockShape.children equal
    exact type ▸ children ▸ leaves _ _ found
  | edit i f edits =>
    refine ⟨id, fun _ leaves => leavesChildless_modify leaves fun b found kept => ?_⟩
    obtain ⟨core, leaf'⟩ := (edits b found).type
    exact ⟨core kept.1, fun isLeaf => kept.2 (leaf' isLeaf)⟩
  | @append p parent data new allowed =>
    refine ⟨id, fun holds leaves i b block => ?_⟩
    unfold ParserState.appendBlock at block
    dsimp only at block
    split at block
    next =>
      cases block
      exact ⟨new.core, fun _ => rfl⟩
    next =>
      refine leavesChildless_modify leaves (f := fun b => { b with children := b.children ++ [p.nextId] }) ?_ i b block
      intro b found kept
      refine ⟨kept.1, fun isLeaf => ?_⟩
      have accepts := allowed holds
      rw [ParserState.dataOf, ParserState.block, found, Option.getD_some, leaf isLeaf new.core] at accepts
      cases accepts
  | @free p i =>
    constructor
    · unfold ParserState.freeBlock
      dsimp only
      split
      next => exact id
      next => exact id
    · intro _ leaves j b block
      unfold ParserState.freeBlock at block
      dsimp only at block
      split at block
      next => cases block
      next =>
        split at block
        next =>
          refine leavesChildless_modify leaves (f := fun b => { b with children := b.children.filter (· != i) }) ?_ j b block
          exact fun b _ kept => ⟨kept.1, fun isLeaf => by simp [kept.2 isLeaf]⟩
        next => exact leaves _ _ block
  | callback called => exact ⟨(callback called).1, fun _ => (callback called).2⟩
  | trans _ _ first second =>
    exact ⟨fun holds => first.1 (second.1 holds),
      fun holds leaves => second.2 holds (first.2 (second.1 holds) leaves)⟩

end

end CmarkGfm
