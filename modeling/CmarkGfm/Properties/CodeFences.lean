import CmarkGfm.Parser.Document
import CmarkGfm.Properties.BlockOpening

/-!
# Code fences

The data of an opening fence is kept until its code block is closed, but the length of the fence
saturates. A later line closes the block if its fence is at least as long as what is kept.
-/

namespace CmarkGfm

/-- The length of the run of a character at the start. -/
def runLength (c : UInt8) (rest : Bytes) : Nat := (rest.takeWhile (· == c)).length

/-- Only spaces and tabs, up to a line end. -/
def blankToLineEnd (rest : Bytes) : Bool :=
  match rest.dropWhile isSpaceOrTab with
  | [] => false
  | c :: _ => isLineEndChar c

namespace Scanners

open Regex Regex.Re

/-- The expression of a fence. -/
def fence (c : UInt8) : Re := .atLeast (oneOf [(c, c)]) 3

/-- The context matches at the start of what is left. -/
def InContext (t : Re) (rest : Bytes) : Prop :=
  ∃ k ≤ rest.length, Matches CharClass.mem t (rest.take k)

section

variable {c : UInt8} {rest : Bytes} {t : Re} {n : Nat}

theorem mem_single_iff {d : UInt8} : CharClass.mem ⟨false, [(c, c)]⟩ d = true ↔ d = c := by
  constructor
  · exact mem_single
  · rintro rfl
    simp [CharClass.mem]

theorem runLength_le_length : runLength c rest ≤ rest.length :=
  (List.takeWhile_sublist (· == c)).length_le

/-- A prefix is a fence if it is within the run. -/
theorem matches_fence_take_iff (inside : n ≤ rest.length) :
    Matches CharClass.mem (fence c) (rest.take n) ↔ 3 ≤ n ∧ n ≤ runLength c rest := by
  have single : Matches CharClass.mem (fence c) (rest.take n) ↔
      3 ≤ (rest.take n).length ∧ ∀ d ∈ rest.take n, CharClass.mem ⟨false, [(c, c)]⟩ d = true :=
    matches_atLeast_cls_iff _ 3 _
  rw [List.length_take_of_le inside] at single
  refine single.trans (and_congr_right fun _ => ?_)
  simp only [mem_single_iff]
  have whole : (∀ d ∈ rest.take n, d = c) ↔ (rest.takeWhile (· == c)).take n = rest.take n := by
    rw [List.take_takeWhile, List.takeWhile_eq_self_iff]
    simp
  rw [whole]
  constructor
  · intro same
    have lengths := congrArg List.length same
    rw [List.length_take, List.length_take_of_le inside] at lengths
    unfold runLength
    omega
  · intro within
    apply ((List.takeWhile_prefix (l := rest) (· == c)).take n).eq_of_length
    rw [List.length_take_of_le within, List.length_take_of_le inside]

theorem trailingMatch_fence_sound
    (found : trailingMatch CharClass.mem (fence c) t rest = some n) :
    3 ≤ n ∧ n ≤ runLength c rest ∧ InContext t (rest.drop n) := by
  obtain ⟨inside, matched, k, bound, context⟩ :=
    trailingMatch_sound CharClass.mem (fence c) t rest n found
  obtain ⟨three, run⟩ := (matches_fence_take_iff inside).mp matched
  exact ⟨three, run, k, bound, context⟩

theorem trailingMatch_fence_complete (three : 3 ≤ n) (run : n ≤ runLength c rest)
    (context : InContext t (rest.drop n)) :
    ∃ m, trailingMatch CharClass.mem (fence c) t rest = some m ∧ n ≤ m := by
  obtain ⟨k, bound, matched⟩ := context
  have inside : n ≤ rest.length := run.trans runLength_le_length
  exact trailingMatch_complete CharClass.mem (fence c) t rest inside
    ((matches_fence_take_iff inside).mpr ⟨three, run⟩) bound matched

/-- Inside a run, what is left starts with its character. -/
theorem head?_drop_of_lt (before : n < runLength c rest) : (rest.drop n).head? = some c := by
  have inside : n < rest.length := before.trans_le runLength_le_length
  have passes := List.mem_takeWhile_imp (List.getElem_mem before)
  have same : (rest.takeWhile (· == c))[n] = rest[n] := (List.takeWhile_prefix (· == c)).getElem before
  rw [same] at passes
  rw [List.head?_drop, List.getElem?_eq_getElem inside]
  simpa using passes

theorem runLength_eq_zero (differs : rest.head? ≠ some c) : runLength c rest = 0 := by
  by_contra long
  exact differs (head?_drop_of_lt (n := 0) (Nat.pos_of_ne_zero long))

/-! ### Closing fences -/

/-- The context of a closing fence. -/
def closeContext : Re := .seq (.star (oneOf (chars " \t"))) (oneOf (chars "\r\n"))

theorem mem_blank_iff {d : UInt8} :
    CharClass.mem ⟨false, chars " \t"⟩ d = true ↔ isSpaceOrTab d = true := by
  have ranges : chars " \t" = [(32, 32), (9, 9)] := by decide
  rw [CharClass.mem, ranges]
  simp only [List.any_cons, List.any_nil, Bool.or_false, bne_iff_ne, ne_eq, Bool.false_eq,
    Bool.not_eq_false, Bool.or_eq_true, Bool.and_eq_true, decide_eq_true_eq, isSpaceOrTab,
    beq_iff_eq]
  refine or_congr ?_ ?_
  · exact ⟨fun both => UInt8.le_antisymm both.2 both.1, fun same => same ▸ ⟨UInt8.le_refl _, UInt8.le_refl _⟩⟩
  · exact ⟨fun both => UInt8.le_antisymm both.2 both.1, fun same => same ▸ ⟨UInt8.le_refl _, UInt8.le_refl _⟩⟩

theorem mem_lineEnd_iff {d : UInt8} :
    CharClass.mem ⟨false, chars "\r\n"⟩ d = true ↔ isLineEndChar d = true := by
  constructor
  · exact lineEnd_of_mem
  · intro lineEnd
    simp only [isLineEndChar, Bool.or_eq_true, beq_iff_eq] at lineEnd
    rcases lineEnd with rfl | rfl <;> decide

theorem inContext_close_iff : InContext closeContext rest ↔ blankToLineEnd rest = true := by
  unfold blankToLineEnd
  constructor
  · rintro ⟨k, bound, matched⟩
    obtain ⟨blanks, last, eq, first, second⟩ := (matches_seq_iff _ _ _).mp matched
    have blank := (matches_star_cls_iff _ _).mp first
    obtain ⟨e, rfl, lineEnd⟩ := (matches_cls_iff _ _).mp second
    rw [mem_lineEnd_iff] at lineEnd
    have split : rest = blanks ++ e :: rest.drop k := by
      rw [← List.singleton_append, ← List.append_assoc, ← eq, List.take_append_drop]
    have other : isSpaceOrTab e = false := by
      simp only [isLineEndChar, Bool.or_eq_true, beq_iff_eq] at lineEnd
      rcases lineEnd with rfl | rfl <;> rfl
    rw [split, List.dropWhile_append_of_pos fun d member => mem_blank_iff.mp (blank d member),
      List.dropWhile_cons_of_neg (by simp [other])]
    exact lineEnd
  · intro blank
    cases left : rest.dropWhile isSpaceOrTab with
    | nil =>
      rw [left] at blank
      cases blank
    | cons e more =>
      rw [left] at blank
      obtain ⟨blanks, all, split⟩ : ∃ blanks : Bytes, (∀ d ∈ blanks, isSpaceOrTab d = true) ∧
          rest = blanks ++ [e] ++ more := by
        refine ⟨rest.takeWhile isSpaceOrTab, fun d member => List.mem_takeWhile_imp member, ?_⟩
        rw [List.append_assoc, List.singleton_append, ← left, List.takeWhile_append_dropWhile]
      refine ⟨(blanks ++ [e]).length, ?_, ?_⟩
      · rw [split]
        simp
      · rw [split, List.take_left]
        apply (matches_seq_iff _ _ _).mpr
        refine ⟨_, _, rfl, (matches_star_cls_iff _ _).mpr ?_, (matches_cls_iff _ _).mpr ?_⟩
        · exact fun d member => mem_blank_iff.mpr (all d member)
        · exact ⟨e, rfl, mem_lineEnd_iff.mpr blank⟩

/-- No closing fence ends inside its run. -/
theorem not_inContext_close_of_lt (fenceChar : c = chr '`' ∨ c = chr '~')
    (before : n < runLength c rest) : ¬ InContext closeContext (rest.drop n) := by
  rw [inContext_close_iff]
  have head := head?_drop_of_lt before
  cases left : rest.drop n with
  | nil =>
    rw [left] at head
    cases head
  | cons d more =>
    rw [left] at head
    cases head
    unfold blankToLineEnd
    rcases fenceChar with rfl | rfl <;> simp [isSpaceOrTab, isLineEndChar, chr]

theorem trailingMatch_close (fenceChar : c = chr '`' ∨ c = chr '~') :
    trailingMatch CharClass.mem (fence c) closeContext rest =
      if 3 ≤ runLength c rest ∧ blankToLineEnd (rest.drop (runLength c rest)) = true then
        some (runLength c rest)
      else none := by
  have whole {m : Nat} (found : trailingMatch CharClass.mem (fence c) closeContext rest = some m) :
      m = runLength c rest := by
    obtain ⟨_, run, context⟩ := trailingMatch_fence_sound found
    by_contra differs
    exact not_inContext_close_of_lt fenceChar (Nat.lt_of_le_of_ne run differs) context
  split
  next closes =>
    obtain ⟨m, found, _⟩ := trailingMatch_fence_complete (t := closeContext) closes.1 le_rfl
      (inContext_close_iff.mpr closes.2)
    rw [found, whole found]
  next no =>
    cases found : trailingMatch CharClass.mem (fence c) closeContext rest with
    | none => rfl
    | some m =>
      obtain ⟨three, _, context⟩ := trailingMatch_fence_sound found
      rw [whole found] at three context
      exact absurd ⟨three, inContext_close_iff.mp context⟩ no

theorem scanTrailing_cons (r t : Re) (rules : List (Re × Re)) (input : Bytes) :
    scanTrailing ((r, t) :: rules) input =
      (trailingMatch CharClass.mem r t input).getD (scanTrailing rules input) := by
  rw [scanTrailing]
  cases trailingMatch CharClass.mem r t input <;> rfl

/-- The scanner for closing fences: the length of the run, if it is long enough and nothing but
spaces and tabs follows. -/
theorem closeCodeFence_eq (fenceChar : c = chr '`' ∨ c = chr '~') (head : rest.head? = some c) :
    closeCodeFence rest =
      if 3 ≤ runLength c rest ∧ blankToLineEnd (rest.drop (runLength c rest)) = true then
        runLength c rest
      else 0 := by
  have rules : closeCodeFence rest =
      (trailingMatch CharClass.mem (fence (chr '`')) closeContext rest).getD
        ((trailingMatch CharClass.mem (fence (chr '~')) closeContext rest).getD 0) := by
    unfold closeCodeFence
    rw [scanTrailing_cons, scanTrailing_cons]
    rfl
  have short {d : UInt8} (differs : d ≠ c) :
      ¬ (3 ≤ runLength d rest ∧ blankToLineEnd (rest.drop (runLength d rest)) = true) := by
    rw [runLength_eq_zero (by rw [head]; simpa using differs.symm)]
    exact fun long => absurd long.1 (by decide)
  rw [rules, trailingMatch_close (.inl rfl), trailingMatch_close (.inr rfl)]
  rcases fenceChar with rfl | rfl
  · rw [if_neg (short (show chr '~' ≠ chr '`' by decide))]
    split
    next closes => rfl
    next => rfl
  · rw [if_neg (short (show chr '`' ≠ chr '~' by decide)), Option.getD_none]
    split
    next closes => rfl
    next => rfl

/-! ### Opening fences -/

/-- The context of an opening fence: the info string. -/
def openContext (ranges : List (UInt8 × UInt8)) : Re :=
  .seq (.star (noneOf ranges)) (oneOf (chars "\r\n"))

/-- Behind an ASCII character, a repeated negated class goes on. -/
theorem matches_star_noneOf_cons {ranges : List (UInt8 × UInt8)} {d : UInt8} {u : Bytes}
    (ascii : d < 0x80) (matched : Matches CharClass.mem (.star (noneOf ranges)) (d :: u)) :
    Matches CharClass.mem (.star (noneOf ranges)) u := by
  generalize whole : d :: u = w at matched
  cases matched with
  | nil => cases whole
  | @more _ first rest one more =>
    cases one with
    | left single =>
      obtain ⟨d', rfl, _⟩ := (matches_cls_iff _ _).mp single
      rw [(List.cons.inj whole).2]
      exact more
    | right many =>
      obtain ⟨d', rest', rfl, high⟩ := cons_of_matches_multibyte many
      rw [List.cons_append] at whole
      rw [← (List.cons.inj whole).1] at high
      exact absurd high (UInt8.not_le.mpr ascii)

/-- Behind an ASCII character that is no line end, an info string goes on. -/
theorem InContext.open_cons {ranges : List (UInt8 × UInt8)} {d : UInt8}
    (context : InContext (openContext ranges) (d :: rest)) (ascii : d < 0x80)
    (inLine : isLineEndChar d = false) :
    InContext (openContext ranges) rest := by
  obtain ⟨k, bound, matched⟩ := context
  obtain ⟨u, v, eq, first, last⟩ := (matches_seq_iff _ _ _).mp matched
  obtain ⟨e, rfl, lineEnd⟩ := (matches_cls_iff _ _).mp last
  rw [mem_lineEnd_iff] at lineEnd
  cases k with
  | zero =>
    rw [List.take_zero] at eq
    simp at eq
  | succ k =>
    rw [List.take_succ_cons] at eq
    cases u with
    | nil =>
      rw [List.nil_append] at eq
      rw [(List.cons.inj eq).1, lineEnd] at inLine
      cases inLine
    | cons d' u =>
      rw [List.cons_append] at eq
      obtain ⟨rfl, tail⟩ := List.cons.inj eq
      refine ⟨k, Nat.le_of_succ_le_succ bound, ?_⟩
      rw [tail]
      exact .seq (matches_star_noneOf_cons ascii first) (.cls (mem_lineEnd_iff.mpr lineEnd))

/-- Where an info string starts inside the run of a fence, one starts behind the run. -/
theorem InContext.open_run {ranges : List (UInt8 × UInt8)} (fenceChar : c = chr '`' ∨ c = chr '~')
    (context : InContext (openContext ranges) (rest.drop n)) (run : n ≤ runLength c rest) :
    InContext (openContext ranges) (rest.drop (runLength c rest)) := by
  have ascii : c < 0x80 := by rcases fenceChar with rfl | rfl <;> decide
  have inLine : isLineEndChar c = false := by rcases fenceChar with rfl | rfl <;> decide
  obtain ⟨k, eq⟩ := Nat.le.dest run
  induction k generalizing n with
  | zero =>
    rw [Nat.add_zero] at eq
    rw [← eq]
    exact context
  | succ k ih =>
    have before : n < runLength c rest := by omega
    have cons : rest.drop n = c :: rest.drop (n + 1) := by
      have head := head?_drop_of_lt before
      rw [List.head?_drop] at head
      obtain ⟨inside, here⟩ := List.getElem?_eq_some_iff.mp head
      rw [← here, ← List.drop_eq_getElem_cons inside]
    rw [cons] at context
    exact ih (context.open_cons ascii inLine) before (by omega)

/-- The scanner for opening fences takes the whole run. -/
theorem openCodeFence_run {n : Nat} (found : openCodeFence rest = n) (positive : 0 < n) :
    ∃ c, (c = chr '`' ∨ c = chr '~') ∧ rest.head? = some c ∧ runLength c rest = n ∧ 3 ≤ n := by
  have rules : openCodeFence rest =
      (trailingMatch CharClass.mem (fence (chr '`')) (openContext (chars "`\r\n")) rest).getD
        ((trailingMatch CharClass.mem (fence (chr '~')) (openContext (chars "\r\n")) rest).getD 0) := by
    unfold openCodeFence
    rw [scanTrailing_cons, scanTrailing_cons]
    rfl
  have ofRule {c : UInt8} {ranges : List (UInt8 × UInt8)} (fenceChar : c = chr '`' ∨ c = chr '~')
      (here : trailingMatch CharClass.mem (fence c) (openContext ranges) rest = some n) :
      ∃ c, (c = chr '`' ∨ c = chr '~') ∧ rest.head? = some c ∧ runLength c rest = n ∧
        3 ≤ n := by
    obtain ⟨three, run, context⟩ := trailingMatch_fence_sound here
    have behind := context.open_run fenceChar run
    obtain ⟨m, longest, whole⟩ :=
      trailingMatch_fence_complete (t := openContext ranges) (three.trans run) le_rfl behind
    rw [here] at longest
    cases longest
    refine ⟨c, fenceChar, ?_, Nat.le_antisymm whole run, three⟩
    exact head?_drop_of_lt (n := 0) (by omega)
  rw [rules] at found
  cases ticks : trailingMatch CharClass.mem (fence (chr '`')) (openContext (chars "`\r\n")) rest with
  | some m =>
    rw [ticks, Option.getD_some] at found
    exact ofRule (.inl rfl) (found ▸ ticks)
  | none =>
    rw [ticks, Option.getD_none] at found
    cases tildes : trailingMatch CharClass.mem (fence (chr '~')) (openContext (chars "\r\n")) rest with
    | some m =>
      rw [tildes, Option.getD_some] at found
      exact ofRule (.inr rfl) (found ▸ tildes)
    | none =>
      rw [tildes, Option.getD_none] at found
      exact absurd found (Nat.ne_of_lt positive)

end

end Scanners

/-! ### What an open block keeps -/

/-- Data that is still open was open before, and that of a code block is kept. -/
def DataKept (d e : NodeData) : Prop :=
  d.isOpen = true ∧
    (d.type = .codeBlock → e.type = .codeBlock ∧ e.as = d.as ∧ e.extension = d.extension)

/-- Every block that was there and is still open has kept its data in this sense. -/
def KeepsFences (p p' : ParserState) : Prop :=
  p.nextId ≤ p'.nextId ∧ ∀ i < p.nextId, ∀ b', p'.nodes i = some b' → b'.data.isOpen = true →
    ∃ b, p.nodes i = some b ∧ DataKept b.data b'.data

theorem KeepsFences.trans {p p' p'' : ParserState} (first : KeepsFences p p')
    (second : KeepsFences p' p'') : KeepsFences p p'' := by
  refine ⟨first.1.trans second.1, ?_⟩
  intro i old b'' found isOpen
  obtain ⟨b', found', isOpen', code'⟩ := second.2 i (old.trans_le first.1) b'' found isOpen
  obtain ⟨b, found, isOpen, code⟩ := first.2 i old b' found' isOpen'
  refine ⟨b, found, isOpen, fun isCode => ?_⟩
  obtain ⟨type, as, extension⟩ := code isCode
  obtain ⟨type', as', extension'⟩ := code' type
  exact ⟨type', as'.trans as, extension'.trans extension⟩

theorem DataStep.kept {d e : NodeData} (step : DataStep d e) (isOpen : e.isOpen = true) :
    DataKept d e := by
  cases step with
  | content type as extension opened =>
    exact ⟨opened isOpen, fun code => ⟨type.trans code, as, extension⟩⟩
  | close _ _ closed _ =>
    rw [closed] at isOpen
    cases isOpen
  | setext lev paragraph _ _ =>
    refine ⟨isOpen, fun code => ?_⟩
    rw [paragraph] at code
    cases code

/-- Blocks that keep their data are kept, however they are linked. -/
theorem keepsFences_of_data {p p' : ParserState} (nextId : p.nextId ≤ p'.nextId)
    (same : ∀ i < p.nextId, ∀ b', p'.nodes i = some b' → ∃ b, p.nodes i = some b ∧ b'.data = b.data) :
    KeepsFences p p' := by
  refine ⟨nextId, ?_⟩
  intro i old b' found isOpen
  obtain ⟨b, block, data⟩ := same i old b' found
  rw [data] at isOpen ⊢
  exact ⟨b, block, isOpen, fun code => ⟨code, rfl, rfl⟩⟩

theorem BlockStep.keepsFences {P : Config} {p p' : ParserState}
    (step : BlockStep P KeepsFences p p') : KeepsFences p p' := by
  induction step with
  | @quiet p p' shape root nextId _ =>
    refine ⟨nextId.ge, ?_⟩
    intro i _ b' found isOpen
    have same : p.shape i = some b'.shape := by
      rw [← shape, ParserState.shape, found]
      rfl
    obtain ⟨b, block, equal⟩ := Option.map_eq_some_iff.mp same
    refine ⟨b, block, (congrArg BlockShape.isOpen equal).trans isOpen, fun code => ⟨?_, ?_, ?_⟩⟩
    · exact (congrArg BlockShape.type equal).symm.trans code
    · exact (congrArg BlockShape.as equal).symm
    · exact (congrArg BlockShape.extension equal).symm
  | @edit p i f steps =>
    refine ⟨le_rfl, ?_⟩
    intro j _ b' found isOpen
    rw [nodes_modifyData] at found
    split at found
    next here =>
      subst here
      obtain ⟨b, block, rfl⟩ := Option.map_eq_some_iff.mp found
      exact ⟨b, block, (steps b block).kept isOpen⟩
    next => exact ⟨b', found, isOpen, fun code => ⟨code, rfl, rfl⟩⟩
  | @append p parent data _ _ =>
    apply keepsFences_of_data (Nat.le_succ _)
    intro j old b' found
    rw [nodes_appendBlock, if_neg (Nat.ne_of_lt old)] at found
    split at found
    next here =>
      obtain ⟨b, block, rfl⟩ := Option.map_eq_some_iff.mp found
      exact ⟨b, here ▸ block, rfl⟩
    next => exact ⟨b', found, rfl⟩
  | @free p i _ =>
    have nextId : (p.freeBlock i).nextId = p.nextId := by
      unfold ParserState.freeBlock
      split <;> rfl
    apply keepsFences_of_data nextId.ge
    intro j _ b' found
    unfold ParserState.freeBlock at found
    dsimp only at found
    split at found
    next => cases found
    next =>
      split at found
      next parent _ =>
        unfold ParserState.modify at found
        dsimp only at found
        split at found
        next here =>
          obtain ⟨b, block, rfl⟩ := Option.map_eq_some_iff.mp found
          exact ⟨b, here ▸ block, rfl⟩
        next => exact ⟨b', found, rfl⟩
      next => exact ⟨b', found, rfl⟩
  | callback keeps => exact keeps
  | trans _ _ first second => exact first.trans second

/-! ### Later states -/

/-- How the parser gets on, within a line and from line to line: it starts a line, checks the prefix
of a block, opens a block, adds the text of the line, and ends the line. -/
inductive LaterState (P : Config) (p : ParserState) : ParserState → Prop
  | refl : LaterState P p p
  | start {q : ParserState} (input : Bytes) : LaterState P p q → LaterState P p (startLine input q)
  | prefixed {q : ParserState} (input : Bytes) (container : NodeId) : LaterState P p q →
      LaterState P p (parseBlockPrefix P input container (findFirstNonspace input q)).1
  | opened {q : ParserState} (input : Bytes) (allMatched maybeLazy : Bool) (depth : Nat)
      (container : NodeId) : LaterState P p q →
      LaterState P p (openNewBlock P input allMatched maybeLazy depth container q).1
  | text {q : ParserState} (input : Bytes) (container lastMatched : NodeId) : LaterState P p q →
      LaterState P p (addTextToContainer P input container lastMatched q).1
  | finish {q : ParserState} (length : Nat) : LaterState P p q →
      LaterState P p { q with lastLineLength := length, curline := [] }

section

variable {P : Config} {p q : ParserState}

theorem LaterState.step {E : ParserState → ParserState → Prop}
    (extensions : ∀ e ∈ P.syntaxExtensions, e.Steps P E) (later : LaterState P p q) :
    BlockStep P E p q := by
  induction later with
  | refl => exact .refl p
  | start input _ ih => exact ih.trans (quiet_startLine input _).step
  | prefixed input container _ ih =>
    exact (ih.trans (quiet_findFirstNonspace input _).step).trans
      (step_parseBlockPrefix (matchSteps_of_steps extensions) input container _)
  | opened input allMatched maybeLazy depth container _ ih =>
    exact ih.trans (step_openNewBlock extensions input allMatched maybeLazy depth container _)
  | text input container lastMatched _ ih =>
    exact ih.trans (step_addTextToContainer input container lastMatched _)
  | finish length _ ih => exact ih.reframe rfl rfl rfl rfl

theorem LaterState.checkOpenBlocksFrom (input : Bytes) (fuel : Nat) (container : NodeId)
    (later : LaterState P p q) :
    LaterState P p (checkOpenBlocksFrom P input fuel container q).1 := by
  induction fuel generalizing container q with
  | zero => exact later
  | succ fuel ih =>
    unfold CmarkGfm.checkOpenBlocksFrom
    split
    next => exact later
    next child _ =>
      have checked := later.prefixed input child
      generalize parseBlockPrefix P input child (findFirstNonspace input q) = r at checked ⊢
      obtain ⟨q', result⟩ := r
      cases result with
      | matched => exact ih child checked
      | unmatched => exact checked
      | closed => exact checked

theorem LaterState.openNewBlocksFrom (input : Bytes) (allMatched : Bool) (fuel : Nat)
    (maybeLazy : Bool) (depth : Nat) (container : NodeId) (later : LaterState P p q) :
    LaterState P p (openNewBlocksFrom P input allMatched fuel maybeLazy depth container q).1 := by
  induction fuel generalizing maybeLazy depth container q with
  | zero => exact later
  | succ fuel ih =>
    unfold CmarkGfm.openNewBlocksFrom
    split
    next => exact later
    next =>
      have opened := later.opened input allMatched maybeLazy (depth + 1) container
      generalize openNewBlock P input allMatched maybeLazy (depth + 1) container q = r at opened ⊢
      obtain ⟨q', newContainer⟩ := r
      cases newContainer with
      | none => exact opened
      | some newContainer =>
        dsimp only
        split
        next => exact opened
        next => exact ih false (depth + 1) newContainer opened

/-- A line is read in such steps. -/
theorem LaterState.processLine (buffer : Bytes) (ensureEndsInNewline : Bool) (later : LaterState P p q) :
    LaterState P p (processLine P q buffer ensureEndsInNewline) := by
  unfold CmarkGfm.processLine
  extract_lets input
  have checked : LaterState P p (checkOpenBlocks P input (startLine input q)).1 :=
    (later.start input).checkOpenBlocksFrom input _ _
  generalize checkOpenBlocks P input (startLine input q) = r at checked ⊢
  obtain ⟨q', lastMatched, allMatched⟩ := r
  cases lastMatched with
  | none => exact checked.finish _
  | some lastMatched =>
    dsimp -zeta only at checked ⊢
    extract_lets current
    have opened : LaterState P p (if P.options.has optInlineOnly then (q', lastMatched)
        else openNewBlocks P input allMatched lastMatched q').1 := by
      split
      next => exact checked
      next => exact checked.openNewBlocksFrom input allMatched _ _ _ _
    generalize (if P.options.has optInlineOnly then (q', lastMatched)
      else openNewBlocks P input allMatched lastMatched q') = r at opened ⊢
    obtain ⟨q'', container⟩ := r
    dsimp only at opened ⊢
    split
    next => exact (opened.text input container lastMatched).finish _
    next => exact opened.finish _

end

/-! ### Closing the block -/

/-- The line is indented at most three columns, and a run of at least `n` times the character,
followed only by spaces or tabs. -/
def IsClosingFence (c : UInt8) (n : Nat) (input : Bytes) (p : ParserState) : Prop :=
  let rest := input.drop (freshNonspace input p).1
  (freshNonspace input p).2 ≤ p.column + 3 ∧ n ≤ runLength c rest ∧ isBlank (rest.drop (runLength c rest)) = true

instance (c : UInt8) (n : Nat) (input : Bytes) (p : ParserState) :
    Decidable (IsClosingFence c n input p) := inferInstanceAs (Decidable (_ ∧ _))

/-- The line looks like a closing fence, but its run is too short by what the saturated length has
lost, or the line has no line end. -/
def MissesFence (c : UInt8) (n : Nat) (input : Bytes) (p : ParserState) : Prop :=
  let rest := input.drop (freshNonspace input p).1
  let after := (rest.drop (runLength c rest)).dropWhile isSpaceOrTab
  (freshNonspace input p).2 ≤ p.column + 3 ∧
    ((∃ e more, after = e :: more ∧ isLineEndChar e = true ∧ 255 ≤ runLength c rest ∧
        runLength c rest < n) ∨
      (after = [] ∧ n ≤ runLength c rest))

section

variable {P : Config} {input : Bytes} {p q : ParserState} {i : NodeId} {c : UInt8} {n : Nat}

/-- The data of a code block that a fence of `n` characters has opened. -/
structure FencedBy (c : UInt8) (n : Nat) (d : NodeData) : Prop where
  type : d.type = .codeBlock
  extension : d.extension = none
  fenced : d.as.getCode.fenced = true
  fenceChar : d.as.getCode.fenceChar = c
  fenceLength : d.as.getCode.fenceLength = min n 255

theorem FencedBy.congr {d e : NodeData} (fence : FencedBy c n d) (type : e.type = d.type)
    (as : e.as = d.as) (extension : e.extension = d.extension) : FencedBy c n e where
  type := type.trans fence.type
  extension := extension.trans fence.extension
  fenced := (congrArg (·.getCode.fenced) as).trans fence.fenced
  fenceChar := (congrArg (·.getCode.fenceChar) as).trans fence.fenceChar
  fenceLength := (congrArg (·.getCode.fenceLength) as).trans fence.fenceLength

theorem dataOf_eq_of_nodes {b : Block} (found : p.nodes i = some b) : p.dataOf i = b.data := by
  rw [ParserState.dataOf, ParserState.block, found]
  rfl

theorem KeepsFences.fencedBy (keeps : KeepsFences p q) (old : i < p.nextId)
    (fence : FencedBy c n (p.dataOf i)) (isOpen : q.isOpen i = true) :
    FencedBy c n (q.dataOf i) := by
  cases block : q.nodes i with
  | none =>
    rw [ParserState.isOpen, ParserState.dataOf, ParserState.block, block] at isOpen
    cases isOpen
  | some b' =>
    rw [ParserState.isOpen, dataOf_eq_of_nodes block] at isOpen
    obtain ⟨b, found, _, code⟩ := keeps.2 i old b' block isOpen
    rw [dataOf_eq_of_nodes found] at fence
    rw [dataOf_eq_of_nodes block]
    obtain ⟨type, as, extension⟩ := code fence.type
    exact fence.congr (type.trans fence.type.symm) as extension

theorem Quiet.fencedBy (quiet : Quiet p q) (fence : FencedBy c n (p.dataOf i)) :
    FencedBy c n (q.dataOf i) := by
  have same := congrFun quiet.shape i
  rw [ParserState.shape, ParserState.shape] at same
  cases block : p.nodes i with
  | none =>
    have type := fence.type
    rw [ParserState.dataOf, ParserState.block, block] at type
    cases type
  | some b =>
    rw [block] at same
    obtain ⟨b', block', equal⟩ := Option.map_eq_some_iff.mp same
    rw [dataOf_eq_of_nodes block] at fence
    rw [dataOf_eq_of_nodes block']
    exact fence.congr (congrArg BlockShape.type equal) (congrArg BlockShape.as equal)
      (congrArg BlockShape.extension equal)

/-- The block that a fence opens, and its address. -/
theorem fencedBy_openFencedCode (container : NodeId) :
    FencedBy (byteAt input p.firstNonspace) n
        ((openFencedCode P input n container p).1.dataOf
          (openFencedCode P input n container p).2) ∧
      (openFencedCode P input n container p).2 < (openFencedCode P input n container p).1.nextId := by
  have place := place_addChild P p container .codeBlock (p.firstNonspace + 1)
  unfold openFencedCode
  revert place
  unfold addChild
  generalize acceptingParent P .codeBlock (p.nextId + 1) container p = r
  obtain ⟨q, parent⟩ := r
  dsimp only
  intro place
  have firstNonspace : (q.appendBlock parent
      (makeBlock .codeBlock q.lineNumber (p.firstNonspace + 1))).1.firstNonspace =
        p.firstNonspace := congrArg LinePlace.firstNonspace place
  rw [show (q.appendBlock parent _).2 = q.nextId from rfl, firstNonspace, modifyData_appendBlock]
  constructor
  · apply (quiet_advanceTo input _ _).fencedBy
    rw [ParserState.dataOf, ParserState.block, nodes_appendBlock, if_pos rfl]
    exact ⟨rfl, rfl, rfl, rfl, rfl⟩
  · rw [(quiet_advanceTo input _ _).nextId]
    exact Nat.lt_succ_self _

/-- An open code block of this kind is closed by the lines whose fence is as long as what was kept. -/
theorem parseBlockPrefix_closed_iff (fenceChar : c = chr '`' ∨ c = chr '~') (three : 3 ≤ n)
    (fence : FencedBy c n (p.dataOf i)) :
    (parseBlockPrefix P input i p).2 = .closed ↔
      p.indent ≤ 3 ∧ min n 255 ≤ runLength c (input.drop p.firstNonspace) ∧
        blankToLineEnd ((input.drop p.firstNonspace).drop
          (runLength c (input.drop p.firstNonspace))) = true := by
  have none : P.extensionOf (p.dataOf i) = none := by
    rw [Config.extensionOf, fence.extension]
    rfl
  have code : parseBlockPrefix P input i p = parseCodeBlockPrefix P input i p := by
    unfold parseBlockPrefix
    rw [none]
    dsimp only
    rw [ParserState.typeOf, fence.type]
  rw [code]
  unfold parseCodeBlockPrefix
  extract_lets code matched
  have fenced : code.fenced = true := fence.fenced
  have length : code.fenceLength = min n 255 := fence.fenceLength
  have sameChar : code.fenceChar = c := fence.fenceChar
  rw [if_neg (by simp [fenced])]
  have closes : min n 255 ≤ matched ↔
      p.indent ≤ 3 ∧ min n 255 ≤ runLength c (input.drop p.firstNonspace) ∧
        blankToLineEnd ((input.drop p.firstNonspace).drop
          (runLength c (input.drop p.firstNonspace))) = true := by
    have notNul : c ≠ 0 := by rcases fenceChar with rfl | rfl <;> decide
    by_cases head : byteAt input p.firstNonspace = c
    · have scanned := Scanners.closeCodeFence_eq fenceChar ((head?_drop_iff notNul).mpr head)
      by_cases indented : p.indent ≤ 3
      · have scans : matched = Scanners.closeCodeFence (input.drop p.firstNonspace) :=
          if_pos (by simp [indented, sameChar, head])
        rw [scans, scanned]
        split
        next closes => exact ⟨fun long => ⟨indented, long, closes.2⟩, fun all => all.2.1⟩
        next no =>
          constructor
          · intro short
            omega
          · rintro ⟨_, long, blank⟩
            exact absurd ⟨by omega, blank⟩ no
      · have zero : matched = 0 := if_neg (by simp [indented])
        rw [zero]
        exact ⟨fun short => by omega, fun both => absurd both.1 indented⟩
    · have other : (input.drop p.firstNonspace).head? ≠ some c := mt (head?_drop_iff notNul).mp head
      have none := Scanners.runLength_eq_zero other
      have zero : matched = 0 := if_neg (by simp [sameChar, head])
      rw [zero, none]
      omega
  rw [← closes, length]
  split
  next long => simp [long]
  next short => simp [short]

/-- A closing fence, at most three columns in and as long as the opening one, closes the block, and no other line
does, except for the lines that are missed. -/
theorem closed_iff_isClosingFence (fenceChar : c = chr '`' ∨ c = chr '~') (three : 3 ≤ n)
    (fence : FencedBy c n (p.dataOf i)) :
    ((parseBlockPrefix P input i (scanFirstNonspace input p)).2 = .closed ↔
      IsClosingFence c n input p) ↔ ¬ MissesFence c n input p := by
  have quiet : Quiet p (scanFirstNonspace input p) := ⟨rfl, rfl, rfl, rfl, rfl, rfl⟩
  rw [parseBlockPrefix_closed_iff fenceChar three (quiet.fencedBy fence)]
  have columns : (scanFirstNonspace input p).indent ≤ 3 ↔
      (freshNonspace input p).2 ≤ p.column + 3 := by
    show ((freshNonspace input p).2 : Int) - p.column ≤ 3 ↔ _
    omega
  have pos : (scanFirstNonspace input p).firstNonspace = (freshNonspace input p).1 := rfl
  rw [columns, pos]
  unfold IsClosingFence MissesFence isBlank blankToLineEnd
  generalize freshNonspace input p = place
  obtain ⟨pos, column⟩ := place
  dsimp only
  generalize runLength c (input.drop pos) = length
  cases ((input.drop pos).drop length).dropWhile isSpaceOrTab with
  | nil => simp
  | cons e more =>
    by_cases lineEnd : isLineEndChar e = true
    · simp only [lineEnd]
      grind
    · simp [lineEnd]

/-- The block that a run of `n` fence characters opens. As long as it is open, a line closes it if
and only if it is a closing fence, except for the lines that are missed. -/
theorem closed_openFencedCode_iff (advances : ∀ ext ∈ P.syntaxExtensions, ext.AdvancesOnly)
    (steps : ∀ ext ∈ P.syntaxExtensions, ext.Steps P KeepsFences) {opener : Bytes}
    {allMatched maybeLazy : Bool} {depth : Nat} {container : NodeId} {r : ParserState}
    (opens : findBlockStart P opener allMatched maybeLazy depth container p =
      (q, some (.fencedCode n)))
    (later : LaterState P (openBlock P opener container q (.fencedCode n)).1 r)
    (isOpen : r.isOpen (openBlock P opener container q (.fencedCode n)).2 = true)
    (line : InLine P input r) :
    let code := (openBlock P opener container q (.fencedCode n)).2
    let c := byteAt opener p.firstNonspace
    ((c = chr '`' ∨ c = chr '~') ∧ runLength c (opener.drop p.firstNonspace) = n ∧ 3 ≤ n) ∧
      (((parseBlockPrefix P input code (findFirstNonspace input r)).2 = .closed ↔
        IsClosingFence c n input r) ↔ ¬ MissesFence c n input r) := by
  extract_lets code c
  have found := findBlockStart_found opener p P allMatched maybeLazy depth container
  rw [opens] at found
  obtain ⟨_, scanned, positive⟩ := found.2 _ rfl
  obtain ⟨d, fenceChar, head, run, three⟩ := Scanners.openCodeFence_run scanned positive
  have notNul : d ≠ 0 := by rcases fenceChar with rfl | rfl <;> decide
  have first : c = d := (head?_drop_iff notNul).mp head
  rw [first]
  refine ⟨⟨fenceChar, run, three⟩, ?_⟩
  have killPos := (findBlockStart_fst opener p P allMatched maybeLazy depth container)
  rw [opens] at killPos
  obtain ⟨killPos, same⟩ := killPos
  have firstNonspace : byteAt opener q.firstNonspace = d := by
    rw [show q = _ from same]
    exact first
  have fresh : FencedBy (byteAt opener q.firstNonspace) n
      ((openFencedCode P opener n container q).1.dataOf (openFencedCode P opener n container q).2) ∧
        _ := fencedBy_openFencedCode container
  obtain ⟨fence, address⟩ := fresh
  rw [firstNonspace] at fence
  rw [(line.cacheValid advances).scan_eq]
  exact closed_iff_isClosingFence fenceChar three
    ((later.step steps).keepsFences.fencedBy address fence isOpen)

end

/-! ### The first two lines of a document -/

section

variable (P : Config) (opener line : Bytes) (n : Nat)

def firstLine : ParserState := findFirstNonspace opener (startLine opener initialState)

/-- The code block that the first line opens. -/
def fencedFirst : ParserState × NodeId :=
  openBlock P opener 0 (findBlockStart P opener true false 1 0 (firstLine opener)).1 (.fencedCode n)

/-- The start of the line behind it. -/
def secondLine : ParserState :=
  startLine line
    (addTextToContainer P opener (fencedFirst P opener n).2 0 (fencedFirst P opener n).1).1

theorem laterState_secondLine :
    LaterState P (fencedFirst P opener n).1 (secondLine P opener line n) :=
  .start line (.text opener _ _ .refl)

end

/-- A longer fence of the same character closes the block. -/
theorem closed_openFencedCode_iff_tildes :
    ((byteAt (lit "~~~~ info\n") (firstLine (lit "~~~~ info\n")).firstNonspace = chr '`' ∨
        byteAt (lit "~~~~ info\n") (firstLine (lit "~~~~ info\n")).firstNonspace = chr '~') ∧
      runLength (byteAt (lit "~~~~ info\n") (firstLine (lit "~~~~ info\n")).firstNonspace)
        ((lit "~~~~ info\n").drop (firstLine (lit "~~~~ info\n")).firstNonspace) = 4 ∧ 3 ≤ 4) ∧
    (((parseBlockPrefix ⟨asciiTables, 0, []⟩ (lit " ~~~~~ \n")
        (fencedFirst ⟨asciiTables, 0, []⟩ (lit "~~~~ info\n") 4).2
        (findFirstNonspace (lit " ~~~~~ \n")
          (secondLine ⟨asciiTables, 0, []⟩ (lit "~~~~ info\n") (lit " ~~~~~ \n") 4))).2 = .closed ↔
      IsClosingFence (byteAt (lit "~~~~ info\n") (firstLine (lit "~~~~ info\n")).firstNonspace) 4
        (lit " ~~~~~ \n")
        (secondLine ⟨asciiTables, 0, []⟩ (lit "~~~~ info\n") (lit " ~~~~~ \n") 4)) ↔
      ¬ MissesFence (byteAt (lit "~~~~ info\n") (firstLine (lit "~~~~ info\n")).firstNonspace) 4
        (lit " ~~~~~ \n")
        (secondLine ⟨asciiTables, 0, []⟩ (lit "~~~~ info\n") (lit " ~~~~~ \n") 4)) := by
  have start : (findBlockStart ⟨asciiTables, 0, []⟩ (lit "~~~~ info\n") true false 1 0
      (firstLine (lit "~~~~ info\n"))).2 = some (.fencedCode 4) := by decide +kernel
  have opens : findBlockStart ⟨asciiTables, 0, []⟩ (lit "~~~~ info\n") true false 1 0
      (firstLine (lit "~~~~ info\n")) =
        ((findBlockStart ⟨asciiTables, 0, []⟩ (lit "~~~~ info\n") true false 1 0
          (firstLine (lit "~~~~ info\n"))).1, some (.fencedCode 4)) := by rw [← start]
  have later := laterState_secondLine ⟨asciiTables, 0, []⟩ (lit "~~~~ info\n") (lit " ~~~~~ \n") 4
  have isOpen : (secondLine ⟨asciiTables, 0, []⟩ (lit "~~~~ info\n") (lit " ~~~~~ \n") 4).isOpen
      (fencedFirst ⟨asciiTables, 0, []⟩ (lit "~~~~ info\n") 4).2 = true := by decide +kernel
  exact closed_openFencedCode_iff (P := ⟨asciiTables, 0, []⟩) nofun nofun opens later isOpen (.start _)

/-- A fence that is too short closes the block. -/
theorem closed_of_short_fence :
    let P : Config := ⟨asciiTables, 0, []⟩
    let opener := List.replicate 256 (chr '`') ++ lit "\n"
    let line := List.replicate 255 (chr '`') ++ lit "\n"
    let r := secondLine P opener line 256
    (findBlockStart P opener true false 1 0 (firstLine opener)).2 = some (.fencedCode 256) ∧
      LaterState P (fencedFirst P opener 256).1 r ∧
      r.isOpen (fencedFirst P opener 256).2 = true ∧ InLine P line r ∧
      (parseBlockPrefix P line (fencedFirst P opener 256).2 (findFirstNonspace line r)).2 = .closed ∧
      ¬ IsClosingFence (chr '`') 256 line r := by
  refine ⟨?_, laterState_secondLine _ _ _ 256, ?_, .start _, ?_, ?_⟩
  · decide +kernel
  · decide +kernel
  · decide +kernel
  · decide +kernel

end CmarkGfm
