import CmarkGfm.Extensions.Tasklist
import CmarkGfm.Properties.InlineExtensions
import CmarkGfm.Properties.LinePosition

/-!
# The state of a task

A line opens a task if the scanner matches a box after a list marker. The state should be what this box
holds, but it is computed from the whole line, and a later line that looks like a task writes it again if
its text stands in the same item. Tasks have the states of their boxes if no line does the one or the other.
-/

namespace CmarkGfm

open Regex

namespace Tasklist

/-! ### The box that the scanner matches -/

/-- What is matched ends with the box and spaces. -/
def scannedMarker (input : Bytes) : Option UInt8 :=
  ((input.take (Scanners.tasklist input)).rdropWhile
    (CharClass.mem ⟨false, [(9, 9), (11, 12), (32, 32)]⟩)).dropLast.getLast?

/-- The state as the box says it. -/
def markerChecked (input : Bytes) : Bool :=
  scannedMarker input == some (chr 'x') || scannedMarker input == some (chr 'X')

theorem mem_single {c d : UInt8} : CharClass.mem ⟨false, [(c, c)]⟩ d = true ↔ d = c := by
  simp only [CharClass.mem, List.any_cons, List.any_nil, Bool.or_false, Bool.false_xor,
    Bool.and_eq_true, decide_eq_true_eq]
  constructor
  · rintro ⟨lower, upper⟩
    exact UInt8.le_antisymm upper lower
  · rintro rfl
    exact ⟨UInt8.le_refl _, UInt8.le_refl _⟩

theorem mem_pair {c e d : UInt8} : CharClass.mem ⟨false, [(c, c), (e, e)]⟩ d = true ↔ d = c ∨ d = e := by
  have first := mem_single (c := c) (d := d)
  have second := mem_single (c := e) (d := d)
  simp only [CharClass.mem, List.any_cons, List.any_nil, Bool.or_false, Bool.false_xor] at first second ⊢
  rw [Bool.or_eq_true, first, second]

theorem matches_three {k₁ k₂ k₃ : CharClass} {w : Bytes} :
    Matches CharClass.mem (.seq (.cls k₁) (.seq (.cls k₂) (.cls k₃))) w ↔
      ∃ a b c, w = [a, b, c] ∧ k₁.mem a = true ∧ k₂.mem b = true ∧ k₃.mem c = true := by
  rw [matches_seq_iff]
  constructor
  · rintro ⟨u, v, rfl, first, rest⟩
    obtain ⟨u', v', rfl, second, third⟩ := (matches_seq_iff ..).mp rest
    obtain ⟨a, rfl, inA⟩ := (matches_cls_iff ..).mp first
    obtain ⟨b, rfl, inB⟩ := (matches_cls_iff ..).mp second
    obtain ⟨c, rfl, inC⟩ := (matches_cls_iff ..).mp third
    exact ⟨a, b, c, rfl, inA, inB, inC⟩
  · rintro ⟨a, b, c, rfl, inA, inB, inC⟩
    exact ⟨[a], [b, c], rfl, .cls inA, (matches_seq_iff ..).mpr ⟨[b], [c], rfl, .cls inB, .cls inC⟩⟩

/-- A box. -/
theorem matches_box {w : Bytes}
    (matched : Matches CharClass.mem (.alt (Scanners.str "[ ]") (Scanners.istr "[x]")) w) :
    ∃ c, w = [91, c, 93] ∧ (c = 32 ∨ c = 120 ∨ c = 88) := by
  cases matched with
  | left empty =>
    obtain ⟨a, b, c, rfl, inA, inB, inC⟩ := matches_three.mp empty
    rw [mem_single] at inA inB inC
    exact ⟨32, by rw [inA, inB, inC]; rfl, .inl rfl⟩
  | right checked =>
    obtain ⟨a, b, c, rfl, inA, inB, inC⟩ := matches_three.mp checked
    rw [mem_pair] at inA inB inC
    have left : a = 91 := inA.elim id id
    have right : c = 93 := inC.elim id id
    exact ⟨b, by rw [left, right], .inr inB⟩

/-- What the scanner matches. -/
theorem tasklist_match {input : Bytes} (found : Scanners.tasklist input ≠ 0) :
    ∃ before c after, input.take (Scanners.tasklist input) = before ++ [91, c, 93] ++ after ∧
      (c = 32 ∨ c = 120 ∨ c = 88) ∧ (∀ d ∈ after, CharClass.mem ⟨false, [(9, 9), (11, 12), (32, 32)]⟩ d = true) ∧
      0 ∉ input.take (Scanners.tasklist input) := by
  unfold Scanners.tasklist Scanners.scan at found ⊢
  cases result : longestMatch CharClass.mem Scanners.taskItem input with
  | none =>
    rw [result] at found
    exact absurd rfl found
  | some n =>
    obtain ⟨_, matched⟩ := longestMatch_sound CharClass.mem _ input n result
    rw [Option.getD_some]
    have noNul : 0 ∉ input.take n := by
      intro nul
      obtain ⟨k, among, inClass⟩ := matched.mem_classes 0 nul
      have none : ∀ k ∈ Scanners.taskItem.classes, k.mem 0 = false := by decide
      rw [none k among] at inClass
      cases inClass
    obtain ⟨s₁, rest₁, split₁, _, matched⟩ := (matches_seq_iff ..).mp matched
    obtain ⟨marker, rest₂, rfl, _, matched⟩ := (matches_seq_iff ..).mp matched
    obtain ⟨s₂, rest₃, rfl, _, matched⟩ := (matches_seq_iff ..).mp matched
    obtain ⟨box, after, rfl, isBox, spaces⟩ := (matches_seq_iff ..).mp matched
    obtain ⟨c, rfl, state⟩ := matches_box isBox
    refine ⟨s₁ ++ marker ++ s₂, c, after, ?_, state, ?_, noNul⟩
    · rw [split₁]
      simp only [List.append_assoc]
    · intro d member
      obtain ⟨k, among, inClass⟩ := spaces.mem_classes d member
      have same : ∀ k ∈ (Re.seqs [.plus Scanners.extSpacechar]).classes,
          k = ⟨false, [(9, 9), (11, 12), (32, 32)]⟩ := by decide
      rw [same k among] at inClass
      exact inClass

theorem scannedMarker_eq {input before after : Bytes} {c : UInt8}
    (split : input.take (Scanners.tasklist input) = before ++ [91, c, 93] ++ after)
    (spaces : ∀ d ∈ after, CharClass.mem ⟨false, [(9, 9), (11, 12), (32, 32)]⟩ d = true) :
    scannedMarker input = some c := by
  have box : before ++ [91, c, 93] = before ++ [91, c] ++ [93] := by simp
  rw [scannedMarker, split, rdropWhile_append_of_pos spaces, box, List.rdropWhile_concat_neg _ _ _ (by decide)]
  simp

theorem strstr_iff (haystack needle : Bytes) : strstr haystack needle = true ↔ needle <:+: cstr haystack := by
  rw [strstr, List.any_eq_true, List.infix_iff_prefix_suffix]
  simp only [List.mem_tails, List.isPrefixOf_iff_prefix]
  constructor
  · rintro ⟨t, suffix, here⟩
    exact ⟨t, here, suffix⟩
  · rintro ⟨t, here, suffix⟩
    exact ⟨t, suffix, here⟩

/-- A checked box is found in its line. -/
theorem lineChecked_of_marker {input before after : Bytes} {c : UInt8}
    (split : input.take (Scanners.tasklist input) = before ++ [91, c, 93] ++ after)
    (noNul : 0 ∉ input.take (Scanners.tasklist input)) (checked : c = 120 ∨ c = 88) :
    lineChecked input = true := by
  have found : [91, c, 93] <:+: cstr input := by
    refine ⟨before, after ++ cstr (input.drop (Scanners.tasklist input)), ?_⟩
    have whole : cstr input = input.take (Scanners.tasklist input) ++ cstr (input.drop (Scanners.tasklist input)) := by
      have plain : ∀ d ∈ input.take (Scanners.tasklist input), (d != 0) = true := by
        intro d member
        rw [bne_iff_ne]
        rintro rfl
        exact noNul member
      rw [cstr, cstr, ← List.takeWhile_append_of_pos plain, List.take_append_drop]
    rw [whole, split]
    simp
  unfold lineChecked
  rw [Bool.or_eq_true, strstr_iff, strstr_iff]
  rcases checked with rfl | rfl
  · exact .inl found
  · exact .inr found

/-- The box is not empty, or there is no other box that is checked. -/
def StatesAgree (input : Bytes) : Prop := scannedMarker input = some 32 → lineChecked input = false

/-- The two states of a line that opens a task. -/
theorem markerChecked_eq_iff {input : Bytes} (found : Scanners.tasklist input ≠ 0) :
    lineChecked input = markerChecked input ↔ StatesAgree input := by
  obtain ⟨before, c, after, split, state, spaces, noNul⟩ := tasklist_match found
  rw [StatesAgree, markerChecked, scannedMarker_eq split spaces]
  rcases state with rfl | checked
  · have empty : (some 32 == some (chr 'x') || some 32 == some (chr 'X')) = false := by decide
    rw [empty]
    simp
  · rw [lineChecked_of_marker split noNul checked]
    rcases checked with rfl | rfl
    · decide
    · decide

/-! ### One line -/

/-- The item is one of the extension, with the state that the line gives it. -/
def marked (self : Nat) (input : Bytes) (d : NodeData) : NodeData :=
  { d with extension := some self, as := .list { d.as.getList with checked := lineChecked input } }

@[simp] theorem getTasklistItemChecked_marked (self : Nat) (input : Bytes) (d : NodeData) :
    getTasklistItemChecked self (marked self input d) = lineChecked input := by
  simp [getTasklistItemChecked, marked, NodeAs.getList]

/-- The callback does nothing unless the scanner matches the line and the container is an item. -/
theorem openTasklistItem_cases (self : Nat) (p : ParserState) (container : NodeId) (input : Bytes) :
    openTasklistItem self p container input = (p, none) ∨
      (p.typeOf container = .item ∧ Scanners.tasklist input ≠ 0) := by
  unfold openTasklistItem
  split
  next => exact .inl rfl
  next isItem =>
    split
    next => exact .inl rfl
    next found => exact .inr ⟨not_not.mp isItem, found⟩

/-- What it writes into an item. -/
theorem nodes_openTasklistItem {self : Nat} {p : ParserState} {item : NodeId} {input : Bytes}
    (isItem : p.typeOf item = .item) (found : Scanners.tasklist input ≠ 0) (j : NodeId) :
    (openTasklistItem self p item input).1.nodes j =
      if j = item then (p.nodes item).map fun b => { b with data := marked self input b.data } else p.nodes j := by
  have matched : Scanners.scanAt Scanners.tasklist input 0 ≠ 0 := found
  unfold openTasklistItem
  rw [if_neg (not_not_intro isItem), if_neg matched]
  dsimp only
  rw [nodes_modifyData, nodes_advanceOffset, nodes_modifyData, nodes_modifyData, if_pos rfl, Option.map_map]
  by_cases here : j = item <;> simp [here, marked, Function.comp_def]

/-- An item whose line opens a task has the state of its box after that if and only if the two states
of the line agree. -/
theorem openTasklistItem_iff {self : Nat} {p : ParserState} {item : NodeId} {b : Block} {input : Bytes}
    (here : p.nodes item = some b) (isItem : b.data.type = .item) (found : Scanners.tasklist input ≠ 0) :
    getTasklistItemChecked self ((openTasklistItem self p item input).1.dataOf item) = markerChecked input ↔
      StatesAgree input := by
  have type : p.typeOf item = .item := by simp [ParserState.typeOf, ParserState.dataOf, ParserState.block, here, isItem]
  have data : (openTasklistItem self p item input).1.dataOf item = marked self input b.data := by
    simp [ParserState.dataOf, ParserState.block, nodes_openTasklistItem type found, here]
  rw [data, getTasklistItemChecked_marked, markerChecked_eq_iff found]

/-! ### One line among other extensions -/

/-- The line marks an item as a task, none with an address below `first`, and its states agree. -/
def Marks (self : Nat) (input : Bytes) (first : NodeId) (p p' : ParserState) : Prop :=
  Scanners.tasklist input ≠ 0 ∧ StatesAgree input ∧ ∃ item, first ≤ item ∧ p.typeOf item = .item ∧
    p' = (openTasklistItem self p item input).1

/-- An extension without callbacks for blocks. -/
structure WithoutBlocks (e : Extension) : Prop where
  lastBlockMatches : e.lastBlockMatches = none
  tryOpeningBlock : e.tryOpeningBlock = none

section

variable {P : Config} {before after : List Extension}
  (extensions : P.syntaxExtensions = before ++ extension before.length :: after)
  (others : ∀ e ∈ before ++ after, WithoutBlocks e) {first : NodeId} {input : Bytes}

theorem tryOpeningBlocks_withoutBlocks {exts : List Extension} (none : ∀ e ∈ exts, WithoutBlocks e) (indented : Bool)
    (container : NodeId) (p : ParserState) : tryOpeningBlocks P indented input container exts p = (p, .none) := by
  induction exts with
  | nil => rfl
  | cons e exts ih =>
    obtain ⟨here, rest⟩ := List.forall_mem_cons.mp none
    rw [tryOpeningBlocks, here.tryOpeningBlock]
    exact ih rest

include extensions others

/-- Where no block starts, tasklist is asked, and it opens no block. -/
theorem tryOpeningBlocks_tasklist (indented : Bool) (container : NodeId) (p : ParserState) :
    tryOpeningBlocks P indented input container P.syntaxExtensions p =
      ((openTasklistItem before.length p container input).1, none) := by
  have opened (self : Nat) : tryOpeningBlocks P indented input container (extension self :: after) p =
      ((openTasklistItem self p container input).1, none) := by
    have nothing : (openTasklistItem self p container input).2 = none := by
      unfold openTasklistItem
      split_ifs <;> rfl
    rw [tryOpeningBlocks]
    simp only [extension]
    generalize openTasklistItem self p container input = r at nothing
    obtain ⟨q, opened⟩ := r
    cases nothing
    exact tryOpeningBlocks_withoutBlocks (fun e member => others e (List.mem_append_right _ member)) indented container q
  rw [extensions]
  generalize before.length = self
  have earlier := fun e member => others e (List.mem_append_left after member)
  clear extensions others
  induction before with
  | nil => exact opened self
  | cons e before ih =>
    obtain ⟨here, rest⟩ := List.forall_mem_cons.mp earlier
    rw [List.cons_append, tryOpeningBlocks, here.tryOpeningBlock]
    exact ih rest

theorem matchSteps_tasklist {E : ParserState → ParserState → Prop} : MatchSteps P E := by
  intro e member f callback p input container
  rw [extensions] at member
  rcases List.mem_append.mp member with earlier | later
  · rw [(others e (List.mem_append_left after earlier)).lastBlockMatches] at callback
    cases callback
  · rcases List.mem_cons.mp later with rfl | later
    · cases callback
      exact (quiet_parseNodeItemPrefix input container p).step
    · rw [(others e (List.mem_append_right before later)).lastBlockMatches] at callback
      cases callback

/-- Blocks are opened in steps, and an item is marked only if the line ends up in it. -/
theorem step_openNewBlocksFrom_tasklist (allMatched : Bool) (fuel : Nat) (maybeLazy : Bool) (depth : Nat)
    (container : NodeId) (p : ParserState)
    (own : let opened := openNewBlocksFrom P input allMatched fuel maybeLazy depth container p
      opened.1.typeOf opened.2 = .item → Scanners.tasklist input ≠ 0 → first ≤ opened.2 ∧ StatesAgree input) :
    BlockStep P (Marks before.length input first) p
      (openNewBlocksFrom P input allMatched fuel maybeLazy depth container p).1 := by
  induction fuel generalizing maybeLazy depth container p with
  | zero => exact .refl p
  | succ fuel ih =>
    unfold openNewBlocksFrom at own ⊢
    split at own
    next leaf =>
      rw [if_pos leaf]
      exact .refl p
    next more =>
      rw [if_neg more]
      cases start : (findBlockStart P input allMatched maybeLazy (depth + 1) container (findFirstNonspace input p)).2 with
      | none =>
        -- the callback is asked, and the loop is left
        have asked : openNewBlock P input allMatched maybeLazy (depth + 1) container p =
            ((openTasklistItem before.length
              (findBlockStart P input allMatched maybeLazy (depth + 1) container (findFirstNonspace input p)).1
              container input).1, none) := by
          unfold openNewBlock
          extract_lets p' indented
          generalize findBlockStart P input allMatched maybeLazy (depth + 1) container p' = r at start ⊢
          obtain ⟨q, found⟩ := r
          cases start
          exact tryOpeningBlocks_tasklist extensions others indented container q
        have quiet : Quiet p _ := (quiet_findFirstNonspace input p).trans
          (quiet_findBlockStart input (findFirstNonspace input p) P allMatched maybeLazy (depth + 1) container)
        generalize (findBlockStart P input allMatched maybeLazy (depth + 1) container (findFirstNonspace input p)).1 = q at asked quiet
        rw [asked] at own ⊢
        dsimp only at own ⊢
        rcases openTasklistItem_cases before.length q container input with same | ⟨isItem, found⟩
        · rw [same]
          exact quiet.step
        · have still : (openTasklistItem before.length q container input).1.typeOf container = .item := by
            rw [← isItem]
            simp only [ParserState.typeOf, ParserState.dataOf, ParserState.block, nodes_openTasklistItem isItem found]
            cases q.nodes container <;> simp [marked]
          obtain ⟨isOwn, agree⟩ := own still found
          exact quiet.step.trans (.callback ⟨found, agree, container, isOwn, isItem, rfl⟩)
      | some found =>
        have step : BlockStep P (Marks before.length input first) p
            (openNewBlock P input allMatched maybeLazy (depth + 1) container p).1 :=
          step_openNewBlock_of input fun none => by
            rw [start] at none
            cases none
        generalize openNewBlock P input allMatched maybeLazy (depth + 1) container p = r at step own ⊢
        obtain ⟨p', newContainer⟩ := r
        cases newContainer with
        | none => exact step
        | some newContainer =>
          dsimp only at own ⊢
          split
          next => exact step
          next accepts =>
            rw [if_neg accepts] at own
            exact step.trans (ih _ _ _ p' own)

end

/-- If the line is marked as a task, it is so for an item of its own and with agreeing states: the item in
which the text of the line ends up, if the scanner matches the line, has been opened by it, and the box is
not empty or there is no checked one in the line. -/
def MarksOwnItem (P : Config) (input : Bytes) (p : ParserState) : Prop :=
  let checked := checkOpenBlocks P input (startLine input p)
  ∀ lastMatched ∈ checked.2.1, P.options.has optInlineOnly = false →
    let opened := openNewBlocks P input checked.2.2 lastMatched checked.1
    opened.1.typeOf opened.2 = .item → Scanners.tasklist input ≠ 0 → p.nextId ≤ opened.2 ∧ StatesAgree input

instance (input : Bytes) : Decidable (StatesAgree input) :=
  inferInstanceAs (Decidable (scannedMarker input = some 32 → lineChecked input = false))

instance (P : Config) (input : Bytes) (p : ParserState) : Decidable (MarksOwnItem P input p) := by
  unfold MarksOwnItem
  infer_instance

section

variable {P : Config} {before after : List Extension}
  (extensions : P.syntaxExtensions = before ++ extension before.length :: after)
  (others : ∀ e ∈ before ++ after, WithoutBlocks e)

include extensions others in
theorem step_processLine_tasklist {p : ParserState} {buffer : Bytes} {ensureEndsInNewline : Bool}
    (own : MarksOwnItem P (prepareLine P buffer ensureEndsInNewline) p) :
    BlockStep P (Marks before.length (prepareLine P buffer ensureEndsInNewline) p.nextId) p
      (processLine P p buffer ensureEndsInNewline) := by
  refine step_processLine_of (matchSteps_tasklist extensions others) ?_
  intro q lastMatched allMatched checked more _
  unfold MarksOwnItem at own
  rw [checked] at own
  exact step_openNewBlocksFrom_tasklist extensions others _ _ _ _ _ _ (own lastMatched rfl more)

variable {self : Nat} {input : Bytes} {first : NodeId} {p p' : ParserState}

/-- Marking an item gives out no address. -/
theorem Marks.bounded (marks : Marks self input first p p') : p.nextId ≤ p'.nextId ∧ (p.Bounded → p'.Bounded) := by
  obtain ⟨found, _, item, _, isItem, rfl⟩ := marks
  have same : (openTasklistItem self p item input).1.nextId = p.nextId := by
    unfold openTasklistItem
    split_ifs
    · rfl
    · rfl
    · exact (quiet_advanceOffset input _ 3 false).nextId
  refine ⟨same.ge, fun bounded i b block => ?_⟩
  rw [nodes_openTasklistItem isItem found] at block
  rw [same]
  split at block
  next here =>
    obtain ⟨b', old, _⟩ := Option.map_eq_some_iff.mp block
    exact here ▸ bounded old
  next => exact bounded block

/-- The state of the parser before the line with this index. -/
def stateAt (P : Config) (lines : List (Bytes × Bool)) (n : Nat) : ParserState :=
  replay (processLine P) initialState (lines.take n)

/-- A task has the state of the box that the scanner matches at the start of the line of its item, which is the
line that opened it. -/
def StateOfBox (P : Config) (lines : List (Bytes × Bool)) (self : Nat) (i : NodeId) (d : NodeData) : Prop :=
  d.type = .item → d.extension = some self → ∃ n line, lines[n]? = some line ∧
    (stateAt P lines n).nextId ≤ i ∧ i < (stateAt P lines (n + 1)).nextId ∧
    Scanners.tasklist (prepareLine P line.1 line.2) ≠ 0 ∧
    getTasklistItemChecked self d = markerChecked (prepareLine P line.1 line.2)

/-- What a line makes of tasks: those of earlier lines stay as they are, the others are its own. -/
def StateAfter (P : Config) (lines : List (Bytes × Bool)) (self n : Nat) (input : Bytes) (i : NodeId) (d : NodeData) :
    Prop :=
  StateOfBox P lines self i d ∨ (stateAt P lines n).nextId ≤ i ∧ Scanners.tasklist input ≠ 0 ∧
    (d.type = .item → d.extension = some self → getTasklistItemChecked self d = markerChecked input)

/-- Neither text nor closing a block changes a task. -/
theorem same_of_dataStep {d e : NodeData} (step : DataStep d e) (isItem : e.type = .item) :
    d.type = .item ∧ e.as = d.as ∧ e.extension = d.extension := by
  cases step with
  | content type as extension _ => exact ⟨type ▸ isItem, as, extension⟩
  | close type _ _ closed =>
    rw [type] at isItem
    rw [isItem] at closed
    rcases closed with impossible | impossible | impossible <;> cases impossible
  | setext lev _ _ _ => cases isItem

theorem getTasklistItemChecked_congr {d e : NodeData} (as : e.as = d.as) (extension : e.extension = d.extension) :
    getTasklistItemChecked self e = getTasklistItemChecked self d := by
  rw [getTasklistItemChecked, getTasklistItemChecked, as, extension]

theorem StateOfBox.step {lines : List (Bytes × Bool)} {i : NodeId} {d e : NodeData} (step : DataStep d e)
    (state : StateOfBox P lines self i d) : StateOfBox P lines self i e := by
  intro isItem task
  obtain ⟨wasItem, as, extension⟩ := same_of_dataStep step isItem
  rw [getTasklistItemChecked_congr as extension]
  exact state wasItem (extension ▸ task)

theorem stateOfBox_fresh {lines : List (Bytes × Bool)} {i : NodeId} {d : NodeData} (fresh : FreshBlock P d) :
    StateOfBox P lines self i d := by
  intro _ task
  rw [fresh.extension] at task
  cases task

/-! ### The run -/

theorem stateAt_succ {lines : List (Bytes × Bool)} {n : Nat} {line : Bytes × Bool} (here : lines[n]? = some line) :
    stateAt P lines (n + 1) = processLine P (stateAt P lines n) line.1 line.2 := by
  rw [stateAt, List.take_add_one, here, Option.toList_some, replay, List.foldl_append]
  rfl

theorem stateAt_of_le {lines : List (Bytes × Bool)} {n : Nat} (ended : lines.length ≤ n) :
    stateAt P lines n = replay (processLine P) initialState lines := by
  rw [stateAt, List.take_of_length_le ended]

theorem initialState_nodes {i : NodeId} {b : Block} (block : initialState.nodes i = some b) :
    i = 0 ∧ b = ⟨makeBlock .document 1 1, none, []⟩ := by
  have found : (if i = 0 then some (⟨makeBlock .document 1 1, none, []⟩ : Block) else none) = some b := block
  split at found
  next here =>
    cases found
    exact ⟨here, rfl⟩
  next => cases found

/-- Closing the blocks that are left changes no task. -/
theorem stateOfBox_finalizeBlocks {lines : List (Bytes × Bool)}
    (states : p.EveryBlockAt (StateOfBox P lines self)) :
    (finalizeBlocks P p).EveryBlockAt (StateOfBox P lines self) := by
  have step : BlockStep P (fun _ _ => False) p (finalizeBlocks P p) := step_finalizeBlocks P p
  refine @BlockStep.everyBlockAt P _ (StateOfBox P lines self) _ _ step ?_ ?_ ?_ states
  · exact StateOfBox.step
  · exact stateOfBox_fresh
  · exact False.elim

include extensions others

/-- What one line preserves: every task has the state of its box. -/
theorem stateOfBox_processLine {lines : List (Bytes × Bool)} {n : Nat} {line : Bytes × Bool} (here : lines[n]? = some line)
    (own : MarksOwnItem P (prepareLine P line.1 line.2) (stateAt P lines n)) (bounded : (stateAt P lines n).Bounded)
    (states : (stateAt P lines n).EveryBlockAt (StateOfBox P lines before.length)) :
    (stateAt P lines (n + 1)).Bounded ∧
      (stateAt P lines (n + 1)).EveryBlockAt (StateOfBox P lines before.length) := by
  have step := step_processLine_tasklist extensions others own
  rw [← stateAt_succ here] at step
  have bounds := step.bounded Marks.bounded
  refine ⟨bounds.2 bounded, fun {i b} block => ?_⟩
  have after : (stateAt P lines (n + 1)).EveryBlockAt
      (StateAfter P lines before.length n (prepareLine P line.1 line.2)) := by
    refine step.everyBlockAt ?_ (fun fresh => .inl (stateOfBox_fresh fresh)) ?_ (fun block => .inl (states block))
    · intro i d e edit state
      rcases state with earlier | ⟨isOwn, found, same⟩
      · exact .inl (earlier.step edit)
      · refine .inr ⟨isOwn, found, fun isItem task => ?_⟩
        obtain ⟨wasItem, as, extension⟩ := same_of_dataStep edit isItem
        rw [getTasklistItemChecked_congr as extension]
        exact same wasItem (extension ▸ task)
    · -- the item that is marked gets the state of the line
      rintro p _ ⟨found, agree, item, isOwn, isItem, rfl⟩ every i b block
      rw [nodes_openTasklistItem isItem found] at block
      split at block
      next here =>
        obtain ⟨b', _, rfl⟩ := Option.map_eq_some_iff.mp block
        refine .inr ⟨here ▸ isOwn, found, fun _ _ => ?_⟩
        rw [getTasklistItemChecked_marked, (markerChecked_eq_iff found).mpr agree]
      next => exact every block
  rcases after block with earlier | ⟨isOwn, found, same⟩
  · exact earlier
  · exact fun isItem task => ⟨n, line, here, isOwn, bounds.2 bounded block, found, same isItem task⟩

/-- In a run whose lines mark items of their own, every task of every state has the state of its box. -/
theorem stateOfBox_stateAt {lines : List (Bytes × Bool)}
    (own : ∀ n line, lines[n]? = some line → MarksOwnItem P (prepareLine P line.1 line.2) (stateAt P lines n)) (n : Nat) :
    (stateAt P lines n).Bounded ∧ (stateAt P lines n).EveryBlockAt (StateOfBox P lines before.length) := by
  induction n with
  | zero =>
    constructor
    · intro i b block
      obtain ⟨rfl, _⟩ := initialState_nodes block
      exact Nat.one_pos
    · intro i b block isItem
      obtain ⟨_, rfl⟩ := initialState_nodes block
      cases isItem
  | succ n ih =>
    cases here : lines[n]? with
    | some line => exact stateOfBox_processLine extensions others here (own n line here) ih.1 ih.2
    | none =>
      have ended := List.getElem?_eq_none_iff.mp here
      rw [stateAt_of_le ended] at ih
      rw [stateAt_of_le (ended.trans n.le_succ)]
      exact ih

end

/-! ### The document -/

section

variable {T : Tables} {options : Options} {p p' : ParserState}

/-- The parser with tasklist and nothing else. -/
def tasklistParser (T : Tables) (options : Options) : Config := ⟨T, options, [extension 0]⟩

theorem extensionOf_tasklist (d : NodeData) :
    (tasklistParser T options).extensionOf d = none ∨ (tasklistParser T options).extensionOf d = some (extension 0) := by
  cases found : (tasklistParser T options).extensionOf d with
  | none => exact .inl rfl
  | some e => exact .inr (congrArg some (List.mem_singleton.mp (mem_of_extensionOf found)))

theorem containsInlines_tasklist (d : NodeData) :
    containsInlines (tasklistParser T options) d = true ↔ d.type = .paragraph ∨ d.type = .heading := by
  unfold containsInlines
  have one : (tasklistParser T options).extensionOf d = none ∨ _ := extensionOf_tasklist d
  rcases one with none | some
  · simp [none]
  · simp [some, extension]

/-- Only an item may contain more than without the extension. -/
theorem not_canContain_tasklist {d : NodeData} {t : NodeType} (leaf : d.type.isLeafBlock) (core : t.isCoreBlock) :
    (tasklistParser T options).nodeCanContainType d t = false := by
  unfold Config.nodeCanContainType
  split
  next => rfl
  next =>
    have notItem : d.type ≠ .item := by
      intro isItem
      rw [isItem] at leaf
      cases leaf
    have one : (tasklistParser T options).extensionOf d = none ∨ _ := extensionOf_tasklist d
    rcases one with none | some
    · simp [none, NodeType.not_canContainType_of_isLeafBlock leaf core]
    · simp [some, extension, canContain, notItem]

/-- Marking an item leaves the links alone. -/
theorem Marks.leavesChildless {self : Nat} {input : Bytes} {first : NodeId} (marks : Marks self input first p p') :
    (p'.asserts → p.asserts) ∧ (p.LeavesChildless → p'.LeavesChildless) := by
  obtain ⟨found, _, item, _, isItem, rfl⟩ := marks
  constructor
  · have same : (openTasklistItem self p item input).1.asserts = p.asserts := by
      unfold openTasklistItem
      split_ifs
      · rfl
      · rfl
      · exact (quiet_advanceOffset input _ 3 false).asserts
    rw [same]
    exact id
  · intro leaves i b block
    rw [nodes_openTasklistItem isItem found] at block
    split at block
    next =>
      obtain ⟨b', old, rfl⟩ := Option.map_eq_some_iff.mp block
      exact leaves item b' old
    next => exact leaves i b block

section

variable {lines : List (Bytes × Bool)}
  (own : ∀ n line, lines[n]? = some line →
    MarksOwnItem (tasklistParser T options) (prepareLine (tasklistParser T options) line.1 line.2)
      (stateAt (tasklistParser T options) lines n))

include own

theorem leavesChildless_stateAt (n : Nat) : (stateAt (tasklistParser T options) lines n).asserts →
    (stateAt (tasklistParser T options) lines n).LeavesChildless := by
  induction n with
  | zero =>
    intro _ i b block
    obtain ⟨_, rfl⟩ := initialState_nodes block
    exact ⟨rfl, fun _ => rfl⟩
  | succ n ih =>
    intro holds
    cases here : lines[n]? with
    | some line =>
      have step := @step_processLine_tasklist (tasklistParser T options) [] [] rfl (List.forall_mem_nil _) _ _ _
        (own n line here)
      rw [← stateAt_succ here] at step
      obtain ⟨earlier, kept⟩ := step.leavesChildless not_canContain_tasklist Marks.leavesChildless
      exact kept holds (ih (earlier holds))
    | none =>
      have ended := List.getElem?_eq_none_iff.mp here
      rw [stateAt_of_le ended] at ih
      rw [stateAt_of_le (ended.trans n.le_succ)] at holds ⊢
      exact ih holds

theorem leavesChildless_finalizeBlocks (n : Nat)
    (holds : (finalizeBlocks (tasklistParser T options) (stateAt (tasklistParser T options) lines n)).asserts) :
    (finalizeBlocks (tasklistParser T options) (stateAt (tasklistParser T options) lines n)).LeavesChildless := by
  have step : BlockStep (tasklistParser T options) (fun _ _ => False) _ _ :=
    step_finalizeBlocks (tasklistParser T options) (stateAt (tasklistParser T options) lines n)
  obtain ⟨earlier, kept⟩ := step.leavesChildless not_canContain_tasklist False.elim
  exact kept holds (leavesChildless_stateAt own n (earlier holds))

end

/-- What the block parser hands over for a task: the blocks of text are still empty. -/
structure TaskNode (P : Config) (q : NodeId → NodeData → Prop) (i : NodeId) (d : NodeData) (cs : Forest) : Prop where
  task : q i d
  notText : d.type ≠ .text
  leaf : containsInlines P d = true → cs = []

theorem taskNode_toTree {q : NodeId → NodeData → Prop} (every : p.EveryBlockAt q) (leaves : p.LeavesChildless)
    (missing : ∀ i, q i default) (fuel : Nat) (i : NodeId) :
    (toTree p fuel i).All (TaskNode (tasklistParser T options) q) := by
  have node (i : NodeId) : q i (p.dataOf i) ∧ (p.dataOf i).type ≠ .text ∧
      (containsInlines (tasklistParser T options) (p.dataOf i) = true → p.childrenOf i = []) := by
    unfold ParserState.dataOf ParserState.childrenOf ParserState.block
    cases block : p.nodes i with
    | none => exact ⟨missing i, nofun, fun _ => rfl⟩
    | some b =>
      obtain ⟨core, childless⟩ := leaves i b block
      refine ⟨every block, ?_, fun text => childless ?_⟩
      · intro text
        rw [Option.getD_some] at text
        rw [text] at core
        cases core
      · rcases containsInlines_tasklist _ |>.mp text with type | type <;>
          rw [Option.getD_some] at type <;> rw [type] <;> rfl
  induction fuel generalizing i with
  | zero => exact ⟨⟨(node i).1, (node i).2.1, fun _ => rfl⟩, trivial⟩
  | succ fuel ih =>
    obtain ⟨task, notText, leaf⟩ := node i
    refine ⟨⟨task, notText, fun text => by rw [leaf text, List.map_nil]⟩, ?_⟩
    rw [allList_iff, List.forall_mem_map]
    exact fun j _ => ih j

/-- A condition on tasks holds of the finished document if it does of the blocks: parsing inlines makes no items,
and neither do footnotes and merging texts. -/
theorem documentOf_tasks {q : NodeId → NodeData → Prop} (other : ∀ {i d}, d.type ≠ .item → q i d)
    (counts : ∀ {i d} (n : Nat), q i d → q i { d with refIx := n }) {callback : Option (UInt8 → Bool)}
    {chunks : List Bytes}
    (blocks : (documentBlocks (tasklistParser T options) callback chunks).All (TaskNode (tasklistParser T options) q)) :
    (documentOf (tasklistParser T options) callback chunks).All fun i d _ => q i d := by
  have notItem {i : NodeId} {d : NodeData} {t : NodeType} (type : d.type = t) (differs : t ≠ .item) : q i d :=
    other fun isItem => differs (type.symm.trans isItem)
  have stable : Stable fun i d cs => q i d ∧ (d.type = .text → cs = []) := by
    refine { children := ?_, text := ?_, counts := ?_, reference := ?_ }
    · intro gone i d cs cs' task _ pruned
      refine ⟨task.1, fun text => List.eq_nil_iff_forall_not_mem.mpr fun c member => ?_⟩
      rw [task.2 text] at pruned
      rcases pruned.stems c member with ⟨c', impossible, _⟩ | ⟨_, c', impossible, _⟩ <;> cases impossible
    · exact fun text => ⟨notItem text (by decide), fun _ => rfl⟩
    · exact fun n task => ⟨counts n task.1, task.2⟩
    · exact fun _ _ reference => ⟨notItem reference (by decide), fun _ => rfl⟩
  refine Node.All.imp And.left _ (documentOf_stable (P := tasklistParser T options) rfl ?_ stable And.right ?_ ?_
    (fun node => node.leaf) ?_ blocks)
  · intro e member
    rw [List.mem_singleton.mp member]
    rfl
  · intro i d cs core text
    refine ⟨other fun isItem => ?_, text⟩
    rw [isItem] at core
    cases core
  · exact fun node _ => ⟨node.task, fun text => absurd text node.notText⟩
  · exact fun used task type _ => ⟨task.1, fun text => absurd (type.symm.trans text) blocks.here.notText⟩

end

/-- In a run whose lines mark items of their own as tasks, with states that agree, every task has the state of
its box: in the states between the lines, when the blocks have been closed, and, if no assertion fails and
there are no other extensions, in the finished document. -/
theorem tasks_stateOfBox (T : Tables) (options : Options) (before after : List Extension)
    (others : ∀ e ∈ before ++ after, WithoutBlocks e) (callback : Option (UInt8 → Bool)) (chunks : List Bytes) :
    let P : Config := ⟨T, options, before ++ extension before.length :: after⟩
    let lines := processedLines (options.has optPreserveWhitespace) chunks
    (∀ n line, lines[n]? = some line → MarksOwnItem P (prepareLine P line.1 line.2) (stateAt P lines n)) →
      (∀ n, (stateAt P lines n).EveryBlockAt (StateOfBox P lines before.length)) ∧
      (finalizeBlocks P (stateAt P lines lines.length)).EveryBlockAt (StateOfBox P lines before.length) ∧
      (before = [] → after = [] → (finalizeBlocks P (stateAt P lines lines.length)).asserts →
        ∀ m ∈ (documentOf P callback chunks).postorder, StateOfBox P lines before.length m.id m.data) := by
  intro P lines own
  have states (n : Nat) : (stateAt P lines n).EveryBlockAt (StateOfBox P lines before.length) :=
    (stateOfBox_stateAt rfl others own n).2
  have closed : (finalizeBlocks P (stateAt P lines lines.length)).EveryBlockAt (StateOfBox P lines before.length) :=
    stateOfBox_finalizeBlocks (states lines.length)
  refine ⟨states, closed, ?_⟩
  rintro rfl rfl holds m member
  have all : (documentOf P callback chunks).All fun i d _ => StateOfBox P lines 0 i d := by
    refine documentOf_tasks ?_ ?_ ?_
    · exact fun notItem isItem => absurd isItem notItem
    · exact fun _ task => task
    have state : stateAt P lines lines.length = replay (processLine P) initialState lines := stateAt_of_le le_rfl
    rw [documentBlocks_eq]
    change (toTree (finalizeBlocks P (replay (processLine P) initialState lines)) _ _).All _
    rw [← state]
    exact taskNode_toTree closed (leavesChildless_finalizeBlocks own lines.length holds) (fun _ _ task => by cases task) _ _
  exact (Node.All.of_mem _ all member).here

/-- The states of the items in the lists of a document. -/
def taskStates (self : Nat) (root : Node) : List Bool :=
  root.children.flatMap fun list => list.children.map fun item => getTasklistItemChecked self item.data

theorem tasks_stateOfBox_checked :
    (∀ m ∈ (documentOf (tasklistParser asciiTables 0) none [lit "- [x] a\n- [ ] b\n"]).postorder,
        StateOfBox (tasklistParser asciiTables 0) (processedLines false [lit "- [x] a\n- [ ] b\n"]) 0 m.id m.data) ∧
      taskStates 0 (documentOf (tasklistParser asciiTables 0) none [lit "- [x] a\n- [ ] b\n"]) = [true, false] := by
  have own : ∀ n < (processedLines false [lit "- [x] a\n- [ ] b\n"]).length,
      ∀ line ∈ (processedLines false [lit "- [x] a\n- [ ] b\n"])[n]?,
        MarksOwnItem (tasklistParser asciiTables 0) (prepareLine (tasklistParser asciiTables 0) line.1 line.2)
          (stateAt (tasklistParser asciiTables 0) (processedLines false [lit "- [x] a\n- [ ] b\n"]) n) := by
    decide +kernel
  have tasks := tasks_stateOfBox asciiTables 0 [] [] (List.forall_mem_nil _) none [lit "- [x] a\n- [ ] b\n"]
    fun n line here => own n (List.getElem?_eq_some_iff.mp here).1 line here
  exact ⟨tasks.2.2 rfl rfl (by decide +kernel), by decide +kernel⟩

/-- An empty box, and a checked one in the text of the item or on a line of its own in it. -/
theorem taskStates_strayBox :
    let P := tasklistParser asciiTables 0
    (scannedMarker (lit "- [ ] a [x]\n") = some 32 ∧
      taskStates 0 (documentOf P none [lit "- [ ] a [x]\n"]) = [true]) ∧
      scannedMarker (lit "- [ ] todo\n") = some 32 ∧
      taskStates 0 (documentOf P none [lit "- [ ] todo\n\n  1: [x] sub\n"]) = [true] := by
  decide +kernel

end Tasklist

end CmarkGfm
