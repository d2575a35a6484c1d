import CmarkGfm.Inlines.Backticks

/-!
# Closing runs of backticks

`handle_backticks` is compared with a forward scan that keeps nothing between calls. The
main result is `allAgree_iff`: the memo misleads an opener exactly when a code span that was
found after a failed scan has overwritten the memo for the opener's length.
-/

namespace CmarkGfm

/-! ### Runs -/

def tickAt (input : Bytes) (i : Nat) : Prop := isbacktick (byteAt input i) = true

instance (input : Bytes) (i : Nat) : Decidable (tickAt input i) :=
  inferInstanceAs (Decidable (_ = true))

/-- A maximal run of `n` backticks at `p`. -/
structure IsRun (input : Bytes) (p n : Nat) : Prop where
  positive : 0 < n
  ticks : ∀ k, p ≤ k → k < p + n → tickAt input k
  left : 0 < p → ¬ tickAt input (p - 1)
  right : ¬ tickAt input (p + n)

/-- The first maximal run of `n` backticks at or after `pos` ends at `e`. -/
def FirstRun (input : Bytes) (pos n e : Nat) : Prop :=
  ∃ p, pos ≤ p ∧ IsRun input p n ∧ e = p + n ∧ ∀ p', pos ≤ p' → IsRun input p' n → p ≤ p'

/-- There is no run of `n` backticks at or after `pos`. -/
def NoRun (input : Bytes) (pos n : Nat) : Prop := ∀ p, pos ≤ p → ¬ IsRun input p n

/-- The result of the forward scan: the end of the first closing run, if there is one. -/
def ForwardScan (input : Bytes) (pos n : Nat) : Option Nat → Prop
  | some e => FirstRun input pos n e
  | none => NoRun input pos n

theorem lt_length_of_tickAt {input : Bytes} {i : Nat} (tick : tickAt input i) :
    i < input.length := by
  by_contra outside
  have past : byteAt input i = 0 := by simp [byteAt, Nat.le_of_not_lt outside]
  rw [tickAt, past] at tick
  exact absurd tick (by decide)

theorem IsRun.lt_length {input : Bytes} {p n : Nat} (run : IsRun input p n) : p < input.length :=
  lt_length_of_tickAt (run.ticks p (Nat.le_refl _) (by have := run.positive; omega))

/-- Two maximal runs that meet are the same. -/
theorem IsRun.unique {input : Bytes} {p n p' n' : Nat} (run : IsRun input p n)
    (run' : IsRun input p' n') (after : p ≤ p') (before : p' < p + n) : p' = p ∧ n' = n := by
  have positive' := run'.positive
  have start : p' = p := by
    by_contra later
    exact run'.left (by omega) (run.ticks _ (by omega) (by omega))
  refine ⟨start, ?_⟩
  subst start
  rcases Nat.lt_trichotomy n' n with shorter | same | longer
  · exact absurd (run.ticks (p' + n') (by omega) (by omega)) run'.right
  · exact same
  · exact absurd (run'.ticks (p' + n) (by omega) (by omega)) run.right

section

variable {input : Bytes}

theorem noTick_at_skipWhile {pos : Nat} : ¬ tickAt input (skipWhile isbacktick input pos) := by
  intro tick
  have stopped := not_holds_at_skipWhile (lt_length_of_tickAt tick)
  rw [tickAt, stopped] at tick
  exact absurd tick (by decide)

/-- What `nextBacktickRun` finds after a byte that is not a backtick. -/
theorem nextBacktickRun_spec (nulFree : 0 ∉ input) {pos : Nat} (noTick : ¬ tickAt input pos) :
    match nextBacktickRun input pos with
    | none => ∀ k, pos ≤ k → ¬ tickAt input k
    | some (start, stop) => pos < start ∧ start < stop ∧ IsRun input start (stop - start) ∧
        ¬ tickAt input stop ∧ ∀ k, pos ≤ k → k < start → ¬ tickAt input k := by
  have skipped : ∀ k, pos ≤ k → k < skipWhile isNonBacktick input pos → ¬ tickAt input k := by
    intro k from_pos before tick
    have other := holds_of_lt_skipWhile from_pos before
    simp_all [isNonBacktick, tickAt, isbacktick]
  unfold nextBacktickRun
  simp only
  split
  next result ended =>
    split at ended
    next atEnd =>
      intro k from_pos tick
      exact skipped k from_pos ((lt_length_of_tickAt tick).trans_le atEnd) tick
    next => simp at ended
  next result start stop found =>
    split at found
    next => simp at found
    next inside =>
      obtain ⟨rfl, rfl⟩ : _ ∧ _ := by simpa using found
      have inside : skipWhile isNonBacktick input pos < input.length := Nat.lt_of_not_le inside
      have tick : tickAt input (skipWhile isNonBacktick input pos) := by
        have stopped := not_holds_at_skipWhile inside
        have notNul : byteAt input (skipWhile isNonBacktick input pos) ≠ 0 := by
          intro nul
          rw [byteAt_eq_getElem inside] at nul
          exact nulFree (nul ▸ List.getElem_mem inside)
        simpa [isNonBacktick, notNul, tickAt, isbacktick] using stopped
      have ends : ∀ k, skipWhile isNonBacktick input pos ≤ k →
          k < skipWhile isbacktick input (skipWhile isNonBacktick input pos) → tickAt input k :=
        fun k from_start before => holds_of_lt_skipWhile from_start before
      have stopped := @noTick_at_skipWhile input (skipWhile isNonBacktick input pos)
      have later : pos < skipWhile isNonBacktick input pos := by
        refine Nat.lt_of_le_of_ne (le_skipWhile _ _ _) ?_
        intro same
        rw [← same] at tick
        exact noTick tick
      have longer : skipWhile isNonBacktick input pos <
          skipWhile isbacktick input (skipWhile isNonBacktick input pos) := by
        refine Nat.lt_of_le_of_ne (le_skipWhile _ _ _) ?_
        intro same
        rw [← same] at stopped
        exact stopped tick
      refine ⟨later, longer, ?_, stopped, skipped⟩
      constructor
      case positive => omega
      case ticks =>
        intro k from_start before
        exact ends k from_start (by omega)
      case left =>
        intro _
        exact skipped _ (by omega) (by omega)
      case right =>
        rw [Nat.add_sub_cancel' longer.le]
        exact stopped

/-! ### The memo after a scan -/

/-- What a scan from `pos` to `limit` leaves in the memo: for each length with a run in that
stretch the last one, and nothing new for the others. -/
structure Recorded (input : Bytes) (pos limit : Nat) (before after : Nat → Nat) : Prop where
  kept : ∀ m, (∀ p, pos ≤ p → p < limit → ¬ IsRun input p m) → after m = before m
  last : ∀ m, m ≤ maxBackticks → ∀ p, pos ≤ p → p < limit → IsRun input p m →
    p ≤ after m ∧ after m < limit ∧ IsRun input (after m) m

theorem Recorded.trans {pos mid limit : Nat} {before middle after : Nat → Nat}
    (first : Recorded input pos mid before middle) (second : Recorded input mid limit middle after)
    (ordered : pos ≤ mid) (inside : mid ≤ limit) : Recorded input pos limit before after := by
  constructor
  case kept =>
    intro m none
    rw [second.kept m fun p from_mid before => none p (by omega) before]
    exact first.kept m fun p from_pos before => none p from_pos (by omega)
  case last =>
    intro m short p from_pos before run
    by_cases later : ∃ p', mid ≤ p' ∧ p' < limit ∧ IsRun input p' m
    · obtain ⟨p', from_mid, before', run'⟩ := later
      obtain ⟨order, inside', actual⟩ := second.last m short p' from_mid before' run'
      by_cases here : mid ≤ p
      · exact second.last m short p here before run
      · exact ⟨by omega, inside', actual⟩
    · have none : ∀ p', mid ≤ p' → p' < limit → ¬ IsRun input p' m :=
        fun p' from_mid before' run' => later ⟨p', from_mid, before', run'⟩
      have early : p < mid := by
        by_contra late
        exact none p (by omega) before run
      obtain ⟨order, inside', actual⟩ := first.last m short p from_pos early run
      rw [second.kept m none]
      exact ⟨order, by omega, actual⟩

theorem Recorded.kept_or_run {pos limit : Nat} {before after : Nat → Nat}
    (recorded : Recorded input pos limit before after) {m : Nat} (short : m ≤ maxBackticks) :
    (after m = before m ∧ ∀ p, pos ≤ p → p < limit → ¬ IsRun input p m) ∨
      after m < limit ∧ IsRun input (after m) m := by
  by_cases passed : ∃ p, pos ≤ p ∧ p < limit ∧ IsRun input p m
  · obtain ⟨p, from_pos, before, run⟩ := passed
    exact .inr (recorded.last m short p from_pos before run).2
  · have none : ∀ p, pos ≤ p → p < limit → ¬ IsRun input p m :=
      fun p from_pos before run => passed ⟨p, from_pos, before, run⟩
    exact .inl ⟨recorded.kept m none, none⟩

/-- The first run after `pos` is the only one up to its end. -/
theorem run_in_first {pos start stop p m : Nat} (longer : start < stop)
    (found : IsRun input start (stop - start)) (skipped : ∀ k, pos ≤ k → k < start → ¬ tickAt input k)
    (from_pos : pos ≤ p) (before : p < stop) (run : IsRun input p m) :
    p = start ∧ m = stop - start := by
  have from_start : start ≤ p := by
    by_contra early
    have positive := run.positive
    exact skipped p from_pos (by omega) (run.ticks p (Nat.le_refl _) (by omega))
  exact found.unique run from_start (by omega)

theorem Recorded.single {pos start stop : Nat} (backticks : Nat → Nat) (longer : start < stop)
    (found : IsRun input start (stop - start))
    (skipped : ∀ k, pos ≤ k → k < start → ¬ tickAt input k) (later : pos < start) :
    Recorded input pos stop backticks
      (if stop - start ≤ maxBackticks then Function.update backticks (stop - start) start
        else backticks) := by
  constructor
  case kept =>
    intro m none
    have other : m ≠ stop - start := by
      rintro rfl
      exact none start later.le longer found
    split
    next => exact Function.update_of_ne other _ _
    next => rfl
  case last =>
    intro m short p from_pos before run
    obtain ⟨rfl, rfl⟩ := run_in_first longer found skipped from_pos before run
    rw [if_pos short, Function.update_self]
    exact ⟨Nat.le_refl _, longer, found⟩

/-- The loop finds the first closing run, or there is none, and it records all it passes. -/
theorem scanClosingRuns_spec (nulFree : 0 ∉ input) (n : Nat) (fuel : Nat) {pos : Nat}
    (backticks : Nat → Nat) (noTick : ¬ tickAt input pos) (inside : pos ≤ input.length)
    (enough : input.length - pos < fuel) :
    match scanClosingRuns input n fuel pos backticks with
    | (some e, after) => FirstRun input pos n e ∧ ¬ tickAt input e ∧ e ≤ input.length ∧
        Recorded input pos e backticks after
    | (none, after) => NoRun input pos n ∧ Recorded input pos input.length backticks after := by
  induction fuel generalizing pos backticks with
  | zero => omega
  | succ fuel ih =>
    have spec := nextBacktickRun_spec nulFree noTick
    rw [scanClosingRuns]
    match found : nextBacktickRun input pos, spec with
    | none, noTicks =>
      have noRuns : ∀ p m, pos ≤ p → ¬ IsRun input p m := by
        intro p m from_pos run
        have positive := run.positive
        exact noTicks p from_pos (run.ticks p (Nat.le_refl _) (by omega))
      refine ⟨fun p from_pos => noRuns p n from_pos, ?_⟩
      constructor
      case kept => intros; rfl
      case last =>
        intro m _ p from_pos _ run
        exact absurd run (noRuns p m from_pos)
    | some (start, stop), ⟨later, longer, run, stopped, skipped⟩ =>
      have bound : stop ≤ input.length := by
        have lastTick := run.ticks (stop - 1) (by omega) (by omega)
        have := lt_length_of_tickAt lastTick
        omega
      have single := Recorded.single backticks longer run skipped later
      simp only
      by_cases equal : stop - start = n
      · rw [if_pos equal]
        refine ⟨⟨start, later.le, equal ▸ run, by omega, ?_⟩, stopped, bound, single⟩
        intro p' from_pos run'
        by_contra early
        have := run_in_first longer run skipped from_pos (by omega) run'
        omega
      · rw [if_neg equal]
        have rest := ih
          (if stop - start ≤ maxBackticks then Function.update backticks (stop - start) start
            else backticks) stopped bound (by omega)
        have passed : ∀ p, pos ≤ p → IsRun input p n → stop ≤ p := by
          intro p from_pos run'
          by_contra early
          have := run_in_first longer run skipped from_pos (by omega) run'
          omega
        match scanClosingRuns input n fuel stop _, rest with
        | (some e, after), ⟨⟨p, from_stop, run', ends, first⟩, stopped', bound', recorded⟩ =>
          refine ⟨⟨p, by omega, run', ends, ?_⟩, stopped', bound', ?_⟩
          · intro p' from_pos run''
            exact first p' (passed p' from_pos run'') run''
          · exact single.trans recorded (by omega) (by omega)
        | (none, after), ⟨noRun, recorded⟩ =>
          refine ⟨fun p from_pos run' => noRun p (passed p from_pos run') run', ?_⟩
          exact single.trans recorded (by omega) bound

end

/-! ### One opener -/

/-- The position after the opening backticks at `q`. -/
def afterOpener (input : Bytes) (q : Nat) : Nat := skipWhile isbacktick input q

theorem noTick_at_afterOpener (input : Bytes) (q : Nat) : ¬ tickAt input (afterOpener input q) :=
  noTick_at_skipWhile

/-- `openticks`. -/
def openTicks (input : Bytes) (q : Nat) : Nat := afterOpener input q - q

/-- The end of the closing run that `handle_backticks` takes for the opener at the position of
the subject, if it makes a code span of it. -/
def closerFound (options : Options) (subj : Subject) : Option Nat :=
  if (handleBackticks options subj).2.data.type = .code then
    some (handleBackticks options subj).1.pos
  else none

/-- What a call can do. The memo is compared before and after. -/
inductive Outcome (subj after : Subject) (found : Option Nat) : Prop
  | tooLong (long : maxBackticks < openTicks subj.input subj.pos)
      (memo : after.backticks = subj.backticks)
      (flag : after.scannedForBackticks = subj.scannedForBackticks)
      (pos : after.pos = afterOpener subj.input subj.pos) (notFound : found = none)
  | refused (short : openTicks subj.input subj.pos ≤ maxBackticks)
      (flagged : subj.scannedForBackticks = true)
      (seen : subj.backticks (openTicks subj.input subj.pos) ≤ afterOpener subj.input subj.pos)
      (memo : after.backticks = subj.backticks)
      (flag : after.scannedForBackticks = true)
      (pos : after.pos = afterOpener subj.input subj.pos) (notFound : found = none)
  | closed (short : openTicks subj.input subj.pos ≤ maxBackticks)
      (consulted : subj.scannedForBackticks = true →
        afterOpener subj.input subj.pos < subj.backticks (openTicks subj.input subj.pos))
      (first : FirstRun subj.input (afterOpener subj.input subj.pos)
        (openTicks subj.input subj.pos) after.pos)
      (recorded : Recorded subj.input (afterOpener subj.input subj.pos) after.pos
        subj.backticks after.backticks)
      (flag : after.scannedForBackticks = subj.scannedForBackticks)
      (isFound : found = some after.pos)
  | failed (short : openTicks subj.input subj.pos ≤ maxBackticks)
      (consulted : subj.scannedForBackticks = true →
        afterOpener subj.input subj.pos < subj.backticks (openTicks subj.input subj.pos))
      (noRun : NoRun subj.input (afterOpener subj.input subj.pos)
        (openTicks subj.input subj.pos))
      (recorded : Recorded subj.input (afterOpener subj.input subj.pos) subj.input.length
        subj.backticks after.backticks)
      (flag : after.scannedForBackticks = true)
      (pos : after.pos = afterOpener subj.input subj.pos) (notFound : found = none)

/-- What `adjust_subj_node_newlines` leaves alone. -/
theorem adjustNodeNewlines_keeps (options : Options) (subj : Subject) (node : Node)
    (matchlen extra : Nat) :
    let adjusted := subj.adjustNodeNewlines options node matchlen extra
    adjusted.1.input = subj.input ∧ adjusted.1.pos = subj.pos ∧
      adjusted.1.backticks = subj.backticks ∧
      adjusted.1.scannedForBackticks = subj.scannedForBackticks ∧
      adjusted.2.data.type = node.data.type := by
  unfold Subject.adjustNodeNewlines
  simp only
  split
  next => simp
  next =>
    split
    next => simp
    next => simp

/-- `handle_backticks` in terms of the scan. -/
theorem handleBackticks_scan (options : Options) (subj : Subject) :
    let scan := scanToClosingBackticks { subj with pos := afterOpener subj.input subj.pos }
      (openTicks subj.input subj.pos)
    let after := (handleBackticks options subj).1
    after.input = scan.1.input ∧ after.backticks = scan.1.backticks ∧
      after.scannedForBackticks = scan.1.scannedForBackticks ∧
      after.pos = scan.2.getD scan.1.pos ∧ closerFound options subj = scan.2 := by
  simp only
  unfold closerFound handleBackticks
  simp only
  rw [show skipWhile isbacktick subj.input subj.pos = afterOpener subj.input subj.pos from rfl,
    show afterOpener subj.input subj.pos - subj.pos = openTicks subj.input subj.pos from rfl]
  match scanToClosingBackticks { subj with pos := afterOpener subj.input subj.pos }
      (openTicks subj.input subj.pos) with
  | (scanned, none) => simp [Subject.makeStrAt, Subject.alloc, Subject.literalData]
  | (scanned, some endpos) =>
    have keeps := fun subj node matchlen extra =>
      adjustNodeNewlines_keeps options subj node matchlen extra
    simp only at keeps
    simp [keeps, Subject.makeLiteral, Subject.alloc, Subject.literalData]

theorem handleBackticks_outcome (options : Options) (subj : Subject) (nulFree : 0 ∉ subj.input)
    (inside : subj.pos ≤ subj.input.length) :
    (handleBackticks options subj).1.input = subj.input ∧
      Outcome subj (handleBackticks options subj).1 (closerFound options subj) := by
  obtain ⟨input, memo, flag, pos, found⟩ := handleBackticks_scan options subj
  have spec := scanClosingRuns_spec nulFree (openTicks subj.input subj.pos)
    (subj.input.length + 1) subj.backticks
    noTick_at_skipWhile (skipWhile_le_length _ _ _ inside) (by omega)
  unfold scanToClosingBackticks at input memo flag pos found
  simp only at input memo flag pos found
  split at input
  next long =>
    rw [if_pos long] at memo flag pos found
    exact ⟨input, .tooLong long memo flag pos found⟩
  next short =>
    rw [if_neg short] at memo flag pos found
    have short : openTicks subj.input subj.pos ≤ maxBackticks := Nat.le_of_not_lt short
    split at input
    next blocked =>
      rw [if_pos blocked] at memo flag pos found
      obtain ⟨flagged, seen⟩ : _ ∧ _ := by simpa using blocked
      exact ⟨input, .refused short flagged seen memo (flag.trans flagged) pos found⟩
    next open_ =>
      rw [if_neg open_] at memo flag pos found
      have consulted : subj.scannedForBackticks = true →
          afterOpener subj.input subj.pos < subj.backticks (openTicks subj.input subj.pos) := by
        intro flagged
        simpa [flagged] using open_
      match scanned : scanClosingRuns subj.input (openTicks subj.input subj.pos)
          (subj.input.length + 1) (afterOpener subj.input subj.pos) subj.backticks, spec with
      | (some e, backticks), ⟨first, _, _, recorded⟩ =>
        simp only [scanned] at input memo flag pos found
        obtain rfl : (handleBackticks options subj).1.pos = e := pos
        obtain rfl : (handleBackticks options subj).1.backticks = backticks := memo
        exact ⟨input, .closed short consulted first recorded flag found⟩
      | (none, backticks), ⟨noRun, recorded⟩ =>
        simp only [scanned] at input memo flag pos found
        obtain rfl : (handleBackticks options subj).1.backticks = backticks := memo
        exact ⟨input, .failed short consulted noRun recorded flag pos found⟩

/-! ### Runs of openers -/

/-- The call for the opener at the position of the subject gives what the forward scan gives. -/
def Agrees (options : Options) (subj : Subject) : Prop :=
  openTicks subj.input subj.pos ≤ maxBackticks →
    ForwardScan subj.input (afterOpener subj.input subj.pos) (openTicks subj.input subj.pos)
      (closerFound options subj)

/-- `handle_backticks` is called at these positions one after the other. In between the parser
moves forward only. -/
def OpenersMet (options : Options) (subj : Subject) : List Nat → Prop
  | [] => True
  | q :: qs => subj.pos ≤ q ∧ tickAt subj.input q ∧
      OpenersMet options (handleBackticks options { subj with pos := q }).1 qs

/-- Every one of these calls gives what the forward scan gives. -/
def AllAgree (options : Options) (subj : Subject) : List Nat → Prop
  | [] => True
  | q :: qs => Agrees options { subj with pos := q } ∧
      AllAgree options (handleBackticks options { subj with pos := q }).1 qs

/-- The opener at `q` has no closing run. -/
def Unclosed (input : Bytes) (q : Nat) : Prop :=
  openTicks input q ≤ maxBackticks ∧ NoRun input (afterOpener input q) (openTicks input q)

/-- The code span of the opener at `q`, its closing run included, has a run of `m` backticks. -/
def Spans (input : Bytes) (q m : Nat) : Prop :=
  openTicks input q ≤ maxBackticks ∧
    ∃ e, FirstRun input (afterOpener input q) (openTicks input q) e ∧
      ∃ p, afterOpener input q ≤ p ∧ p < e ∧ IsRun input p m

/-- After an opener without closing run comes one whose span has a run of `m` backticks. -/
def Shadowed (input : Bytes) (past : List Nat) (m : Nat) : Prop :=
  ∃ f j, [f, j].Sublist past ∧ Unclosed input f ∧ Spans input j m

/-- After such openers comes one of `m` backticks that has a closing run. -/
def Misled (input : Bytes) (qs : List Nat) : Prop :=
  ∃ past i rest, qs = past ++ i :: rest ∧ openTicks input i ≤ maxBackticks ∧
    Shadowed input past (openTicks input i) ∧
    ¬ NoRun input (afterOpener input i) (openTicks input i)

section

variable {input : Bytes} {past : List Nat} {options : Options} {subj : Subject}

theorem firstRun_functional {pos n e e' : Nat} (first : FirstRun input pos n e)
    (first' : FirstRun input pos n e') : e = e' := by
  obtain ⟨p, from_pos, run, rfl, least⟩ := first
  obtain ⟨p', from_pos', run', rfl, least'⟩ := first'
  have := least p' from_pos' run'
  have := least' p from_pos run
  omega

theorem FirstRun.not_noRun {pos n e : Nat} (first : FirstRun input pos n e) :
    ¬ NoRun input pos n := by
  obtain ⟨p, from_pos, run, _⟩ := first
  intro noRun
  exact noRun p from_pos run

theorem FirstRun.lt {pos n e : Nat} (first : FirstRun input pos n e) : pos < e := by
  obtain ⟨p, from_pos, run, rfl, _⟩ := first
  have := run.positive
  omega

theorem Shadowed.append {m : Nat} (shadowed : Shadowed input past m) (q : Nat) :
    Shadowed input (past ++ [q]) m := by
  obtain ⟨f, j, order, unclosed, spans⟩ := shadowed
  exact ⟨f, j, order.trans (List.sublist_append_left _ _), unclosed, spans⟩

theorem shadowed_append {q m : Nat} (shadowed : Shadowed input (past ++ [q]) m) :
    Shadowed input past m ∨ (∃ f ∈ past, Unclosed input f) ∧ Spans input q m := by
  obtain ⟨f, j, order, unclosed, spans⟩ := shadowed
  obtain ⟨left, right, split, inPast, inLast⟩ := List.sublist_append_iff.mp order
  match right, inLast with
  | [], _ =>
    rw [List.append_nil] at split
    exact .inl ⟨f, j, split ▸ inPast, unclosed, spans⟩
  | r :: right, inLast =>
    obtain ⟨rfl, rfl⟩ : r = q ∧ right = [] := by
      rcases List.sublist_cons_iff.mp inLast with empty | ⟨l, same, empty⟩
      · simp at empty
      · rw [List.sublist_nil] at empty
        simp_all
    have pair : [f, j] = left ++ [r] := split
    obtain ⟨rfl, rfl⟩ : left = [f] ∧ j = r := by
      have := @List.append_inj_left' _ [f] [j] _ _ pair rfl
      have := @List.append_inj_right' _ [f] [j] _ _ pair rfl
      simp_all
    exact .inr ⟨⟨f, by simpa using inPast, unclosed⟩, spans⟩

/-- What the memo is worth between two calls, after the openers `past`. -/
structure MemoInv (past : List Nat) (subj : Subject) : Prop where
  inside : subj.pos ≤ subj.input.length
  /-- An entry is a run, if it has been written. -/
  actual : ∀ m ≤ maxBackticks, subj.backticks m = 0 ∨ IsRun subj.input (subj.backticks m) m
  /-- The flag stands for a failed scan. -/
  flagged : subj.scannedForBackticks = true ↔ ∃ f ∈ past, Unclosed subj.input f
  /-- Where nothing has been overwritten since, no run lies after the entry. -/
  fresh : subj.scannedForBackticks = true → ∀ m ≤ maxBackticks, ¬ Shadowed subj.input past m →
    ∀ p, subj.pos ≤ p → IsRun subj.input p m → p ≤ subj.backticks m
  /-- Where something has been, the entry lies behind. -/
  stale : ∀ m ≤ maxBackticks, Shadowed subj.input past m → subj.backticks m ≤ subj.pos

theorem Shadowed.unclosed {m : Nat} (shadowed : Shadowed input past m) :
    ∃ f ∈ past, Unclosed input f := by
  obtain ⟨f, j, order, unclosed, _⟩ := shadowed
  exact ⟨f, order.subset (by simp), unclosed⟩

theorem MemoInv.advance (inv : MemoInv past subj) {q : Nat} (forward : subj.pos ≤ q)
    (inside : q ≤ subj.input.length) : MemoInv past { subj with pos := q } where
  inside := inside
  actual := inv.actual
  flagged := inv.flagged
  fresh flagged m short clear p from_q run :=
    inv.fresh flagged m short clear p (Nat.le_trans forward from_q) run
  stale m short shadowed := Nat.le_trans (inv.stale m short shadowed) forward

/-- A call goes wrong exactly when the memo has been overwritten and a run stands ahead. -/
theorem MemoInv.agrees_iff (inv : MemoInv past subj) (nulFree : 0 ∉ subj.input) :
    Agrees options subj ↔ (openTicks subj.input subj.pos ≤ maxBackticks →
      Shadowed subj.input past (openTicks subj.input subj.pos) →
      NoRun subj.input (afterOpener subj.input subj.pos) (openTicks subj.input subj.pos)) := by
  have outcome := (handleBackticks_outcome options subj nulFree inv.inside).2
  have later : subj.pos ≤ afterOpener subj.input subj.pos := le_skipWhile _ _ _
  unfold Agrees
  refine forall_congr' fun short => ?_
  -- a consulted entry points ahead, an overwritten one does not
  have consultedClear : (subj.scannedForBackticks = true → afterOpener subj.input subj.pos <
        subj.backticks (openTicks subj.input subj.pos)) →
      ¬ Shadowed subj.input past (openTicks subj.input subj.pos) := by
    intro consulted shadowed
    have ahead := consulted (inv.flagged.mpr shadowed.unclosed)
    have behind := inv.stale _ short shadowed
    omega
  cases outcome with
  | tooLong long => omega
  | refused _ flagged seen _ _ _ notFound =>
    rw [notFound]
    constructor
    · intro noRun _
      exact noRun
    · intro noRun
      by_cases shadowed : Shadowed subj.input past (openTicks subj.input subj.pos)
      · exact noRun shadowed
      · intro p from_after run
        have before := inv.fresh flagged _ short shadowed p (by omega) run
        obtain rfl : p = afterOpener subj.input subj.pos := by omega
        have positive := run.positive
        exact noTick_at_afterOpener _ _ (run.ticks _ (Nat.le_refl _) (by omega))
  | closed _ consulted first _ _ isFound =>
    rw [isFound]
    exact iff_of_true first fun shadowed => absurd shadowed (consultedClear consulted)
  | failed _ consulted noRun _ _ _ notFound =>
    rw [notFound]
    exact iff_of_true noRun fun _ => noRun

/-- A call that goes right leaves the memo as the invariant says. -/
theorem MemoInv.step (inv : MemoInv past subj) (nulFree : 0 ∉ subj.input)
    (agrees : Agrees options subj) :
    MemoInv (past ++ [subj.pos]) (handleBackticks options subj).1 := by
  obtain ⟨input, outcome⟩ := handleBackticks_outcome options subj nulFree inv.inside
  have later : subj.pos ≤ afterOpener subj.input subj.pos := le_skipWhile _ _ _
  have inside : afterOpener subj.input subj.pos ≤ subj.input.length :=
    skipWhile_le_length _ _ _ inv.inside
  cases outcome with
  | tooLong long memo flag pos notFound =>
    have notUnclosed : ¬ Unclosed subj.input subj.pos := fun unclosed => by
      have := unclosed.1
      omega
    have notSpans : ∀ m, ¬ Spans subj.input subj.pos m := fun m spans => by
      have := spans.1
      omega
    constructor <;> rw [input]
    case inside => rw [pos]; exact inside
    case actual => rw [memo]; exact inv.actual
    case flagged => rw [flag, inv.flagged]; simp [notUnclosed]
    case fresh =>
      rw [flag, memo, pos]
      intro flagged m short clear p from_after run
      exact inv.fresh flagged m short (fun shadowed => clear (shadowed.append _)) p (by omega) run
    case stale =>
      rw [memo, pos]
      intro m short shadowed
      rcases shadowed_append shadowed with earlier | ⟨_, spans⟩
      · exact Nat.le_trans (inv.stale m short earlier) later
      · exact absurd spans (notSpans m)
  | refused short flagged seen memo flag pos notFound =>
    have noRun := agrees short
    rw [notFound] at noRun
    constructor <;> rw [input]
    case inside => rw [pos]; exact inside
    case actual => rw [memo]; exact inv.actual
    case flagged =>
      obtain ⟨f, inPast, unclosed⟩ := inv.flagged.mp flagged
      exact iff_of_true flag ⟨f, List.mem_append_left _ inPast, unclosed⟩
    case fresh =>
      rw [memo, pos]
      intro _ m short clear p from_after run
      exact inv.fresh flagged m short (fun shadowed => clear (shadowed.append _)) p (by omega) run
    case stale =>
      rw [memo, pos]
      intro m short shadowed
      rcases shadowed_append shadowed with earlier | ⟨_, _, e, first, _⟩
      · exact Nat.le_trans (inv.stale m short earlier) later
      · exact absurd noRun first.not_noRun
  | closed short consulted first recorded flag isFound =>
    have further := first.lt
    constructor <;> rw [input]
    case inside =>
      obtain ⟨p, from_after, run, ends, _⟩ := first
      have positive := run.positive
      have last := lt_length_of_tickAt
        (run.ticks (p + openTicks subj.input subj.pos - 1) (by omega) (by omega))
      omega
    case actual =>
      intro m short
      rcases recorded.kept_or_run short with ⟨kept, _⟩ | ⟨_, run⟩
      · rw [kept]; exact inv.actual m short
      · exact .inr run
    case flagged =>
      have notUnclosed : ¬ Unclosed subj.input subj.pos := fun unclosed =>
        first.not_noRun unclosed.2
      rw [flag, inv.flagged]
      simp [notUnclosed]
    case fresh =>
      rw [flag]
      intro flagged m short' clear p from_end run
      have notShadowed : ¬ Shadowed subj.input past m := fun shadowed => clear (shadowed.append _)
      obtain ⟨f, inPast, unclosed⟩ := inv.flagged.mp flagged
      have kept := recorded.kept m fun p' from_after before run' => clear
        ⟨f, subj.pos, (List.singleton_sublist.mpr inPast).append (List.Sublist.refl [subj.pos]),
          unclosed, short, _, first, p', from_after, before, run'⟩
      rw [kept]
      exact inv.fresh flagged m short' notShadowed p (by omega) run
    case stale =>
      intro m short' shadowed
      rcases recorded.kept_or_run short' with ⟨kept, none⟩ | ⟨before, _⟩
      · rcases shadowed_append shadowed with earlier | ⟨_, _, e, first', p, from_after, before, run⟩
        · rw [kept]
          have := inv.stale m short' earlier
          omega
        · rw [firstRun_functional first' first] at before
          exact absurd run (none p from_after before)
      · exact before.le
  | failed short consulted noRun recorded flag pos notFound =>
    -- an entry ahead would be a closing run, so this is the first scan that fails
    have unflagged : ¬ ∃ f ∈ past, Unclosed subj.input f := by
      rw [← inv.flagged]
      intro flagged
      have ahead := consulted flagged
      rcases inv.actual _ short with unwritten | run
      · omega
      · exact noRun _ ahead.le run
    constructor <;> rw [input]
    case inside => rw [pos]; exact inside
    case actual =>
      intro m short
      rcases recorded.kept_or_run short with ⟨kept, _⟩ | ⟨_, run⟩
      · rw [kept]; exact inv.actual m short
      · exact .inr run
    case flagged => exact iff_of_true flag ⟨subj.pos, by simp, short, noRun⟩
    case fresh =>
      rw [pos]
      intro _ m short' _ p from_after run
      exact (recorded.last m short' p from_after run.lt_length run).1
    case stale =>
      intro m _ shadowed
      rcases shadowed_append shadowed with earlier | ⟨unclosed, _⟩
      · exact absurd earlier.unclosed unflagged
      · exact absurd unclosed unflagged

/-- The calls for the openers `qs`, made after those for `past`. -/
theorem allAgree_iff_of_memoInv (qs : List Nat) (inv : MemoInv past subj)
    (nulFree : 0 ∉ subj.input) (met : OpenersMet options subj qs) :
    AllAgree options subj qs ↔ ∀ before i rest, qs = before ++ i :: rest →
      openTicks subj.input i ≤ maxBackticks →
      Shadowed subj.input (past ++ before) (openTicks subj.input i) →
      NoRun subj.input (afterOpener subj.input i) (openTicks subj.input i) := by
  induction qs generalizing past subj with
  | nil => simp [AllAgree]
  | cons q qs ih =>
    obtain ⟨forward, tick, met⟩ := met
    have moved := inv.advance forward (lt_length_of_tickAt tick).le
    have here := (@MemoInv.agrees_iff _ options _ moved) nulFree
    have input : (handleBackticks options { subj with pos := q }).1.input = subj.input :=
      (handleBackticks_outcome options { subj with pos := q } nulFree moved.inside).1
    constructor
    · rintro ⟨agrees, rest⟩ before i after split
      have later := (ih (moved.step nulFree agrees) (by rw [input]; exact nulFree) met).mp rest
      rw [input] at later
      match before, split with
      | [], split =>
        obtain ⟨rfl, _⟩ := List.cons.inj split
        rw [List.append_nil]
        exact here.mp agrees
      | q' :: before, split =>
        obtain ⟨rfl, tail⟩ := List.cons.inj split
        rw [← List.singleton_append, ← List.append_assoc]
        exact later before i after tail
    · intro clear
      have agrees := here.mpr (by
        have := clear [] q qs rfl
        rwa [List.append_nil] at this)
      refine ⟨agrees, (ih (moved.step nulFree agrees) (by rw [input]; exact nulFree) met).mpr ?_⟩
      rw [input]
      intro before i after split
      rw [List.append_assoc, List.singleton_append]
      exact clear (q :: before) i after (by rw [split, List.cons_append])

end

/-- A subject on which no opener has been met. -/
structure Unscanned (subj : Subject) : Prop where
  pos : subj.pos = 0
  unflagged : subj.scannedForBackticks = false
  unwritten : ∀ m, subj.backticks m = 0

/-- The subject for the content of a paragraph. -/
def Subject.ofText (content : Bytes) : Subject :=
  .ofBlock { type := .paragraph } content [] .new 1

theorem unscanned_ofText (content : Bytes) : Unscanned (.ofText content) :=
  ⟨rfl, rfl, fun _ => rfl⟩

/-- The memo misleads an opener exactly when, after an opener without closing run, a span with
a run of its length has been found, and another such run lies ahead. -/
theorem allAgree_iff (options : Options) (subj : Subject) (qs : List Nat)
    (fresh : Unscanned subj) (nulFree : 0 ∉ subj.input) (met : OpenersMet options subj qs) :
    AllAgree options subj qs ↔ ¬ Misled subj.input qs := by
  have inv : MemoInv [] subj := by
    constructor
    case inside => rw [fresh.pos]; exact Nat.zero_le _
    case actual => intro m _; exact .inl (fresh.unwritten m)
    case flagged => simp [fresh.unflagged]
    case fresh => simp [fresh.unflagged]
    case stale =>
      rintro m _ ⟨f, j, order, _⟩
      simp at order
  rw [allAgree_iff_of_memoInv qs inv nulFree met]
  constructor
  · rintro clear ⟨before, i, rest, split, short, shadowed, ahead⟩
    exact ahead (clear before i rest split short shadowed)
  · intro notMisled before i rest split short shadowed
    by_contra ahead
    exact notMisled ⟨before, i, rest, split, short, shadowed, ahead⟩

/-- The three backticks have no closing run, so the memo is consulted for the openers behind them. Both are closed,
since the span around `a` has no run of two backticks. -/
theorem allAgree_of_other_length : AllAgree 0 (.ofText (lit "``` `a` ``b``")) [0, 4, 8] := by
  have met : OpenersMet 0 (.ofText (lit "``` `a` ``b``")) [0, 4, 8] :=
    ⟨by decide, by decide, by decide, by decide, by decide, by decide, trivial⟩
  refine (allAgree_iff 0 _ [0, 4, 8] (unscanned_ofText _) (by decide) met).mpr ?_
  rintro ⟨before, i, rest, split, _, ⟨f, j, order, _, spans⟩, _⟩
  have two := order.length_le
  have all := congrArg List.length split
  simp only [List.length_append, List.length_cons, List.length_nil] at two all
  obtain ⟨x, y, rfl⟩ : ∃ x y, before = [x, y] := List.length_eq_two.mp (by omega)
  obtain ⟨rfl, rfl⟩ : f = x ∧ j = y := by simpa using order.eq_of_length rfl
  obtain ⟨rfl, rfl, rfl, -⟩ : f = 0 ∧ j = 4 ∧ i = 8 ∧ rest = [] := by simpa [eq_comm] using split
  obtain ⟨_, e, ⟨p, _, _, rfl, least⟩, k, inside, before, run⟩ := spans
  have closing : IsRun (lit "``` `a` ``b``") 6 1 := by
    constructor
    case positive => decide
    case ticks =>
      intro k from_start before
      obtain rfl : k = 6 := by omega
      decide
    case left => decide
    case right => decide
  have first : p ≤ 6 := least 6 (by decide) closing
  have one : openTicks (lit "``` `a` ``b``") 4 = 1 := by decide
  have from_five : 5 ≤ k := inside
  -- a run that begins at the `a`, or at the closing backtick
  obtain rfl | rfl : k = 5 ∨ k = 6 := by
    change k < p + openTicks (lit "``` `a` ``b``") 4 at before
    omega
  · exact absurd (run.ticks 5 le_rfl (by decide)) (by decide)
  · exact absurd (run.ticks 7 (by decide) (by decide)) (by decide)

/-- The three backticks have no closing run. The span around `a` then moves the entry for one
backtick back from the last run to its own closing run, and the opener before `b` is refused. -/
theorem not_allAgree_of_overwritten_entry :
    OpenersMet 0 (.ofText (lit "``` `a` `b`")) [0, 4, 8] ∧
      ¬ AllAgree 0 (.ofText (lit "``` `a` `b`")) [0, 4, 8] := by
  constructor
  · exact ⟨by decide, by decide, by decide, by decide, by decide, by decide, trivial⟩
  · rintro ⟨_, _, agrees, _⟩
    have closing : IsRun (lit "``` `a` `b`") 10 1 := by
      constructor
      case positive => decide
      case ticks =>
        intro k from_start before
        obtain rfl : k = 10 := by omega
        decide
      case left => decide
      case right => decide
    exact agrees (by decide) 10 (by decide) closing

end CmarkGfm
