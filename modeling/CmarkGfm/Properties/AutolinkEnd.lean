import CmarkGfm.Extensions.Autolink
import Mathlib.Tactic.Push

/-!
# The end of an autolink

The counters of `autolink_delim` are those of what is left of the link, however much has been trimmed, so a
link that has been trimmed is left alone.
-/

namespace CmarkGfm

variable {data : Bytes} {linkEnd i : Nat}

def closings (data : Bytes) (linkEnd : Nat) : Nat := (data.take linkEnd).count (chr ')')

def openings (data : Bytes) (linkEnd : Nat) : Nat := (data.take linkEnd).count (chr '(')

/-- There is nothing to trim: the last character is kept, and a parenthesis at the end is matched. -/
def EndsLink (data : Bytes) (linkEnd : Nat) : Prop :=
  linkEnd = 0 ∨ 0 < linkEnd ∧ ∃ c, data[linkEnd - 1]? = some c ∧ trimsAtEnd c = false ∧ c ≠ chr ';' ∧
    (c = chr ')' → closings data linkEnd ≤ openings data linkEnd)

/-! ### Counting -/

theorem count_take_succ {c : UInt8} (here : data[i]? = some c) (d : UInt8) :
    (data.take (i + 1)).count d = (data.take i).count d + if c = d then 1 else 0 := by
  rw [List.take_add_one, here, List.count_append, Option.toList_some, List.count_singleton]
  simp

/-- What is trimmed off does not count. -/
theorem count_take_of_absent {d : UInt8} {j : Nat} (shorter : i ≤ j) (absent : ∀ k, i ≤ k → k < j → data[k]? ≠ some d) :
    (data.take j).count d = (data.take i).count d := by
  induction j, shorter using Nat.le_induction with
  | base => rfl
  | succ j shorter ih =>
    rw [← ih fun k low high => absent k low (by omega)]
    have here := absent j shorter (by omega)
    cases found : data[j]? with
    | none => rw [List.take_add_one, found, Option.toList_none, List.append_nil]
    | some c =>
      rw [found, ne_eq, Option.some.injEq] at here
      rw [count_take_succ found, if_neg here, Nat.add_zero]

theorem exists_byte (inside : linkEnd ≤ data.length) (before : i < linkEnd) : ∃ c, data[i]? = some c :=
  ⟨_, List.getElem?_eq_getElem (Nat.lt_of_lt_of_le before inside)⟩

/-- The first loop ends before the first angle bracket and has counted the parentheses up to there. -/
theorem countParens_spec {fuel : Nat} (inside : linkEnd ≤ data.length) (before : i ≤ linkEnd)
    (enough : linkEnd - i ≤ fuel) (plain : ∀ c ∈ data.take i, c ≠ chr '<') :
    ∃ r, countParens data linkEnd fuel i (closings data i) (openings data i) =
        some (r, closings data r, openings data r) ∧ r ≤ linkEnd ∧ (∀ c ∈ data.take r, c ≠ chr '<') ∧
      ((∀ c ∈ data.take linkEnd, c ≠ chr '<') → r = linkEnd) := by
  induction fuel generalizing i with
  | zero =>
    obtain rfl : i = linkEnd := by omega
    exact ⟨i, rfl, le_rfl, plain, fun _ => rfl⟩
  | succ fuel ih =>
    rw [countParens]
    by_cases more : i < linkEnd
    · obtain ⟨c, here⟩ := exists_byte inside more
      have taken : data.take (i + 1) = data.take i ++ [c] := by
        rw [List.take_add_one, here]
        rfl
      rw [if_pos more, readAt, here]
      dsimp only [Option.bind_eq_bind, Option.bind_some]
      by_cases bracket : c = chr '<'
      · rw [if_pos bracket]
        refine ⟨i, rfl, before, plain, fun none => ?_⟩
        have member : c ∈ data.take linkEnd := by
          apply (List.take_sublist_take_left (show i + 1 ≤ linkEnd from more)).subset
          rw [taken]
          simp
        exact absurd bracket (none c member)
      have plain' : ∀ d ∈ data.take (i + 1), d ≠ chr '<' := by
        rw [taken, List.forall_mem_append]
        exact ⟨plain, by simpa using bracket⟩
      have closing := count_take_succ here (chr ')')
      have opening := count_take_succ here (chr '(')
      have next := ih more (by omega) plain'
      rw [closings, openings, closing, opening] at next
      rw [if_neg bracket]
      by_cases opens : c = chr '('
      · rw [if_pos opens]
        rw [if_neg (by rw [opens]; decide), if_pos opens] at next
        exact next
      rw [if_neg opens]
      rw [if_neg opens] at next
      by_cases closes : c = chr ')'
      · rw [if_pos closes]
        rw [if_pos closes] at next
        exact next
      · rw [if_neg closes]
        rw [if_neg closes] at next
        exact next
    · obtain rfl : i = linkEnd := by omega
      rw [if_neg more]
      exact ⟨i, rfl, le_rfl, plain, fun _ => rfl⟩

/-! ### Trimming -/

/-- The letters before a semicolon, and the byte at which they stop. -/
theorem entityStart_spec (last : Nat) (inside : last < data.length) :
    ∃ newEnd, entityStart data last = some newEnd ∧ newEnd ≤ last ∧
      ∀ k, newEnd < k → k ≤ last → ∃ c, data[k]? = some c ∧ isalpha c = true := by
  induction last with
  | zero => exact ⟨0, rfl, le_rfl, fun k low high => absurd low (by omega)⟩
  | succ last ih =>
    obtain ⟨c, here⟩ := exists_byte le_rfl inside
    rw [entityStart, readAt, here]
    dsimp only [Option.bind_eq_bind, Option.bind_some]
    by_cases letter : isalpha c = true
    · obtain ⟨newEnd, found, before, letters⟩ := ih (by omega)
      rw [if_pos letter]
      refine ⟨newEnd, found, by omega, fun k low high => ?_⟩
      by_cases same : k = last + 1
      · exact ⟨c, same ▸ here, letter⟩
      · exact letters k low (by omega)
    · rw [if_neg letter]
      exact ⟨last + 1, rfl, le_rfl, fun k low high => absurd low (by omega)⟩

theorem trimEnd_spec {fuel : Nat} (inside : linkEnd ≤ data.length) (first : data[0]? ≠ some (chr ';'))
    (enough : linkEnd ≤ fuel) : ∃ r, trimEnd data (openings data linkEnd) fuel (closings data linkEnd) linkEnd = some r ∧
      r ≤ linkEnd ∧ EndsLink data r := by
  induction fuel generalizing linkEnd with
  | zero =>
    obtain rfl : linkEnd = 0 := by omega
    exact ⟨0, rfl, le_rfl, .inl rfl⟩
  | succ fuel ih =>
    rw [trimEnd]
    match linkEnd with
    | 0 => exact ⟨0, rfl, le_rfl, .inl rfl⟩
    | linkEnd + 1 =>
      obtain ⟨c, here⟩ := exists_byte inside (Nat.lt_succ_self linkEnd)
      rw [if_neg (Nat.succ_ne_zero _), readAt, Nat.add_sub_cancel, here]
      dsimp only [Option.bind_eq_bind, Option.bind_some]
      have closing := count_take_succ here (chr ')')
      have opening := count_take_succ here (chr '(')
      -- one character is trimmed
      have shorter (notOpening : c ≠ chr '(') : ∃ r,
          trimEnd data (openings data (linkEnd + 1)) fuel (closings data linkEnd) linkEnd = some r ∧
            r ≤ linkEnd + 1 ∧ EndsLink data r := by
        obtain ⟨r, trims, before, ends⟩ := ih (Nat.le_of_succ_le inside) (Nat.le_of_succ_le_succ enough)
        rw [if_neg notOpening, Nat.add_zero] at opening
        refine ⟨r, ?_, by omega, ends⟩
        rw [openings, opening]
        exact trims
      by_cases closes : c = chr ')'
      · rw [if_pos closes]
        by_cases matched : closings data (linkEnd + 1) ≤ openings data (linkEnd + 1)
        · rw [if_pos matched]
          refine ⟨linkEnd + 1, rfl, le_rfl, .inr ⟨Nat.succ_pos _, c, by simpa using here, ?_, ?_, fun _ => matched⟩⟩
          · rw [closes]
            decide
          · rw [closes]
            decide
        · rw [if_neg matched]
          rw [if_pos closes] at closing
          have less : closings data (linkEnd + 1) - 1 = closings data linkEnd := by
            rw [closings, closing, Nat.add_sub_cancel]
            rfl
          rw [less]
          exact shorter (by rw [closes]; decide)
      rw [if_neg closes]
      rw [if_neg closes, Nat.add_zero] at closing
      have same : closings data (linkEnd + 1) = closings data linkEnd := closing
      by_cases trims : trimsAtEnd c = true
      · rw [if_pos trims, same]
        apply shorter
        rintro rfl
        exact absurd trims (by decide)
      rw [if_neg trims]
      by_cases semicolon : c = chr ';'
      · rw [if_pos semicolon]
        have notFirst : linkEnd ≠ 0 := by
          rintro rfl
          rw [semicolon] at here
          exact first here
        have last : subSize (linkEnd + 1) 2 = some (linkEnd - 1) := if_pos (by omega)
        obtain ⟨newEnd, goesBack, before, letters⟩ := entityStart_spec (linkEnd - 1) (by omega : linkEnd - 1 < data.length)
        obtain ⟨d, stop⟩ := exists_byte le_rfl (by omega : newEnd < data.length)
        rw [last, Option.bind_some, goesBack, Option.bind_some, readAt, stop, Option.bind_some]
        split
        next entity =>
          have absent (e : UInt8) (notLetter : isalpha e = false) (notEnd : e ≠ chr '&' ∧ e ≠ chr ';') (k : Nat)
              (low : newEnd ≤ k) (high : k < linkEnd + 1) : data[k]? ≠ some e := by
            intro found
            rcases Nat.lt_or_eq_of_le low with low | rfl
            · rcases Nat.lt_or_eq_of_le (Nat.le_of_lt_succ high) with high | rfl
              · obtain ⟨f, found', letter⟩ := letters k low (by omega)
                obtain rfl := Option.some.inj (found.symm.trans found')
                cases notLetter.symm.trans letter
              · exact notEnd.2 (Option.some.inj (found.symm.trans here) |>.trans semicolon)
            · exact notEnd.1 (Option.some.inj (found.symm.trans stop) |>.trans entity.2)
          have closings' : closings data (linkEnd + 1) = closings data newEnd :=
            count_take_of_absent (by omega) (absent (chr ')') (by decide) (by decide))
          have openings' : openings data (linkEnd + 1) = openings data newEnd :=
            count_take_of_absent (by omega) (absent (chr '(') (by decide) (by decide))
          rw [closings', openings']
          obtain ⟨r, trims, before', ends⟩ := ih (by omega : newEnd ≤ data.length) (by omega)
          exact ⟨r, trims, by omega, ends⟩
        next =>
          rw [same]
          exact shorter (by rw [semicolon]; decide)
      · rw [if_neg semicolon]
        refine ⟨linkEnd + 1, rfl, le_rfl, .inr ⟨Nat.succ_pos _, c, by simpa using here, by simpa using trims, semicolon, ?_⟩⟩
        exact fun impossible => absurd impossible closes

/-- A link that ends well is not trimmed. -/
theorem EndsLink.trimEnd (ends : EndsLink data linkEnd) {fuel : Nat} (enough : linkEnd ≤ fuel) :
    trimEnd data (openings data linkEnd) fuel (closings data linkEnd) linkEnd = some linkEnd := by
  rcases ends with rfl | ⟨positive, c, here, keeps, notSemicolon, matched⟩
  · cases fuel <;> rfl
  · obtain ⟨fuel, rfl⟩ := Nat.exists_eq_succ_of_ne_zero (by omega : fuel ≠ 0)
    rw [CmarkGfm.trimEnd, if_neg (Nat.ne_of_gt positive), readAt, here]
    dsimp only [Option.bind_eq_bind, Option.bind_some]
    by_cases closes : c = chr ')'
    · rw [if_pos closes, if_pos (matched closes)]
    · rw [if_neg closes, if_neg (by rw [keeps]; decide), if_neg notSemicolon]

/-- The end is found without a subtraction below zero or a read behind the data. It is not behind the given one,
nothing at it is to be trimmed, and it is left alone when it is given again. -/
theorem autolinkDelim_spec (data : Bytes) (linkEnd : Nat) (inside : linkEnd ≤ data.length)
    (first : data[0]? ≠ some (chr ';')) :
    ∃ r, autolinkDelim data linkEnd = some r ∧ r ≤ linkEnd ∧ (∀ c ∈ data.take r, c ≠ chr '<') ∧
      EndsLink data r ∧ autolinkDelim data r = some r := by
  have start (e : Nat) (within : e ≤ data.length) := countParens_spec (i := 0) within (Nat.zero_le e) le_rfl
    (by simp)
  obtain ⟨e, counted, before, plain, _⟩ := start linkEnd inside
  obtain ⟨r, trims, shorter, ends⟩ := trimEnd_spec (Nat.le_trans before inside) first le_rfl
  have plain' : ∀ c ∈ data.take r, c ≠ chr '<' := fun c among =>
    plain c ((List.take_sublist_take_left shorter).subset among)
  obtain ⟨e', counted', _, _, whole⟩ := start r (by omega)
  obtain rfl := whole plain'
  refine ⟨e', ?_, by omega, plain', ends, ?_⟩
  · have found : countParens data linkEnd linkEnd 0 0 0 = _ := counted
    rw [autolinkDelim, found]
    exact trims
  · have found : countParens data e' e' 0 0 0 = _ := counted'
    rw [autolinkDelim, found]
    exact ends.trimEnd le_rfl

/-- `a.b(c))&amp;;.` -/
theorem autolinkDelim_matched : ∃ r, autolinkDelim (lit "a.b(c))&amp;;.") 14 = some r ∧ r ≤ 14 ∧
    (∀ c ∈ (lit "a.b(c))&amp;;.").take r, c ≠ chr '<') ∧ EndsLink (lit "a.b(c))&amp;;.") r ∧
      autolinkDelim (lit "a.b(c))&amp;;.") r = some r :=
  autolinkDelim_spec (lit "a.b(c))&amp;;.") 14 (by decide) (by decide)

example : autolinkDelim (lit "a.b(c))&amp;;.") 14 = some 6 := by decide

end CmarkGfm
