import CmarkGfm.Properties.EntityText

/-!
# Searching an entity

`S_lookup` takes one turn with each call: it returns, or it calls itself on one side of the entry it
has compared. The sides are what the order of the entries makes of the comparison.
-/

namespace CmarkGfm

/-! ### The comparison -/

/-- A name that is compared as smaller or larger stands on that side of the entry. -/
theorem lt_of_strncmp {s name : Bytes} (noNul : 0 ∉ s) :
    (strncmp s name = .lt → s < name) ∧ (0 ∉ name → strncmp s name = .gt → name < s) := by
  induction s generalizing name with
  | nil => constructor <;> simp [strncmp]
  | cons c s ih =>
    have noNul' : c ≠ 0 := fun zero => noNul (zero ▸ List.mem_cons_self)
    have ih := @ih name.tail fun member => noNul (.tail _ member)
    rw [strncmp]
    cases name with
    | nil =>
      have larger : (0 : UInt8) < c := UInt8.pos_iff_ne_zero.mpr noNul'
      constructor
      · intro smaller
        simp [byteAt, UInt8.not_lt.mpr (UInt8.le_of_lt larger), larger] at smaller
      · intro _ _
        exact List.nil_lt_cons c s
    | cons d name =>
      rw [show byteAt (d :: name) 0 = d from rfl, List.cons_lt_cons_iff, List.cons_lt_cons_iff]
      split
      next smaller => simp [smaller]
      split
      next larger => simp [larger]
      next notLess notGreater =>
        obtain rfl : c = d := UInt8.le_antisymm (UInt8.not_lt.mp notGreater) (UInt8.not_lt.mp notLess)
        rw [if_neg (by simpa using noNul')]
        refine ⟨fun less => .inr ⟨rfl, ih.1 less⟩, fun noNul'' greater => .inr ⟨rfl, ih.2 ?_ greater⟩⟩
        exact fun member => noNul'' (.tail _ member)

theorem strncmp_self (s : Bytes) : strncmp s s = .eq := by
  induction s with
  | nil => rfl
  | cons c s ih =>
    rw [strncmp, show byteAt (c :: s) 0 = c from rfl, if_neg (UInt8.lt_irrefl c), if_neg (UInt8.lt_irrefl c)]
    split
    next => rfl
    next => exact ih

/-- The test for the entry: the key is a prefix of its name, and the name ends where the key does. -/
theorem strncmp_ends_iff {s name : Bytes} (noNul : 0 ∉ s) (noNul' : 0 ∉ name) :
    (strncmp s name == .eq && byteAt name s.length == 0) = true ↔ name = s := by
  rw [Bool.and_eq_true, beq_iff_eq, beq_iff_eq]
  constructor
  · rintro ⟨same, ends⟩
    obtain ⟨more, rfl⟩ := isPrefix_of_strncmp same noNul
    cases more with
    | nil => exact List.append_nil s
    | cons d more =>
      rw [← Nat.add_zero s.length, byteAt_append_right] at ends
      exact absurd (List.mem_append_right s (List.mem_cons.mpr (.inl ends.symm))) noNul'
  · rintro rfl
    have past := byteAt_append_right (s := []) name 0
    rw [List.append_nil] at past
    exact ⟨strncmp_self name, past⟩

/-! ### One turn -/

/-- What a call of `S_lookup` does when it has compared its entry. -/
inductive LookupTurn
  | returns (bytes : Option Bytes)
  | calls (i low hi : Nat)

/-- The body of `S_lookup`. -/
def lookupTurn (entities : List (Bytes × Bytes)) (s : Bytes) (i low hi : Nat) : LookupTurn :=
  match entities[i]? with
  | none => .returns none
  | some (name, bytes) =>
    let cmp := strncmp s name
    if cmp == .eq && byteAt name s.length == 0 then .returns (some bytes)
    else if cmp != .gt && i > low then
      let j := i - (i - low) / 2
      .calls (if j == i then j - 1 else j) low (i - 1)
    else if cmp == .gt && i < hi then
      let j := i + (hi - i) / 2
      .calls (if j == i then j + 1 else j) (i + 1) hi
    else .returns none

section

variable {entities : List (Bytes × Bytes)} {s : Bytes} {i low hi : Nat}

theorem lookupEntityFrom_succ (fuel : Nat) :
    lookupEntityFrom entities s (fuel + 1) i low hi =
      match lookupTurn entities s i low hi with
      | .returns bytes => bytes
      | .calls i low hi => lookupEntityFrom entities s fuel i low hi := by
  rw [lookupEntityFrom, lookupTurn]
  cases entities[i]? with
  | none => rfl
  | some entry =>
    dsimp only
    split_ifs <;> rfl

/-- The entries of a range with this name. -/
def InRange (entities : List (Bytes × Bytes)) (s : Bytes) (low hi : Nat) (bytes : Bytes) : Prop :=
  ∃ k, low ≤ k ∧ k ≤ hi ∧ entities[k]? = some (s, bytes)

/-- What one turn does: it returns the entry or finds that there is none, or goes on with a smaller
range, with the index in it, and no entry of that name is left behind. -/
inductive TurnSpec (entities : List (Bytes × Bytes)) (s : Bytes) (low hi : Nat) : LookupTurn → Prop
  | found {bytes : Bytes} : InRange entities s low hi bytes → TurnSpec entities s low hi (.returns (some bytes))
  | absent : (∀ bytes, ¬ InRange entities s low hi bytes) → TurnSpec entities s low hi (.returns none)
  | goesOn {i' low' hi' : Nat} : low ≤ low' → hi' ≤ hi → low' ≤ i' → i' ≤ hi' → hi' - low' < hi - low →
      (∀ bytes, InRange entities s low hi bytes → InRange entities s low' hi' bytes) →
      TurnSpec entities s low hi (.calls i' low' hi')

theorem lookupTurn_spec (sorted : entities.Pairwise fun a b => a.1 < b.1) (names : ∀ e ∈ entities, 0 ∉ e.1)
    (noNul : 0 ∉ s) (atLeast : low ≤ i) (atMost : i ≤ hi) (inside : hi < entities.length) :
    TurnSpec entities s low hi (lookupTurn entities s i low hi) := by
  have i_lt : i < entities.length := Nat.lt_of_le_of_lt atMost inside
  have noNul' : 0 ∉ entities[i].1 := names _ (List.getElem_mem i_lt)
  have order := List.pairwise_iff_getElem.mp sorted
  -- an entry with the name of the key stands on the side that the comparison tells
  have side {k : Nat} {bytes : Bytes} (at_k : entities[k]? = some (s, bytes)) :
      (strncmp s entities[i].1 ≠ .gt → k ≤ i) ∧ (strncmp s entities[i].1 = .gt → i < k) := by
    obtain ⟨k_lt, here⟩ := List.getElem?_eq_some_iff.mp at_k
    constructor
    · intro notGreater
      by_contra after
      have larger := order i k i_lt k_lt (Nat.lt_of_not_le after)
      rw [here] at larger
      cases compared : strncmp s entities[i].1 with
      | lt => exact List.lt_asymm ((lt_of_strncmp noNul).1 compared) larger
      | eq => exact absurd larger (List.IsPrefix.le (isPrefix_of_strncmp compared noNul))
      | gt => exact notGreater compared
    · intro greater
      by_contra before
      have larger := (lt_of_strncmp noNul).2 noNul' greater
      rcases Nat.lt_or_eq_of_le (Nat.le_of_not_lt before) with before | rfl
      · have smaller := order k i k_lt i_lt before
        rw [here] at smaller
        exact List.lt_asymm smaller larger
      · rw [here] at larger
        exact List.lt_irrefl _ larger
  unfold lookupTurn
  rw [List.getElem?_eq_getElem i_lt]
  dsimp only
  split
  next ends =>
    have same := (strncmp_ends_iff noNul noNul').mp ends
    exact .found ⟨i, atLeast, atMost, by rw [List.getElem?_eq_getElem i_lt, ← same]⟩
  next notHere =>
    rw [strncmp_ends_iff noNul noNul'] at notHere
    have other {k : Nat} {bytes : Bytes} (at_k : entities[k]? = some (s, bytes)) : k ≠ i := by
      rintro rfl
      rw [List.getElem?_eq_getElem i_lt, Option.some.injEq] at at_k
      exact notHere (congrArg Prod.fst at_k)
    split
    next left =>
      rw [Bool.and_eq_true, bne_iff_ne, decide_eq_true_eq] at left
      have bounds : ∃ j, (if i - (i - low) / 2 == i then i - (i - low) / 2 - 1 else i - (i - low) / 2) = j ∧
          low ≤ j ∧ j ≤ i - 1 := by
        refine ⟨_, rfl, ?_⟩
        split
        next same => omega
        next moved =>
          have moved := ne_of_beq_false (Bool.eq_false_iff.mpr moved)
          omega
      obtain ⟨j, isMiddle, aboveLow, belowHi⟩ := bounds
      rw [isMiddle]
      refine .goesOn (Nat.le_refl low) (by omega) aboveLow belowHi (by omega) ?_
      rintro bytes ⟨k, least, most, at_k⟩
      exact ⟨k, least, Nat.le_sub_one_of_lt (Nat.lt_of_le_of_ne ((side at_k).1 left.1) (other at_k)), at_k⟩
    next notLeft =>
      split
      next right =>
        rw [Bool.and_eq_true, beq_iff_eq, decide_eq_true_eq] at right
        have bounds : ∃ j, (if i + (hi - i) / 2 == i then i + (hi - i) / 2 + 1 else i + (hi - i) / 2) = j ∧
            i + 1 ≤ j ∧ j ≤ hi := by
          refine ⟨_, rfl, ?_⟩
          split
          next same =>
            have same := eq_of_beq same
            omega
          next moved =>
            have moved := ne_of_beq_false (Bool.eq_false_iff.mpr moved)
            omega
        obtain ⟨j, isMiddle, aboveLow, belowHi⟩ := bounds
        rw [isMiddle]
        refine .goesOn (by omega) (Nat.le_refl hi) aboveLow belowHi (by omega) ?_
        rintro bytes ⟨k, least, most, at_k⟩
        exact ⟨k, (side at_k).2 right.1, most, at_k⟩
      next notRight =>
        apply TurnSpec.absent
        rintro bytes ⟨k, least, most, at_k⟩
        simp only [Bool.and_eq_true, bne_iff_ne, beq_iff_eq, decide_eq_true_eq, not_and] at notLeft notRight
        by_cases greater : strncmp s entities[i].1 = .gt
        · have after := (side at_k).2 greater
          exact notRight greater (by omega)
        · have before := (side at_k).1 greater
          have different := other at_k
          exact notLeft greater (by omega)

/-! ### The search -/

/-- The calls of a search, from one to another. -/
inductive LookupCalls (entities : List (Bytes × Bytes)) (s : Bytes) (i low hi : Nat) : Nat → Nat → Nat → Prop
  | here : LookupCalls entities s i low hi i low hi
  | calls {j low' hi' j' low'' hi'' : Nat} : LookupCalls entities s i low hi j low' hi' →
      lookupTurn entities s j low' hi' = .calls j' low'' hi'' → LookupCalls entities s i low hi j' low'' hi''

/-- A search that ends after at most so many calls, with this result. -/
inductive LookupEnds (entities : List (Bytes × Bytes)) (s : Bytes) : Nat → Nat → Nat → Nat → Option Bytes → Prop
  | returns {n i low hi : Nat} {bytes : Option Bytes} : lookupTurn entities s i low hi = .returns bytes →
      LookupEnds entities s (n + 1) i low hi bytes
  | calls {n i low hi i' low' hi' : Nat} {bytes : Option Bytes} :
      lookupTurn entities s i low hi = .calls i' low' hi' → LookupEnds entities s n i' low' hi' bytes →
      LookupEnds entities s (n + 1) i low hi bytes

variable (sorted : entities.Pairwise fun a b => a.1 < b.1) (names : ∀ e ∈ entities, 0 ∉ e.1) (noNul : 0 ∉ s)

include sorted names noNul

/-- The index of every call is inside its range, and the range inside the array. -/
theorem LookupCalls.inside {i' low' hi' : Nat} (atLeast : low ≤ i) (atMost : i ≤ hi) (inside : hi < entities.length)
    (calls : LookupCalls entities s i low hi i' low' hi') : low' ≤ i' ∧ i' ≤ hi' ∧ hi' < entities.length := by
  induction calls with
  | here => exact ⟨atLeast, atMost, inside⟩
  | calls _ turn ih =>
    obtain ⟨above, below, within⟩ := ih
    have spec := lookupTurn_spec sorted names noNul above below within
    rw [turn] at spec
    cases spec with
    | goesOn _ lower least most _ _ => exact ⟨least, most, Nat.lt_of_le_of_lt lower within⟩

theorem lookupEnds_of_inside {n : Nat} (atLeast : low ≤ i) (atMost : i ≤ hi) (inside : hi < entities.length)
    (enough : hi - low < n) : ∃ result, LookupEnds entities s n i low hi result ∧
      lookupEntityFrom entities s n i low hi = result ∧
      ∀ bytes, result = some bytes ↔ InRange entities s low hi bytes := by
  induction n generalizing i low hi with
  | zero => cases enough
  | succ n ih =>
    have spec := lookupTurn_spec sorted names noNul atLeast atMost inside
    rw [lookupEntityFrom_succ]
    cases turn : lookupTurn entities s i low hi with
    | returns result =>
      rw [turn] at spec
      refine ⟨result, .returns turn, rfl, fun bytes => ?_⟩
      cases spec with
      | @found here found =>
        constructor
        · rintro ⟨⟩
          exact found
        · rintro ⟨k, _, _, at_k⟩
          obtain ⟨k', _, _, at_k'⟩ := found
          obtain ⟨k_lt, is⟩ := List.getElem?_eq_some_iff.mp at_k
          obtain ⟨k'_lt, is'⟩ := List.getElem?_eq_some_iff.mp at_k'
          have order := List.pairwise_iff_getElem.mp sorted
          rcases Nat.lt_trichotomy k k' with before | rfl | after
          · have less := order k k' k_lt k'_lt before
            rw [is, is'] at less
            exact absurd less (List.lt_irrefl s)
          · rw [is] at is'
            exact congrArg some (Prod.mk.inj is').2.symm
          · have less := order k' k k'_lt k_lt after
            rw [is, is'] at less
            exact absurd less (List.lt_irrefl s)
      | absent absent =>
        constructor
        · rintro ⟨⟩
        · intro there
          exact absurd there (absent bytes)
    | calls i' low' hi' =>
      rw [turn] at spec
      cases spec with
      | goesOn upper lower least most smaller keeps =>
        obtain ⟨result, ends, same, found⟩ :=
          ih least most (Nat.lt_of_le_of_lt lower inside) (by omega)
        refine ⟨result, .calls turn ends, same, fun bytes => (found bytes).trans ⟨?_, keeps bytes⟩⟩
        rintro ⟨k, above, below, at_k⟩
        exact ⟨k, Nat.le_trans upper above, Nat.le_trans below lower, at_k⟩

end

/-- Searching a sorted array of names finds the entry of the key, if there is one. It takes no more
calls than there are entries, and looks at none outside the array. -/
theorem lookupEntity_spec (T : Tables) (sorted : T.entities.Pairwise fun a b => a.1 < b.1)
    (names : ∀ e ∈ T.entities, 0 ∉ e.1) (entries : T.entities ≠ []) {s : Bytes} (noNul : 0 ∉ s) :
    (∀ i low hi, LookupCalls T.entities s (T.entities.length / 2) 0 (T.entities.length - 1) i low hi →
      low ≤ i ∧ i ≤ hi ∧ hi < T.entities.length) ∧
    LookupEnds T.entities s T.entities.length (T.entities.length / 2) 0 (T.entities.length - 1)
      (lookupEntity T s) ∧
    (∀ bytes, lookupEntity T s = some bytes ↔ (s, bytes) ∈ T.entities) := by
  have some : 0 < T.entities.length := List.length_pos_iff.mpr entries
  have atMost : T.entities.length / 2 ≤ T.entities.length - 1 := by omega
  obtain ⟨result, ends, same, found⟩ := lookupEnds_of_inside (n := T.entities.length) sorted names noNul
    (Nat.zero_le _) atMost (Nat.sub_one_lt_of_lt some) (by omega)
  have returned : lookupEntity T s = result := same
  refine ⟨fun i low hi calls => ?_, ?_, fun bytes => ?_⟩
  · exact calls.inside sorted names noNul (Nat.zero_le _) atMost (Nat.sub_one_lt_of_lt some)
  · rw [returned]
    exact ends
  · rw [returned, found]
    constructor
    · rintro ⟨k, _, _, at_k⟩
      exact List.mem_of_getElem? at_k
    · intro member
      obtain ⟨k, k_lt, here⟩ := List.getElem_of_mem member
      exact ⟨k, Nat.zero_le k, by omega, List.getElem?_eq_some_iff.mpr ⟨k_lt, here⟩⟩

/-- A key that is a proper prefix of a name. -/
theorem lookupEntity_three :
    let T : Tables :=
      { asciiTables with entities := [(lit "amp", lit "&"), (lit "gt", lit ">"), (lit "lt", lit "<")] }
    (∀ i low hi, LookupCalls T.entities (lit "g") (T.entities.length / 2) 0 (T.entities.length - 1) i low hi →
      low ≤ i ∧ i ≤ hi ∧ hi < T.entities.length) ∧
    LookupEnds T.entities (lit "g") T.entities.length (T.entities.length / 2) 0 (T.entities.length - 1)
      (lookupEntity T (lit "g")) ∧
    (∀ bytes, lookupEntity T (lit "g") = some bytes ↔ (lit "g", bytes) ∈ T.entities) :=
  lookupEntity_spec _ (by decide) (by decide) (by decide) (by decide)

end CmarkGfm
