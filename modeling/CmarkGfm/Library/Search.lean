import Mathlib.Data.List.Sort

/-!
# Binary search

`bsearch` of the C library on a list, with a comparison of the key against an element, and
what it finds in a list that the comparison divides in three.
-/

namespace Search

variable {α : Type}

/-- Search the half-open interval `lo`, `hi`; the interval shrinks in every turn. -/
def bsearchFrom (cmp : α → Ordering) (xs : List α) : Nat → Nat → Nat → Option α
  | 0, _, _ => none
  | fuel + 1, lo, hi =>
    if lo < hi then
      let mid := (lo + hi) / 2
      match xs[mid]? with
      | none => none
      | some x =>
        match cmp x with
        | .lt => bsearchFrom cmp xs fuel lo mid
        | .gt => bsearchFrom cmp xs fuel (mid + 1) hi
        | .eq => some x
    else none

def bsearch (cmp : α → Ordering) (xs : List α) : Option α :=
  bsearchFrom cmp xs (xs.length + 1) 0 xs.length

/-- Elements below the key come first, then at most one that is equal to it. -/
def Partitioned (cmp : α → Ordering) (xs : List α) : Prop :=
  xs.Pairwise fun a b => cmp a = .gt ∨ cmp b = .lt

section

variable {cmp : α → Ordering} {xs : List α}

theorem bsearchFrom_sound {fuel lo hi : Nat} {x : α}
    (found : bsearchFrom cmp xs fuel lo hi = some x) : x ∈ xs ∧ cmp x = .eq := by
  induction fuel generalizing lo hi with
  | zero => simp [bsearchFrom] at found
  | succ fuel ih =>
    simp only [bsearchFrom] at found
    split at found
    next =>
      split at found
      next => simp at found
      next y at_mid =>
        split at found
        next => exact ih found
        next => exact ih found
        next equal =>
          cases found
          exact ⟨List.mem_of_getElem? at_mid, equal⟩
    next => simp at found

/-- In a partitioned list an equal element lies on the side where the search goes on. -/
theorem bsearchFrom_complete (partitioned : Partitioned cmp xs) {i : Nat} {x : α}
    (at_i : xs[i]? = some x) (equal : cmp x = .eq) {fuel lo hi : Nat}
    (lower : lo ≤ i) (upper : i < hi) (bound : hi ≤ xs.length) (enough : hi - lo < fuel) :
    bsearchFrom cmp xs fuel lo hi = some x := by
  induction fuel generalizing lo hi with
  | zero => omega
  | succ fuel ih =>
    have nonempty : lo < hi := by omega
    have inside : (lo + hi) / 2 < xs.length := by omega
    obtain ⟨i_lt, rfl⟩ := List.getElem?_eq_some_iff.mp at_i
    have pairs := List.pairwise_iff_getElem.mp partitioned
    simp only [bsearchFrom, nonempty, if_true, List.getElem?_eq_getElem inside]
    rcases Nat.lt_trichotomy i ((lo + hi) / 2) with before | same | after
    · have side : cmp xs[(lo + hi) / 2] = .lt :=
        (pairs i _ i_lt inside before).resolve_left (by simp [equal])
      simp only [side]
      exact ih lower before (by omega) (by omega)
    · subst same
      simp only [equal]
    · have side : cmp xs[(lo + hi) / 2] = .gt :=
        (pairs _ i inside i_lt after).resolve_right (by simp [equal])
      simp only [side]
      exact ih after upper bound (by omega)

/-- On a partitioned list binary search finds what a linear search finds. -/
theorem bsearch_eq_find? (partitioned : Partitioned cmp xs) :
    bsearch cmp xs = xs.find? fun x => cmp x = .eq := by
  cases found : xs.find? fun x => cmp x = .eq with
  | none =>
    cases searched : bsearch cmp xs with
    | none => rfl
    | some x =>
      obtain ⟨member, equal⟩ := bsearchFrom_sound searched
      have differs := List.find?_eq_none.mp found x member
      simp [equal] at differs
  | some x =>
    have equal : cmp x = .eq := by simpa using List.find?_some found
    obtain ⟨i, i_lt, at_i⟩ := List.getElem_of_mem (List.mem_of_find?_eq_some found)
    exact bsearchFrom_complete partitioned (List.getElem?_eq_some_iff.mpr ⟨i_lt, at_i⟩) equal
      (Nat.zero_le i) i_lt (Nat.le_refl _) (Nat.lt_succ_self _)

end

/-! ### The first element of a class -/

/-- Two sorted arrangements of the same elements agree on the first element of a class whose
members the order tells apart. -/
theorem find?_eq_of_perm {xs ys : List α} (perm : xs.Perm ys) {p : α → Bool}
    {before : α → α → Prop} (asymm : ∀ a b, before a b → ¬ before b a)
    (sortedXs : (xs.filter p).Pairwise before) (sortedYs : (ys.filter p).Pairwise before) :
    xs.find? p = ys.find? p := by
  rw [← List.head?_filter, ← List.head?_filter]
  congr 1
  refine List.Perm.eq_of_pairwise ?_ sortedXs sortedYs (perm.filter p)
  intro a b _ _ ab ba
  exact absurd ba (asymm a b ab)

end Search
