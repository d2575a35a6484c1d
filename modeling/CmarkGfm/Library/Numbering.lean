import Mathlib.Data.List.Induction
import Mathlib.Data.List.Nodup
import Mathlib.Logic.Function.Basic

/-!
# Numbers in the order of first use

Keys are used one after the other. A key is numbered when it is first used, and its uses are
counted. The number of a key is then its place among the keys without repetitions.
-/

namespace Numbering

variable {κ : Type} [DecidableEq κ]

/-- The numbers given so far, 0 for none, and how often each key was used. -/
structure Numbers (κ : Type) where
  number : κ → Nat
  uses : κ → Nat
  last : Nat

def Numbers.initial : Numbers κ := ⟨fun _ => 0, fun _ => 0, 0⟩

/-- Use a key. -/
def Numbers.use (s : Numbers κ) (k : κ) : Numbers κ where
  number := Function.update s.number k (if s.number k = 0 then s.last + 1 else s.number k)
  uses := Function.update s.uses k (s.uses k + 1)
  last := if s.number k = 0 then s.last + 1 else s.last

/-- The numbers after using the keys of a list. -/
def numbersOf (l : List κ) : Numbers κ := l.foldl Numbers.use .initial

theorem numbersOf_append_singleton (l : List κ) (k : κ) :
    numbersOf (l ++ [k]) = (numbersOf l).use k := by
  rw [numbersOf, List.foldl_append]
  rfl

/-! ### Lists without repetitions -/

theorem eraseDups_append_singleton (l : List κ) (k : κ) :
    (l ++ [k]).eraseDups = if k ∈ l then l.eraseDups else l.eraseDups ++ [k] := by
  rw [List.eraseDups_append]
  by_cases used : k ∈ l
  · simp [List.removeAll, used]
  · simp [List.removeAll, used, List.eraseDups_cons]

theorem nodup_eraseDups (l : List κ) : l.eraseDups.Nodup := by
  induction l using List.reverseRecOn with
  | nil => exact List.nodup_nil
  | append_singleton l k ih =>
    rw [eraseDups_append_singleton]
    split
    next => exact ih
    next unused => exact List.nodup_append.mpr ⟨ih, List.nodup_singleton k, by aesop⟩

/-- The place of a key does not change when more keys are used. -/
theorem idxOf_eraseDups_append {l : List κ} {k : κ} (used : k ∈ l) (later : List κ) :
    (l ++ later).eraseDups.idxOf k = l.eraseDups.idxOf k := by
  rw [List.eraseDups_append, List.idxOf_append_of_mem (List.mem_eraseDups.mpr used)]

/-! ### The numbers -/

theorem numbersOf_spec (l : List κ) :
    (∀ k, (numbersOf l).number k = if k ∈ l then l.eraseDups.idxOf k + 1 else 0) ∧
      (∀ k, (numbersOf l).uses k = l.count k) ∧ (numbersOf l).last = l.eraseDups.length := by
  induction l using List.reverseRecOn with
  | nil => simp [numbersOf, Numbers.initial]
  | append_singleton l k ih =>
    obtain ⟨number, uses, last⟩ := ih
    rw [numbersOf_append_singleton]
    refine ⟨fun j => ?number, fun j => ?uses, ?last⟩
    case number =>
      simp only [Numbers.use, Function.update_apply, number, last]
      by_cases same : j = k
      · subst same
        by_cases used : j ∈ l
        · simp [used, idxOf_eraseDups_append used]
        · have new : j ∉ l.eraseDups := by simpa using used
          simp [used, eraseDups_append_singleton, List.idxOf_append_of_notMem new]
      · by_cases used : j ∈ l
        · simp [same, used, idxOf_eraseDups_append used]
        · simp [same, used]
    case uses =>
      simp only [Numbers.use, Function.update_apply, uses]
      by_cases same : j = k
      · simp [same]
      · simp [same, List.count_append, Ne.symm same]
    case last =>
      simp only [Numbers.use, number, last, eraseDups_append_singleton]
      by_cases used : k ∈ l <;> simp [used]

/-- The keys in the order of their numbers. -/
theorem pairwise_number_eraseDups (l : List κ) :
    l.eraseDups.Pairwise fun a b => (numbersOf l).number a < (numbersOf l).number b := by
  rw [List.pairwise_iff_getElem]
  intro i j hi hj lt
  have member {i : Nat} (hi : i < l.eraseDups.length) : l.eraseDups[i] ∈ l :=
    List.mem_eraseDups.mp (List.getElem_mem hi)
  rw [(numbersOf_spec l).1, (numbersOf_spec l).1, if_pos (member hi), if_pos (member hj),
    (nodup_eraseDups l).idxOf_getElem i hi, (nodup_eraseDups l).idxOf_getElem j hj]
  omega

end Numbering
