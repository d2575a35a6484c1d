import Mathlib.Data.List.Dedup
import Mathlib.Data.List.Basic

/-!
# Regular expressions and longest match

Expressions over an abstract type `κ` of character classes, matched by Antimirov
partial derivatives. `longest` runs a finite set of derivatives over the input and
keeps the last accepting position, which is how a generated scanner behaves.
-/

namespace Regex

inductive Re (κ : Type) where
  | empty
  | eps
  | cls (k : κ)
  | seq (a b : Re κ)
  | alt (a b : Re κ)
  | star (a : Re κ)
  deriving DecidableEq

variable {κ α : Type} (mem : κ → α → Bool)

/-- The language of an expression. -/
inductive Matches : Re κ → List α → Prop where
  | eps : Matches .eps []
  | cls {k c} : mem k c = true → Matches (.cls k) [c]
  | seq {a b u v} : Matches a u → Matches b v → Matches (.seq a b) (u ++ v)
  | left {a b u} : Matches a u → Matches (.alt a b) u
  | right {a b u} : Matches b u → Matches (.alt a b) u
  | nil {a} : Matches (.star a) []
  | more {a u v} : Matches a u → Matches (.star a) v → Matches (.star a) (u ++ v)

namespace Re

def nullable : Re κ → Bool
  | empty => false
  | eps => true
  | cls _ => false
  | seq a b => a.nullable && b.nullable
  | alt a b => a.nullable || b.nullable
  | star _ => true

/-- Antimirov's partial derivatives by one character. -/
def partials (c : α) : Re κ → List (Re κ)
  | empty => []
  | eps => []
  | cls k => if mem k c then [eps] else []
  | seq a b =>
    let whole := (partials c a).map fun a' => seq a' b
    if a.nullable then whole ++ partials c b else whole
  | alt a b => partials c a ++ partials c b
  | star a => (partials c a).map fun a' => seq a' (star a)

/-- The classes in an expression. -/
def classes : Re κ → List κ
  | empty => []
  | eps => []
  | cls k => [k]
  | seq a b => a.classes ++ b.classes
  | alt a b => a.classes ++ b.classes
  | star a => a.classes

/-! Derived forms, named as the operators of a scanner generator. -/

def opt (a : Re κ) : Re κ := alt a eps

def plus (a : Re κ) : Re κ := seq a (star a)

def times (a : Re κ) : Nat → Re κ
  | 0 => eps
  | n + 1 => seq a (times a n)

/-- At most `n` repetitions. -/
def upTo (a : Re κ) : Nat → Re κ
  | 0 => eps
  | n + 1 => opt (seq a (upTo a n))

/-- Between `m` and `n` repetitions. -/
def between (a : Re κ) (m n : Nat) : Re κ := seq (times a m) (upTo a (n - m))

def atLeast (a : Re κ) (m : Nat) : Re κ := seq (times a m) (star a)

def seqs : List (Re κ) → Re κ
  | [] => eps
  | [a] => a
  | a :: b :: rest => seq a (seqs (b :: rest))

def alts : List (Re κ) → Re κ
  | [] => empty
  | [a] => a
  | a :: b :: rest => alt a (alts (b :: rest))

end Re

open Re

theorem nullable_iff (r : Re κ) : r.nullable = true ↔ Matches mem r [] := by
  constructor
  · intro h
    induction r with
    | empty => simp [nullable] at h
    | eps => exact .eps
    | cls k => simp [nullable] at h
    | seq a b iha ihb =>
      simp only [nullable, Bool.and_eq_true] at h
      exact .seq (u := []) (v := []) (iha h.1) (ihb h.2)
    | alt a b iha ihb =>
      simp only [nullable, Bool.or_eq_true] at h
      rcases h with h | h
      · exact .left (iha h)
      · exact .right (ihb h)
    | star a _ => exact .nil
  · intro h
    generalize hw : ([] : List α) = w at h
    induction h with
    | eps => rfl
    | cls => cases hw
    | seq _ _ iha ihb =>
      obtain ⟨hu, hv⟩ := List.append_eq_nil_iff.mp hw.symm
      simp only [nullable, iha hu.symm, ihb hv.symm, Bool.and_self]
    | left _ ih => simp only [nullable, ih hw, Bool.true_or]
    | right _ ih => simp only [nullable, ih hw, Bool.or_true]
    | nil => rfl
    | more => rfl

private theorem partials_sound (c : α) (r r' : Re κ) (w : List α)
    (member : r' ∈ partials mem c r) (rest : Matches mem r' w) : Matches mem r (c :: w) := by
  induction r generalizing r' w with
  | empty => simp [partials] at member
  | eps => simp [partials] at member
  | cls k =>
    simp only [partials] at member
    split at member
    next inClass =>
      simp only [List.mem_singleton] at member
      subst member
      cases rest
      exact .cls inClass
    next => simp at member
  | seq a b iha ihb =>
    have head (hd : r' ∈ (partials mem c a).map fun a' => seq a' b) :
        Matches mem (seq a b) (c :: w) := by
      obtain ⟨a', ha, rfl⟩ := List.mem_map.mp hd
      cases rest with
      | seq first second => exact .seq (iha a' _ ha first) second
    simp only [partials] at member
    split at member
    next nullableA =>
      rcases List.mem_append.mp member with hd | tl
      · exact head hd
      · exact .seq (u := []) ((nullable_iff mem a).mp nullableA) (ihb r' w tl rest)
    next => exact head member
  | alt a b iha ihb =>
    rcases List.mem_append.mp member with hd | tl
    · exact .left (iha r' w hd rest)
    · exact .right (ihb r' w tl rest)
  | star a ih =>
    obtain ⟨a', ha, rfl⟩ := List.mem_map.mp member
    cases rest with
    | seq first second => exact .more (ih a' _ ha first) second

private theorem partials_complete (c : α) (r : Re κ) (w : List α)
    (h : Matches mem r (c :: w)) : ∃ r' ∈ partials mem c r, Matches mem r' w := by
  generalize hx : c :: w = x at h
  induction h generalizing w with
  | eps => cases hx
  | @cls k c' inClass =>
    cases hx
    exact ⟨eps, by simp [partials, inClass], .eps⟩
  | @seq a b u v first second iha ihb =>
    rcases List.cons_eq_append_iff.mp hx with ⟨rfl, hv⟩ | ⟨u', rfl, rfl⟩
    · have nullableA := (nullable_iff mem a).mpr first
      obtain ⟨r', member, rest⟩ := ihb w hv.symm
      exact ⟨r', by simp [partials, nullableA, member], rest⟩
    · obtain ⟨a', member, rest⟩ := iha u' rfl
      refine ⟨seq a' b, ?_, .seq rest second⟩
      simp only [partials]
      split <;> simp [member]
  | left _ ih =>
    obtain ⟨r', member, rest⟩ := ih w hx
    exact ⟨r', by simp [partials, member], rest⟩
  | right _ ih =>
    obtain ⟨r', member, rest⟩ := ih w hx
    exact ⟨r', by simp [partials, member], rest⟩
  | nil => cases hx
  | @more a u v first second ihFirst ihSecond =>
    rcases List.cons_eq_append_iff.mp hx with ⟨rfl, hv⟩ | ⟨u', rfl, rfl⟩
    · exact ihSecond w hv.symm
    · obtain ⟨a', member, rest⟩ := ihFirst u' rfl
      exact ⟨seq a' (star a), by simp [partials, member], .seq rest second⟩

/-- One step of matching is a choice of partial derivative. -/
theorem matches_cons_iff (c : α) (r : Re κ) (w : List α) :
    Matches mem r (c :: w) ↔ ∃ r' ∈ partials mem c r, Matches mem r' w :=
  ⟨partials_complete mem c r w, fun ⟨r', member, rest⟩ => partials_sound mem c r r' w member rest⟩

variable {mem}

/-- A choice matches what one of its expressions matches. -/
theorem matches_alts_iff (rs : List (Re κ)) (w : List α) :
    Matches mem (alts rs) w ↔ ∃ r ∈ rs, Matches mem r w := by
  induction rs with
  | nil =>
    constructor
    · intro matched
      cases matched
    · rintro ⟨r, member, _⟩
      cases member
  | cons a rest ih =>
    cases rest with
    | nil => simp [alts]
    | cons b rest =>
      rw [alts, List.exists_mem_cons_iff, ← ih]
      constructor
      · intro matched
        cases matched with
        | left here => exact .inl here
        | right later => exact .inr later
      · rintro (here | later)
        · exact .left here
        · exact .right later

/-- Repeated characters of one class. -/
theorem mem_of_matches_star {k : κ} {w : List α} (matched : Matches mem (star (cls k)) w) :
    ∀ c ∈ w, mem k c = true := by
  generalize expression : star (cls k) = r at matched
  induction matched with
  | nil => simp
  | @more a u v first _ _ ih =>
    cases expression
    intro c member
    cases first with
    | cls inClass =>
      rcases List.mem_append.mp member with here | later
      · rwa [List.mem_singleton.mp here]
      · exact ih rfl c later
  | eps | cls | seq | left | right => cases expression

/-- Every character of a match is in a class of the expression. -/
theorem Matches.mem_classes {r : Re κ} {w : List α} (matched : Matches mem r w) :
    ∀ c ∈ w, ∃ k ∈ r.classes, mem k c = true := by
  induction matched with
  | eps => simp
  | cls inClass => simpa [classes] using inClass
  | seq _ _ first second =>
    rw [classes, List.forall_mem_append]
    constructor
    · intro c member
      obtain ⟨k, among, inClass⟩ := first c member
      exact ⟨k, List.mem_append_left _ among, inClass⟩
    · intro c member
      obtain ⟨k, among, inClass⟩ := second c member
      exact ⟨k, List.mem_append_right _ among, inClass⟩
  | left _ ih =>
    intro c member
    obtain ⟨k, among, inClass⟩ := ih c member
    exact ⟨k, List.mem_append_left _ among, inClass⟩
  | right _ ih =>
    intro c member
    obtain ⟨k, among, inClass⟩ := ih c member
    exact ⟨k, List.mem_append_right _ among, inClass⟩
  | nil => simp
  | more _ _ first more => exact List.forall_mem_append.mpr ⟨first, more⟩

theorem matches_seq_iff (a b : Re κ) (w : List α) :
    Matches mem (seq a b) w ↔ ∃ u v, w = u ++ v ∧ Matches mem a u ∧ Matches mem b v := by
  constructor
  · intro matched
    cases matched with
    | seq first second => exact ⟨_, _, rfl, first, second⟩
  · rintro ⟨u, v, rfl, first, second⟩
    exact .seq first second

theorem matches_cls_iff (k : κ) (w : List α) :
    Matches mem (cls k) w ↔ ∃ c, w = [c] ∧ mem k c = true := by
  constructor
  · intro matched
    cases matched with
    | cls inClass => exact ⟨_, rfl, inClass⟩
  · rintro ⟨c, rfl, inClass⟩
    exact .cls inClass

theorem matches_star_cls_iff (k : κ) (w : List α) :
    Matches mem (star (cls k)) w ↔ ∀ c ∈ w, mem k c = true := by
  constructor
  · exact mem_of_matches_star
  · intro all
    induction w with
    | nil => exact .nil
    | cons c w ih =>
      have first : Matches mem (cls k) [c] := .cls (all c List.mem_cons_self)
      exact .more first (ih fun d member => all d (List.mem_cons_of_mem c member))

theorem matches_times_cls_iff (k : κ) (m : Nat) (w : List α) :
    Matches mem (times (cls k) m) w ↔ w.length = m ∧ ∀ c ∈ w, mem k c = true := by
  induction m generalizing w with
  | zero =>
    constructor
    · intro matched
      cases matched
      simp
    · rintro ⟨none, _⟩
      rw [List.length_eq_zero_iff.mp none]
      exact .eps
  | succ m ih =>
    rw [times, matches_seq_iff]
    constructor
    · rintro ⟨u, v, rfl, first, rest⟩
      obtain ⟨c, rfl, inClass⟩ := (matches_cls_iff k u).mp first
      obtain ⟨length, members⟩ := (ih v).mp rest
      refine ⟨by simp [length], ?_⟩
      intro d member
      rcases List.mem_cons.mp member with rfl | later
      · exact inClass
      · exact members d later
    · rintro ⟨length, all⟩
      cases w with
      | nil => cases length
      | cons c w =>
        refine ⟨[c], w, rfl, .cls (all c List.mem_cons_self), (ih w).mpr ⟨?_, ?_⟩⟩
        · exact Nat.succ.inj length
        · exact fun d member => all d (List.mem_cons_of_mem c member)

/-- At least `m` characters of one class. -/
theorem matches_atLeast_cls_iff (k : κ) (m : Nat) (w : List α) :
    Matches mem (atLeast (cls k) m) w ↔ m ≤ w.length ∧ ∀ c ∈ w, mem k c = true := by
  rw [atLeast, matches_seq_iff]
  constructor
  · rintro ⟨u, v, rfl, first, rest⟩
    obtain ⟨length, members⟩ := (matches_times_cls_iff k m u).mp first
    have more := (matches_star_cls_iff k v).mp rest
    refine ⟨by simp [← length], ?_⟩
    intro c member
    rcases List.mem_append.mp member with here | later
    · exact members c here
    · exact more c later
  · rintro ⟨length, all⟩
    refine ⟨w.take m, w.drop m, (List.take_append_drop m w).symm, ?_, ?_⟩
    · apply (matches_times_cls_iff k m _).mpr
      refine ⟨by simp [length], fun c member => all c (List.mem_of_mem_take member)⟩
    · apply (matches_star_cls_iff k _).mpr
      exact fun c member => all c (List.mem_of_mem_drop member)

/-- At most `n` characters of one class. -/
theorem mem_of_matches_upTo {k : κ} {n : Nat} {w : List α} (matched : Matches mem (upTo (cls k) n) w) :
    w.length ≤ n ∧ ∀ c ∈ w, mem k c = true := by
  induction n generalizing w with
  | zero =>
    cases matched
    simp
  | succ n ih =>
    cases matched with
    | left both =>
      cases both with
      | seq first rest =>
        cases first with
        | @cls k c inClass =>
          obtain ⟨few, members⟩ := ih rest
          refine ⟨by simpa [Nat.add_comm] using few, ?_⟩
          intro c' member
          rcases List.mem_cons.mp member with rfl | later
          · exact inClass
          · exact members c' later
    | right none =>
      cases none
      simp

variable (mem)

variable [DecidableEq κ]

/-- Length of the longest prefix in the language of one of `rs` whose remaining input
satisfies `ok`. `pos` counts the characters already read and `best` is the last
accepting position. -/
def longest (ok : List α → Bool) : List (Re κ) → List α → Nat → Option Nat → Option Nat
  | rs, input, pos, best =>
    let best := if rs.any nullable && ok input then some pos else best
    match input with
    | [] => best
    | c :: rest =>
      match (rs.flatMap (partials mem c)).dedup with
      | [] => best
      | r :: rs => longest ok (r :: rs) rest (pos + 1) best

/-- Longest match of `r` at the start of `input`. -/
def longestMatch (r : Re κ) (input : List α) : Option Nat :=
  longest mem (fun _ => true) [r] input 0 none

/-- Longest match of `r` that is followed by a match of the trailing context `t`. -/
def trailingMatch (r t : Re κ) (input : List α) : Option Nat :=
  longest mem (fun rest => (longestMatch mem t rest).isSome) [r] input 0 none

omit [DecidableEq κ] in
/-- A position is recorded only where an expression accepts and the guard holds. -/
private theorem accept_here (ok : List α → Bool) (rs : List (Re κ)) (input : List α) (pos n : Nat)
    (best : Option Nat)
    (found : (if rs.any nullable && ok input then some pos else best) = some n) :
    best = some n ∨ ∃ r ∈ rs, ∃ k, n = pos + k ∧ k ≤ input.length ∧
      Matches mem r (input.take k) ∧ ok (input.drop k) = true := by
  split at found
  next accepts =>
    simp only [Bool.and_eq_true, List.any_eq_true] at accepts
    obtain ⟨⟨r, member, isNullable⟩, guard⟩ := accepts
    refine Or.inr ⟨r, member, 0, by simpa using found.symm, Nat.zero_le _, ?_, by simpa using guard⟩
    simpa using (nullable_iff mem r).mp isNullable
  next => exact Or.inl found

theorem longest_sound (ok : List α → Bool) (rs : List (Re κ)) (input : List α) (pos n : Nat)
    (best : Option Nat) (found : longest mem ok rs input pos best = some n) :
    best = some n ∨ ∃ r ∈ rs, ∃ k, n = pos + k ∧ k ≤ input.length ∧
      Matches mem r (input.take k) ∧ ok (input.drop k) = true := by
  induction input generalizing rs pos best with
  | nil => exact accept_here mem ok rs [] pos n best (by simpa [longest] using found)
  | cons c rest ih =>
    rw [longest] at found
    split at found
    next => exact accept_here mem ok rs (c :: rest) pos n best found
    next r rs' next =>
      rcases ih (r :: rs') (pos + 1) _ found with kept | ⟨r', member, k, rfl, bound, accepts, guard⟩
      · exact accept_here mem ok rs (c :: rest) pos n best kept
      · have derived : r' ∈ rs.flatMap (partials mem c) := by
          rw [← List.mem_dedup, next]; exact member
        obtain ⟨r₀, member₀, isPartial⟩ := List.mem_flatMap.mp derived
        refine Or.inr ⟨r₀, member₀, k + 1, by omega, by simpa using bound, ?_, by simpa using guard⟩
        rw [List.take_succ_cons, matches_cons_iff]
        exact ⟨r', isPartial, accepts⟩

theorem longestMatch_sound (r : Re κ) (input : List α) (n : Nat)
    (found : longestMatch mem r input = some n) :
    n ≤ input.length ∧ Matches mem r (input.take n) := by
  rcases longest_sound mem _ _ _ _ _ _ found with none | ⟨r', member, k, rfl, bound, accepts, -⟩
  · cases none
  · simp only [List.mem_singleton] at member
    subst member
    simpa using And.intro bound accepts

/-- An accepting position is given up for a later one only. -/
theorem le_longest (ok : List α → Bool) (rs : List (Re κ)) (input : List α) (pos b : Nat)
    (before : b ≤ pos) : ∃ n, longest mem ok rs input pos (some b) = some n ∧ b ≤ n := by
  induction input generalizing rs pos b with
  | nil =>
    rw [longest]
    split
    next => exact ⟨pos, rfl, before⟩
    next => exact ⟨b, rfl, Nat.le_refl _⟩
  | cons c rest ih =>
    have here : ∃ b', (if rs.any nullable && ok (c :: rest) then some pos else some b) = some b' ∧
        b ≤ b' ∧ b' ≤ pos := by
      split
      next => exact ⟨pos, rfl, before, Nat.le_refl _⟩
      next => exact ⟨b, rfl, Nat.le_refl _, before⟩
    obtain ⟨b', eq, le, bound⟩ := here
    rw [longest]
    rw [eq]
    split
    next => exact ⟨b', rfl, le⟩
    next r rs' _ =>
      obtain ⟨n, found, le'⟩ := ih (r :: rs') (pos + 1) b' (Nat.le_succ_of_le bound)
      exact ⟨n, found, Nat.le_trans le le'⟩

/-- No match that meets the guard is longer than the one that is found. -/
theorem longest_complete (ok : List α → Bool) (rs : List (Re κ)) (input : List α) (pos : Nat)
    (best : Option Nat) {r : Re κ} {k : Nat} (member : r ∈ rs) (inside : k ≤ input.length)
    (matched : Matches mem r (input.take k)) (guard : ok (input.drop k) = true) :
    ∃ n, longest mem ok rs input pos best = some n ∧ pos + k ≤ n := by
  induction input generalizing rs pos best r k with
  | nil =>
    have none : k = 0 := Nat.le_zero.mp inside
    subst none
    have accepts : (rs.any nullable && ok []) = true := by
      rw [Bool.and_eq_true, List.any_eq_true]
      exact ⟨⟨r, member, (nullable_iff mem r).mpr matched⟩, guard⟩
    rw [longest]
    rw [if_pos accepts]
    exact ⟨pos, rfl, Nat.le_refl _⟩
  | cons c rest ih =>
    rw [longest]
    cases k with
    | zero =>
      have accepts : (rs.any nullable && ok (c :: rest)) = true := by
        rw [Bool.and_eq_true, List.any_eq_true]
        exact ⟨⟨r, member, (nullable_iff mem r).mpr matched⟩, guard⟩
      rw [if_pos accepts]
      split
      next => exact ⟨pos, rfl, Nat.le_refl _⟩
      next r' rs' _ => exact le_longest mem ok (r' :: rs') rest (pos + 1) pos (Nat.le_succ pos)
    | succ k =>
      rw [List.take_succ_cons, matches_cons_iff] at matched
      obtain ⟨r', isPartial, rest'⟩ := matched
      have derived : r' ∈ (rs.flatMap (partials mem c)).dedup :=
        List.mem_dedup.mpr (List.mem_flatMap.mpr ⟨r, member, isPartial⟩)
      split
      next none =>
        rw [none] at derived
        cases derived
      next s rs' next =>
        rw [next] at derived
        obtain ⟨n, found, le⟩ := ih (s :: rs') (pos + 1) _ derived (Nat.le_of_succ_le_succ inside)
          rest' guard
        exact ⟨n, found, by omega⟩

theorem longestMatch_complete (r : Re κ) (input : List α) {k : Nat} (inside : k ≤ input.length)
    (matched : Matches mem r (input.take k)) :
    ∃ n, longestMatch mem r input = some n ∧ k ≤ n := by
  obtain ⟨n, found, le⟩ := longest_complete mem (fun _ => true) [r] input 0 none
    (List.mem_singleton_self r) inside matched rfl
  exact ⟨n, found, Nat.zero_add k ▸ le⟩

/-- Every match in context is at most as long as the one that is found. -/
theorem trailingMatch_complete (r t : Re κ) (input : List α) {k j : Nat} (inside : k ≤ input.length)
    (matched : Matches mem r (input.take k)) (insideContext : j ≤ (input.drop k).length)
    (context : Matches mem t ((input.drop k).take j)) :
    ∃ n, trailingMatch mem r t input = some n ∧ k ≤ n := by
  obtain ⟨m, found, _⟩ := longestMatch_complete mem t (input.drop k) insideContext context
  obtain ⟨n, longer, le⟩ := longest_complete mem (fun rest => (longestMatch mem t rest).isSome) [r]
    input 0 none (List.mem_singleton_self r) inside matched (by rw [found]; rfl)
  exact ⟨n, longer, Nat.zero_add k ▸ le⟩

/-- A match in context is a match followed by a match of the context. -/
theorem trailingMatch_sound (r t : Re κ) (input : List α) (n : Nat)
    (found : trailingMatch mem r t input = some n) :
    n ≤ input.length ∧ Matches mem r (input.take n) ∧
      ∃ k ≤ (input.drop n).length, Matches mem t ((input.drop n).take k) := by
  rcases longest_sound mem _ _ _ _ _ _ found with none | ⟨r', member, k, rfl, bound, accepts, guard⟩
  · cases none
  · simp only [List.mem_singleton] at member
    subst member
    obtain ⟨m, context⟩ := Option.isSome_iff_exists.mp guard
    obtain ⟨contextBound, contextAccepts⟩ := longestMatch_sound mem t _ m context
    simp only [Nat.zero_add]
    exact ⟨bound, accepts, m, contextBound, contextAccepts⟩

end Regex
