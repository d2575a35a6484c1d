import Mathlib.Data.List.Basic
import Mathlib.Tactic.Common

/-!
# UTF-8

The octet sequences of characters and of texts (RFC 3629). A character is known by its first octet,
which no octet behind the first can be, so a text has one division into characters.
-/

namespace Utf8

/-- An octet behind the first of a character. -/
def Tail (b : UInt8) : Prop := 0x80 ≤ b ∧ b ≤ 0xBF

instance (b : UInt8) : Decidable (Tail b) := inferInstanceAs (Decidable (_ ∧ _))

/-- The octets of a character: no longer than needed, no surrogate, and not above U+10FFFF. -/
inductive Character : List UInt8 → Prop
  | one {a : UInt8} : a < 0x80 → Character [a]
  | two {a b : UInt8} : 0xC2 ≤ a → a ≤ 0xDF → Tail b → Character [a, b]
  | three {a b c : UInt8} : 0xE0 ≤ a → a ≤ 0xEF → Tail b → Tail c → (a = 0xE0 → 0xA0 ≤ b) →
      (a = 0xED → b ≤ 0x9F) → Character [a, b, c]
  | four {a b c d : UInt8} : 0xF0 ≤ a → a ≤ 0xF4 → Tail b → Tail c → Tail d →
      (a = 0xF0 → 0x90 ≤ b) → (a = 0xF4 → b ≤ 0x8F) → Character [a, b, c, d]

/-- A sequence of characters. -/
inductive Text : List UInt8 → Prop
  | nil : Text []
  | cons {c rest : List UInt8} : Character c → Text rest → Text (c ++ rest)

/-- The number of octets that the first announces. -/
def announced (a : UInt8) : Nat :=
  if a < 0x80 then 1 else if a < 0xE0 then 2 else if a < 0xF0 then 3 else 4

section

variable {a b : UInt8} {c c' s t rest rest' : List UInt8}

theorem Tail.not_ascii (tail : Tail a) : ¬ a < 0x80 := UInt8.not_lt.mpr tail.1

/-- A first octet, and tails. -/
theorem Character.shape (character : Character c) :
    ∃ a tails, c = a :: tails ∧ ¬ Tail a ∧ (∀ b ∈ tails, Tail b) ∧ c.length = announced a ∧
      (a < 0x80 → tails = []) := by
  cases character with
  | @one a ascii =>
    refine ⟨a, [], rfl, fun tail => tail.not_ascii ascii, nofun, ?_, fun _ => rfl⟩
    rw [announced, if_pos ascii]
    rfl
  | @two a b low high tail =>
    refine ⟨a, [b], rfl, by grind [Tail], by simpa using tail, by grind [announced], by grind⟩
  | @three a b c low high tail tail' _ _ =>
    refine ⟨a, [b, c], rfl, by grind [Tail], by simpa using ⟨tail, tail'⟩, by grind [announced], by grind⟩
  | @four a b c d low high tail tail' tail'' _ _ =>
    refine ⟨a, [b, c, d], rfl, by grind [Tail], by simpa using ⟨tail, tail', tail''⟩, by grind [announced], by grind⟩

theorem Character.ne_nil (character : Character c) : c ≠ [] := by
  obtain ⟨a, tails, rfl, _⟩ := character.shape
  exact List.cons_ne_nil a tails

theorem Tail.not_character (tail : Tail a) : ¬ Character (a :: s) := by
  intro character
  obtain ⟨b, tails, same, first, _⟩ := character.shape
  rw [(List.cons.inj same).1] at tail
  exact first tail

/-- The octets of a character in ASCII are one. -/
theorem Character.eq_singleton (character : Character (a :: s)) (ascii : a < 0x80) : s = [] := by
  obtain ⟨b, tails, same, _, _, _, alone⟩ := character.shape
  obtain ⟨rfl, rfl⟩ := List.cons.inj same
  exact alone ascii

/-- Behind the first octet of a character there are only tails. -/
theorem Character.tail_of_mem (character : Character (a :: s)) (member : b ∈ s) : Tail b := by
  obtain ⟨_, tails, same, _, allTails, _⟩ := character.shape
  obtain ⟨rfl, rfl⟩ := List.cons.inj same
  exact allTails b member

theorem Character.length_eq (character : Character (a :: s)) : s.length + 1 = announced a := by
  obtain ⟨_, tails, same, _, _, length, _⟩ := character.shape
  obtain ⟨rfl, rfl⟩ := List.cons.inj same
  exact length

/-- Only one character starts a sequence. -/
theorem Character.append_inj (first : Character c) (second : Character c')
    (same : c ++ rest = c' ++ rest') : c = c' ∧ rest = rest' := by
  apply List.append_inj same
  cases c with
  | nil => exact absurd rfl first.ne_nil
  | cons a s =>
    cases c' with
    | nil => exact absurd rfl second.ne_nil
    | cons a' s' =>
      have head := (List.cons.inj same).1
      rw [List.length_cons, List.length_cons, first.length_eq, second.length_eq, head]

theorem Character.text (character : Character c) : Text c := by
  rw [← List.append_nil c]
  exact .cons character .nil

theorem Text.append (first : Text s) (second : Text t) : Text (s ++ t) := by
  induction first with
  | nil => exact second
  | cons character _ ih =>
    rw [List.append_assoc]
    exact .cons character ih

/-- A text goes on behind its first character. -/
theorem Text.of_append (text : Text (c ++ rest)) (character : Character c) : Text rest := by
  generalize same : c ++ rest = s at text
  cases text with
  | nil => exact absurd (List.append_eq_nil_iff.mp same).1 character.ne_nil
  | cons character' text =>
    rw [(character.append_inj character' same).2]
    exact text

theorem Text.append_iff (first : Text s) : Text (s ++ t) ↔ Text t := by
  induction first with
  | nil => exact Iff.rfl
  | cons character _ ih =>
    rw [List.append_assoc, ← ih]
    exact ⟨fun text => text.of_append character, .cons character⟩

/-- A text that is not empty starts with a character. -/
theorem Text.exists_character (text : Text (a :: s)) :
    ∃ t more, s = t ++ more ∧ Character (a :: t) ∧ Text more := by
  generalize whole : a :: s = w at text
  cases text with
  | nil => cases whole
  | @cons c rest character text =>
    cases c with
    | nil => exact absurd rfl character.ne_nil
    | cons b t =>
      rw [List.cons_append] at whole
      obtain ⟨rfl, rfl⟩ := List.cons.inj whole
      exact ⟨t, rest, rfl, character, text⟩

theorem Text.of_ascii (ascii : ∀ b ∈ s, b < 0x80) : Text s := by
  induction s with
  | nil => exact .nil
  | cons b s ih =>
    exact .cons (.one (ascii b List.mem_cons_self)) (ih fun x member => ascii x (.tail b member))

/-- A text is divided at every octet in ASCII. -/
theorem Text.split (text : Text (s ++ a :: t)) (ascii : a < 0x80) : Text s ∧ Text t := by
  generalize whole : s ++ a :: t = w at text
  induction text generalizing s with
  | nil => simp at whole
  | @cons c rest character text ih =>
    cases c with
    | nil => exact absurd rfl character.ne_nil
    | cons b tails =>
      cases s with
      | nil =>
        rw [List.nil_append, List.cons_append] at whole
        obtain ⟨rfl, same⟩ := List.cons.inj whole
        rw [character.eq_singleton ascii] at same
        exact ⟨.nil, same ▸ text⟩
      | cons b' s =>
        rw [List.cons_append, List.cons_append] at whole
        obtain ⟨rfl, same⟩ := List.cons.inj whole
        rcases List.append_eq_append_iff.mp same with ⟨more, eq, eq'⟩ | ⟨more, eq, eq'⟩
        · -- the octet would be a tail
          cases more with
          | nil =>
            rw [List.append_nil] at eq
            obtain ⟨left, right⟩ := ih (s := []) eq'
            exact ⟨eq ▸ character.text, right⟩
          | cons x more =>
            have member : a ∈ tails := by
              rw [eq, (List.cons.inj eq').1]
              simp
            exact absurd ascii (character.tail_of_mem member).not_ascii
        · obtain ⟨left, right⟩ := ih eq'.symm
          refine ⟨?_, right⟩
          rw [eq]
          exact .cons character left

end

end Utf8
