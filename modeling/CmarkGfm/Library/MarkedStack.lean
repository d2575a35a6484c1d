import Mathlib.Data.List.Basic

/-!
# Scopes on a stack with marks

A stack of scopes is kept as one list of cells: opening a scope marks the cell on top and puts another one above it,
closing it drops the cells down to the first mark. A list without cells is not marked, so that a scope that is opened
on it is remembered nowhere; there is nothing in the scopes around it.
-/

namespace MarkedStack

variable {α β : Type*} {marked : α → Bool} {unmark : α → α} {owns : α → β → Prop}

/-- Drop the cells down to the first mark, and take the mark away. -/
def close (marked : α → Bool) (unmark : α → α) : List α → List α
  | [] => []
  | c :: cs => if marked c then unmark c :: cs else close marked unmark cs

/-- The cells own the items of the scopes: those of the innermost scope are owned by the cells above the first mark. -/
inductive Scoped (marked : α → Bool) (unmark : α → α) (owns : α → β → Prop) : List α → List (List β) → Prop
  | bottom {upper : List α} {top : List β} {rest : List (List β)} : (∀ c ∈ upper, marked c = false) →
      (∀ b ∈ top, ∃ c ∈ upper, owns c b) → (∀ scope ∈ rest, scope = []) → Scoped marked unmark owns upper (top :: rest)
  | above {upper lower : List α} {c : α} {top : List β} {scopes : List (List β)} : (∀ c ∈ upper, marked c = false) →
      (∀ b ∈ top, ∃ c ∈ upper, owns c b) → upper ≠ [] → marked c = true →
      Scoped marked unmark owns (unmark c :: lower) scopes → Scoped marked unmark owns (upper ++ c :: lower) (top :: scopes)

theorem close_append {upper lower : List α} {c : α} (plain : ∀ c ∈ upper, marked c = false) (mark : marked c = true) :
    close marked unmark (upper ++ c :: lower) = unmark c :: lower := by
  induction upper with
  | nil => rw [List.nil_append, close, if_pos mark]
  | cons u upper ih =>
    rw [List.forall_mem_cons] at plain
    rw [List.cons_append, close, plain.1]
    exact ih plain.2

theorem close_plain {cells : List α} (plain : ∀ c ∈ cells, marked c = false) : close marked unmark cells = [] := by
  induction cells with
  | nil => rfl
  | cons c cells ih =>
    rw [List.forall_mem_cons] at plain
    rw [close, plain.1]
    exact ih plain.2

namespace Scoped

variable {cells : List α} {c : α} {top : List β} {scopes : List (List β)}

/-- No scope is opened yet, and every item is gone. -/
theorem empty (rest : List (List β)) (gone : ∀ scope ∈ rest, scope = []) (some : rest ≠ []) :
    Scoped marked unmark owns [] rest := by
  obtain ⟨top, rest, rfl⟩ := List.exists_cons_of_ne_nil some
  rw [List.forall_mem_cons] at gone
  obtain ⟨rfl, gone⟩ := gone
  exact bottom nofun nofun gone

/-- There is an outermost scope. -/
theorem ne_nil (stack : Scoped marked unmark owns cells scopes) : scopes ≠ [] := by
  rintro rfl
  cases stack

/-- Without cells there are no items. -/
theorem nothing (stack : Scoped marked unmark owns [] scopes) : ∀ scope ∈ scopes, scope = [] := by
  generalize none : [] = cells at stack
  cases stack with
  | bottom _ owners gone =>
    subst none
    rw [List.forall_mem_cons]
    refine ⟨List.eq_nil_iff_forall_not_mem.mpr fun b member => ?_, gone⟩
    obtain ⟨c, impossible, _⟩ := owners b member
    cases impossible
  | above => cases (List.append_eq_nil_iff.mp none.symm).2

/-- There is no mark on top. -/
theorem head (stack : Scoped marked unmark owns (c :: cells) scopes) : marked c = false := by
  generalize all : c :: cells = cs at stack
  cases stack with
  | bottom plain => exact plain c (all ▸ List.mem_cons_self)
  | above plain _ some =>
    obtain ⟨u, upper, rfl⟩ := List.exists_cons_of_ne_nil some
    obtain ⟨rfl, _⟩ := List.cons.inj all
    exact plain c List.mem_cons_self

/-- The first cell of all. -/
theorem first (stack : Scoped marked unmark owns [] scopes) {new : α} (plain : marked new = false) :
    Scoped marked unmark owns [new] scopes := by
  obtain ⟨top, rest, rfl⟩ := List.exists_cons_of_ne_nil stack.ne_nil
  obtain ⟨rfl, gone⟩ := List.forall_mem_cons.mp stack.nothing
  exact bottom (by simpa using plain) nofun gone

/-- More cells next to the one on top. -/
theorem add (stack : Scoped marked unmark owns (c :: cells) scopes) {front : List α}
    (plain : ∀ u ∈ front, marked u = false) (among : c ∈ front) : Scoped marked unmark owns (front ++ cells) scopes := by
  have owned {upper : List α} {top : List β} (before : ∀ b ∈ top, ∃ u ∈ c :: upper, owns u b) :
      ∀ b ∈ top, ∃ u ∈ front ++ upper, owns u b := by
    intro b member
    obtain ⟨u, inside, owner⟩ := before b member
    rcases List.mem_cons.mp inside with rfl | inside
    · exact ⟨u, List.mem_append_left _ among, owner⟩
    · exact ⟨u, List.mem_append_right _ inside, owner⟩
  have unmarked {upper : List α} (before : ∀ u ∈ c :: upper, marked u = false) :
      ∀ u ∈ front ++ upper, marked u = false := by
    rw [List.forall_mem_append]
    exact ⟨plain, (List.forall_mem_cons.mp before).2⟩
  generalize all : c :: cells = cs at stack
  cases stack with
  | bottom before owners gone =>
    subst all
    exact bottom (unmarked before) (owned owners) gone
  | @above upper lower c' _ _ before owners nonempty mark inner =>
    obtain ⟨u, upper, rfl⟩ := List.exists_cons_of_ne_nil nonempty
    obtain ⟨rfl, rfl⟩ := List.cons.inj all
    have more : front ++ upper ≠ [] := List.append_ne_nil_of_left_ne_nil (List.ne_nil_of_mem among) upper
    simpa using above (unmarked before) (owned owners) more mark inner

/-- An item for a cell above the first mark. -/
theorem give {before behind : List α} {c' : α} (stack : Scoped marked unmark owns (before ++ c :: behind) (top :: scopes))
    (plain : ∀ u ∈ before, marked u = false) (here : marked c = false) (still : marked c' = false)
    (same : ∀ b, owns c b → owns c' b) {b : β} (owner : owns c' b) :
    Scoped marked unmark owns (before ++ c' :: behind) ((b :: top) :: scopes) := by
  have owned {upper : List α} (owners : ∀ b ∈ top, ∃ u ∈ before ++ c :: upper, owns u b) :
      ∀ b' ∈ b :: top, ∃ u ∈ before ++ c' :: upper, owns u b' := by
    intro b' member
    rcases List.mem_cons.mp member with rfl | member
    · exact ⟨c', by simp, owner⟩
    obtain ⟨u, inside, owner'⟩ := owners b' member
    rcases List.mem_append.mp inside with above | below
    · exact ⟨u, List.mem_append_left _ above, owner'⟩
    rcases List.mem_cons.mp below with rfl | below
    · exact ⟨c', by simp, same b' owner'⟩
    · exact ⟨u, by simp [below], owner'⟩
  have unmarked {upper : List α} (all : ∀ u ∈ before ++ c :: upper, marked u = false) :
      ∀ u ∈ before ++ c' :: upper, marked u = false := by
    rw [List.forall_mem_append, List.forall_mem_cons] at all ⊢
    exact ⟨all.1, still, all.2.2⟩
  generalize all : before ++ c :: behind = cs at stack
  cases stack with
  | bottom plain' owners gone =>
    subst all
    exact bottom (unmarked plain') (owned owners) gone
  | @above upper lower d _ _ plain' owners _ mark inner =>
    -- the mark is behind the cell
    have split : ∃ middle, upper = before ++ c :: middle ∧ behind = middle ++ d :: lower := by
      rcases List.append_eq_append_iff.mp all with ⟨middle, left, right⟩ | ⟨middle, left, right⟩
      · cases middle with
        | nil =>
          obtain ⟨rfl, _⟩ := List.cons.inj right
          rw [here] at mark
          cases mark
        | cons u middle =>
          obtain ⟨rfl, rfl⟩ := List.cons.inj right
          exact ⟨middle, left, rfl⟩
      · cases middle with
        | nil =>
          obtain ⟨rfl, _⟩ := List.cons.inj right
          rw [here] at mark
          cases mark
        | cons u middle =>
          obtain ⟨rfl, _⟩ := List.cons.inj right
          rw [plain d (by simp [left])] at mark
          cases mark
    obtain ⟨middle, rfl, rfl⟩ := split
    simpa using above (unmarked plain') (owned owners) (by simp) mark inner

/-- Opening a scope. -/
theorem push (stack : Scoped marked unmark owns (c :: cells) scopes) {new c' : α} (plain : marked new = false)
    (mark : marked c' = true) (same : unmark c' = c) : Scoped marked unmark owns (new :: c' :: cells) ([] :: scopes) := by
  have single : ∀ u ∈ [new], marked u = false := by simpa using plain
  exact @above _ _ _ _ _ [new] _ _ _ _ single nofun (List.cons_ne_nil new []) mark (same ▸ stack)

/-- Closing a scope drops the owners of its items. -/
theorem pop (stack : Scoped marked unmark owns cells (top :: scopes)) (some : scopes ≠ []) :
    Scoped marked unmark owns (close marked unmark cells) scopes ∧
      ∃ dropped kept, cells = dropped ++ kept ∧ close marked unmark cells = kept.modifyHead unmark ∧
        ∀ b ∈ top, ∃ c ∈ dropped, owns c b := by
  cases stack with
  | bottom plain owners gone =>
    rw [close_plain plain]
    exact ⟨empty scopes gone some, cells, [], (List.append_nil _).symm, rfl, owners⟩
  | @above upper lower c _ _ plain owners _ mark inner =>
    rw [close_append plain mark]
    exact ⟨inner, upper, c :: lower, rfl, rfl, owners⟩

/-- Every item has an owner. -/
theorem owner (stack : Scoped marked unmark owns cells scopes) (same : ∀ c b, owns (unmark c) b → owns c b) {b : β}
    (member : b ∈ scopes.flatten) : ∃ c ∈ cells, owns c b := by
  induction stack with
  | bottom _ owners gone =>
    rw [List.flatten_cons, List.mem_append] at member
    rcases member with here | outer
    · exact owners b here
    · obtain ⟨scope, among, inside⟩ := List.mem_flatten.mp outer
      rw [gone scope among] at inside
      cases inside
  | @above upper lower c _ _ _ owners _ _ _ ih =>
    rw [List.flatten_cons, List.mem_append] at member
    rcases member with here | outer
    · obtain ⟨u, inside, owner⟩ := owners b here
      exact ⟨u, List.mem_append_left _ inside, owner⟩
    obtain ⟨u, inside, owner⟩ := ih outer
    rcases List.mem_cons.mp inside with rfl | inside
    · exact ⟨c, by simp, same c b owner⟩
    · exact ⟨u, by simp [inside], owner⟩

end Scoped

end MarkedStack
