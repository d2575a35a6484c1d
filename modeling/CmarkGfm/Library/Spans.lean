import Mathlib.Data.List.Basic

/-!
# Spans

Cells in a line, some of which are covered by another: a cell with span 0 is covered by the last cell before
it that is not, the span of which counts the cells it covers and itself. A line is given from its end, so
that a cell is added at the front. A cell may be fixed: its span stays.
-/

namespace Spans

variable {α : Type} (span : α → Nat) (fixed : α → Bool)

/-- The last cell that is not covered grows. -/
def growLast (grow : α → α) : List α → List α
  | [] => []
  | a :: rest => if span a = 0 then a :: growLast grow rest else grow a :: rest

/-- A line of cells: blocks of a cell and those that it covers, behind cells with nothing to cover them. -/
inductive Tiled : List α → Prop where
  | bare {cells : List α} : (∀ c ∈ cells, span c = 0) → Tiled cells
  | block {covered rest : List α} {head : α} : (∀ c ∈ covered, span c = 0) →
      span head = (if fixed head then 1 else covered.length + 1) → Tiled rest → Tiled (covered ++ head :: rest)

variable {span fixed}

theorem growLast_of_covered {grow : α → α} {cells : List α} (covered : ∀ c ∈ cells, span c = 0) :
    growLast span grow cells = cells := by
  induction cells with
  | nil => rfl
  | cons a rest ih =>
    rw [growLast, if_pos (covered a List.mem_cons_self), ih fun c member => covered c (List.mem_cons_of_mem a member)]

theorem growLast_block {grow : α → α} {covered rest : List α} {head : α} (spans : ∀ c ∈ covered, span c = 0)
    (some : span head ≠ 0) :
    growLast span grow (covered ++ head :: rest) = covered ++ grow head :: rest := by
  induction covered with
  | nil => rw [List.nil_append, growLast, if_neg some, List.nil_append]
  | cons a covered ih =>
    rw [List.cons_append, growLast, if_pos (spans a List.mem_cons_self),
      ih fun c member => spans c (List.mem_cons_of_mem a member), List.cons_append]

theorem length_growLast (grow : α → α) (cells : List α) : (growLast span grow cells).length = cells.length := by
  induction cells with
  | nil => rfl
  | cons a rest ih =>
    rw [growLast]
    split
    next => rw [List.length_cons, List.length_cons, ih]
    next => rfl

/-- A cell that covers only itself. -/
theorem Tiled.single {cells : List α} {a : α} (tiled : Tiled span fixed cells) (one : span a = 1) :
    Tiled span fixed (a :: cells) := by
  have none : ∀ c ∈ ([] : List α), span c = 0 := by simp
  refine .block none ?_ tiled
  rw [one, List.length_nil, ite_self]

/-- A cell that is covered by the last that is not: the span of that one grows. -/
theorem Tiled.cover {grow : α → α} {cells : List α} {a : α} (tiled : Tiled span fixed cells) (none : span a = 0)
    (grows : ∀ c, span c ≠ 0 → span (grow c) = if fixed c then span c else span c + 1)
    (stays : ∀ c, fixed (grow c) = fixed c) : Tiled span fixed (a :: growLast span grow cells) := by
  cases tiled with
  | bare covered =>
    rw [growLast_of_covered covered]
    exact .bare (List.forall_mem_cons.mpr ⟨none, covered⟩)
  | @block covered rest head spans eq tiled =>
    have some : span head ≠ 0 := by
      rw [eq]
      split <;> omega
    rw [growLast_block spans some]
    have spans' : ∀ c ∈ a :: covered, span c = 0 := List.forall_mem_cons.mpr ⟨none, spans⟩
    refine .block spans' ?_ tiled
    rw [grows head some, stays, eq]
    split <;> rfl

/-- A line in its own order. -/
theorem Tiled.blocks {cells : List α} (tiled : Tiled span fixed cells) :
    ∃ (bare : List α) (blocks : List (α × List α)),
      cells.reverse = bare ++ blocks.flatMap (fun b => b.1 :: b.2) ∧ (∀ c ∈ bare, span c = 0) ∧
      ∀ b ∈ blocks, (∀ c ∈ b.2, span c = 0) ∧ span b.1 = if fixed b.1 then 1 else b.2.length + 1 := by
  induction tiled with
  | @bare cells covered => exact ⟨cells.reverse, [], by simp, by simpa using covered, by simp⟩
  | @block covered rest head spans eq _ ih =>
    obtain ⟨bare, blocks, same, bareSpans, each⟩ := ih
    refine ⟨bare, blocks ++ [(head, covered.reverse)], ?_, bareSpans, ?_⟩
    · simp [same, List.append_assoc]
    · intro b member
      rcases List.mem_append.mp member with old | new
      · exact each b old
      · rw [List.mem_singleton.mp new]
        simpa using ⟨spans, eq⟩

theorem map_eq_replicate {cells : List α} (spans : ∀ c ∈ cells, span c = 0) :
    cells.map span = List.replicate cells.length 0 := by
  rw [List.eq_replicate_iff]
  refine ⟨List.length_map span, ?_⟩
  intro n member
  obtain ⟨c, inCells, rfl⟩ := List.mem_map.mp member
  exact spans c inCells

/-- The spans of a line of which no cell is fixed. -/
theorem Tiled.map_span {cells : List α} (tiled : Tiled span (fun _ => false) cells) :
    ∃ (bare : Nat) (covered : List Nat),
      cells.reverse.map span = List.replicate bare 0 ++ covered.flatMap fun m => (m + 1) :: List.replicate m 0 := by
  obtain ⟨bare, blocks, same, bareSpans, each⟩ := tiled.blocks
  refine ⟨bare.length, blocks.map fun b => b.2.length, ?_⟩
  rw [same, List.map_append, map_eq_replicate bareSpans, List.map_flatMap, List.flatMap_map]
  congr 1
  apply List.flatMap_congr
  intro b member
  obtain ⟨spans, eq⟩ := each b member
  rw [List.map_cons, eq, map_eq_replicate spans]
  rfl

end Spans
