import Mathlib.Data.Set.Card
import Mathlib.SetTheory.Cardinal.NatCard
import Mathlib.Logic.Relation

/-!
# Linked lists and parent links

`Linked next prev p l q`: the two functions link the elements of `l` in its order, with `p`
before the first and `q` after the last. Taking an element out and putting one in are
changes at the ends of the two halves. `Acyclic parent` is kept by a new parent that is not
below the node.
-/

namespace LinkedForest

variable {α : Type*}

/-! ### Doubly linked lists -/

section

variable {next prev next' prev' : α → Option α} {p q : Option α} {l before after : List α}

def Linked (next prev : α → Option α) : Option α → List α → Option α → Prop
  | _, [], _ => True
  | p, c :: cs, q => prev c = p ∧ next c = cs.head?.or q ∧ Linked next prev (some c) cs q

/-- Each element leads to the next one, and the last one nowhere. -/
def Chained (next : α → Option α) : List α → Prop
  | [] => True
  | c :: cs => next c = cs.head? ∧ Chained next cs

theorem Linked.chained (linked : Linked next prev p l none) : Chained next l := by
  induction l generalizing p with
  | nil => trivial
  | cons c cs ih => exact ⟨by simpa using linked.2.1, ih linked.2.2⟩

theorem Chained.congr (chained : Chained next l) (same : ∀ c ∈ l, next' c = next c) : Chained next' l := by
  induction l with
  | nil => trivial
  | cons c cs ih =>
    rw [List.forall_mem_cons] at same
    exact ⟨same.1.trans chained.1, ih chained.2 same.2⟩

/-- The last element of a list is led to another list. -/
theorem Chained.append (first : Chained next l) (nodup : l.Nodup) {l' : List α} (second : Chained next' l')
    (same : ∀ c ∈ l, l.getLast? ≠ some c → next' c = next c)
    (last : ∀ c, l.getLast? = some c → next' c = l'.head?) : Chained next' (l ++ l') := by
  induction l with
  | nil => exact second
  | cons c cs ih =>
    obtain ⟨notLater, nodup⟩ := List.nodup_cons.mp nodup
    cases cs with
    | nil => exact ⟨last c rfl, second⟩
    | cons d ds =>
      have isLast : (c :: d :: ds).getLast? = (d :: ds).getLast? := by rw [List.getLast?_cons_cons]
      refine ⟨?_, ih first.2 nodup (fun e inside notLast => ?_) fun e last' => ?_⟩
      · rw [same c List.mem_cons_self, first.1]
        · rfl
        · rw [isLast]
          exact fun last => notLater (List.mem_of_getLast? last)
      · exact same e (List.mem_cons_of_mem c inside) (by rwa [isLast])
      · exact last e (by rwa [isLast])

theorem linked_append :
    Linked next prev p (before ++ after) q ↔
      Linked next prev p before (after.head?.or q) ∧
        Linked next prev (before.getLast?.or p) after q := by
  induction before generalizing p with
  | nil => simp [Linked]
  | cons c cs ih =>
    have last : (c :: cs).getLast?.or p = cs.getLast?.or (some c) := by
      cases cs <;> simp [List.getLast?_cons]
    rw [List.cons_append, Linked, Linked, ih, last]
    cases cs <;> simp [and_assoc]

theorem Linked.congr (linked : Linked next prev p l q)
    (nextSame : ∀ c ∈ l, next' c = next c) (prevSame : ∀ c ∈ l, prev' c = prev c) :
    Linked next' prev' p l q := by
  induction l generalizing p with
  | nil => trivial
  | cons c cs ih =>
    obtain ⟨prevLink, nextLink, rest⟩ := linked
    refine ⟨?_, ?_, ?_⟩
    · rw [prevSame c (by simp), prevLink]
    · rw [nextSame c (by simp), nextLink]
    · exact ih rest (fun d inside => nextSame d (by simp [inside]))
        (fun d inside => prevSame d (by simp [inside]))

/-- A new link after the last element. -/
theorem Linked.relinkEnd {q' : Option α} (linked : Linked next prev p l q) (nodup : l.Nodup)
    (nextLast : ∀ c, l.getLast? = some c → next' c = q')
    (nextSame : ∀ c ∈ l, l.getLast? ≠ some c → next' c = next c)
    (prevSame : ∀ c ∈ l, prev' c = prev c) : Linked next' prev' p l q' := by
  induction l generalizing p with
  | nil => trivial
  | cons c cs ih =>
    obtain ⟨prevLink, nextLink, rest⟩ := linked
    obtain ⟨notLater, nodup⟩ := List.nodup_cons.mp nodup
    match cs with
    | [] => exact ⟨by rw [prevSame c (by simp), prevLink], by simpa using nextLast c rfl, trivial⟩
    | d :: ds =>
      have last : (c :: d :: ds).getLast? = (d :: ds).getLast? := by simp [List.getLast?_cons_cons]
      have notLast : (c :: d :: ds).getLast? ≠ some c := by
        rw [last]
        intro same
        exact notLater (List.mem_of_getLast? same)
      refine ⟨by rw [prevSame c (by simp), prevLink], ?_, ?_⟩
      · rw [nextSame c (by simp) notLast, nextLink]
        rfl
      · refine ih rest nodup ?_ ?_ ?_
        · intro e isLast
          exact nextLast e (by rw [last, isLast])
        · intro e inside notLast
          exact nextSame e (List.mem_cons_of_mem c inside) (by rwa [last])
        · intro e inside
          exact prevSame e (List.mem_cons_of_mem c inside)

/-- A new link before the first element. -/
theorem Linked.relinkStart {p' : Option α} (linked : Linked next prev p l q) (nodup : l.Nodup)
    (prevFirst : ∀ c, l.head? = some c → prev' c = p')
    (prevSame : ∀ c ∈ l, l.head? ≠ some c → prev' c = prev c)
    (nextSame : ∀ c ∈ l, next' c = next c) : Linked next' prev' p' l q := by
  match l with
  | [] => trivial
  | c :: cs =>
    obtain ⟨prevLink, nextLink, rest⟩ := linked
    obtain ⟨notLater, nodup⟩ := List.nodup_cons.mp nodup
    refine ⟨prevFirst c rfl, by rw [nextSame c (by simp), nextLink], ?_⟩
    refine rest.congr (fun d inside => nextSame d (List.mem_cons_of_mem c inside)) ?_
    intro d inside
    refine prevSame d (List.mem_cons_of_mem c inside) ?_
    rintro ⟨⟩
    exact notLater inside

theorem Linked.at {c : α} (linked : Linked next prev none (before ++ c :: after) none) :
    prev c = before.getLast? ∧ next c = after.head? := by
  obtain ⟨_, prevLink, nextLink, _⟩ := linked_append.mp linked
  simp_all

theorem Linked.mem_of_transGen {a b : α}
    (linked : Linked next prev none (before ++ a :: after) none)
    (path : Relation.TransGen (fun c d => next c = some d) a b) : b ∈ after := by
  induction path with
  | single link =>
    rw [linked.at.2] at link
    exact List.mem_of_head? link
  | @tail c d _ link ih =>
    obtain ⟨left, right, rfl⟩ := List.mem_iff_append.mp ih
    have shifted : before ++ a :: (left ++ c :: right) = (before ++ a :: left) ++ c :: right := by
      simp
    rw [shifted] at linked
    rw [linked.at.2] at link
    exact List.mem_append_right _ (List.mem_cons_of_mem c (List.mem_of_head? link))

variable [DecidableEq α] {s : α}

/-- Take an element out: its neighbours are linked to each other. -/
theorem Linked.unlink (linked : Linked next prev none (before ++ s :: after) none)
    (nodup : (before ++ s :: after).Nodup) :
    Linked (fun c => if prev s = some c then next s else next c)
      (fun c => if next s = some c then prev s else prev c) none (before ++ after) none := by
  obtain ⟨prevLink, nextLink⟩ := linked.at
  obtain ⟨left, _, _, right⟩ := linked_append.mp linked
  obtain ⟨nodupLeft, nodupRight, apart⟩ := List.nodup_append.mp nodup
  rw [List.nodup_cons] at nodupRight
  rw [linked_append, prevLink, nextLink]
  constructor
  · refine left.relinkEnd nodupLeft ?_ ?_ ?_
    · intro c last
      simp [last]
    · intro c _ notLast
      simp [notLast]
    · intro c inside
      have notFirst : after.head? ≠ some c := fun first =>
        apart c inside c (List.mem_cons_of_mem s (List.mem_of_head? first)) rfl
      simp [notFirst]
  · refine right.relinkStart nodupRight.2 ?_ ?_ ?_
    · intro c first
      simp [first]
    · intro c _ notFirst
      simp [notFirst]
    · intro c inside
      have notLast : before.getLast? ≠ some c := fun last =>
        apart c (List.mem_of_getLast? last) c (List.mem_cons_of_mem s inside) rfl
      simp [notLast]

/-- Put an element in: it is linked to its neighbours, and they to it. -/
theorem Linked.insert (linked : Linked next prev none (before ++ after) none)
    (nodup : (before ++ s :: after).Nodup) :
    Linked
      (fun c => if c = s then after.head? else if before.getLast? = some c then some s else next c)
      (fun c => if c = s then before.getLast? else if after.head? = some c then some s else prev c)
      none (before ++ s :: after) none := by
  obtain ⟨left, right⟩ := linked_append.mp linked
  obtain ⟨nodupLeft, nodupRight, apart⟩ := List.nodup_append.mp nodup
  rw [List.nodup_cons] at nodupRight
  have notLeft : ∀ c ∈ before, c ≠ s := fun c inside => apart c inside s (List.mem_cons_self ..)
  have notRight : ∀ c ∈ after, c ≠ s := by
    rintro c inside rfl
    exact nodupRight.1 inside
  rw [linked_append]
  refine ⟨?_, by simp, by simp, ?_⟩
  · refine left.relinkEnd nodupLeft ?_ ?_ ?_
    · intro c last
      simp [last, notLeft c (List.mem_of_getLast? last)]
    · intro c inside notLast
      simp [notLast, notLeft c inside]
    · intro c inside
      have notFirst : after.head? ≠ some c := fun first =>
        apart c inside c (List.mem_cons_of_mem s (List.mem_of_head? first)) rfl
      simp [notFirst, notLeft c inside]
  · refine right.relinkStart nodupRight.2 ?_ ?_ ?_
    · intro c first
      simp [first, notRight c (List.mem_of_head? first)]
    · intro c inside notFirst
      simp [notFirst, notRight c inside]
    · intro c inside
      have notLast : before.getLast? ≠ some c := fun last =>
        apart c (List.mem_of_getLast? last) c (List.mem_cons_of_mem s inside) rfl
      simp [notLast, notRight c inside]

end

/-! ### Parents -/

section

variable {parent : α → Option α}

/-- `b` is the parent of `a`. -/
def ParentOf (parent : α → Option α) (a b : α) : Prop := parent a = some b

def Acyclic (parent : α → Option α) : Prop := ∀ a, ¬ Relation.TransGen (ParentOf parent) a a

theorem Acyclic.mono {parent' : α → Option α} (acyclic : Acyclic parent)
    (fewer : ∀ a b, parent' a = some b → parent a = some b) : Acyclic parent' :=
  fun a cycle => acyclic a (Relation.TransGen.mono fewer a a cycle)

/-- A path over the new link goes through the node and its new parent. -/
theorem transGen_update [DecidableEq α] {s p a b : α}
    (path : Relation.TransGen (ParentOf (Function.update parent s (some p))) a b) :
    Relation.TransGen (ParentOf parent) a b ∨
      Relation.ReflTransGen (ParentOf parent) a s ∧
        Relation.ReflTransGen (ParentOf parent) p b := by
  have old : ∀ {c d}, c ≠ s → ParentOf (Function.update parent s (some p)) c d →
      ParentOf parent c d := by
    intro c d other link
    rwa [ParentOf, Function.update_of_ne other] at link
  have new : ∀ {d}, ParentOf (Function.update parent s (some p)) s d → p = d := by
    intro d link
    rw [ParentOf, Function.update_self] at link
    exact Option.some.inj link
  induction path with
  | single link =>
    by_cases same : a = s
    · subst same
      obtain rfl := new link
      exact .inr ⟨.refl, .refl⟩
    · exact .inl (.single (old same link))
  | @tail c d path link ih =>
    by_cases same : c = s
    · subst same
      obtain rfl := new link
      refine .inr ⟨?_, .refl⟩
      rcases ih with direct | ⟨toNode, _⟩
      · exact direct.to_reflTransGen
      · exact toNode
    · rcases ih with direct | ⟨toNode, fromParent⟩
      · exact .inl (direct.tail (old same link))
      · exact .inr ⟨toNode, fromParent.tail (old same link)⟩

theorem Acyclic.update [DecidableEq α] (acyclic : Acyclic parent) {s p : α}
    (notBelow : ¬ Relation.ReflTransGen (ParentOf parent) p s) :
    Acyclic (Function.update parent s (some p)) := by
  intro a cycle
  rcases transGen_update cycle with direct | ⟨toNode, fromParent⟩
  · exact acyclic a direct
  · exact notBelow (fromParent.trans toNode)

/-- The number of nodes from a node up to its root. -/
noncomputable def depth (parent : α → Option α) (a : α) : Nat :=
  {b | Relation.ReflTransGen (ParentOf parent) a b}.ncard

theorem depth_le_card [Finite α] (parent : α → Option α) (a : α) :
    depth parent a ≤ Nat.card α := by
  rw [depth, ← Set.ncard_univ]
  exact Set.ncard_le_ncard (Set.subset_univ _)

theorem depth_pos [Finite α] (parent : α → Option α) (a : α) : 0 < depth parent a :=
  (Set.ncard_pos).mpr ⟨a, Relation.ReflTransGen.refl⟩

theorem Acyclic.depth_lt [Finite α] (acyclic : Acyclic parent) {a b : α}
    (link : parent a = some b) : depth parent b < depth parent a := by
  refine Set.ncard_lt_ncard ⟨?_, ?_⟩
  · intro c path
    exact Relation.ReflTransGen.head link path
  · intro all
    have back : Relation.ReflTransGen (ParentOf parent) b a := all Relation.ReflTransGen.refl
    exact acyclic a (Relation.TransGen.head' link back)

end

/-! ### Lists from links -/

section

variable {next prev : α → Option α} {p q : Option α} {l : List α}

/-- Every element of a list is reached from those before it. -/
theorem Linked.pairwise (linked : Linked next prev p l q) :
    l.Pairwise (Relation.TransGen (ParentOf next)) := by
  induction l generalizing p with
  | nil => exact .nil
  | cons c cs ih =>
    obtain ⟨_, nextLink, rest⟩ := linked
    have later := ih rest
    refine List.pairwise_cons.mpr ⟨fun d inside => ?_, later⟩
    cases cs with
    | nil => cases inside
    | cons e es =>
      have link : ParentOf next c e := nextLink
      rcases List.mem_cons.mp inside with rfl | inside
      · exact .single link
      · exact .head link ((List.pairwise_cons.mp later).1 d inside)

theorem Linked.nodup (linked : Linked next prev p l q) (acyclic : Acyclic next) : l.Nodup := by
  apply List.Pairwise.imp _ linked.pairwise
  rintro a _ path rfl
  exact acyclic a path

/-- The links back have no cycle either. -/
theorem Acyclic.inverse (acyclic : Acyclic next) (inverse : ∀ a b, next a = some b ↔ prev b = some a) :
    Acyclic prev := by
  intro a cycle
  apply acyclic a
  have swapped : Relation.TransGen (Function.swap (ParentOf prev)) a a := Relation.transGen_swap.mpr cycle
  exact Relation.TransGen.mono (fun b c link => (inverse b c).mpr link) a a swapped

/-- The links forward lead through a list. -/
theorem exists_linked [Finite α] (acyclic : Acyclic next)
    (inverse : ∀ a b, next a = some b ↔ prev b = some a) (c : α) :
    ∃ cs, Linked next prev (prev c) (c :: cs) none := by
  induction bound : depth next c using Nat.strong_induction_on generalizing c with
  | _ k ih =>
    cases link : next c with
    | none => exact ⟨[], rfl, link, trivial⟩
    | some d =>
      obtain ⟨ds, rest⟩ := ih (depth next d) (bound ▸ acyclic.depth_lt link) d rfl
      rw [(inverse c d).mp link] at rest
      exact ⟨d :: ds, rfl, link, rest⟩

end

end LinkedForest
