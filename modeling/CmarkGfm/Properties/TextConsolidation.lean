import CmarkGfm.Properties.SafeDeletion
import Mathlib.Data.List.SplitBy

/-!
# Merging text nodes while the iterator runs

The inner loop of `cmark_consolidate_text_nodes` takes the iterator over exactly the text nodes it
frees, so that the outer loop goes on behind the run.
-/

namespace CmarkGfm

open LinkedForest OrderedTree

namespace Heap

variable {n : Nat} {h : Heap n} {kids : Fin n → List (Fin n)}

def isText (h : Heap n) (a : Fin n) : Bool := (h.data a).type = .text

def literal (h : Heap n) (a : Fin n) : Bytes := (h.data a).as.getLiteral

/-- The longest runs of text nodes among siblings, and the other nodes one by one. -/
def textRuns (h : Heap n) (siblings : List (Fin n)) : List (List (Fin n)) :=
  siblings.splitBy fun a b => h.isText a && h.isText b

/-- The data of a text node that has taken up the text nodes behind it. -/
def mergedData (h : Heap n) (a : Fin n) (texts : List (Fin n)) : NodeData :=
  match texts.getLast? with
  | none => h.data a
  | some z =>
    { h.data a with
      as := .literal ((a :: texts).flatMap h.literal)
      endColumn := (h.data z).endColumn
      chunkPos := none }

/-- A text node behind another one. -/
def continues (h : Heap n) (a : Fin n) : Bool := h.isText a && (h.prev a).any h.isText

theorem isLeaf_of_isText {a : Fin n} (text : h.isText a = true) : h.isLeaf a = true := by
  rw [isText, decide_eq_true_eq] at text
  rw [isLeaf, text]
  rfl

theorem continues_of_split (rep : h.Represents kids) {p x : Fin n} (before : List (Fin n)) {after : List (Fin n)}
    (split : kids p = before ++ x :: after) : h.continues x = (h.isText x && before.getLast?.any h.isText) := by
  have linked := rep.linked p
  rw [split] at linked
  rw [continues, linked.at.1]

/-! ### Runs of siblings -/

theorem head_dropWhile {x : Fin n} {after : List (Fin n)} (next : (after.dropWhile h.isText).head? = some x) :
    h.isText x = false := by
  have other := List.head?_dropWhile_not h.isText after
  rw [next] at other
  exact other

theorem textRuns_text {a : Fin n} (text : h.isText a = true) (after : List (Fin n)) :
    h.textRuns (a :: after) = (a :: after.takeWhile h.isText) :: h.textRuns (after.dropWhile h.isText) := by
  have texts : ∀ x ∈ a :: after.takeWhile h.isText, h.isText x = true := by
    rw [List.forall_mem_cons]
    exact ⟨text, fun x inside => List.mem_takeWhile_imp inside⟩
  have run : (a :: after.takeWhile h.isText).IsChain fun x y => (h.isText x && h.isText y) = true := by
    apply List.Pairwise.isChain
    apply List.pairwise_of_forall_mem_list
    intro x first y second
    rw [texts x first, texts y second]
    rfl
  have both : a :: after = (a :: after.takeWhile h.isText) ++ after.dropWhile h.isText := by
    rw [List.cons_append, List.takeWhile_append_dropWhile]
  rw [textRuns, both, List.splitBy_append, List.splitBy_of_isChain (List.cons_ne_nil _ _) run]
  · rfl
  · intro x _ y next
    rw [head_dropWhile next, Bool.and_false]

theorem textRuns_other {a : Fin n} (other : h.isText a = false) (after : List (Fin n)) :
    h.textRuns (a :: after) = [a] :: h.textRuns after := by
  have alone := List.splitBy_append (r := fun a b => h.isText a && h.isText b) (l := [a]) (m := after)
  rw [textRuns]
  refine (alone fun x last y _ => ?_).trans rfl
  obtain rfl : x = a := by simpa using last.symm
  rw [other, Bool.false_and]

/-- The nodes of a run but the first continue it. -/
theorem continues_of_run (rep : h.Represents kids) {p a x : Fin n} {before : List (Fin n)} (run rest : List (Fin n))
    (split : kids p = before ++ a :: (run ++ rest)) (text : h.isText a = true)
    (texts : ∀ y ∈ run, h.isText y = true) (inside : x ∈ run) : h.continues x = true := by
  obtain ⟨first, last, rfl⟩ := List.mem_iff_append.mp inside
  have at' : kids p = (before ++ a :: first) ++ x :: (last ++ rest) := by simpa using split
  rw [continues_of_split rep (before ++ a :: first) at',
    texts x inside, Bool.true_and, List.getLast?_append_cons]
  cases isLast : (a :: first).getLast? with
  | none => cases List.getLast?_eq_none_iff.mp isLast
  | some z =>
    rcases List.mem_cons.mp (List.mem_of_getLast? isLast) with rfl | among
    · exact text
    · exact texts z (List.mem_append_left _ among)

/-- Of every run the first node does not continue it, and the others do. -/
theorem filter_continues (rep : h.Represents kids) {p : Fin n} (before : List (Fin n)) {after : List (Fin n)}
    (split : kids p = before ++ after) (starts : ∀ x ∈ after.head?, h.continues x = false) :
    (after.filter fun x => !h.continues x) = (h.textRuns after).filterMap List.head? ∧
      ∀ a texts, a :: texts ∈ h.textRuns after → h.continues a = false ∧
        ∃ before after, kids p = before ++ a :: after ∧
          texts = if h.isText a then after.takeWhile h.isText else [] := by
  induction size : after.length using Nat.strong_induction_on generalizing before after with
  | _ size ih =>
    match after with
    | [] => exact ⟨rfl, nofun⟩
    | a :: after =>
      subst size
      have first : h.continues a = false := starts a rfl
      cases text : h.isText a with
      | false =>
        have starts' : ∀ x ∈ after.head?, h.continues x = false := by
          intro x next
          cases after with
          | nil => cases next
          | cons y after =>
            cases next
            rw [continues_of_split rep (before ++ [a]) (by simpa using split)]
            simp [text]
        obtain ⟨kept, runs⟩ := ih after.length (Nat.lt_succ_self _) (before ++ [a]) (by simpa using split)
          starts' rfl
        rw [textRuns_other text]
        refine ⟨?_, fun b texts among => ?_⟩
        · rw [List.filter_cons_of_pos (by simp [first]), kept]
          rfl
        · rcases List.mem_cons.mp among with here | later
          · obtain ⟨rfl, rfl⟩ := List.cons.inj here
            exact ⟨first, before, after, split, by simp [text]⟩
          · exact runs b texts later
      | true =>
        have all : after.takeWhile h.isText ++ after.dropWhile h.isText = after := List.takeWhile_append_dropWhile
        have texts : ∀ x ∈ after.takeWhile h.isText, h.isText x = true := fun x => List.mem_takeWhile_imp
        have shorter : (after.dropWhile h.isText).length < (a :: after).length :=
          Nat.lt_succ_of_le (List.length_dropWhile_le _ _)
        have starts' : ∀ x ∈ (after.dropWhile h.isText).head?, h.continues x = false := by
          intro x next
          rw [continues, head_dropWhile next, Bool.false_and]
        obtain ⟨kept, runs⟩ := ih _ shorter (before ++ a :: after.takeWhile h.isText)
          (by simpa [all] using split) starts' rfl
        rw [textRuns_text text]
        refine ⟨?_, fun b texts among => ?_⟩
        · have gone : (after.takeWhile h.isText).filter (fun x => !h.continues x) = [] := by
            rw [List.filter_eq_nil_iff]
            intro x inside
            rw [continues_of_run rep _ _ (by rw [all]; exact split) text texts inside]
            decide
          rw [List.filter_cons_of_pos (by simp [first]), ← all, List.filter_append, gone, List.nil_append, kept, all]
          rfl
        · rcases List.mem_cons.mp among with here | later
          · obtain ⟨rfl, rfl⟩ := List.cons.inj here
            exact ⟨first, before, after, split, by rw [text]; rfl⟩
          · exact runs b texts later

end Heap

namespace Store

variable {n : Nat} {m : Store n} {h : Heap n} {kids : Fin n → List (Fin n)} {root : Fin n}

/-! ### The inner loop -/

theorem below_childless (orig : h.Represents kids) {x y : Fin n} (none : kids x = []) :
    Below h.parent y x ↔ y = x := by
  constructor
  · intro below
    rcases Relation.ReflTransGen.cases_tail below with same | ⟨c, _, link⟩
    · exact same.symm
    · have child := (orig.parent c x).mp link
      rw [none] at child
      cases child
  · rintro rfl
    exact .refl

/-- The iterator stands before a child that it is about to enter. -/
theorem follows_enter {p x : Fin n} {s : IterState n} {after : List (Fin n)} {l : List (Bool × Fin n)}
    (follows : h.Follows root (Heap.iterStart p (x :: after).head?) (l.map walkEvent) s)
    (goesOn : s.evType = .done) : ∃ l' s', l = (true, x) :: l' ∧ h.iterForward root .enter x = some s' ∧
      h.Follows root s' (l'.map walkEvent) s := by
  cases l with
  | nil =>
    cases follows
    cases goesOn
  | cons e l =>
    obtain ⟨start, s', forward, rest⟩ := follows_cons follows
    obtain ⟨entering, y⟩ := e
    cases entering with
    | false => cases start
    | true =>
      cases start
      exact ⟨l, s', rfl, forward, rest⟩

/-- A text node is not the root. -/
theorem exists_siblings (orig : h.Represents kids) (inner : h.isText root = false) {a : Fin n}
    (below : Below h.parent a root) (text : h.isText a = true) :
    ∃ p, ∃ before after : List (Fin n), kids p = before ++ a :: after ∧ h.next a = after.head? := by
  rcases below_iff.mp below with rfl | ⟨p, parent, _⟩
  · cases inner.symm.trans text
  · obtain ⟨before, after, split, _, sibling⟩ := orig.split parent
    exact ⟨p, before, after, split, sibling⟩

/-- Behind a text node comes its sibling, or else the end of its parent. -/
theorem after_text (orig : h.Represents kids) (inner : h.isText root = false) {p x : Fin n} {s : IterState n}
    {before after : List (Fin n)} (split : kids p = before ++ x :: after) (text : h.isText x = true)
    (forward : h.iterForward root .enter x = some s) :
    h.parent x = some p ∧ h.next x = after.head? ∧ s = Heap.iterStart p after.head? := by
  have parent : h.parent x = some p := by
    rw [orig.parent, split]
    simp
  have linked := orig.linked p
  rw [split] at linked
  have sibling : h.next x = after.head? := linked.at.2
  have notRoot : x ≠ root := by
    rintro rfl
    cases inner.symm.trans text
  have rolls := Heap.iterForward_last (h := h) root (e := (true, x)) (.inr (Heap.isLeaf_of_isText text))
  rw [Heap.iterAfter_child parent notRoot, sibling] at rolls
  exact ⟨parent, sibling, Option.some.inj (forward.symm.trans rolls)⟩

theorem Trimmed.next_text (trim : Trimmed h kids m) (orig : h.Represents kids) (inner : h.isText root = false)
    {p x : Fin n} {s : IterState n} {before after : List (Fin n)} (split : kids p = before ++ x :: after)
    (text : h.isText x = true) (forward : h.iterForward root .enter x = some s) (live : m.freed x = false)
    (stays : s.node.any m.freed = false) : m.heap.next x = after.head? := by
  obtain ⟨parent, sibling, rfl⟩ := after_text orig inner split text forward
  rw [trim.next orig live parent, sibling]
  rw [sibling]
  cases first : after.head? with
  | none => rfl
  | some y =>
    rw [first] at stays
    exact stays

/-- A text node has taken over the end of another one. -/
def takesEnd (m : Store n) (a x : Fin n) : Store n :=
  { m with heap := m.heap.setData a { m.heap.data a with endColumn := (m.heap.data x).endColumn } }

theorem mergeTexts_text {a x : Fin n} {fuel : Nat} {iter iter' : Iter n} {evType : EventType} {buf : Bytes} {m' : Store n}
    (live : m.freed x = false) (text : (m.heap.data x).type = .text) (next : m.iterNext iter = some (iter', evType))
    (done : (m.takesEnd a x).nodeFree x = some m') :
    mergeTexts a (fuel + 1) m iter buf (some x) =
      mergeTexts a fuel m' iter' (buf ++ (m.heap.data x).as.getLiteral) (m.heap.next x) := by
  rw [mergeTexts, if_neg (by rw [live]; decide), if_pos text, next]
  show (m.takesEnd a x).nodeFree x >>= _ = _
  rw [done]
  rfl

theorem Trimmed.takesEnd (trim : Trimmed h kids m) (a x : Fin n) : Trimmed h kids (m.takesEnd a x) := by
  apply trim.congr
  intro y
  by_cases same : y = a
  · subst same
    rw [Function.update_self]
    exact trim.type y
  · rw [Function.update_of_ne same]
    exact trim.type y

/-- The texts up to the next other node are put into the buffer and freed, and the iterator has gone on to
that node. -/
theorem mergeTexts_spec (orig : h.Represents kids) (childless : ∀ x, h.isLeaf x = true → kids x = [])
    (inner : h.isText root = false) {p a : Fin n} (before : List (Fin n)) {after : List (Fin n)}
    {l : List (Bool × Fin n)} (cur : IterState n) (buf : Bytes) {fuel : Nat} (trim : Trimmed h kids m) (split : kids p = before ++ after)
    (other : ∀ e ∈ l, e.2 ≠ a) (data : ∀ e ∈ l, m.heap.data e.2 = h.data e.2)
    (follows : h.Follows root (Heap.iterStart p after.head?) (l.map walkEvent) ⟨.done, none⟩)
    (apart : l.Pairwise fun e f => IsLast h.isLeaf e → ¬ Below h.parent f.2 e.2)
    (live : ∀ e ∈ l, m.freed e.2 = false) (enough : after.length ≤ fuel) :
    ∃ m' cur' rest,
      mergeTexts a fuel m ⟨root, cur, Heap.iterStart p after.head?⟩ buf after.head? =
        some (m', ⟨root, cur', Heap.iterStart p (after.dropWhile h.isText).head?⟩,
          buf ++ (after.takeWhile h.isText).flatMap h.literal) ∧
      Trimmed h kids m' ∧ l = (after.takeWhile h.isText).map (fun x => (true, x)) ++ rest ∧
      h.Follows root (Heap.iterStart p (after.dropWhile h.isText).head?) (rest.map walkEvent) ⟨.done, none⟩ ∧
      (∀ x, m'.freed x = true ↔ m.freed x = true ∨ x ∈ after.takeWhile h.isText) ∧
      m'.heap.data = Function.update m.heap.data a { m.heap.data a with
        endColumn := ((after.takeWhile h.isText).getLast?.map fun z => (h.data z).endColumn).getD
          (m.heap.data a).endColumn } := by
  induction after generalizing m before cur buf fuel l with
  | nil =>
    refine ⟨m, cur, l, ?_, trim, rfl, follows, by simp, ?_⟩
    · cases fuel <;> simp [mergeTexts]
    · exact (Function.update_eq_self a m.heap.data).symm
  | cons x after ih =>
    obtain ⟨fuel, rfl⟩ := Nat.exists_eq_succ_of_ne_zero (Nat.ne_of_gt (Nat.zero_lt_of_lt enough))
    obtain ⟨l, s, rfl, forward, follows'⟩ := follows_enter follows rfl
    rw [List.forall_mem_cons] at live
    rw [List.pairwise_cons] at apart
    cases text : h.isText x with
    | false =>
      have notText : ¬ (m.heap.data x).type = .text := by
        rw [trim.type]
        simpa [Heap.isText] using text
      rw [List.takeWhile_cons_of_neg (by simp [text]), List.dropWhile_cons_of_neg (by simp [text])]
      refine ⟨m, cur, (true, x) :: l, ?_, trim, rfl, follows, by simp, (Function.update_eq_self a m.heap.data).symm⟩
      rw [List.head?_cons, mergeTexts, if_neg (by rw [live.1]; decide), if_neg notText]
      simp
    | true =>
      have leaf := Heap.isLeaf_of_isText text
      obtain ⟨_, _, rfl⟩ := after_text orig inner split text forward
      have stays := follows_live follows' live.2
      have next := trim.iterNext orig cur (e := (true, x)) live.1 stays forward
      have nextX := trim.next_text orig inner split text forward live.1 stays
      obtain ⟨m', done, trim', data', freed'⟩ := (trim.takesEnd a x).nodeFree orig live.1
      have freed' : ∀ y, m'.freed y = true ↔ m.freed y = true ∨ y = x := by
        intro y
        rw [freed', below_childless orig (childless x leaf)]
        rfl
      rw [List.forall_mem_cons] at other data
      have kept : ∀ e ∈ l, m'.heap.data e.2 = h.data e.2 := by
        intro e later
        rw [data']
        exact (Function.update_of_ne (other.2 e later) _ _).trans (data.2 e later)
      have live' : ∀ e ∈ l, m'.freed e.2 = false := by
        intro e later
        rw [← Bool.not_eq_true, freed', not_or, live.2 e later]
        refine ⟨Bool.false_ne_true, fun same => apart.1 e later (.inr leaf) ?_⟩
        rw [same]
        exact .refl
      obtain ⟨m'', cur'', rest, merged, trim'', rfl, follows'', freed'', data''⟩ := ih
        (before ++ [x]) (walkEvent (true, x)) (buf ++ (m.heap.data x).as.getLiteral) trim'
        (by simpa using split) other.2 kept follows' apart.2 live' (Nat.le_of_succ_le_succ enough)
      rw [List.takeWhile_cons_of_pos text, List.dropWhile_cons_of_pos text]
      refine ⟨m'', cur'', rest, ?_, trim'', rfl, follows'', fun y => ?_, ?_⟩
      · have type : (m.heap.data x).type = .text := by
          rw [trim.type]
          simpa [Heap.isText] using text
        refine (mergeTexts_text live.1 type next done).trans ?_
        rw [nextX, merged, List.flatMap_cons, ← List.append_assoc, data.1]
        rfl
      · rw [freed'', freed', or_assoc, List.mem_cons]
      · have own : m'.heap.data = Function.update m.heap.data a
            { m.heap.data a with endColumn := (m.heap.data x).endColumn } := data'
        rw [data'', own, Function.update_self, Function.update_idem, List.getLast?_cons, data.1, Option.map_some,
          Option.getD_some, Option.getD_map]

/-! ### The outer loop -/

theorem Trimmed.nextIsText (trim : Trimmed h kids m) (orig : h.Represents kids) (inner : h.isText root = false)
    {p x : Fin n} {s : IterState n} {before after : List (Fin n)} (split : kids p = before ++ x :: after)
    (text : h.isText x = true) (forward : h.iterForward root .enter x = some s) (live : m.freed x = false)
    (stays : s.node.any m.freed = false) : m.nextIsText x = some (after.head?.any h.isText) := by
  rw [Store.nextIsText, trim.next_text orig inner split text forward live stays]
  obtain ⟨_, _, rfl⟩ := after_text orig inner split text forward
  cases next : after.head? with
  | none => rfl
  | some y =>
    rw [next] at stays
    have liveY : m.freed y = false := stays
    dsimp only
    rw [if_neg (by rw [liveY]; decide), trim.type]
    rfl

section

variable {iter iter' : Iter n} {evType : EventType} {a : Fin n} {fuel : Nat}

theorem consolidateFrom_skip (next : m.iterNext iter = some (iter', evType)) (goes : evType ≠ .done)
    (node : iter'.cur.node = some a)
    (skips : evType = .enter ∧ (m.heap.data a).type = .text → m.nextIsText a = some false) :
    consolidateFrom (fuel + 1) m iter = consolidateFrom fuel m iter' := by
  rw [consolidateFrom, next]
  cases evType with
  | done => exact absurd rfl goes
  | none | enter | exit =>
    dsimp only
    rw [node]
    dsimp only
    split
    next text =>
      rw [skips text]
      rfl
    next => rfl

theorem consolidateFrom_merge {m' : Store n} {iter'' : Iter n} {buf : Bytes}
    (next : m.iterNext iter = some (iter', .enter)) (node : iter'.cur.node = some a)
    (text : (m.heap.data a).type = .text) (nextText : m.nextIsText a = some true)
    (merged : mergeTexts a n m iter' (m.heap.data a).as.getLiteral (m.heap.next a) = some (m', iter'', buf)) :
    consolidateFrom (fuel + 1) m iter = consolidateFrom fuel { m' with
      heap := m'.heap.setData a { m'.heap.data a with as := .literal buf, chunkPos := none } } iter'' := by
  rw [consolidateFrom, next]
  dsimp only
  rw [node]
  dsimp only
  rw [if_pos ⟨rfl, text⟩, nextText]
  dsimp only [Option.bind_eq_bind, Option.bind_some]
  rw [if_pos rfl, merged]
  rfl

end

/-- The events that remain where the iterator stands. A run is not entered in the middle. -/
structure Ahead (h : Heap n) (root : Fin n) (s : IterState n) (l : List (Bool × Fin n)) : Prop where
  follows : h.Follows root s (l.map walkEvent) ⟨.done, none⟩
  apart : l.Pairwise fun e f => IsLast h.isLeaf e → ¬ Below h.parent f.2 e.2
  inner : ∀ x, (false, x) ∈ l → h.isLeaf x = false
  below : ∀ e ∈ l, Below h.parent e.2 root
  starts : ∀ x, s = ⟨.enter, some x⟩ → h.continues x = false

/-- The runs behind the iterator are merged, and those ahead are as they were. -/
structure Merging (h : Heap n) (kids : Fin n → List (Fin n)) (root : Fin n) (m : Store n)
    (l : List (Bool × Fin n)) : Prop where
  trim : Trimmed h kids m
  freed : ∀ x, m.freed x = true ↔ Below h.parent x root ∧ h.continues x = true ∧ ∀ e ∈ l, e.2 ≠ x
  same : ∀ x, (∃ e ∈ l, e.2 = x) ∨ ¬ Below h.parent x root ∨ h.isText x = false → m.heap.data x = h.data x
  merged : ∀ p before a after, kids p = before ++ a :: after → Below h.parent a root → h.isText a = true →
    h.continues a = false → (∀ e ∈ l, e.2 ≠ a) → m.heap.data a = h.mergedData a (after.takeWhile h.isText)

theorem Merging.live {l : List (Bool × Fin n)} (merging : Merging h kids root m l) {e : Bool × Fin n}
    (among : e ∈ l) : m.freed e.2 = false := by
  rw [← Bool.not_eq_true, merging.freed]
  exact fun gone => gone.2.2 e among rfl

theorem starts_forward (orig : h.Represents kids) {evType : EventType} {a : Fin n} {s : IterState n}
    (forward : h.iterForward root evType a = some s)
    (skips : h.isText a = true → (h.next a).any h.isText = false) (x : Fin n) (enters : s = ⟨.enter, some x⟩) :
    h.continues x = false := by
  subst enters
  unfold Heap.iterForward at forward
  split at forward
  next =>
    cases first : h.firstChild a with
    | none =>
      rw [first] at forward
      cases forward
    | some c =>
      rw [first] at forward
      cases forward
      rw [Heap.continues, (((orig.wellFormed).firstChild_iff a x).mp first).2]
      exact Bool.and_false _
  next =>
    unfold Heap.iterAfter at forward
    split at forward
    next => cases forward
    next =>
      cases next : h.next a with
      | none =>
        rw [next] at forward
        cases parent : h.parent a <;> rw [parent] at forward <;> cases forward
      | some y =>
        rw [next] at forward skips
        cases forward
        rw [Heap.continues, (orig.wellFormed.next_iff a x).mp next]
        cases text : h.isText a with
        | false => simp [text]
        | true =>
          have other : h.isText x = false := skips text
          rw [other, Bool.false_and]

/-- The node of the next event does not continue a run. -/
theorem Ahead.not_continues {e : Bool × Fin n} {l : List (Bool × Fin n)} (ahead : Ahead h root (walkEvent e) (e :: l)) :
    h.continues e.2 = false := by
  obtain ⟨entering, a⟩ := e
  cases entering with
  | true => exact ahead.starts a rfl
  | false =>
    cases text : h.isText a with
    | false => rw [Heap.continues, text, Bool.false_and]
    | true => cases (ahead.inner a List.mem_cons_self).symm.trans (Heap.isLeaf_of_isText text)

theorem Ahead.tail (orig : h.Represents kids) {e : Bool × Fin n} {s s' : IterState n} {l : List (Bool × Fin n)}
    (ahead : Ahead h root s (e :: l)) (forward : h.iterForward root (walkEvent e).evType e.2 = some s')
    (follows : h.Follows root s' (l.map walkEvent) ⟨.done, none⟩)
    (skips : h.isText e.2 = true → (h.next e.2).any h.isText = false) : Ahead h root s' l where
  follows := follows
  apart := (List.pairwise_cons.mp ahead.apart).2
  inner := fun x later => ahead.inner x (List.mem_cons_of_mem _ later)
  below := fun f later => ahead.below f (List.mem_cons_of_mem _ later)
  starts := starts_forward orig forward skips

/-- An event at which nothing is merged. -/
theorem Merging.skip (orig : h.Represents kids) {e : Bool × Fin n} {l : List (Bool × Fin n)}
    (merging : Merging h kids root m (e :: l)) (starts : h.continues e.2 = false)
    (skips : h.isText e.2 = true → (h.next e.2).any h.isText = false) : Merging h kids root m l where
  trim := merging.trim
  freed := by
    intro x
    rw [merging.freed, List.forall_mem_cons]
    constructor
    · rintro ⟨below, continues, _, later⟩
      exact ⟨below, continues, later⟩
    · rintro ⟨below, continues, later⟩
      refine ⟨below, continues, ?_, later⟩
      rintro rfl
      cases starts.symm.trans continues
  same := by
    intro x unchanged
    apply merging.same
    exact unchanged.imp_left fun ⟨f, later, same⟩ => ⟨f, List.mem_cons_of_mem _ later, same⟩
  merged := by
    intro p before a after split below text first left
    by_cases here : e.2 = a
    · subst here
      have linked := orig.linked p
      rw [split] at linked
      have alone := skips text
      rw [linked.at.2] at alone
      have none : after.takeWhile h.isText = [] := by
        cases after with
        | nil => rfl
        | cons y after => exact List.takeWhile_cons_of_neg (by simpa using alone)
      rw [none]
      exact merging.same e.2 (.inl ⟨e, List.mem_cons_self, rfl⟩)
    · exact merging.merged p before a after split below text first (List.forall_mem_cons.mpr ⟨here, left⟩)

theorem mergedData_eq {a : Fin n} {texts : List (Fin n)} (some : texts ≠ []) :
    h.mergedData a texts = { h.data a with
      as := .literal (h.literal a ++ texts.flatMap h.literal)
      endColumn := (texts.getLast?.map fun z => (h.data z).endColumn).getD (h.data a).endColumn
      chunkPos := none } := by
  rw [Heap.mergedData, List.getLast?_eq_some_getLast some]
  rfl

/-- The run is merged, and everything else stays. -/
theorem Merging.run (orig : h.Represents kids) {p a : Fin n} {before after : List (Fin n)} {rest : List (Bool × Fin n)}
    {m' : Store n} (ahead : Ahead h root (walkEvent (true, a))
      ((true, a) :: ((after.takeWhile h.isText).map (fun x => (true, x)) ++ rest)))
    (merging : Merging h kids root m ((true, a) :: ((after.takeWhile h.isText).map (fun x => (true, x)) ++ rest)))
    (split : kids p = before ++ a :: after) (text : h.isText a = true) (trim : Trimmed h kids m')
    (freed : ∀ x, m'.freed x = true ↔ m.freed x = true ∨ x ∈ after.takeWhile h.isText)
    (data : m'.heap.data = Function.update m.heap.data a (h.mergedData a (after.takeWhile h.isText))) :
    Merging h kids root m' rest := by
  have texts : ∀ x ∈ after.takeWhile h.isText, h.isText x = true := fun x => List.mem_takeWhile_imp
  have all : after.takeWhile h.isText ++ after.dropWhile h.isText = after := List.takeWhile_append_dropWhile
  have continues {x : Fin n} (inside : x ∈ after.takeWhile h.isText) : h.continues x = true :=
    Heap.continues_of_run orig _ _ (by rw [all]; exact split) text texts inside
  have first : h.continues a = false := ahead.not_continues
  have childA : h.parent a = some p := by
    rw [orig.parent, split]
    simp
  obtain ⟨behindA, apart⟩ := List.pairwise_cons.mp ahead.apart
  obtain ⟨_, _, apart⟩ := List.pairwise_append.mp apart
  have behind {x : Fin n} (inside : x ∈ after.takeWhile h.isText) : ∀ e ∈ rest, e.2 ≠ x := by
    rintro e later rfl
    have last : IsLast h.isLeaf (true, e.2) := .inr (Heap.isLeaf_of_isText (texts _ inside))
    exact apart (true, e.2) (List.mem_map.mpr ⟨e.2, inside, rfl⟩) e later last .refl
  have notA : ∀ e ∈ rest, e.2 ≠ a := by
    rintro e later rfl
    exact behindA e (List.mem_append_right _ later) (.inr (Heap.isLeaf_of_isText text)) .refl
  constructor
  case trim => exact trim
  case freed =>
    intro x
    rw [freed, merging.freed]
    constructor
    · rintro (⟨below, continues, later⟩ | inside)
      · refine ⟨below, continues, fun e later' => later e ?_⟩
        exact List.mem_cons_of_mem _ (List.mem_append_right _ later')
      · refine ⟨ahead.below (true, x) ?_, continues inside, behind inside⟩
        exact List.mem_cons_of_mem _ (List.mem_append_left _ (List.mem_map.mpr ⟨x, inside, rfl⟩))
    · rintro ⟨below, continues, later⟩
      by_cases inside : x ∈ after.takeWhile h.isText
      · exact .inr inside
      refine .inl ⟨below, continues, ?_⟩
      intro e among
      rcases List.mem_cons.mp among with rfl | among
      · rintro rfl
        cases first.symm.trans continues
      rcases List.mem_append.mp among with run | rest
      · obtain ⟨y, inRun, rfl⟩ := List.mem_map.mp run
        rintro rfl
        exact inside inRun
      · exact later e rest
  case same =>
    intro x unchanged
    have other : x ≠ a := by
      rintro rfl
      rcases unchanged with ⟨e, later, same⟩ | outside | notText
      · exact notA e later same
      · exact outside (ahead.below (true, x) List.mem_cons_self)
      · cases notText.symm.trans text
    rw [data, Function.update_of_ne other]
    apply merging.same
    exact unchanged.imp_left fun ⟨e, later, same⟩ => ⟨e, List.mem_cons_of_mem _ (List.mem_append_right _ later), same⟩
  case merged =>
    intro q before' b after' split' below' text' first' left
    by_cases here : b = a
    · subst here
      have same : q = p := by
        have child : h.parent b = some q := by
          rw [orig.parent, split']
          simp
        exact Option.some.inj (child.symm.trans childA)
      subst same
      have alone := orig.nodup q
      rw [split] at alone split'
      have once : b ∉ before ++ after := (List.nodup_cons.mp (List.nodup_middle.mp alone)).1
      rw [List.mem_append, not_or] at once
      obtain ⟨_, _, rfl⟩ := (List.append_cons_inj_of_notMem once.1 once.2).mp split'
      rw [data, Function.update_self]
    · rw [data, Function.update_of_ne here]
      refine merging.merged q before' b after' split' below' text' first' fun e among => ?_
      rcases List.mem_cons.mp among with rfl | among
      · exact fun same => here same.symm
      rcases List.mem_append.mp among with run | rest
      · obtain ⟨y, inRun, rfl⟩ := List.mem_map.mp run
        rintro rfl
        cases first'.symm.trans (continues inRun)
      · exact left e rest

/-- An event at which a run is merged. The iterator goes on behind the run. -/
theorem Merging.merge (orig : h.Represents kids) (childless : ∀ x, h.isLeaf x = true → kids x = [])
    (inner : h.isText root = false) {a : Fin n} {s : IterState n} {l : List (Bool × Fin n)}
    (ahead : Ahead h root (walkEvent (true, a)) ((true, a) :: l)) (merging : Merging h kids root m ((true, a) :: l))
    (forward : h.iterForward root .enter a = some s) (follows : h.Follows root s (l.map walkEvent) ⟨.done, none⟩)
    (text : h.isText a = true) (goesOn : (h.next a).any h.isText = true) :
    ∃ m' cur' s' l', l'.length ≤ l.length ∧
      (∀ cur fuel, consolidateFrom (fuel + 1) m ⟨root, cur, walkEvent (true, a)⟩ =
        consolidateFrom fuel m' ⟨root, cur', s'⟩) ∧ Ahead h root s' l' ∧ Merging h kids root m' l' := by
  have trim := merging.trim
  have own : m.heap.data a = h.data a := merging.same a (.inl ⟨(true, a), List.mem_cons_self, rfl⟩)
  have live : ∀ e ∈ l, m.freed e.2 = false := fun e later => merging.live (List.mem_cons_of_mem _ later)
  have liveA : m.freed a = false := merging.live (e := (true, a)) List.mem_cons_self
  have behind : ∀ e ∈ l, e.2 ≠ a := by
    intro e later same
    apply (List.pairwise_cons.mp ahead.apart).1 e later (.inr (Heap.isLeaf_of_isText text))
    rw [same]
    exact .refl
  have data : ∀ e ∈ l, m.heap.data e.2 = h.data e.2 := fun e later =>
    merging.same e.2 (.inl ⟨e, List.mem_cons_of_mem _ later, rfl⟩)
  -- the run
  obtain ⟨p, before, after, split, sibling⟩ := exists_siblings orig inner (ahead.below _ List.mem_cons_self) text
  obtain ⟨_, _, rfl⟩ := after_text orig inner split text forward
  rw [sibling] at goesOn
  have stays := follows_live follows live
  have nextA := trim.next_text orig inner split text forward liveA stays
  have short : after.length ≤ n := by
    have all := (orig.nodup p).length_le_card
    rw [split, Fintype.card_fin] at all
    simp only [List.length_append, List.length_cons] at all
    omega
  obtain ⟨m', cur', rest, merged, trim', rfl, follows', freed', data'⟩ := mergeTexts_spec orig childless inner
    (before ++ [a]) (walkEvent (true, a)) (m.heap.data a).as.getLiteral trim
    (by simpa using split) behind data follows (List.pairwise_cons.mp ahead.apart).2 live short
  have some : after.takeWhile h.isText ≠ [] := by
    cases after with
    | nil => cases goesOn
    | cons y after =>
      rw [List.takeWhile_cons_of_pos (show h.isText y = true from goesOn)]
      exact List.cons_ne_nil _ _
  let m'' : Store n := { m' with heap := m'.heap.setData a { m'.heap.data a with
    as := .literal ((m.heap.data a).as.getLiteral ++ (after.takeWhile h.isText).flatMap h.literal)
    chunkPos := none } }
  have data'' : m''.heap.data = Function.update m.heap.data a (h.mergedData a (after.takeWhile h.isText)) := by
    show Function.update m'.heap.data a _ = _
    rw [mergedData_eq some, data', Function.update_idem, Function.update_self, own]
    rfl
  have trim'' : Trimmed h kids m'' := by
    apply trim'.congr
    intro x
    show (m''.heap.data x).type = _
    rw [data'']
    by_cases here : x = a
    · subst here
      rw [Function.update_self, mergedData_eq some]
    · rw [Function.update_of_ne here]
      exact trim.type x
  have merging'' : Merging h kids root m'' rest := merging.run orig ahead split text trim'' freed' data''
  refine ⟨m'', cur', Heap.iterStart p (after.dropWhile h.isText).head?, rest, ?_, fun cur fuel => ?_, ?_, merging''⟩
  · rw [List.length_append]
    exact Nat.le_add_left _ _
  · have next := trim.iterNext orig cur (e := (true, a)) liveA stays forward
    have textM : (m.heap.data a).type = .text := by
      rw [trim.type]
      simpa [Heap.isText] using text
    have nextText := trim.nextIsText orig inner split text forward liveA stays
    rw [goesOn] at nextText
    exact consolidateFrom_merge next rfl textM nextText (by rw [nextA]; exact merged)
  · constructor
    case follows => exact follows'
    case apart =>
      obtain ⟨_, apart⟩ := List.pairwise_cons.mp ahead.apart
      exact (List.pairwise_append.mp apart).2.1
    case inner => exact fun x later => ahead.inner x (List.mem_cons_of_mem _ (List.mem_append_right _ later))
    case below => exact fun e later => ahead.below e (List.mem_cons_of_mem _ (List.mem_append_right _ later))
    case starts =>
      intro x enters
      cases next : (after.dropWhile h.isText).head? with
      | none =>
        rw [next] at enters
        cases enters
      | some y =>
        rw [next] at enters
        cases enters
        rw [Heap.continues, Heap.head_dropWhile next, Bool.false_and]

/-- The loop merges every run that is ahead. -/
theorem Merging.finish (orig : h.Represents kids) (childless : ∀ x, h.isLeaf x = true → kids x = [])
    (inner : h.isText root = false) {s : IterState n} {l : List (Bool × Fin n)} (ahead : Ahead h root s l)
    (merging : Merging h kids root m l) :
    ∃ m', (∀ cur, ∀ fuel > l.length, consolidateFrom fuel m ⟨root, cur, s⟩ = some m') ∧
      Merging h kids root m' [] := by
  induction size : l.length using Nat.strong_induction_on generalizing m l s with
  | _ size ih =>
    subst size
    match l with
    | [] =>
      cases ahead.follows
      refine ⟨m, fun cur fuel enough => ?_, merging⟩
      obtain ⟨fuel, rfl⟩ := Nat.exists_eq_succ_of_ne_zero (Nat.ne_of_gt enough)
      rfl
    | e :: l =>
      obtain ⟨rfl, s, forward, follows⟩ := follows_cons ahead.follows
      by_cases merges : h.isText e.2 = true ∧ (h.next e.2).any h.isText = true
      · obtain ⟨entering, a⟩ := e
        cases entering with
        | false => cases (ahead.inner a List.mem_cons_self).symm.trans (Heap.isLeaf_of_isText merges.1)
        | true =>
          obtain ⟨m', cur', s', l', shorter, step, ahead', merging'⟩ := merging.merge orig childless inner ahead
            forward follows merges.1 merges.2
          obtain ⟨m'', finish, merged⟩ := ih l'.length (Nat.lt_succ_of_le shorter) ahead' merging' rfl
          refine ⟨m'', fun cur fuel enough => ?_, merged⟩
          obtain ⟨fuel, rfl⟩ := Nat.exists_eq_succ_of_ne_zero (Nat.ne_of_gt (Nat.zero_lt_of_lt enough))
          rw [step]
          exact finish cur' fuel (Nat.lt_of_le_of_lt shorter (Nat.lt_of_succ_lt_succ enough))
      · have skips (text : h.isText e.2 = true) : (h.next e.2).any h.isText = false := by
          simpa [text] using merges
        have live := merging.live (e := e) List.mem_cons_self
        have stays := follows_live follows fun f later => merging.live (List.mem_cons_of_mem _ later)
        obtain ⟨m', finish, merged⟩ := ih l.length (Nat.lt_succ_self _) (ahead.tail orig forward follows skips)
          (merging.skip orig ahead.not_continues skips) rfl
        refine ⟨m', fun cur fuel enough => ?_, merged⟩
        obtain ⟨fuel, rfl⟩ := Nat.exists_eq_succ_of_ne_zero (Nat.ne_of_gt (Nat.zero_lt_of_lt enough))
        have next := merging.trim.iterNext orig cur live stays forward
        rw [consolidateFrom_skip next (Heap.evType_walkEvent e) rfl]
        · exact finish (walkEvent e) fuel (Nat.lt_of_succ_lt_succ enough)
        · rintro ⟨entering, type⟩
          obtain ⟨_ | _, a⟩ := e
          · cases entering
          have text : h.isText a = true := by
            rw [Heap.isText, ← merging.trim.type a]
            exact decide_eq_true type
          obtain ⟨p, before, after, split, sibling⟩ := exists_siblings orig inner
            (ahead.below _ List.mem_cons_self) text
          rw [merging.trim.nextIsText orig inner split text forward live stays, ← sibling, skips text]

/-! ### The whole call -/

theorem childless_kids (orig : h.Represents kids) (childless : ∀ x, h.isLeaf x = true → h.firstChild x = none) (x : Fin n)
    (leaf : h.isLeaf x = true) : kids x = [] := by
  rw [← List.head?_eq_none_iff, ← orig.first, childless x leaf]

/-- Before the call everything is ahead. -/
theorem merging_start (orig : h.Represents kids) (childless : ∀ x, h.isLeaf x = true → kids x = [])
    (t : OrderedTree (Fin n)) (unfolds : t.Unfolds kids) :
    Merging h kids t.root ⟨h, fun _ => false⟩ (t.walk h.isLeaf) := by
  have visited {x : Fin n} (below : Below h.parent x t.root) (left : ∀ e ∈ t.walk h.isLeaf, e.2 ≠ x) : False := by
    obtain ⟨e, among, same, _⟩ := exists_last childless t unfolds ((mem_nodes_iff orig.parent t unfolds).mpr below)
    exact left e among same
  constructor
  case trim => exact trimmed_self orig
  case freed =>
    intro x
    constructor
    · intro gone
      cases gone
    · rintro ⟨below, _, left⟩
      exact (visited below left).elim
  case same => exact fun _ _ => rfl
  case merged =>
    intro _ _ a _ _ below _ _ left
    exact (visited below left).elim

theorem ahead_start (orig : h.Represents kids) (t : OrderedTree (Fin n)) (unfolds : t.Unfolds kids)
    (inner : h.isText t.root = false) : Ahead h t.root ⟨.enter, some t.root⟩ (t.walk h.isLeaf) where
  follows := orig.follows t unfolds
  apart := pairwise_walk orig.parent h.isLeaf orig.acyclic orig.nodup t unfolds
  inner := fun _ left => inner_of_walk t left
  below := fun _ among => (mem_nodes_iff orig.parent t unfolds).mp (mem_walk t among)
  starts := by
    rintro x ⟨⟩
    rw [Heap.continues, inner, Bool.false_and]

/-- Where no run is left, nothing is written. -/
theorem consolidateFrom_same (rep : m.forest.Represents kids)
    {s : IterState n} {l : List (Bool × Fin n)} (follows : m.forest.Follows root s (l.map walkEvent) ⟨.done, none⟩)
    (live : ∀ e ∈ l, m.freed e.2 = false)
    (apart : ∀ e ∈ l, ∀ b, m.forest.next e.2 = some b → ¬ (m.heap.isText e.2 = true ∧ m.heap.isText b = true))
    (cur : IterState n) (fuel : Nat) (enough : l.length < fuel) :
    consolidateFrom fuel m ⟨root, cur, s⟩ = some m := by
  induction l generalizing s cur fuel with
  | nil =>
    obtain ⟨fuel, rfl⟩ := Nat.exists_eq_succ_of_ne_zero (Nat.ne_of_gt enough)
    cases follows
    rfl
  | cons e l ih =>
    obtain ⟨fuel, rfl⟩ := Nat.exists_eq_succ_of_ne_zero (Nat.ne_of_gt (Nat.zero_lt_of_lt enough))
    obtain ⟨rfl, s, forward, follows⟩ := follows_cons follows
    rw [List.forall_mem_cons] at live apart
    have next := (trimmed_forest rep).iterNext rep cur live.1 (follows_live follows live.2) forward
    rw [consolidateFrom_skip next (Heap.evType_walkEvent e) rfl]
    · exact ih follows live.2 apart.2 (walkEvent e) fuel (Nat.lt_of_succ_lt_succ enough)
    · rintro ⟨_, type⟩
      obtain ⟨link, _⟩ := forest_of_live live.1
      rw [nextIsText, ← link]
      cases next : m.forest.next e.2 with
      | none => rfl
      | some b =>
        obtain ⟨_, _, parent⟩ := (rep.of_next next).2
        have other : m.heap.isText b = false := by
          rw [← Bool.not_eq_true]
          exact fun text => apart.1 b next ⟨decide_eq_true type, text⟩
        dsimp only
        rw [live_of_parent parent, if_neg Bool.false_ne_true]
        exact congrArg some other

/-- What the runs of siblings have become: each its first node, with the literals of the whole run. -/
structure Consolidated (h h' : Heap n) (siblings siblings' : List (Fin n)) : Prop where
  nodes : siblings' = (h.textRuns siblings).filterMap List.head?
  data : ∀ a texts, a :: texts ∈ h.textRuns siblings → h'.data a = h.mergedData a texts

theorem Merging.consolidated (orig : h.Represents kids) (childless : ∀ x, h.isLeaf x = true → kids x = [])
    (merging : Merging h kids root m []) {p : Fin n} (below : Below h.parent p root) :
    Consolidated h m.heap (kids p) (if m.freed p then [] else (kids p).filter fun c => !m.freed c) := by
  have inside {c : Fin n} (child : c ∈ kids p) : Below h.parent c root := .head ((orig.parent c p).mpr child) below
  have starts : ∀ x ∈ (kids p).head?, h.continues x = false := by
    intro x first
    obtain ⟨after, split⟩ := List.head?_eq_some_iff.mp first
    rw [Heap.continues_of_split orig [] split]
    exact Bool.and_false _
  obtain ⟨kept, runs⟩ := Heap.filter_continues orig [] rfl starts
  constructor
  case nodes =>
    rw [← kept]
    split
    next gone =>
      obtain ⟨_, continues, _⟩ := (merging.freed p).mp gone
      have text : h.isText p = true := by
        rw [Heap.continues, Bool.and_eq_true] at continues
        exact continues.1
      rw [childless p (Heap.isLeaf_of_isText text)]
      rfl
    next =>
      apply List.filter_congr
      intro c child
      have freed := merging.freed c
      rw [Bool.eq_iff_iff, Bool.not_eq_true', Bool.not_eq_true', ← Bool.not_eq_true, ← Bool.not_eq_true, freed]
      simp [inside child]
  case data =>
    intro a texts among
    obtain ⟨first, before, after, split, rfl⟩ := runs a texts among
    have child : a ∈ kids p := by
      rw [split]
      simp
    cases text : h.isText a with
    | false => exact merging.same a (.inr (.inr text))
    | true => exact merging.merged p before a after split (inside child) text first nofun

theorem Merging.apart (orig : h.Represents kids) (inner : h.isText root = false) (merging : Merging h kids root m [])
    {a b : Fin n} (below : Below h.parent a root) (next : m.forest.next a = some b) :
    ¬ (m.heap.isText a = true ∧ m.heap.isText b = true) := by
  rintro ⟨textA, textB⟩
  rw [Heap.isText, merging.trim.type] at textA textB
  obtain ⟨p, parentA, parentB⟩ := (merging.trim.rep.of_next next).2
  have liveA := live_of_parent parentA
  have childA := (merging.trim.parent.mp parentA).1
  have childB := (merging.trim.parent.mp parentB).1
  obtain ⟨_, before, after, split, _, nextA⟩ := merging.trim.split orig liveA ((orig.parent a p).mpr childA)
  rw [← (forest_of_live liveA).1, next, List.head?_filter] at nextA
  obtain ⟨liveB, run, rest, rfl, gone⟩ := List.find?_eq_some_iff_append.mp nextA.symm
  -- what stood between them has been freed, so it was text as well
  have texts : ∀ x ∈ run ++ [b], h.isText x = true := by
    intro x among
    rcases List.mem_append.mp among with between | last
    · obtain ⟨_, continues, _⟩ := (merging.freed x).mp (by simpa using gone x between)
      rw [Heap.continues, Bool.and_eq_true] at continues
      exact continues.1
    · rw [List.mem_singleton.mp last]
      exact textB
  have continues : h.continues b = true := Heap.continues_of_run orig (run ++ [b]) rest
    (by simpa using split) textA texts (by simp)
  have inside : Below h.parent b root := by
    rcases below_iff.mp below with rfl | ⟨q, link, path⟩
    · cases inner.symm.trans textA
    · obtain rfl := Option.some.inj (link.symm.trans ((orig.parent a p).mpr childA))
      exact .head ((orig.parent b q).mpr childB) path
  rw [(merging.freed b).mpr ⟨inside, continues, nofun⟩] at liveB
  cases liveB

/-- Outside of the tree below the root, and at the root, nothing changes. -/
theorem Merging.outside (orig : h.Represents kids) (inner : h.isText root = false) (merging : Merging h kids root m [])
    {x : Fin n} (outside : ¬ Below h.parent x root) : m.freed x = false ∧ m.heap.data x = h.data x ∧
      ((kids x).filter fun c => !m.freed c) = kids x := by
  refine ⟨?_, merging.same x (.inr (.inl outside)), ?_⟩
  · rw [← Bool.not_eq_true, merging.freed]
    exact fun gone => outside gone.1
  · rw [List.filter_eq_self]
    intro c child
    rw [Bool.not_eq_true', ← Bool.not_eq_true, merging.freed]
    rintro ⟨below, continues, _⟩
    rcases below_iff.mp below with rfl | ⟨q, link, path⟩
    · rw [Heap.continues, inner] at continues
      cases continues
    · obtain rfl := Option.some.inj (link.symm.trans ((orig.parent c x).mpr child))
      exact outside path

theorem length_walk_lt (orig : h.Represents kids) {leaf : Fin n → Bool} {fuel : Nat} (enough : 2 * n < fuel)
    (t : OrderedTree (Fin n)) (unfolds : t.Unfolds kids) : (t.walk leaf).length < fuel := by
  have events := length_walk_le leaf t
  have nodes := (nodup_nodes orig.parent orig.acyclic orig.nodup t unfolds).length_le_card
  rw [Fintype.card_fin] at nodes
  omega

/-- The call merges the runs of text nodes below the root and leaves everything else alone, and a second call
changes nothing. -/
theorem consolidateTextNodes_spec {h : Heap n} (wellFormed : WellFormed h)
    (childless : ∀ x, h.isLeaf x = true → h.firstChild x = none) (root : Fin n) (inner : h.isLeaf root = false) :
    ∃ (m : Store n) (kids kids' : Fin n → List (Fin n)),
      (∀ fuel > 2 * n, consolidateTextNodes fuel ⟨h, fun _ => false⟩ root = some m ∧
        consolidateTextNodes fuel m root = some m) ∧
      h.Represents kids ∧ m.forest.Represents kids' ∧ WellFormed m.forest ∧
      (∀ a b, Below h.parent a root → m.forest.next a = some b → ¬ (m.heap.isText a = true ∧ m.heap.isText b = true)) ∧
      (∀ p, Below h.parent p root → Consolidated h m.heap (kids p) (kids' p)) ∧
      (∀ x, ¬ Below h.parent x root → m.freed x = false ∧ m.heap.data x = h.data x ∧ kids' x = kids x) ∧
      m.freed root = false ∧ m.heap.data root = h.data root := by
  obtain ⟨kids, orig⟩ := Heap.exists_represents wellFormed
  obtain ⟨t, rfl, unfolds⟩ := exists_unfolds orig.parent orig.acyclic root
  have none := childless_kids orig childless
  have notText : h.isText t.root = false := by
    rw [← Bool.not_eq_true]
    intro text
    cases inner.symm.trans (Heap.isLeaf_of_isText text)
  obtain ⟨m, first, merging⟩ := (merging_start orig none t unfolds).finish orig none notText
    (ahead_start orig t unfolds notText)
  have rep := merging.trim.rep
  have liveRoot : m.freed t.root = false := by
    rw [← Bool.not_eq_true, merging.freed, Heap.continues, notText]
    exact fun gone => Bool.false_ne_true gone.2.1
  refine ⟨m, kids, _, fun fuel enough => ⟨?_, ?_⟩, orig, rep, rep.wellFormed, ?_, ?_, ?_, liveRoot, ?_⟩
  · exact first _ fuel (length_walk_lt orig enough t unfolds)
  · obtain ⟨t', root, unfolds'⟩ := exists_unfolds rep.parent rep.acyclic t.root
    have below : ∀ e ∈ t'.walk m.forest.isLeaf, Below m.forest.parent e.2 t.root := by
      intro e among
      rw [← root]
      exact (mem_nodes_iff rep.parent t' unfolds').mp (mem_walk t' among)
    have live : ∀ e ∈ t'.walk m.forest.isLeaf, m.freed e.2 = false := fun e among =>
      live_of_below (below e among) liveRoot
    have follows := rep.follows t' unfolds'
    rw [root] at follows
    apply consolidateFrom_same rep follows live
    · intro e among b next
      exact merging.apart orig notText ((merging.trim.below orig).mp ⟨below e among, live e among⟩).1 next
    · exact length_walk_lt rep enough t' unfolds'
  · exact fun a b below next => merging.apart orig notText below next
  · exact fun p below => merging.consolidated orig none below
  · intro x outside
    obtain ⟨live, data, children⟩ := merging.outside orig notText outside
    rw [live, if_neg Bool.false_ne_true]
    exact ⟨rfl, data, children⟩
  · exact merging.same _ (.inr (.inr notText))

theorem consolidateTextNodes_twoTexts : ∃ (m : Store 3) (kids kids' : Fin 3 → List (Fin 3)),
    (∀ fuel > 2 * 3, consolidateTextNodes fuel ⟨Heap.twoTexts, fun _ => false⟩ 0 = some m ∧
      consolidateTextNodes fuel m 0 = some m) ∧
    Heap.twoTexts.Represents kids ∧ m.forest.Represents kids' ∧ WellFormed m.forest ∧
    (∀ a b, Below Heap.twoTexts.parent a 0 → m.forest.next a = some b →
      ¬ (m.heap.isText a = true ∧ m.heap.isText b = true)) ∧
    (∀ p, Below Heap.twoTexts.parent p 0 → Consolidated Heap.twoTexts m.heap (kids p) (kids' p)) ∧
    (∀ x, ¬ Below Heap.twoTexts.parent x 0 → m.freed x = false ∧ m.heap.data x = Heap.twoTexts.data x ∧
      kids' x = kids x) ∧
    m.freed 0 = false ∧ m.heap.data 0 = Heap.twoTexts.data 0 :=
  consolidateTextNodes_spec Heap.wellFormed_twoTexts (by decide) 0 (by decide)

/-- Two text nodes become one. -/
example : ((consolidateTextNodes 7 ⟨Heap.twoTexts, fun _ => false⟩ 0).map fun m =>
    (m.heap.firstChild 0, m.heap.next 1, m.heap.literal 1, m.freed 2)) = some (some 1, none, decimal 12, true) := by
  decide

end Store

end CmarkGfm
