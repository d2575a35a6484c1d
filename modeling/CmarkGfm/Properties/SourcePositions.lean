import CmarkGfm.Properties.BlockOptions
import CmarkGfm.Properties.DocumentTrees
import CmarkGfm.Properties.LineColumns

/-!
# Source positions and content

Two parsers that differ in `CMARK_OPT_SOURCEPOS` count the lines and columns of inlines differently
after a code span or raw HTML of several lines. The runs are compared without the places in the
source; only the literal of a footnote reference is cut with columns.
-/

namespace CmarkGfm

/-! ### Trees without places -/

/-- The data of a node without its place in the source. -/
def NodeData.withoutPlace (d : NodeData) : NodeData :=
  { d with startLine := 0, startColumn := 0, endLine := 0, endColumn := 0 }

theorem NodeData.type_eq {d d' : NodeData} (same : d'.withoutPlace = d.withoutPlace) :
    d'.type = d.type := by
  have types := congrArg NodeData.type same
  exact types

def Node.withoutPlaces (n : Node) : Node := n.mapData fun _ d => d.withoutPlace

def withoutPlaces (f : Forest) : Forest := mapDataList (fun _ d => d.withoutPlace) f

/-- The nodes differ in their places only. -/
def SameNode (n n' : Node) : Prop := n'.withoutPlaces = n.withoutPlaces

/-- The siblings differ in their places only. -/
def SameForest (f f' : Forest) : Prop := withoutPlaces f' = withoutPlaces f

theorem sameNode_mk {i : NodeId} {d d' : NodeData} {cs cs' : Forest} :
    SameNode (.mk i d cs) (.mk i d' cs') ↔ d'.withoutPlace = d.withoutPlace ∧ SameForest cs cs' := by
  simp [SameNode, SameForest, Node.withoutPlaces, Node.mapData, withoutPlaces]

namespace SameNode

variable {n n' : Node}

theorem refl (n : Node) : SameNode n n := rfl

theorem id_eq (same : SameNode n n') : n'.id = n.id := by
  have ids := congrArg Node.id same
  rwa [Node.withoutPlaces, Node.withoutPlaces, id_mapData, id_mapData] at ids

theorem data_eq (same : SameNode n n') : n'.data.withoutPlace = n.data.withoutPlace := by
  obtain ⟨i, d, cs⟩ := n
  obtain ⟨i', d', cs'⟩ := n'
  obtain rfl : i' = i := same.id_eq
  exact (sameNode_mk.mp same).1

theorem children (same : SameNode n n') : SameForest n.children n'.children := by
  obtain ⟨i, d, cs⟩ := n
  obtain ⟨i', d', cs'⟩ := n'
  obtain rfl : i' = i := same.id_eq
  exact (sameNode_mk.mp same).2

theorem setData {d d' : NodeData} (same : SameNode n n') (data : d'.withoutPlace = d.withoutPlace) :
    SameNode (n.setData d) (n'.setData d') := by
  have ids := same.id_eq
  have children := same.children
  obtain ⟨i, _, cs⟩ := n
  obtain ⟨i', _, cs'⟩ := n'
  obtain rfl : i' = i := ids
  exact sameNode_mk.mpr ⟨data, children⟩

theorem type_eq (same : SameNode n n') : n'.type = n.type := NodeData.type_eq same.data_eq

theorem literal_eq (same : SameNode n n') : n'.literal = n.literal :=
  congrArg (fun d => d.as.getLiteral) same.data_eq

end SameNode

namespace SameForest

variable {f f' g g' : Forest}

theorem refl (f : Forest) : SameForest f f := rfl

theorem cons {n n' : Node} (first : SameNode n n') (rest : SameForest f f') :
    SameForest (n :: f) (n' :: f') := by
  show mapDataList _ (n' :: f') = mapDataList _ (n :: f)
  rw [mapDataList, mapDataList]
  exact congrArg₂ List.cons first rest

theorem cases {n : Node} (same : SameForest (n :: f) f') :
    ∃ n' g, f' = n' :: g ∧ SameNode n n' ∧ SameForest f g := by
  cases f' with
  | nil => cases same
  | cons n' g =>
    obtain ⟨first, rest⟩ := List.cons.inj same
    exact ⟨n', g, rfl, first, rest⟩

theorem nil_eq (same : SameForest [] f') : f' = [] := by
  cases f' with
  | nil => rfl
  | cons n' g => cases same

theorem append (first : SameForest f f') (second : SameForest g g') :
    SameForest (f ++ g) (f' ++ g') := by
  rw [SameForest, withoutPlaces, withoutPlaces, mapDataList_append, mapDataList_append]
  exact congrArg₂ (· ++ ·) first second

theorem hasSibling_eq (same : SameForest f f') (i : NodeId) : hasSibling i f' = hasSibling i f := by
  rw [← hasSibling_mapDataList (fun _ d => d.withoutPlace) i f',
    ← hasSibling_mapDataList (fun _ d => d.withoutPlace) i f]
  exact congrArg (hasSibling i) same

theorem siblingsBefore (same : SameForest f f') (i : NodeId) :
    SameForest (siblingsBefore i f) (siblingsBefore i f') := by
  rw [SameForest, withoutPlaces, withoutPlaces, ← siblingsBefore_mapDataList,
    ← siblingsBefore_mapDataList]
  exact congrArg (CmarkGfm.siblingsBefore i) same

theorem siblingsFrom (same : SameForest f f') (i : NodeId) :
    SameForest (siblingsFrom i f) (siblingsFrom i f') := by
  rw [SameForest, withoutPlaces, withoutPlaces, ← siblingsFrom_mapDataList,
    ← siblingsFrom_mapDataList]
  exact congrArg (CmarkGfm.siblingsFrom i) same

theorem siblingsAfter (same : SameForest f f') (i : NodeId) :
    SameForest (siblingsAfter i f) (siblingsAfter i f') := by
  rw [SameForest, withoutPlaces, withoutPlaces, ← siblingsAfter_mapDataList,
    ← siblingsAfter_mapDataList]
  exact congrArg (CmarkGfm.siblingsAfter i) same

/-- Selecting siblings by their contents. -/
theorem filter {p : Node → Bool} (same : SameForest f f')
    (content : ∀ n n', SameNode n n' → p n' = p n) : SameForest (f.filter p) (f'.filter p) := by
  induction f generalizing f' with
  | nil => exact same.nil_eq ▸ .refl _
  | cons n f ih =>
    obtain ⟨n', g, rfl, first, rest⟩ := same.cases
    rw [List.filter_cons, List.filter_cons, content n n' first]
    split
    next => exact .cons first (ih rest)
    next => exact ih rest

theorem takeWhile {p : Node → Bool} (same : SameForest f f')
    (content : ∀ n n', SameNode n n' → p n' = p n) : SameForest (f.takeWhile p) (f'.takeWhile p) := by
  induction f generalizing f' with
  | nil => exact same.nil_eq ▸ .refl _
  | cons n f ih =>
    obtain ⟨n', g, rfl, first, rest⟩ := same.cases
    rw [List.takeWhile_cons, List.takeWhile_cons, content n n' first]
    split
    next => exact .cons first (ih rest)
    next => exact .refl _

theorem dropWhile {p : Node → Bool} (same : SameForest f f')
    (content : ∀ n n', SameNode n n' → p n' = p n) : SameForest (f.dropWhile p) (f'.dropWhile p) := by
  induction f generalizing f' with
  | nil => exact same.nil_eq ▸ .refl _
  | cons n f ih =>
    obtain ⟨n', g, rfl, first, rest⟩ := same.cases
    rw [List.dropWhile_cons, List.dropWhile_cons, content n n' first]
    split
    next => exact ih rest
    next => exact .cons first rest

theorem take_one (same : SameForest f f') : SameForest (f.take 1) (f'.take 1) := by
  cases f with
  | nil => exact same.nil_eq ▸ .refl _
  | cons n f =>
    obtain ⟨n', g, rfl, first, _⟩ := same.cases
    exact .cons first (.refl _)

/-- The data of a node found by its address. -/
theorem dataOf (same : SameForest f f') (i : NodeId) :
    (dataOf i f').withoutPlace = (dataOf i f).withoutPlace := by
  have found : (findNode? i f').map Node.withoutPlaces = (findNode? i f).map Node.withoutPlaces := by
    unfold Node.withoutPlaces
    rw [← findNode?_mapDataList, ← findNode?_mapDataList]
    exact congrArg (findNode? i) same
  rw [CmarkGfm.dataOf, CmarkGfm.dataOf]
  cases here : findNode? i f with
  | none =>
    rw [here, Option.map_none, Option.map_eq_none_iff] at found
    rw [found]
  | some n =>
    rw [here, Option.map_some, Option.map_eq_some_iff] at found
    obtain ⟨n', there, both⟩ := found
    rw [there]
    exact SameNode.data_eq (n := n) both

theorem getLiteral_dataOf (same : SameForest f f') (i : NodeId) :
    (CmarkGfm.dataOf i f').as.getLiteral = (CmarkGfm.dataOf i f).as.getLiteral :=
  congrArg (fun d => d.as.getLiteral) (same.dataOf i)

mutual

theorem editSiblings_node {i : NodeId} {h h' : Forest → Forest}
    (step : ∀ l l', SameForest l l' → SameForest (h l) (h' l')) : (n n' : Node) → SameNode n n' →
    SameNode (n.editSiblings i h) (n'.editSiblings i h')
  | .mk j d cs, .mk j' d' cs', same => by
    obtain rfl : j' = j := same.id_eq
    obtain ⟨data, children⟩ := sameNode_mk.mp same
    rw [Node.editSiblings, Node.editSiblings, sameNode_mk, children.hasSibling_eq]
    refine ⟨data, ?_⟩
    split
    next => exact step cs cs' children
    next => exact editSiblingsList step cs cs' children

theorem editSiblingsList {i : NodeId} {h h' : Forest → Forest}
    (step : ∀ l l', SameForest l l' → SameForest (h l) (h' l')) : (f f' : Forest) →
    SameForest f f' → SameForest (editSiblingsList i h f) (editSiblingsList i h' f')
  | [], _, same => by
    rw [same.nil_eq]
    exact .refl _
  | n :: f, _, same => by
    obtain ⟨n', g, rfl, first, rest⟩ := same.cases
    exact .cons (editSiblings_node step n n' first) (editSiblingsList step f g rest)

end

theorem editSiblings {i : NodeId} {h h' : Forest → Forest} (same : SameForest f f')
    (step : ∀ l l', SameForest l l' → SameForest (h l) (h' l')) :
    SameForest (editSiblings i h f) (editSiblings i h' f') := by
  rw [CmarkGfm.editSiblings, CmarkGfm.editSiblings, same.hasSibling_eq]
  split
  next => exact step f f' same
  next => exact editSiblingsList step f f' same

theorem editData {i : NodeId} {g g' : NodeData → NodeData} (same : SameForest f f')
    (step : ∀ d d', d'.withoutPlace = d.withoutPlace → (g' d').withoutPlace = (g d).withoutPlace) :
    SameForest (editData i g f) (editData i g' f') := by
  refine same.editSiblings fun l => ?_
  induction l with
  | nil =>
    intro l' same
    rw [same.nil_eq]
    exact .refl _
  | cons n l ih =>
    intro l' same
    obtain ⟨n', l', rfl, first, rest⟩ := same.cases
    refine .cons ?_ (ih l' rest)
    dsimp only
    rw [first.id_eq]
    split
    next => exact first.setData (step n.data n'.data first.data_eq)
    next => exact first

theorem freeNode (same : SameForest f f') (i : NodeId) : SameForest (freeNode i f) (freeNode i f') :=
  same.editSiblings fun _ _ same => same.filter fun _ _ both => by rw [both.id_eq]

end SameForest

/-! ### States without places -/

/-- The state with other places. -/
def Subject.moved (subj : Subject) (line columnOffset : Int) (children : Forest) : Subject :=
  { subj with line := line, columnOffset := columnOffset, children := children }

/-- The states differ in places only. -/
def SameContent (subj subj' : Subject) : Prop :=
  ∃ line columnOffset children, subj' = subj.moved line columnOffset children ∧
    SameForest subj.children children

/-- So do the states and the nodes that were made. -/
def SameMade (r r' : Subject × Node) : Prop := SameContent r.1 r'.1 ∧ SameNode r.2 r'.2

theorem SameContent.appendChild {subj subj' : Subject} {n n' : Node} (same : SameContent subj subj')
    (node : SameNode n n') : SameContent (subj.appendChild n) (subj'.appendChild n') := by
  obtain ⟨line, columnOffset, children, rfl, same⟩ := same
  exact ⟨line, columnOffset, children ++ [n'], rfl, same.append (.cons node (.refl _))⟩

/-- Counting the lines of a node moves it and what follows. -/
theorem adjustNodeNewlines_eq (options : Options) (subj : Subject) (node : Node) (matchlen extra : Nat) :
    ∃ line columnOffset d, d.withoutPlace = node.data.withoutPlace ∧
      subj.adjustNodeNewlines options node matchlen extra =
        (subj.moved line columnOffset subj.children, node.setData d) := by
  have unchanged : (subj, node) = (subj.moved subj.line subj.columnOffset subj.children,
      node.setData node.data) := by
    cases node
    rfl
  unfold Subject.adjustNodeNewlines
  split
  next => exact ⟨_, _, _, rfl, unchanged⟩
  next =>
    dsimp only
    split
    next => exact ⟨_, _, _, rfl, unchanged⟩
    next => exact ⟨_, _, { node.data with
        endLine := node.data.endLine + (countNewlines _).1, endColumn := (countNewlines _).2 }, rfl, rfl⟩

theorem SameMade.adjustNodeNewlines {r r' : Subject × Node} (same : SameMade r r')
    (options options' : Options) (matchlen extra : Nat) :
    SameMade (r.1.adjustNodeNewlines options r.2 matchlen extra)
      (r'.1.adjustNodeNewlines options' r'.2 matchlen extra) := by
  obtain ⟨⟨line, columnOffset, children, moved, same⟩, node⟩ := same
  obtain ⟨line₁, columnOffset₁, d₁, data₁, result₁⟩ :=
    adjustNodeNewlines_eq options r.1 r.2 matchlen extra
  obtain ⟨line₂, columnOffset₂, d₂, data₂, result₂⟩ :=
    adjustNodeNewlines_eq options' r'.1 r'.2 matchlen extra
  rw [result₁, result₂, moved]
  refine ⟨⟨line₂, columnOffset₂, children, rfl, same⟩, ?_⟩
  exact node.setData (data₂.trans (node.data_eq.trans data₁.symm))

theorem SameMade.ite {c : Prop} [Decidable c] {a b a' b' : Subject × Node} (holds : c → SameMade a a')
    (fails : ¬ c → SameMade b b') : SameMade (if c then a else b) (if c then a' else b') := by
  split
  next h => exact holds h
  next h => exact fails h

/-! ### One node after the other -/

section

variable {subj subj' : Subject} (same : SameContent subj subj')

include same

theorem same_makeStrAt (a b : Int) (pos : Nat) (s : Bytes) :
    SameMade (subj.makeStrAt a b pos s) (subj'.makeStrAt a b pos s) := by
  obtain ⟨line, columnOffset, children, rfl, same⟩ := same
  exact ⟨⟨_, _, _, rfl, same⟩, rfl⟩

theorem same_makeStr (a b : Int) (s : Bytes) : SameMade (subj.makeStr a b s) (subj'.makeStr a b s) := by
  obtain ⟨line, columnOffset, children, rfl, same⟩ := same
  exact ⟨⟨_, _, _, rfl, same⟩, rfl⟩

theorem same_setPos (pos : Nat) : SameContent { subj with pos := pos } { subj' with pos := pos } := by
  obtain ⟨line, columnOffset, children, rfl, same⟩ := same
  exact ⟨line, columnOffset, children, rfl, same⟩

theorem same_handleHyphen (smart : Bool) :
    SameMade (handleHyphen smart subj) (handleHyphen smart subj') := by
  obtain ⟨line, columnOffset, children, rfl, same⟩ := same
  exact .ite (fun _ => ⟨⟨_, _, _, rfl, same⟩, rfl⟩) fun _ => ⟨⟨_, _, _, rfl, same⟩, rfl⟩

theorem same_handlePeriod (smart : Bool) :
    SameMade (handlePeriod smart subj) (handlePeriod smart subj') := by
  obtain ⟨line, columnOffset, children, rfl, same⟩ := same
  refine .ite (fun _ => .ite (fun _ => ?_) fun _ => ?_) fun _ => ?_
  all_goals exact ⟨⟨_, _, _, rfl, same⟩, rfl⟩

theorem same_handleBackslash (chars : CharTables) :
    SameMade (handleBackslash chars subj) (handleBackslash chars subj') := by
  obtain ⟨line, columnOffset, children, rfl, same⟩ := same
  refine .ite (fun _ => ⟨⟨_, _, _, rfl, same⟩, rfl⟩) fun _ => ?_
  have lineEnd : (if ((subj.moved line columnOffset children).advance 1).isEof then none
      else skipLineEnd ((subj.moved line columnOffset children).advance 1).input
        ((subj.moved line columnOffset children).advance 1).pos) =
      if (subj.advance 1).isEof then none
        else skipLineEnd (subj.advance 1).input (subj.advance 1).pos := rfl
  rw [lineEnd]
  generalize (if (subj.advance 1).isEof then none
    else skipLineEnd (subj.advance 1).input (subj.advance 1).pos) = found
  cases found with
  | none => exact ⟨⟨_, _, _, rfl, same⟩, rfl⟩
  | some pos => exact ⟨⟨_, _, _, rfl, same⟩, rfl⟩

theorem same_handleEntity (T : Tables) : SameMade (handleEntity T subj) (handleEntity T subj') := by
  obtain ⟨line, columnOffset, children, rfl, same⟩ := same
  unfold handleEntity
  dsimp only [Subject.moved, Subject.advance]
  generalize unescapeEnt T (subj.input.drop (subj.pos + 1)) = found
  cases found with
  | none => exact ⟨⟨_, _, _, rfl, same⟩, rfl⟩
  | some ent => exact ⟨⟨_, _, _, rfl, same⟩, rfl⟩

theorem same_handleNewline : SameMade (handleNewline subj) (handleNewline subj') := by
  obtain ⟨line, columnOffset, children, rfl, same⟩ := same
  exact .ite (fun _ => ⟨⟨_, _, _, rfl, same⟩, rfl⟩) fun _ => ⟨⟨_, _, _, rfl, same⟩, rfl⟩

omit same in
theorem scanToClosingBackticks_moved (line columnOffset : Int) (children : Forest)
    (openticklength : Nat) :
    scanToClosingBackticks (subj.moved line columnOffset children) openticklength =
      ((scanToClosingBackticks subj openticklength).1.moved line columnOffset children,
        (scanToClosingBackticks subj openticklength).2) := by
  unfold scanToClosingBackticks Subject.moved
  dsimp only
  generalize scanClosingRuns subj.input openticklength (subj.input.length + 1) subj.pos
    subj.backticks = r
  obtain ⟨found, backticks⟩ := r
  cases found <;> split_ifs <;> rfl

theorem same_handleBackticks (options options' : Options) :
    SameMade (handleBackticks options subj) (handleBackticks options' subj') := by
  obtain ⟨line, columnOffset, children, rfl, same⟩ := same
  unfold handleBackticks
  extract_lets initpos startpos openticks initpos' startpos' openticks'
  have scanned := @scanToClosingBackticks_moved { subj with pos := startpos } line columnOffset
    children openticks
  have kept := sameStacks_scanToClosingBackticks { subj with pos := startpos } openticks
  change scanToClosingBackticks { subj.moved line columnOffset children with pos := startpos' }
    openticks' = _ at scanned
  rw [scanned]
  generalize scanToClosingBackticks { subj with pos := startpos } openticks = r at kept ⊢
  obtain ⟨next, closing⟩ := r
  have content : SameContent next (next.moved line columnOffset children) :=
    ⟨_, _, _, rfl, kept.children ▸ same⟩
  cases closing with
  | none => exact same_makeStrAt content _ _ _ _
  | some endpos =>
    refine @SameMade.adjustNodeNewlines (_, _) (_, _) ⟨?_, ?_⟩ options options' _ _
    · exact ⟨line, columnOffset, children, rfl, kept.children ▸ same⟩
    · rfl

theorem same_makeRawHtml (options options' : Options) (matchlen : Nat) :
    SameMade (makeRawHtml options subj matchlen) (makeRawHtml options' subj' matchlen) := by
  obtain ⟨line, columnOffset, children, rfl, same⟩ := same
  refine @SameMade.adjustNodeNewlines (_, _) (_, _) ⟨?_, ?_⟩ options options' matchlen 1
  · exact ⟨line, columnOffset, children, rfl, same⟩
  · rfl

omit same in
theorem scanHtml_moved (line columnOffset : Int) (children : Forest) :
    scanHtml (subj.moved line columnOffset children) =
      ((scanHtml subj).1.moved line columnOffset children, (scanHtml subj).2) := by
  unfold scanHtml Subject.moved
  dsimp only
  split_ifs <;> rfl

theorem same_handlePointyBrace {T : Tables} {options options' : Options}
    (liberal : options'.has optLiberalHtmlTag = options.has optLiberalHtmlTag) :
    SameMade (handlePointyBrace ⟨T, options, []⟩ subj) (handlePointyBrace ⟨T, options', []⟩ subj') := by
  obtain ⟨line, columnOffset, children, rfl, same⟩ := same
  have autolink : ∀ n (a b : Int) url isEmail, SameMade (((subj.advance 1).advance n).makeAutolink T a b url isEmail)
      ((((subj.moved line columnOffset children).advance 1).advance n).makeAutolink T a b url isEmail) :=
    fun n a b url isEmail => ⟨⟨_, _, _, rfl, same⟩, rfl⟩
  refine .ite (fun _ => autolink ..) fun _ => .ite (fun _ => autolink ..) fun _ => ?_
  have scanned := @scanHtml_moved (subj.advance 1) line columnOffset children
  change scanHtml ((subj.moved line columnOffset children).advance 1) = _ at scanned
  have kept := sameStacks_scanHtml (subj.advance 1)
  rw [scanned]
  generalize scanHtml (subj.advance 1) = r at kept ⊢
  obtain ⟨next, matchlen⟩ := r
  have content : SameContent next (next.moved line columnOffset children) :=
    ⟨_, _, _, rfl, kept.children ▸ same⟩
  refine .ite (fun _ => same_makeRawHtml content options options' matchlen) fun _ => ?_
  have length : (if (Config.mk T options' []).options.has optLiberalHtmlTag then
        Scanners.scanAt Scanners.liberalHtmlTag (next.moved line columnOffset children).input
          (next.moved line columnOffset children).pos else 0) =
      if (Config.mk T options []).options.has optLiberalHtmlTag then
        Scanners.scanAt Scanners.liberalHtmlTag next.input next.pos else 0 := by
    dsimp only
    rw [liberal]
    rfl
  rw [length]
  exact .ite (fun _ => same_makeRawHtml content options options' _) fun _ => same_makeStr content _ _ _

theorem same_pushDelimiter {n n' : Node} (node : SameNode n n') (c : UInt8) (canOpen canClose : Bool) :
    SameContent (pushDelimiter subj c canOpen canClose n) (pushDelimiter subj' c canOpen canClose n') := by
  obtain ⟨line, columnOffset, children, rfl, same⟩ := same
  unfold pushDelimiter
  rw [node.id_eq, node.literal_eq]
  exact ⟨line, columnOffset, children, rfl, same⟩

theorem same_handleDelim (chars : CharTables) (smart : Bool) (c : UInt8) :
    SameMade (handleDelim chars smart subj c) (handleDelim chars smart subj' c) := by
  obtain ⟨line, columnOffset, children, rfl, same⟩ := same
  unfold handleDelim
  have scanned : scanDelims chars (subj.moved line columnOffset children).input
      (subj.moved line columnOffset children).pos c = scanDelims chars subj.input subj.pos c := rfl
  rw [scanned]
  generalize scanDelims chars subj.input subj.pos c = run
  obtain ⟨numdelims, canOpen, canClose⟩ := run
  dsimp -zeta only
  extract_lets start next stop start' next' stop'
  have content : SameContent next next' := ⟨line, columnOffset, children, rfl, same⟩
  have text : SameMade
      (if c == chr '\'' && smart then next.makeStr start stop rightSingleQuote
        else if c == chr '"' && smart then
          next.makeStr start stop (if canClose then rightDoubleQuote else leftDoubleQuote)
        else next.makeStrAt start stop start (chunkDup next.input start numdelims))
      (if c == chr '\'' && smart then next'.makeStr start' stop' rightSingleQuote
        else if c == chr '"' && smart then
          next'.makeStr start' stop' (if canClose then rightDoubleQuote else leftDoubleQuote)
        else next'.makeStrAt start' stop' start' (chunkDup next'.input start' numdelims)) :=
    .ite (fun _ => same_makeStr content ..) fun _ =>
      .ite (fun _ => same_makeStr content ..) fun _ => same_makeStrAt content ..
  generalize (if c == chr '\'' && smart then next.makeStr start stop rightSingleQuote else _) = r
    at text ⊢
  generalize (if c == chr '\'' && smart then next'.makeStr start' stop' rightSingleQuote else _) = r'
    at text ⊢
  exact .ite (fun _ => ⟨same_pushDelimiter text.1 text.2 c canOpen canClose, text.2⟩) fun _ => text

theorem same_makeText {T : Tables} {options options' : Options} (chars : CharTables)
    (smart : options'.has optSmart = options.has optSmart)
    (preserve : options'.has optPreserveWhitespace = options.has optPreserveWhitespace) :
    SameMade (makeText ⟨T, options, []⟩ chars subj) (makeText ⟨T, options', []⟩ chars subj') := by
  obtain ⟨line, columnOffset, children, rfl, same⟩ := same
  have stop : findSpecialChar ⟨T, options', []⟩ chars (subj.moved line columnOffset children) =
      findSpecialChar ⟨T, options, []⟩ chars subj := by
    unfold findSpecialChar
    dsimp only
    rw [smart]
    rfl
  unfold makeText
  dsimp only
  rw [stop, preserve]
  exact .ite (fun _ => ⟨⟨_, _, _, rfl, same⟩, rfl⟩) fun _ => ⟨⟨_, _, _, rfl, same⟩, rfl⟩

theorem same_openBracket (type : BracketType) (s : Bytes) :
    SameMade (openBracket subj type s) (openBracket subj' type s) := by
  obtain ⟨line, columnOffset, children, rfl, same⟩ := same
  exact ⟨⟨_, _, _, rfl, same⟩, rfl⟩

end

/-! ### Emphasis -/

/-- The siblings of a node and their parent. -/
theorem SameForest.familyOf? {f f' : Forest} (same : SameForest f f') (i : NodeId) (parent : NodeData) :
    (familyOf? i parent f').map (fun family => (family.1.withoutPlace, withoutPlaces family.2)) =
      (CmarkGfm.familyOf? i parent f).map fun family =>
        (family.1.withoutPlace, withoutPlaces family.2) := by
  rw [CmarkGfm.familyOf?, CmarkGfm.familyOf?, same.hasSibling_eq]
  split
  next => exact congrArg (fun l => some (parent.withoutPlace, l)) same
  next =>
    have found := congrArg (familyOfList? i) same
    rwa [withoutPlaces, withoutPlaces, familyOfList?_mapDataList, familyOfList?_mapDataList] at found

theorem SameForest.canInsertBeside {f f' : Forest} (same : SameForest f f') (T : Tables)
    (options options' : Options) (parent : NodeData) (i : NodeId) (t : NodeType) :
    canInsertBeside ⟨T, options', []⟩ parent i t f' = canInsertBeside ⟨T, options, []⟩ parent i t f := by
  have found := same.familyOf? i parent
  unfold CmarkGfm.canInsertBeside
  cases here : CmarkGfm.familyOf? i parent f with
  | none =>
    rw [here, Option.map_none, Option.map_eq_none_iff] at found
    rw [found]
  | some family =>
    rw [here, Option.map_some, Option.map_eq_some_iff] at found
    obtain ⟨⟨owner', siblings'⟩, there, both⟩ := found
    obtain ⟨owner, siblings⟩ := family
    have types := congrArg (fun r : NodeData × Forest => r.1.type) both
    have type : owner'.type = owner.type := types
    rw [there]
    dsimp only
    rw [nodeCanContainType_core rfl, nodeCanContainType_core rfl, type]

/-- The states of the loop of `process_emphasis` differ in places only. -/
structure SameEmphasis (e e' : Emphasis) : Prop where
  content : SameContent e.subj e'.subj
  before : e'.before = e.before
  after : e'.after = e.after

theorem SameContent.setText {subj subj' : Subject} (same : SameContent subj subj') (i : NodeId)
    (s : Bytes) : SameContent (subj.setText i s) (subj'.setText i s) := by
  obtain ⟨line, columnOffset, children, rfl, same⟩ := same
  refine ⟨line, columnOffset, _, rfl, same.editData fun d d' data => ?_⟩
  have others := congrArg (CmarkGfm.setLiteral s) data
  exact others

theorem SameForest.wrapBetween {f f' : Forest} (same : SameForest f f') (i j : NodeId)
    {wrap wrap' : Forest → Forest} (step : ∀ l l', SameForest l l' → SameForest (wrap l) (wrap' l')) :
    SameForest (wrapBetween i j wrap f) (wrapBetween i j wrap' f') := by
  have after := same.siblingsAfter i
  exact (((same.siblingsBefore i).append (same.siblingsFrom i).take_one).append
    (step _ _ (after.takeWhile fun _ _ both => by rw [both.id_eq]))).append
    (after.dropWhile fun _ _ both => by rw [both.id_eq])

section

variable (T : Tables) (options options' : Options)

/-- What `S_insert_emph` makes of the siblings when `k` and `k'` characters are left. -/
def emphSiblings (P : Config) (parent : NodeData) (i o c : NodeId) (d : NodeData) (k k' : Nat)
    (f : Forest) : Forest :=
  let f := editData c (truncateLiteral k') (editData o (truncateLiteral k) f)
  let accepted := canInsertBeside P parent o d.type f
  let f := editSiblings o (wrapBetween o c fun between => if accepted then [.mk i d between] else []) f
  let f := if k = 0 then freeNode o f else f
  if k' = 0 then freeNode c f else f

theorem insertEmph_eq (P : Config) (subj : Subject) (below : List Delimiter)
    (opener closer : Delimiter) (later : List Delimiter) :
    insertEmph P subj below opener closer later =
      let o := dataOf opener.inlText subj.children
      let c := dataOf closer.inlText subj.children
      let useDelims := if c.as.getLiteral.length ≥ 2 && o.as.getLiteral.length ≥ 2 then 2 else 1
      let d : NodeData :=
        { type := if useDelims = 1 then .emph else .strong
          startLine := o.startLine
          endLine := c.endLine
          startColumn := o.startColumn
          endColumn := c.endColumn }
      { subj := { subj with
          nextId := subj.nextId + 1
          children := emphSiblings P subj.parent subj.nextId opener.inlText closer.inlText d
            (o.as.getLiteral.length - useDelims) (c.as.getLiteral.length - useDelims) subj.children }
        before := if o.as.getLiteral.length - useDelims = 0 then below else opener :: below
        after := if c.as.getLiteral.length - useDelims = 0 then later else closer :: later } :=
  rfl

theorem SameForest.emphSiblings {f f' : Forest} (same : SameForest f f') (parent : NodeData)
    (i o c : NodeId) {d d' : NodeData} (k k' : Nat) (data : d'.withoutPlace = d.withoutPlace) :
    SameForest (emphSiblings ⟨T, options, []⟩ parent i o c d k k' f)
      (CmarkGfm.emphSiblings ⟨T, options', []⟩ parent i o c d' k k' f') := by
  have shorter : ∀ n (d d' : NodeData), d'.withoutPlace = d.withoutPlace →
      (truncateLiteral n d').withoutPlace = (truncateLiteral n d).withoutPlace := by
    intro n d d' data
    have others := congrArg (truncateLiteral n) data
    exact others
  have type : d'.type = d.type := NodeData.type_eq data
  have short := (same.editData (i := o) (shorter k)).editData (i := c) (shorter k')
  have freed : ∀ {g g' : Forest} (n : Nat) (j : NodeId), SameForest g g' →
      SameForest (if n = 0 then CmarkGfm.freeNode j g else g)
        (if n = 0 then CmarkGfm.freeNode j g' else g') := by
    intro g g' n j both
    split
    next => exact both.freeNode j
    next => exact both
  unfold CmarkGfm.emphSiblings
  dsimp only
  rw [type, short.canInsertBeside T options options']
  refine freed k' c (freed k o (short.editSiblings fun l l' both => both.wrapBetween o c ?_))
  intro m m' both
  split
  next => exact .cons (sameNode_mk.mpr ⟨data, both⟩) (.refl _)
  next => exact .refl _

theorem same_insertEmph {subj subj' : Subject} (same : SameContent subj subj')
    (below : List Delimiter) (opener closer : Delimiter) (later : List Delimiter) :
    SameEmphasis (insertEmph ⟨T, options, []⟩ subj below opener closer later)
      (insertEmph ⟨T, options', []⟩ subj' below opener closer later) := by
  obtain ⟨line, columnOffset, children, rfl, same⟩ := same
  rw [insertEmph_eq, insertEmph_eq]
  dsimp only [Subject.moved]
  rw [same.getLiteral_dataOf opener.inlText, same.getLiteral_dataOf closer.inlText]
  exact ⟨⟨line, columnOffset, _, rfl, same.emphSiblings T options options' _ _ _ _ _ _ rfl⟩, rfl, rfl⟩

theorem same_unmatchedCloser {e e' : Emphasis} (same : SameEmphasis e e') (closer : Delimiter)
    (later : List Delimiter) :
    SameEmphasis (unmatchedCloser ⟨T, options, []⟩ e closer later)
      (unmatchedCloser ⟨T, options', []⟩ e' closer later) := by
  have none : ∀ o, extensionForSpecialChar ⟨T, o, []⟩ closer.delimChar = none := fun _ => rfl
  unfold unmatchedCloser
  rw [none options, none options', same.before]
  refine ⟨?_, rfl, rfl⟩
  dsimp only
  split
  next => exact same.content.setText _ _
  next => exact same.content

theorem same_matchedCloser {e e' : Emphasis} (same : SameEmphasis e e') (between : List Delimiter)
    (opener : Delimiter) (below : List Delimiter) (closer : Delimiter) (later : List Delimiter) :
    SameEmphasis (matchedCloser ⟨T, options, []⟩ e between opener below closer later)
      (matchedCloser ⟨T, options', []⟩ e' between opener below closer later) := by
  have none : ∀ o, extensionForSpecialChar ⟨T, o, []⟩ closer.delimChar = none := fun _ => rfl
  unfold matchedCloser
  rw [none options, none options']
  dsimp only
  split
  next => exact same_insertEmph T options options' same.content below opener closer later
  next =>
    split
    next => exact ⟨(same.content.setText _ _).setText _ _, rfl, rfl⟩
    next => exact ⟨same.content, congrArg (closer :: ·) same.before, rfl⟩

theorem same_emphasisStep {e e' : Emphasis} (same : SameEmphasis e e')
    (limit : OpenersBottom → Delimiter → Nat) (stackBottom : Nat) (bottom : OpenersBottom) :
    SameEmphasis (emphasisStep ⟨T, options, []⟩ limit stackBottom e bottom).1
        (emphasisStep ⟨T, options', []⟩ limit stackBottom e' bottom).1 ∧
      (emphasisStep ⟨T, options', []⟩ limit stackBottom e' bottom).2 =
        (emphasisStep ⟨T, options, []⟩ limit stackBottom e bottom).2 := by
  unfold emphasisStep
  rw [same.after, same.before]
  cases e.after with
  | nil => exact ⟨same, rfl⟩
  | cons closer later =>
    dsimp only
    split
    next =>
      cases findOpener stackBottom (limit bottom closer) closer e.before with
      | some found =>
        obtain ⟨between, opener, below⟩ := found
        exact ⟨same_matchedCloser T options options' same between opener below closer later, rfl⟩
      | none => exact ⟨same_unmatchedCloser T options options' same closer later, rfl⟩
    next => exact ⟨⟨same.content, congrArg (closer :: ·) same.before, rfl⟩, rfl⟩

theorem same_emphasisLoop {e e' : Emphasis} (same : SameEmphasis e e')
    (limit : OpenersBottom → Delimiter → Nat) (stackBottom fuel : Nat) (bottom : OpenersBottom) :
    SameEmphasis (emphasisLoop ⟨T, options, []⟩ limit stackBottom fuel e bottom).1
      (emphasisLoop ⟨T, options', []⟩ limit stackBottom fuel e' bottom).1 := by
  induction fuel generalizing e e' bottom with
  | zero => exact same
  | succ fuel ih =>
    obtain ⟨next, bottoms⟩ := same_emphasisStep T options options' same
      limit stackBottom bottom
    rw [emphasisLoop, emphasisLoop, bottoms]
    exact ih next _

theorem same_processEmphasis {subj subj' : Subject} (same : SameContent subj subj') (stackBottom : Nat) :
    SameContent (processEmphasis ⟨T, options, []⟩ subj stackBottom)
      (processEmphasis ⟨T, options', []⟩ subj' stackBottom) := by
  obtain ⟨line, columnOffset, children, rfl, forest⟩ := id same
  have start : SameEmphasis (emphasisStart subj stackBottom)
      (emphasisStart (subj.moved line columnOffset children) stackBottom) := ⟨same, rfl, rfl⟩
  have fuel : emphasisFuel (emphasisStart (subj.moved line columnOffset children) stackBottom) =
      emphasisFuel (emphasisStart subj stackBottom) := rfl
  have loop := same_emphasisLoop T options options' start
    OpenersBottom.get stackBottom (emphasisFuel (emphasisStart subj stackBottom)) (.initial stackBottom)
  unfold processEmphasis processEmphasisWith
  dsimp only
  rw [fuel]
  generalize (emphasisLoop ⟨T, options, []⟩ OpenersBottom.get stackBottom
    (emphasisFuel (emphasisStart subj stackBottom)) (emphasisStart subj stackBottom)
    (.initial stackBottom)).1 = e at loop ⊢
  generalize (emphasisLoop ⟨T, options', []⟩ OpenersBottom.get stackBottom
    (emphasisFuel (emphasisStart subj stackBottom))
    (emphasisStart (subj.moved line columnOffset children) stackBottom) (.initial stackBottom)).1 = e'
    at loop ⊢
  obtain ⟨⟨line, columnOffset, children, moved, same⟩, before, after⟩ := loop
  rw [moved, before, after]
  exact ⟨line, columnOffset, children, rfl, same⟩

/-! ### Brackets -/

theorem same_popBracket {subj subj' : Subject} (same : SameContent subj subj') :
    SameContent (popBracket subj) (popBracket subj') := by
  obtain ⟨line, columnOffset, children, rfl, same⟩ := same
  exact ⟨line, columnOffset, children, rfl, same⟩

theorem SameForest.replaceOpener {f f' : Forest} (same : SameForest f f') (i : NodeId)
    {accepted accepted' : Bool} (agree : accepted' = accepted) {inl inl' : Node}
    (node : SameNode inl inl') {takes takes' : Node → Bool}
    (content : ∀ n n', SameNode n n' → takes' n' = takes n) :
    SameForest (replaceOpener i accepted inl takes f)
      (CmarkGfm.replaceOpener i accepted' inl' takes' f') := by
  have congr : takes' = takes := funext fun n => content n n (.refl n)
  subst agree congr
  refine same.editSiblings fun l l' both => ?_
  have after := both.siblingsAfter i
  refine ((both.siblingsBefore i).append ?_).append (after.filter fun n n' same => by rw [content n n' same])
  split
  next =>
    refine .cons ?_ (.refl _)
    rw [node.id_eq]
    exact sameNode_mk.mpr ⟨node.data_eq, after.filter content⟩
  next => exact .refl _

theorem same_linkSpliced {subj subj' : Subject} (same : SameContent subj subj') (opener : Bracket)
    (url title : Bytes) :
    SameContent (linkSpliced ⟨T, options, []⟩ subj opener url title)
      (linkSpliced ⟨T, options', []⟩ subj' opener url title) := by
  obtain ⟨line, columnOffset, children, rfl, same⟩ := same
  have accepted := same.canInsertBeside T options options' subj.parent opener.inlText
    (if opener.type = .image then .image else .link)
  refine ⟨line, columnOffset, _, rfl, same.replaceOpener opener.inlText accepted ?_ ?_⟩
  · rfl
  · exact fun _ _ _ => rfl

theorem same_attributeSpliced {subj subj' : Subject} (same : SameContent subj subj') (opener : Bracket)
    (attributes : Bytes) :
    SameContent (attributeSpliced ⟨T, options, []⟩ subj opener attributes)
      (attributeSpliced ⟨T, options', []⟩ subj' opener attributes) := by
  obtain ⟨line, columnOffset, children, rfl, same⟩ := same
  have accepted := same.canInsertBeside T options options' subj.parent opener.inlText .attribute
  refine ⟨line, columnOffset, _, rfl, same.replaceOpener opener.inlText accepted ?_ fun n n' both => ?_⟩
  · rfl
  · rw [nodeCanContainType_core rfl, nodeCanContainType_core rfl, both.type_eq]
    rfl

theorem same_matchLink {subj subj' : Subject} (same : SameContent subj subj') (opener : Bracket)
    (url title : Bytes) :
    SameContent (matchLink ⟨T, options, []⟩ subj opener url title)
      (matchLink ⟨T, options', []⟩ subj' opener url title) := by
  obtain ⟨line, columnOffset, children, moved, forest⟩ := same_popBracket (same_processEmphasis T options
    options' (same_linkSpliced T options options' same opener url title) opener.position)
  rw [matchLink_eq, matchLink_eq]
  dsimp only
  rw [moved]
  exact ⟨line, columnOffset, children, rfl, forest⟩

theorem same_matchAttribute {subj subj' : Subject} (same : SameContent subj subj') (opener : Bracket)
    (attributes : Bytes) :
    SameContent (matchAttribute ⟨T, options, []⟩ subj opener attributes)
      (matchAttribute ⟨T, options', []⟩ subj' opener attributes) := by
  rw [matchAttribute_eq, matchAttribute_eq]
  exact same_popBracket (same_processEmphasis T options options'
    (same_attributeSpliced T options options' same opener attributes) opener.position)

/-- The literal of a footnote reference, cut with the columns of this state. -/
def referenceLiteral (P : Config) (subj : Subject) (opener : Bracket) (next : Node) : Bytes :=
  footnoteLiteral P subj next (referenceLength subj opener)

theorem same_footnoteSpliced {subj subj' : Subject} (same : SameContent subj subj') (opener : Bracket)
    {next next' : Node}
    (literal : referenceLiteral ⟨T, options', []⟩ subj' opener next' =
      referenceLiteral ⟨T, options, []⟩ subj opener next) :
    SameContent (footnoteSpliced ⟨T, options, []⟩ subj opener next)
      (footnoteSpliced ⟨T, options', []⟩ subj' opener next') := by
  obtain ⟨line, columnOffset, children, rfl, same⟩ := same
  have accepted := same.canInsertBeside T options options' subj.parent opener.inlText .footnoteReference
  refine ⟨line, columnOffset, _, rfl, same.editSiblings fun l l' both => ?_⟩
  change SameForest (siblingsBefore opener.inlText l ++
      (if canInsertBeside ⟨T, options, []⟩ subj.parent opener.inlText .footnoteReference subj.children
        then [_] else []) ++ siblingsFrom opener.inlText l)
    (siblingsBefore opener.inlText l' ++
      (if canInsertBeside ⟨T, options', []⟩ subj.parent opener.inlText .footnoteReference children
        then [_] else []) ++ siblingsFrom opener.inlText l')
  rw [accepted]
  refine ((both.siblingsBefore _).append ?_).append (both.siblingsFrom _)
  split
  next =>
    refine .cons (sameNode_mk.mpr ⟨?_, .refl _⟩) (.refl _)
    have data := congrArg (fun s => ({ type := .footnoteReference, as := .literal s } : NodeData)) literal
    exact data
  next => exact .refl _

theorem same_makeFootnoteReference {subj subj' : Subject} (same : SameContent subj subj')
    (opener : Bracket) {next next' : Node}
    (literal : referenceLiteral ⟨T, options', []⟩ subj' opener next' =
      referenceLiteral ⟨T, options, []⟩ subj opener next) :
    SameContent (makeFootnoteReference ⟨T, options, []⟩ subj opener next)
      (makeFootnoteReference ⟨T, options', []⟩ subj' opener next') := by
  obtain ⟨line, columnOffset, children, moved, forest⟩ := same_processEmphasis T options options'
    (same_footnoteSpliced T options options' same opener literal) opener.position
  rw [makeFootnoteReference_eq, makeFootnoteReference_eq]
  dsimp only
  rw [moved]
  exact same_popBracket ⟨line, columnOffset, _, rfl,
    forest.editSiblings fun _ _ both => both.siblingsBefore _⟩

end

/-- The options that the inline parser reads, apart from `CMARK_OPT_SOURCEPOS`. -/
structure SameInlineOptions (options options' : Options) : Prop where
  smart : options'.has optSmart = options.has optSmart
  preserveWhitespace : options'.has optPreserveWhitespace = options.has optPreserveWhitespace
  liberalHtmlTag : options'.has optLiberalHtmlTag = options.has optLiberalHtmlTag
  footnotes : options'.has optFootnotes = options.has optFootnotes

/-! ### A closing bracket -/

/-- What the closing bracket leads to differs in places only. -/
def SameOutcome (r r' : Subject × Option Node) : Prop :=
  SameContent r.1 r'.1 ∧ r'.2.map Node.withoutPlaces = r.2.map Node.withoutPlaces

theorem SameMade.outcome {r r' : Subject × Node} (same : SameMade r r') :
    SameOutcome (made r) (made r') := ⟨same.1, congrArg some same.2⟩

theorem SameOutcome.ite {c : Prop} [Decidable c] {a b a' b' : Subject × Option Node}
    (holds : c → SameOutcome a a') (fails : ¬ c → SameOutcome b b') :
    SameOutcome (if c then a else b) (if c then a' else b') := by
  split
  next h => exact holds h
  next h => exact fails h

/-- The literal of the footnote reference that the closing bracket at the current position makes. -/
def closedLiteral (P : Config) (subj : Subject) : Option Bytes :=
  (referenceOf P subj).map fun reference => referenceLiteral P (subj.advance 1) reference.1 reference.2

section

variable {T : Tables} {options options' : Options}

theorem same_footnoteText {subj subj' : Subject} (same : SameContent subj subj') (opener : Bracket)
    (footnotes : options'.has optFootnotes = options.has optFootnotes) :
    (footnoteText ⟨T, options', []⟩ subj' opener).map Node.withoutPlaces =
      (footnoteText ⟨T, options, []⟩ subj opener).map Node.withoutPlaces := by
  obtain ⟨line, columnOffset, children, rfl, same⟩ := same
  have family := same.familyOf? opener.inlText subj.parent
  unfold footnoteText
  dsimp only [Subject.moved]
  rw [footnotes]
  split
  next =>
    have after : ((familyOf? opener.inlText subj.parent children).map fun family =>
          siblingsAfter opener.inlText family.2).map withoutPlaces =
        ((familyOf? opener.inlText subj.parent subj.children).map fun family =>
          siblingsAfter opener.inlText family.2).map withoutPlaces := by
      have each := congrArg (Option.map fun r : NodeData × Forest => siblingsAfter opener.inlText r.2) family
      simp only [Option.map_map, Function.comp_def, withoutPlaces, siblingsAfter_mapDataList] at each ⊢
      exact each
    generalize ((familyOf? opener.inlText subj.parent children).map fun family =>
      siblingsAfter opener.inlText family.2) = found' at after ⊢
    generalize ((familyOf? opener.inlText subj.parent subj.children).map fun family =>
      siblingsAfter opener.inlText family.2) = found at after ⊢
    cases found with
    | none =>
      rw [Option.map_none, Option.map_eq_none_iff] at after
      rw [after]
    | some l =>
      rw [Option.map_some, Option.map_eq_some_iff] at after
      obtain ⟨l', rfl, both⟩ := after
      cases l with
      | nil =>
        obtain rfl := SameForest.nil_eq both
        rfl
      | cons next rest =>
        obtain ⟨next', rest', rfl, first, others⟩ := SameForest.cases both
        have empty : rest'.isEmpty = rest.isEmpty := by
          cases rest with
          | nil => rw [others.nil_eq]
          | cons n rest =>
            obtain ⟨n', g, rfl, _, _⟩ := others.cases
            rfl
        dsimp only
        rw [first.type_eq, first.literal_eq, empty]
        split
        next => exact congrArg some first
        next => rfl
  next => rfl

theorem same_literalCloseBracket {subj subj' : Subject} (same : SameContent subj subj') :
    SameOutcome (literalCloseBracket subj) (literalCloseBracket subj') :=
  (same_makeStr same _ _ _).outcome

theorem same_noMatch {subj subj' : Subject} (same : SameContent subj subj') (opener : Bracket)
    (initialPos : Nat) (footnotes : options'.has optFootnotes = options.has optFootnotes)
    (agree : (footnoteText ⟨T, options', []⟩ subj' opener).map
        (referenceLiteral ⟨T, options', []⟩ { subj' with pos := initialPos } opener) =
      (footnoteText ⟨T, options, []⟩ subj opener).map
        (referenceLiteral ⟨T, options, []⟩ { subj with pos := initialPos } opener)) :
    SameOutcome (noMatch ⟨T, options, []⟩ subj opener initialPos)
      (noMatch ⟨T, options', []⟩ subj' opener initialPos) := by
  have text := same_footnoteText (T := T) same opener footnotes
  have rewound := same_setPos same initialPos
  have here : footnoteText ⟨T, options, []⟩ { subj with pos := initialPos } opener =
      footnoteText ⟨T, options, []⟩ subj opener := rfl
  have here' : footnoteText ⟨T, options', []⟩ { subj' with pos := initialPos } opener =
      footnoteText ⟨T, options', []⟩ subj' opener := rfl
  unfold noMatch
  dsimp only
  rw [here, here']
  cases found : footnoteText ⟨T, options, []⟩ subj opener with
  | none =>
    rw [found, Option.map_none, Option.map_eq_none_iff] at text
    rw [text]
    exact same_literalCloseBracket (same_popBracket rewound)
  | some next =>
    rw [found, Option.map_some, Option.map_eq_some_iff] at text
    obtain ⟨next', found', both⟩ := text
    rw [found, found'] at agree
    rw [found']
    exact ⟨same_makeFootnoteReference T options options' rewound opener (Option.some.inj agree), rfl⟩

theorem same_lookupReference {subj subj' : Subject} (same : SameContent subj subj') (label : Bytes) :
    SameContent (lookupReference T subj label).1 (lookupReference T subj' label).1 ∧
      (lookupReference T subj' label).2 = (lookupReference T subj label).2 := by
  obtain ⟨line, columnOffset, children, rfl, same⟩ := same
  exact ⟨⟨line, columnOffset, children, rfl, same⟩, rfl⟩

theorem same_clone {subj subj' : Subject} (same : SameContent subj subj') (clone : Clone) :
    SameContent { subj with clones := clone :: subj.clones }
      { subj' with clones := clone :: subj'.clones } := by
  obtain ⟨line, columnOffset, children, rfl, same⟩ := same
  exact ⟨line, columnOffset, children, rfl, same⟩

theorem same_closeReference {subj subj' : Subject} (same : SameContent subj subj') (opener : Bracket)
    (initialPos : Nat) (footnotes : options'.has optFootnotes = options.has optFootnotes)
    (agree : namesNoLink T subj opener initialPos →
      (footnoteText ⟨T, options', []⟩ subj' opener).map
          (referenceLiteral ⟨T, options', []⟩ { subj' with pos := initialPos } opener) =
        (footnoteText ⟨T, options, []⟩ subj opener).map
          (referenceLiteral ⟨T, options, []⟩ { subj with pos := initialPos } opener)) :
    SameOutcome (closeReference ⟨T, options, []⟩ subj opener initialPos)
      (closeReference ⟨T, options', []⟩ subj' opener initialPos) := by
  have labels : referenceLabel subj' opener initialPos = referenceLabel subj opener initialPos := by
    obtain ⟨line, columnOffset, children, rfl, _⟩ := same
    rfl
  unfold namesNoLink at agree
  unfold closeReference
  rw [labels]
  generalize referenceLabel subj opener initialPos = r at agree ⊢
  obtain ⟨pos, label⟩ := r
  have moved := same_setPos same pos
  cases label with
  | none => exact same_noMatch moved opener initialPos footnotes (agree rfl)
  | some label =>
    obtain ⟨after, found⟩ := same_lookupReference (T := T) moved label
    dsimp only
    have looked : lookupReference T { subj with pos := pos } label =
        ({ subj with pos := pos, refmap := (mapLookup T subj.refmap label).1 },
          (mapLookup T subj.refmap label).2.map (·.value)) := rfl
    have looked' : lookupReference T { subj' with pos := pos } label =
        ({ subj' with pos := pos, refmap := (mapLookup T subj'.refmap label).1 },
          (mapLookup T subj'.refmap label).2.map (·.value)) := rfl
    rw [looked, looked'] at after found
    rw [looked, looked']
    dsimp only at after found ⊢
    rw [found]
    simp only [Option.all_some] at agree
    cases entry : (mapLookup T subj.refmap label).2 with
    | none => exact same_noMatch after opener initialPos footnotes (agree (by rw [entry]; rfl))
    | some e =>
      rw [entry] at agree
      dsimp only [Option.map_some]
      cases attributes : e.value.isAttributesReference with
      | true => exact same_noMatch after opener initialPos footnotes (agree attributes)
      | false => exact ⟨same_matchLink T options options' (same_clone after _) opener _ _, rfl⟩

theorem same_referenceAttributes {subj subj' : Subject} (same : SameContent subj subj')
    (attributes : Option Bytes) :
    SameContent (referenceAttributes T subj attributes).1 (referenceAttributes T subj' attributes).1 ∧
      (referenceAttributes T subj' attributes).2 = (referenceAttributes T subj attributes).2 := by
  have label : linkLabel subj'.input subj'.pos false = linkLabel subj.input subj.pos false := by
    obtain ⟨line, columnOffset, children, rfl, _⟩ := same
    rfl
  unfold referenceAttributes
  rw [label]
  cases linkLabel subj.input subj.pos false with
  | none => exact ⟨same, rfl⟩
  | some found =>
    obtain ⟨pos, rawLabel⟩ := found
    obtain ⟨after, entry⟩ := same_lookupReference (T := T) (same_setPos same pos) rawLabel
    dsimp only
    generalize lookupReference T { subj with pos := pos } rawLabel = r at after entry ⊢
    generalize lookupReference T { subj' with pos := pos } rawLabel = r' at after entry ⊢
    obtain ⟨next, ref⟩ := r
    obtain ⟨next', ref'⟩ := r'
    obtain rfl : ref' = ref := entry
    cases ref' with
    | none => exact ⟨after, rfl⟩
    | some ref =>
      dsimp only
      split
      next => exact ⟨same_clone after _, rfl⟩
      next => exact ⟨after, rfl⟩

theorem same_handleCloseBracketAttribute {subj subj' : Subject} (same : SameContent subj subj')
    (opener : Bracket) :
    SameOutcome (handleCloseBracketAttribute ⟨T, options, []⟩ subj opener)
      (handleCloseBracketAttribute ⟨T, options', []⟩ subj' opener) := by
  have scanned : scanInlineAttributes subj'.input subj'.pos = scanInlineAttributes subj.input subj.pos ∧
      attributesEnd subj' = attributesEnd subj := by
    obtain ⟨line, columnOffset, children, rfl, _⟩ := same
    exact ⟨rfl, rfl⟩
  rw [handleCloseBracketAttribute_eq, handleCloseBracketAttribute_eq, scanned.1, scanned.2]
  have referred := same_referenceAttributes (T := T) (same_setPos same (attributesEnd subj))
    ((scanInlineAttributes subj.input subj.pos).map (·.2))
  dsimp only
  generalize referenceAttributes T { subj with pos := attributesEnd subj } _ = r at referred ⊢
  generalize referenceAttributes T { subj' with pos := attributesEnd subj } _ = r' at referred ⊢
  obtain ⟨next, attributes⟩ := r
  obtain ⟨next', attributes'⟩ := r'
  obtain ⟨after, found⟩ := referred
  obtain rfl : attributes' = attributes := found
  cases attributes' with
  | none => exact same_literalCloseBracket (same_popBracket after)
  | some attributes => exact ⟨same_matchAttribute T options options' after opener attributes, rfl⟩

theorem handleCloseBracket_eq (P : Config) (subj : Subject) :
    handleCloseBracket P subj =
      match subj.brackets with
      | [] => literalCloseBracket (subj.advance 1)
      | opener :: _ =>
        if opener.type = .attribute then handleCloseBracketAttribute P (subj.advance 1) opener
        else if opener.type = .link && subj.noLinkOpeners then
          literalCloseBracket (popBracket (subj.advance 1))
        else
          match scanInlineLink P.tables subj.input (subj.pos + 1) with
          | some (pos, url, title) => (matchLink P { subj.advance 1 with pos := pos } opener url title, none)
          | none => closeReference P (subj.advance 1) opener (subj.pos + 1) :=
  rfl

theorem same_handleCloseBracket {subj subj' : Subject} (same : SameContent subj subj')
    (footnotes : options'.has optFootnotes = options.has optFootnotes)
    (bracket : subj.peekChar = chr ']')
    (agree : closedLiteral ⟨T, options', []⟩ subj' = closedLiteral ⟨T, options, []⟩ subj) :
    SameOutcome (handleCloseBracket ⟨T, options, []⟩ subj)
      (handleCloseBracket ⟨T, options', []⟩ subj') := by
  have fields : SameContent (subj.advance 1) (subj'.advance 1) ∧ subj'.peekChar = subj.peekChar ∧
      subj'.brackets = subj.brackets ∧ subj'.input = subj.input ∧ subj'.pos = subj.pos ∧
      subj'.noLinkOpeners = subj.noLinkOpeners ∧
      ∀ opener, closesNoLink ⟨T, options', []⟩ subj' opener = closesNoLink ⟨T, options, []⟩ subj opener := by
    obtain ⟨line, columnOffset, children, rfl, same⟩ := same
    exact ⟨⟨line, columnOffset, children, rfl, same⟩, rfl, rfl, rfl, rfl, rfl, fun _ => rfl⟩
  obtain ⟨advanced, peek, brackets, input, pos, links, closes⟩ := fields
  unfold closedLiteral referenceOf at agree
  rw [peek, bracket, brackets] at agree
  simp only [beq_self_eq_true, if_true] at agree
  rw [handleCloseBracket_eq, handleCloseBracket_eq, brackets, input, pos, links]
  cases stack : subj.brackets with
  | nil => exact same_literalCloseBracket advanced
  | cons opener below =>
    rw [stack] at agree
    simp only [List.head?_cons, Option.bind_some, closes] at agree
    dsimp only
    by_cases isAttribute : opener.type = .attribute
    · rw [if_pos isAttribute, if_pos isAttribute]
      exact same_handleCloseBracketAttribute advanced opener
    by_cases inactive : (opener.type = .link && subj.noLinkOpeners) = true
    · rw [if_neg isAttribute, if_neg isAttribute, if_pos inactive, if_pos inactive]
      exact same_literalCloseBracket (same_popBracket advanced)
    rw [if_neg isAttribute, if_neg isAttribute, if_neg inactive, if_neg inactive]
    cases scanned : scanInlineLink T subj.input (subj.pos + 1) with
    | some link =>
      obtain ⟨pos, url, title⟩ := link
      exact ⟨same_matchLink T options options' (same_setPos advanced pos) opener url title, rfl⟩
    | none =>
      refine same_closeReference advanced opener (subj.pos + 1) footnotes fun named => ?_
      have noLink : closesNoLink ⟨T, options, []⟩ subj opener = true := by
        unfold closesNoLink
        simp [isAttribute, inactive, scanned, named]
      have here : { subj'.advance 1 with pos := subj.pos + 1 } = subj'.advance 1 := by
        rw [← pos]
        rfl
      rw [if_pos noLink, if_pos noLink, Option.map_map, Option.map_map] at agree
      rw [here]
      exact agree

/-! ### The loop -/

theorem same_dispatchInline {subj subj' : Subject} (same : SameContent subj subj') (chars : CharTables)
    (agrees : SameInlineOptions options options')
    (literal : closedLiteral ⟨T, options', []⟩ subj' = closedLiteral ⟨T, options, []⟩ subj) :
    SameOutcome (dispatchInline ⟨T, options, []⟩ chars subj subj.peekChar)
      (dispatchInline ⟨T, options', []⟩ chars subj' subj.peekChar) := by
  have next : subj'.peekCharN = subj.peekCharN := by
    obtain ⟨line, columnOffset, children, rfl, _⟩ := same
    rfl
  unfold dispatchInline
  dsimp only
  rw [next, agrees.smart, agrees.preserveWhitespace]
  refine .ite (fun _ => .ite (fun _ => ?_) fun _ => (same_handleNewline same).outcome) fun _ => ?_
  · obtain ⟨line, columnOffset, children, rfl, same⟩ := same
    exact ⟨⟨line, columnOffset, children, rfl, same⟩, rfl⟩
  refine .ite (fun _ => (same_handleBackticks same options options').outcome) fun _ => ?_
  refine .ite (fun _ => (same_handleBackslash same chars).outcome) fun _ => ?_
  refine .ite (fun _ => (same_handleEntity same T).outcome) fun _ => ?_
  refine .ite (fun _ => (same_handlePointyBrace same agrees.liberalHtmlTag).outcome) fun _ => ?_
  refine .ite (fun _ => (same_handleDelim same chars _ _).outcome) fun _ => ?_
  refine .ite (fun _ => (same_handleHyphen same _).outcome) fun _ => ?_
  refine .ite (fun _ => (same_handlePeriod same _).outcome) fun _ => ?_
  refine .ite (fun _ => (same_openBracket same .link _).outcome) fun _ => ?_
  refine .ite (fun bracket => ?_) fun _ => ?_
  · exact same_handleCloseBracket same agrees.footnotes (by simpa using bracket) literal
  refine .ite (fun _ => (same_openBracket same .image _).outcome) fun _ => ?_
  exact .ite (fun _ => (same_openBracket same .attribute _).outcome) fun _ => ⟨same, rfl⟩

theorem same_nextInline {subj subj' : Subject} (same : SameContent subj subj') (chars : CharTables)
    (agrees : SameInlineOptions options options')
    (literal : closedLiteral ⟨T, options', []⟩ subj' = closedLiteral ⟨T, options, []⟩ subj) :
    SameOutcome (nextInline ⟨T, options, []⟩ chars subj subj.peekChar)
      (nextInline ⟨T, options', []⟩ chars subj' subj.peekChar) := by
  have start : subj'.pos = subj.pos := by
    obtain ⟨line, columnOffset, children, rfl, _⟩ := same
    rfl
  have dispatched := same_dispatchInline same chars agrees literal
  unfold nextInline
  rw [start]
  generalize dispatchInline ⟨T, options, []⟩ chars subj subj.peekChar = r at dispatched ⊢
  generalize dispatchInline ⟨T, options', []⟩ chars subj' subj.peekChar = r' at dispatched ⊢
  obtain ⟨next, node⟩ := r
  obtain ⟨next', node'⟩ := r'
  obtain ⟨content, nodes⟩ := dispatched
  cases node with
  | some n =>
    rw [Option.map_some, Option.map_eq_some_iff] at nodes
    obtain ⟨n', rfl, both⟩ := nodes
    exact ⟨content, congrArg some both⟩
  | none =>
    rw [Option.map_none, Option.map_eq_none_iff] at nodes
    subst nodes
    have pos : next'.pos = next.pos := by
      obtain ⟨line, columnOffset, children, moved, _⟩ := content
      have positions := congrArg Subject.pos moved
      exact positions
    have none : ∀ o s, tryExtensions o subj.peekChar (Config.mk T o []).inlineSyntaxExtensions s =
        (s, none) := fun _ _ => rfl
    dsimp only
    rw [pos, none options, none options']
    split
    next => exact (same_makeText content chars agrees.smart agrees.preserveWhitespace).outcome
    next => exact ⟨content, rfl⟩

theorem same_parseInline {subj subj' : Subject} (same : SameContent subj subj') (chars : CharTables)
    (agrees : SameInlineOptions options options')
    (literal : closedLiteral ⟨T, options', []⟩ subj' = closedLiteral ⟨T, options, []⟩ subj) :
    (parseInline ⟨T, options, []⟩ chars subj = none ∧ parseInline ⟨T, options', []⟩ chars subj' = none) ∨
      ∃ next next', parseInline ⟨T, options, []⟩ chars subj = some next ∧
        parseInline ⟨T, options', []⟩ chars subj' = some next' ∧ SameContent next next' := by
  have peek : subj'.peekChar = subj.peekChar := by
    obtain ⟨line, columnOffset, children, rfl, _⟩ := same
    rfl
  have made := same_nextInline same chars agrees literal
  unfold parseInline
  rw [peek]
  dsimp only
  split
  next => exact .inl ⟨rfl, rfl⟩
  next =>
    refine .inr ⟨_, _, rfl, rfl, ?_⟩
    generalize nextInline ⟨T, options, []⟩ chars subj subj.peekChar = r at made ⊢
    generalize nextInline ⟨T, options', []⟩ chars subj' subj.peekChar = r' at made ⊢
    obtain ⟨next, node⟩ := r
    obtain ⟨next', node'⟩ := r'
    obtain ⟨content, nodes⟩ := made
    cases node with
    | some n =>
      rw [Option.map_some, Option.map_eq_some_iff] at nodes
      obtain ⟨n', rfl, both⟩ := nodes
      exact content.appendChild both
    | none =>
      rw [Option.map_none, Option.map_eq_none_iff] at nodes
      subst nodes
      exact content

/-- Both runs make a footnote reference at this state, or neither does. -/
theorem same_referenceOf {subj subj' : Subject} (same : SameContent subj subj')
    (footnotes : options'.has optFootnotes = options.has optFootnotes) :
    (referenceOf ⟨T, options', []⟩ subj').map (fun reference => (reference.1, reference.2.withoutPlaces)) =
      (referenceOf ⟨T, options, []⟩ subj).map fun reference => (reference.1, reference.2.withoutPlaces) := by
  have text := fun opener => same_footnoteText (T := T) same opener footnotes
  obtain ⟨line, columnOffset, children, rfl, same⟩ := same
  have closes : ∀ opener, closesNoLink ⟨T, options', []⟩ (subj.moved line columnOffset children) opener =
      closesNoLink ⟨T, options, []⟩ subj opener := fun _ => rfl
  have stack : (subj.moved line columnOffset children).brackets = subj.brackets := rfl
  have peek : (subj.moved line columnOffset children).peekChar = subj.peekChar := rfl
  unfold referenceOf
  rw [stack, peek]
  split
  next =>
    cases subj.brackets with
    | nil => rfl
    | cons opener below =>
      simp only [List.head?_cons, Option.bind_some, closes]
      split
      next =>
        have both := congrArg (Option.map (opener, ·)) (text opener)
        simpa only [Option.map_map, Function.comp_def] using both
      next => rfl
  next => rfl

theorem same_textFrom {subj subj' : Subject} (input : subj'.input = subj.input) {next next' : Node}
    (node : SameNode next next') : textFrom subj' next' = textFrom subj next := by
  have chunkPos : next'.data.chunkPos = next.data.chunkPos := by
    have same := congrArg NodeData.chunkPos node.data_eq
    exact same
  unfold textFrom
  rw [chunkPos, node.literal_eq, input]

/-- A footnote reference that is as long in both runs, and ends before the text of its caret does, has the same
literal. -/
theorem same_closedLiteral {subj subj' : Subject} (same : SameContent subj subj')
    (footnotes : options'.has optFootnotes = options.has optFootnotes)
    (within : ∀ reference ∈ referenceOf ⟨T, options, []⟩ subj,
      referenceLength (subj.advance 1) reference.1 + 1 ≤ (textFrom subj reference.2).length ∧
        referenceLength (subj'.advance 1) reference.1 = referenceLength (subj.advance 1) reference.1) :
    closedLiteral ⟨T, options', []⟩ subj' = closedLiteral ⟨T, options, []⟩ subj := by
  have references := same_referenceOf (T := T) same footnotes
  have input : subj'.input = subj.input := by
    obtain ⟨line, columnOffset, children, rfl, _⟩ := same
    rfl
  unfold closedLiteral
  cases found : referenceOf ⟨T, options, []⟩ subj with
  | none =>
    rw [found, Option.map_none, Option.map_eq_none_iff] at references
    rw [references]
    rfl
  | some reference =>
    rw [found, Option.map_some, Option.map_eq_some_iff] at references
    obtain ⟨⟨opener', next'⟩, found', both⟩ := references
    obtain ⟨opener, next⟩ := reference
    obtain ⟨rfl, nodes⟩ := Prod.mk.inj both
    obtain ⟨fits, lengths⟩ := within _ found
    have text : textFrom (subj'.advance 1) next' = textFrom (subj.advance 1) next := same_textFrom input nodes
    have fits : referenceLength (subj.advance 1) opener' + 1 ≤ (textFrom (subj.advance 1) next).length := fits
    have literal (o : Options) {s : Subject} {n : Node} (same : textFrom s n = textFrom (subj.advance 1) next) :
        footnoteLiteral ⟨T, o, []⟩ s n (referenceLength (subj.advance 1) opener') =
          chunkDup (textFrom (subj.advance 1) next) 1 (referenceLength (subj.advance 1) opener') := by
      rw [footnoteLiteral_of_le (same.symm ▸ fits), same]
    rw [found', Option.map_some, Option.map_some, referenceLiteral, referenceLiteral, lengths, literal options' text]
    exact congrArg some (literal options rfl).symm

/-- A relation of the states of two runs from which the literals of the footnote references are the same, and
which a step keeps. -/
structure KeepsLiterals (T : Tables) (options options' : Options) (chars : CharTables)
    (R : Nat → Subject → Subject → Prop) : Prop where
  literal : ∀ {fuel subj subj'}, R (fuel + 1) subj subj' → SameContent subj subj' → ¬ subj.isEof = true →
    closedLiteral ⟨T, options', []⟩ subj' = closedLiteral ⟨T, options, []⟩ subj
  step : ∀ {fuel subj subj' next next'}, R (fuel + 1) subj subj' → SameContent subj subj' → ¬ subj.isEof = true →
    parseInline ⟨T, options, []⟩ chars subj = some next → parseInline ⟨T, options', []⟩ chars subj' = some next' →
    SameContent next next' → R fuel next next'

theorem same_parseInlinesLoop {subj subj' : Subject} (same : SameContent subj subj') {chars : CharTables}
    (agrees : SameInlineOptions options options') {R : Nat → Subject → Subject → Prop}
    (keeps : KeepsLiterals T options options' chars R) {fuel : Nat} (related : R fuel subj subj') :
    SameContent (parseInlinesLoop ⟨T, options, []⟩ chars fuel subj)
      (parseInlinesLoop ⟨T, options', []⟩ chars fuel subj') := by
  induction fuel generalizing subj subj' with
  | zero => exact same
  | succ fuel ih =>
    have eof : subj'.isEof = subj.isEof := by
      obtain ⟨line, columnOffset, children, rfl, _⟩ := same
      rfl
    unfold parseInlinesLoop
    rw [eof]
    by_cases done : subj.isEof
    · rw [if_pos done, if_pos done]
      exact same
    rw [if_neg done, if_neg done]
    obtain ⟨none, none'⟩ | ⟨next, next', step, step', content⟩ :=
      same_parseInline same chars agrees (keeps.literal related same done)
    · rw [none, none']
      exact same
    · rw [step, step']
      exact ih content (keeps.step related same done step step' content)

theorem same_parseInlines {chars : CharTables} (agrees : SameInlineOptions options options') {subj : Subject}
    {R : Nat → Subject → Subject → Prop} (keeps : KeepsLiterals T options options' chars R)
    (related : R subj.input.length subj subj) :
    SameContent (parseInlines ⟨T, options, []⟩ chars subj) (parseInlines ⟨T, options', []⟩ chars subj) := by
  have start : SameContent subj subj := ⟨subj.line, subj.columnOffset, subj.children, rfl, .refl _⟩
  obtain ⟨line, columnOffset, children, moved, same⟩ :=
    same_processEmphasis T options options' (same_parseInlinesLoop start agrees keeps related) 0
  unfold parseInlines
  dsimp only
  rw [moved]
  exact ⟨line, columnOffset, children, rfl, same⟩

end

/-! ### Columns in both runs -/

/-- The column of an open bracket differs only if line ends were read over in its line, and the distance from it
only if an inline since then did not keep the line. -/
structure SameBracket (P : Config) (chars : CharTables) (past : List Subject) (subj subj' : Subject) (b : Bracket) :
    Prop where
  opened : shifted P chars (past.filter (·.pos < b.position)) = false →
    (dataOf b.inlText subj'.children).startColumn = (dataOf b.inlText subj.children).startColumn
  since : (∀ s ∈ past, b.position ≤ s.pos → keepsLine P chars s) →
    subj'.columnOffset - (dataOf b.inlText subj'.children).startColumn =
      subj.columnOffset - (dataOf b.inlText subj.children).startColumn

/-- The columns of two states that were reached through the same inlines. -/
structure SameColumns (P P' : Config) (chars : CharTables) (past : List Subject) (subj subj' : Subject) : Prop where
  before : ∀ s ∈ past, s.pos < subj.pos
  line : shifted P chars past = false → subj'.columnOffset = subj.columnOffset
  brackets : ∀ b ∈ subj.brackets, SameBracket P chars past subj subj' b
  laidOut : ∃ marks, Layout P subj marks
  laidOut' : ∃ marks, Layout P' subj' marks

section

variable {T : Tables} {options options' : Options} {chars : CharTables} {past : List Subject}
  {subj subj' next next' : Subject} (same : SameContent subj subj')

include same

theorem startedLine_eq (preserve : options'.has optPreserveWhitespace = options.has optPreserveWhitespace) :
    startedLine ⟨T, options', []⟩ chars subj' = startedLine ⟨T, options, []⟩ chars subj := by
  obtain ⟨line, columnOffset, children, rfl, _⟩ := same
  unfold startedLine
  dsimp only
  rw [preserve]
  rfl

theorem keepsLine_eq (preserve : options'.has optPreserveWhitespace = options.has optPreserveWhitespace)
    (parsed : parseInline ⟨T, options, []⟩ chars subj = some next)
    (parsed' : parseInline ⟨T, options', []⟩ chars subj' = some next') (content : SameContent next next') :
    keepsLine ⟨T, options', []⟩ chars subj' = keepsLine ⟨T, options, []⟩ chars subj := by
  have started := @startedLine_eq T options options' chars _ _ same preserve
  have pos : next'.pos = next.pos := by
    obtain ⟨line, columnOffset, children, rfl, _⟩ := content
    rfl
  unfold keepsLine readsLines
  rw [started, parsed, parsed', Option.any_some, Option.any_some, pos]
  obtain ⟨line, columnOffset, children, rfl, _⟩ := same
  rfl

/-- What a step of both runs makes of their columns. -/
theorem SameColumns.step (columns : SameColumns ⟨T, options, []⟩ ⟨T, options', []⟩ chars past subj subj')
    (preserve : options'.has optPreserveWhitespace = options.has optPreserveWhitespace)
    (inside : subj.pos < subj.input.length) (notNul : chars.backslashIspunct.getD ispunct 0 = false)
    (parsed : parseInline ⟨T, options, []⟩ chars subj = some next)
    (parsed' : parseInline ⟨T, options', []⟩ chars subj' = some next') (content : SameContent next next') :
    SameColumns ⟨T, options, []⟩ ⟨T, options', []⟩ chars (past ++ [subj]) next next' := by
  have started := @startedLine_eq T options options' chars _ _ same preserve
  have kept := keepsLine_eq same preserve parsed parsed' content
  have beyond := (Advances.of_parseInline rfl inside notNul parsed).beyond
  obtain ⟨pos, block, nextId, inside'⟩ : subj'.pos = subj.pos ∧ subj'.blockOffset = subj.blockOffset ∧
      subj'.nextId = subj.nextId ∧ subj'.pos < subj'.input.length := by
    obtain ⟨line, columnOffset, children, rfl, _⟩ := same
    exact ⟨rfl, rfl, rfl, inside⟩
  have stack : next'.brackets = next.brackets := by
    obtain ⟨line, columnOffset, children, rfl, _⟩ := content
    rfl
  obtain ⟨marks, layout⟩ := columns.laidOut
  obtain ⟨marks', layout'⟩ := columns.laidOut'
  obtain ⟨nextMarks, nextLayout⟩ := layout.parseInline (sound_of_core rfl) inside notNul parsed
  obtain ⟨nextMarks', nextLayout'⟩ := layout'.parseInline (sound_of_core rfl) inside' notNul parsed'
  have keeps (line : keepsLine ⟨T, options, []⟩ chars subj) :
      next.columnOffset = subj.columnOffset ∧ next'.columnOffset = subj'.columnOffset :=
    ⟨columnOffset_of_keepsLine rfl inside notNul parsed line,
      columnOffset_of_keepsLine rfl inside' notNul parsed' (kept.trans line)⟩
  refine ⟨?_, fun line => ?_, fun b member => ?_, ⟨nextMarks, nextLayout⟩, ⟨nextMarks', nextLayout'⟩⟩
  · intro s among
    rcases List.mem_append.mp among with old | here
    · exact (columns.before s old).trans beyond
    · exact List.mem_singleton.mp here ▸ beyond
  · rw [shifted_concat] at line
    cases here : startedLine ⟨T, options, []⟩ chars subj with
    | some start =>
      rw [columnOffset_of_startedLine rfl inside notNul parsed here,
        columnOffset_of_startedLine rfl inside' notNul parsed' (started.trans here)]
    | none =>
      rw [here] at line
      simp only [Option.isNone_none, Bool.true_and, Bool.or_eq_false_iff] at line
      obtain ⟨stays, stays'⟩ := keeps (by simp [keepsLine, here, line.2])
      rw [stays, stays', columns.line line.1]
  · -- a bracket of the stack is older than the next node
    have old {b : Bracket} (was : b ∈ subj.brackets) : b.inlText < subj.nextId :=
      layout.fresh _ ((ids_sublist_addresses _).subset (layout.mem_children was))
    have old' {b : Bracket} (was : b ∈ subj'.brackets) : b.inlText < subj.nextId :=
      nextId ▸ layout'.fresh _ ((ids_sublist_addresses _).subset (layout'.mem_children was))
    have position := startColumn_parseInline rfl layout nextLayout inside notNul parsed member
    have position' := startColumn_parseInline rfl layout' nextLayout' inside' notNul parsed' (stack ▸ member)
    rcases position with ⟨text, opens, line, column⟩ | ⟨b₀, was, text, position, column⟩
    · obtain ⟨text', _, _, column'⟩ | ⟨b₀, was, older, _⟩ := position'
      · obtain ⟨stays, stays'⟩ := keeps line
        refine ⟨fun opened => ?_, fun _ => ?_⟩
        · -- all inlines so far stand in front of the bracket
          have all : (past ++ [subj]).filter (·.pos < b.position) = past ++ [subj] := by
            refine List.filter_eq_self.mpr fun s among => decide_eq_true ?_
            rcases List.mem_append.mp among with before | here
            · exact (columns.before s before).trans opens
            · exact List.mem_singleton.mp here ▸ opens
          simp only [keepsLine, Bool.and_eq_true, Bool.not_eq_true'] at line
          rw [all, shifted_concat, line.1, line.2, Bool.true_and, Bool.or_false] at opened
          rw [column, column', Subject.column, Subject.column, columns.line opened, pos, block]
        · rw [column, column', stays, stays', Subject.column, Subject.column, pos, block]
          omega
      · exact absurd (old' was) (older.trans text ▸ Nat.lt_irrefl _)
    · obtain ⟨text', _⟩ | ⟨b₁, was', older, position', column'⟩ := position'
      · exact absurd (old was) (text.trans (text'.trans nextId) ▸ Nat.lt_irrefl _)
      · have reached : b.position ≤ subj.pos := position ▸ layout.position_le was
        have bracket := columns.brackets b₀ was
        refine ⟨fun opened => ?_, fun since => ?_⟩
        · have others : (past ++ [subj]).filter (·.pos < b.position) = past.filter (·.pos < b₀.position) := by
            rw [List.filter_append, position]
            simp [reached]
          rw [others] at opened
          rw [column, column', ← text]
          exact bracket.opened opened
        · have line := since subj (List.mem_append_right _ List.mem_cons_self) reached
          obtain ⟨stays, stays'⟩ := keeps line
          rw [column, column', stays, stays', ← text]
          refine bracket.since fun s among behind => ?_
          exact since s (List.mem_append_left _ among) (position ▸ behind)

/-- Brackets in whose lines nothing is shifted, or behind which every inline kept the line, are as far away in both
runs. -/
theorem SameColumns.closedLiteral_eq (columns : SameColumns ⟨T, options, []⟩ ⟨T, options', []⟩ chars past subj subj')
    (footnotes : options'.has optFootnotes = options.has optFootnotes)
    (inLine : ReferenceInLine ⟨T, options, []⟩ chars past subj) :
    closedLiteral ⟨T, options', []⟩ subj' = closedLiteral ⟨T, options, []⟩ subj := by
  refine same_closedLiteral same footnotes fun reference found => ?_
  obtain ⟨within, unshifted | kept⟩ := inLine reference found
  all_goals
    refine ⟨within, ?_⟩
    have bracket := columns.brackets reference.1 (opener_of_referenceOf found)
    obtain ⟨pos, block⟩ : subj'.pos = subj.pos ∧ subj'.blockOffset = subj.blockOffset := by
      obtain ⟨line, columnOffset, children, rfl, _⟩ := same
      exact ⟨rfl, rfl⟩
    unfold referenceLength
    dsimp only [Subject.advance]
    rw [pos, block]
  · rw [columns.line unshifted.2, bracket.opened unshifted.1]
  · have since := bracket.since kept
    congr 1
    omega

end

/-- Both runs of a block have the same content, if its footnote references are in line. -/
theorem same_parseInlines_of_inLine {T : Tables} {options options' : Options} {chars : CharTables}
    (agrees : SameInlineOptions options options') (notNul : chars.backslashIspunct.getD ispunct 0 = false)
    {d : NodeData} (block : d.type = .paragraph ∨ d.type = .heading) (refmap : Map Reference) (nextId : NodeId)
    (inLine : let start := inlineSubject ⟨T, options, []⟩ d [] refmap nextId
      ReferencesInLine ⟨T, options, []⟩ chars (inlineStates ⟨T, options, []⟩ chars start.input.length start)) :
    SameContent (parseInlines ⟨T, options, []⟩ chars (inlineSubject ⟨T, options, []⟩ d [] refmap nextId))
      (parseInlines ⟨T, options', []⟩ chars (inlineSubject ⟨T, options, []⟩ d [] refmap nextId)) := by
  extract_lets start at inLine
  generalize all : inlineStates ⟨T, options, []⟩ chars start.input.length start = states at inLine
  -- the relation: what was parsed so far and what follows are the states of the run
  refine same_parseInlines (R := fun fuel subj subj' => ∃ past,
      states = past ++ inlineStates ⟨T, options, []⟩ chars fuel subj ∧
        SameColumns ⟨T, options, []⟩ ⟨T, options', []⟩ chars past subj subj') agrees ?_ ?_
  · refine ⟨?_, ?_⟩
    · rintro fuel subj subj' ⟨past, run, columns⟩ same notEnd
      rw [inlineStates, if_neg notEnd] at run
      refine columns.closedLiteral_eq same agrees.footnotes ?_
      have here := inLine past.length (by rw [run]; simp)
      simpa [run] using here
    · rintro fuel subj subj' next next' ⟨past, run, columns⟩ same notEnd parsed parsed' content
      rw [inlineStates, if_neg notEnd, parsed] at run
      have inside : subj.pos < subj.input.length := by simpa [Subject.isEof] using notEnd
      exact ⟨past ++ [subj], by rw [run, List.append_assoc]; rfl,
        columns.step same agrees.preserveWhitespace inside notNul parsed parsed' content⟩
  · have laidOut (o : Options) : ∃ marks, Layout ⟨T, o, []⟩ start marks :=
      ⟨[], Layout.start _ refmap nextId (accepts_block block (extensionOf_core rfl d))⟩
    refine ⟨[], ?_, ?_⟩
    · rw [List.nil_append]
      exact all.symm
    · exact ⟨fun _ none => absurd none List.not_mem_nil, fun _ => rfl, fun _ none => absurd none List.not_mem_nil,
        laidOut options, laidOut options'⟩

/-! ### The inlines of all blocks -/

section

variable {T : Tables} {options options' : Options}

theorem same_parseBlockInlines (chars : CharTables) (agrees : SameInlineOptions options options')
    (st : InlineState) (d : NodeData) (children : Forest)
    (run : let start := inlineSubject ⟨T, options, []⟩ d children st.refmap st.nextId
      SameContent (parseInlines ⟨T, options, []⟩ chars start) (parseInlines ⟨T, options', []⟩ chars start)) :
    (parseBlockInlines ⟨T, options', []⟩ chars st d children).1 =
        (parseBlockInlines ⟨T, options, []⟩ chars st d children).1 ∧
      SameForest (parseBlockInlines ⟨T, options, []⟩ chars st d children).2
        (parseBlockInlines ⟨T, options', []⟩ chars st d children).2 := by
  have start : inlineSubject ⟨T, options', []⟩ d children st.refmap st.nextId =
      inlineSubject ⟨T, options, []⟩ d children st.refmap st.nextId := by
    unfold inlineSubject
    rw [agrees.preserveWhitespace]
  obtain ⟨line, columnOffset, forest, moved, same⟩ := run
  unfold parseBlockInlines
  rw [start]
  dsimp only
  rw [moved]
  exact ⟨rfl, same⟩

mutual

theorem same_processInlines (chars : CharTables) (agrees : SameInlineOptions options options')
    (st : InlineState) : (n : Node) →
    (∀ subj ∈ blockSubjects ⟨T, options, []⟩ chars st n,
      SameContent (parseInlines ⟨T, options, []⟩ chars subj) (parseInlines ⟨T, options', []⟩ chars subj)) →
    (processInlines ⟨T, options', []⟩ chars st n).1 = (processInlines ⟨T, options, []⟩ chars st n).1 ∧
      SameNode (processInlines ⟨T, options, []⟩ chars st n).2 (processInlines ⟨T, options', []⟩ chars st n).2
  | .mk i d children, runs => by
    have contains : containsInlines ⟨T, options', []⟩ d = containsInlines ⟨T, options, []⟩ d := rfl
    rw [blockSubjects] at runs
    rw [processInlines, processInlines, contains]
    by_cases inlines : containsInlines ⟨T, options, []⟩ d
    · rw [if_pos inlines] at runs ⊢
      rw [if_pos inlines]
      obtain ⟨state, forest⟩ := same_parseBlockInlines chars agrees st d children (runs _ List.mem_cons_self)
      exact ⟨state, sameNode_mk.mpr ⟨rfl, forest⟩⟩
    · rw [if_neg inlines] at runs ⊢
      rw [if_neg inlines]
      obtain ⟨state, forest⟩ := same_processInlinesList chars agrees st children runs
      exact ⟨state, sameNode_mk.mpr ⟨rfl, forest⟩⟩

theorem same_processInlinesList (chars : CharTables) (agrees : SameInlineOptions options options')
    (st : InlineState) : (ns : Forest) →
    (∀ subj ∈ blockSubjectsList ⟨T, options, []⟩ chars st ns,
      SameContent (parseInlines ⟨T, options, []⟩ chars subj) (parseInlines ⟨T, options', []⟩ chars subj)) →
    (processInlinesList ⟨T, options', []⟩ chars st ns).1 = (processInlinesList ⟨T, options, []⟩ chars st ns).1 ∧
      SameForest (processInlinesList ⟨T, options, []⟩ chars st ns).2
        (processInlinesList ⟨T, options', []⟩ chars st ns).2
  | [], _ => ⟨rfl, .refl _⟩
  | n :: ns, runs => by
    rw [blockSubjectsList, List.forall_mem_append] at runs
    obtain ⟨state, node⟩ := same_processInlines chars agrees st n runs.1
    obtain ⟨states, forest⟩ := same_processInlinesList chars agrees _ ns runs.2
    rw [processInlinesList, processInlinesList]
    dsimp only
    rw [state]
    exact ⟨states, .cons node forest⟩

end

end

/-! ### Footnotes -/

section

variable (T : Tables) (options options' : Options)

mutual

theorem SameNode.exits (t : NodeType) : (n n' : Node) → SameNode n n' →
    SameForest (n.exits t) (n'.exits t)
  | .mk i d cs, .mk i' d' cs', same => by
    obtain rfl : i' = i := same.id_eq
    have type : d'.type = d.type := same.type_eq
    rw [Node.exits, Node.exits, type]
    refine (SameForest.exitsList t cs cs' same.children).append ?_
    split
    next => exact .cons same (.refl _)
    next => exact .refl _

theorem SameForest.exitsList (t : NodeType) : (f f' : Forest) → SameForest f f' →
    SameForest (exitsList t f) (CmarkGfm.exitsList t f')
  | [], _, same => by
    rw [same.nil_eq]
    exact .refl _
  | n :: f, _, same => by
    obtain ⟨n', f', rfl, first, rest⟩ := same.cases
    exact (SameNode.exits t n n' first).append (SameForest.exitsList t f f' rest)

end

theorem same_collectFootnotes {n n' : Node} (same : SameNode n n') :
    collectFootnotes T n' = collectFootnotes T n := by
  have definitions := SameNode.exits .footnoteDefinition n n' same
  unfold collectFootnotes
  generalize n.exits .footnoteDefinition = l at definitions ⊢
  generalize n'.exits .footnoteDefinition = l' at definitions ⊢
  generalize Map.new = map
  induction l generalizing l' map with
  | nil => rw [SameForest.nil_eq definitions]
  | cons m l ih =>
    obtain ⟨m', l', rfl, first, rest⟩ := SameForest.cases definitions
    rw [List.foldl_cons, List.foldl_cons, first.literal_eq, first.id_eq]
    exact ih l' rest _

theorem same_resolveFootnote (st : FootnoteState) {owner owner' : NodeData} (i : NodeId)
    {cur cur' : NodeData} (parent : owner'.type = owner.type)
    (same : cur'.withoutPlace = cur.withoutPlace) :
    (resolveFootnote ⟨T, options', []⟩ st owner' i cur').1 =
        (resolveFootnote ⟨T, options, []⟩ st owner i cur).1 ∧
      SameForest (resolveFootnote ⟨T, options, []⟩ st owner i cur).2
        (resolveFootnote ⟨T, options', []⟩ st owner' i cur').2 := by
  have literal : cur'.as.getLiteral = cur.as.getLiteral := congrArg (fun d => d.as.getLiteral) same
  unfold resolveFootnote
  rw [literal]
  dsimp only
  generalize mapLookup T st.map cur.as.getLiteral = r
  obtain ⟨map, found⟩ := r
  cases found with
  | none =>
    dsimp only
    rw [nodeCanContainType_core rfl, nodeCanContainType_core rfl, parent]
    exact ⟨rfl, .refl _⟩
  | some entry =>
    refine ⟨rfl, .cons (sameNode_mk.mpr ⟨?_, .refl _⟩) (.refl _)⟩
    have data := congrArg (fun d : NodeData => { d with
      parentFootnoteDef := some entry.value
      refIx := st.defCount entry.value + 1
      as := .literal (decimal (if st.ix entry.value = 0 then st.lastIx + 1 else st.ix entry.value)) }) same
    exact data

mutual

theorem same_resolveFootnotes (st : FootnoteState) : (n n' : Node) → SameNode n n' →
    (resolveFootnotes ⟨T, options', []⟩ st n').1 = (resolveFootnotes ⟨T, options, []⟩ st n).1 ∧
      SameNode (resolveFootnotes ⟨T, options, []⟩ st n).2 (resolveFootnotes ⟨T, options', []⟩ st n').2
  | .mk i d cs, .mk i' d' cs', same => by
    obtain rfl : i' = i := same.id_eq
    obtain ⟨data, children⟩ := sameNode_mk.mp same
    obtain ⟨state, forest⟩ := same_resolveFootnotesList st cs cs' same.type_eq children
    rw [resolveFootnotes, resolveFootnotes]
    exact ⟨state, sameNode_mk.mpr ⟨data, forest⟩⟩

theorem same_resolveFootnotesList {owner owner' : NodeData} (st : FootnoteState) : (f f' : Forest) →
    owner'.type = owner.type → SameForest f f' →
    (resolveFootnotesList ⟨T, options', []⟩ owner' st f').1 =
        (resolveFootnotesList ⟨T, options, []⟩ owner st f).1 ∧
      SameForest (resolveFootnotesList ⟨T, options, []⟩ owner st f).2
        (resolveFootnotesList ⟨T, options', []⟩ owner' st f').2
  | [], _, _, same => by
    rw [same.nil_eq]
    exact ⟨rfl, .refl _⟩
  | n :: f, _, parent, same => by
    obtain ⟨n', f', rfl, first, rest⟩ := same.cases
    obtain ⟨state, node⟩ := same_resolveFootnotes st n n' first
    rw [resolveFootnotesList, resolveFootnotesList]
    dsimp only
    rw [state, node.type_eq, node.id_eq]
    have resolved : ∀ r r' : FootnoteState × Forest, r'.1 = r.1 → SameForest r.2 r'.2 →
        (resolveFootnotesList ⟨T, options', []⟩ owner' r'.1 f').1 =
            (resolveFootnotesList ⟨T, options, []⟩ owner r.1 f).1 ∧
          SameForest (r.2 ++ (resolveFootnotesList ⟨T, options, []⟩ owner r.1 f).2)
            (r'.2 ++ (resolveFootnotesList ⟨T, options', []⟩ owner' r'.1 f').2) := by
      rintro ⟨st, nodes⟩ ⟨st', nodes'⟩ states forests
      obtain rfl : st' = st := states
      obtain ⟨later, others⟩ := same_resolveFootnotesList st' f f' parent rest
      exact ⟨later, forests.append others⟩
    split
    next =>
      have both := same_resolveFootnote T options options' (resolveFootnotes ⟨T, options, []⟩ st n).1
        (resolveFootnotes ⟨T, options, []⟩ st n).2.id parent node.data_eq
      exact resolved _ _ both.1 both.2
    next => exact resolved _ _ rfl (.cons node (.refl _))

end

mutual

theorem SameNode.unlinkAll (ids : List NodeId) : (n n' : Node) → SameNode n n' →
    SameNode (n.unlinkAll ids) (n'.unlinkAll ids)
  | .mk i d cs, .mk i' d' cs', same => by
    obtain rfl : i' = i := same.id_eq
    obtain ⟨data, children⟩ := sameNode_mk.mp same
    rw [Node.unlinkAll, Node.unlinkAll]
    exact sameNode_mk.mpr ⟨data, SameForest.unlinkAllList ids cs cs' children⟩

theorem SameForest.unlinkAllList (ids : List NodeId) : (f f' : Forest) → SameForest f f' →
    SameForest (unlinkAllList ids f) (CmarkGfm.unlinkAllList ids f')
  | [], _, same => by
    rw [same.nil_eq]
    exact .refl _
  | n :: f, _, same => by
    obtain ⟨n', f', rfl, first, rest⟩ := same.cases
    rw [CmarkGfm.unlinkAllList, CmarkGfm.unlinkAllList, first.id_eq]
    split
    next => exact SameForest.unlinkAllList ids f f' rest
    next => exact .cons (SameNode.unlinkAll ids n n' first) (SameForest.unlinkAllList ids f f' rest)

end

theorem SameForest.map {f f' : Forest} (same : SameForest f f') {g : Node → Node}
    (step : ∀ n n', SameNode n n' → SameNode (g n) (g n')) : SameForest (f.map g) (f'.map g) := by
  induction f generalizing f' with
  | nil => exact same.nil_eq ▸ .refl _
  | cons n f ih =>
    obtain ⟨n', f', rfl, first, rest⟩ := same.cases
    exact .cons (step n n' first) (ih rest)

theorem SameForest.usedFootnotes {f f' : Forest} (same : SameForest f f') (st : FootnoteState) :
    SameForest (usedFootnotes st f) (CmarkGfm.usedFootnotes st f') := by
  have filtered := same.filter (p := fun n => st.ix n.id != 0) fun n n' both => by rw [both.id_eq]
  unfold CmarkGfm.usedFootnotes
  unfold SameForest withoutPlaces at filtered ⊢
  rw [mapDataList_eq, mapDataList_eq] at filtered ⊢
  have sorted : ∀ l : Forest, (l.mergeSort fun a b => st.ix a.id ≤ st.ix b.id).map
        (Node.mapData fun _ d => d.withoutPlace) =
      (l.map (Node.mapData fun _ d => d.withoutPlace)).mergeSort fun a b => st.ix a.id ≤ st.ix b.id :=
    fun l => List.map_mergeSort fun a _ b _ => by rw [id_mapData, id_mapData]
  rw [sorted, sorted, filtered]

mutual

theorem SameNode.mapData {g : NodeId → NodeData → NodeData}
    (step : ∀ i d d', d'.withoutPlace = d.withoutPlace → (g i d').withoutPlace = (g i d).withoutPlace) :
    (n n' : Node) → SameNode n n' → SameNode (n.mapData g) (n'.mapData g)
  | .mk i d cs, .mk i' d' cs', same => by
    obtain rfl : i' = i := same.id_eq
    obtain ⟨data, children⟩ := sameNode_mk.mp same
    rw [Node.mapData, Node.mapData]
    exact sameNode_mk.mpr ⟨step i' d d' data, SameForest.mapDataList step cs cs' children⟩

theorem SameForest.mapDataList {g : NodeId → NodeData → NodeData}
    (step : ∀ i d d', d'.withoutPlace = d.withoutPlace → (g i d').withoutPlace = (g i d).withoutPlace) :
    (f f' : Forest) → SameForest f f' → SameForest (mapDataList g f) (CmarkGfm.mapDataList g f')
  | [], _, same => by
    rw [same.nil_eq]
    exact .refl _
  | n :: f, _, same => by
    obtain ⟨n', f', rfl, first, rest⟩ := same.cases
    exact .cons (SameNode.mapData step n n' first) (SameForest.mapDataList step f f' rest)

end

theorem same_processFootnotes (nextId : NodeId) {n n' : Node} (same : SameNode n n') :
    SameNode (processFootnotes ⟨T, options, []⟩ nextId n)
      (processFootnotes ⟨T, options', []⟩ nextId n') := by
  have map := same_collectFootnotes T same
  unfold processFootnotes
  dsimp only
  rw [map]
  generalize collectFootnotes T n = map
  obtain ⟨state, resolved⟩ := same_resolveFootnotes T options options'
    { map := map, nextId := nextId } n n' same
  rw [state]
  generalize (resolveFootnotes ⟨T, options, []⟩ { map := map, nextId := nextId } n).1 = st
  have counted := SameNode.mapData (g := st.writeDefCount) (fun i d d' data => ?_) _ _ resolved
  · generalize (resolveFootnotes ⟨T, options, []⟩ { map := map, nextId := nextId } n).2.mapData
      st.writeDefCount = root at counted ⊢
    generalize (resolveFootnotes ⟨T, options', []⟩ { map := map, nextId := nextId } n').2.mapData
      st.writeDefCount = root' at counted ⊢
    rw [counted.id_eq]
    refine sameNode_mk.mpr ⟨counted.data_eq, ?_⟩
    refine (SameForest.unlinkAllList _ _ _ counted.children).append (SameForest.map ?_ ?_)
    · refine SameForest.usedFootnotes (SameForest.filter (SameNode.exits _ _ _ counted) ?_) st
      exact fun _ _ both => by rw [both.id_eq]
    · exact fun _ _ both => SameNode.unlinkAll _ _ _ both
  · have type : d'.type = d.type := NodeData.type_eq data
    have written := congrArg (fun d : NodeData => { d with refIx := st.defCount i }) data
    unfold FootnoteState.writeDefCount
    by_cases definition : d.type = .footnoteDefinition
    · rw [if_pos definition, if_pos (type.trans definition)]
      exact written
    · rw [if_neg definition, if_neg (type ▸ definition)]
      exact data

end

/-! ### Text nodes -/

theorem mergeText_withoutPlace {cur cur' tmp tmp' : NodeData}
    (first : cur'.withoutPlace = cur.withoutPlace) (second : tmp'.withoutPlace = tmp.withoutPlace) :
    (mergeText cur' tmp').withoutPlace = (mergeText cur tmp).withoutPlace := by
  have literals : cur'.as.getLiteral ++ tmp'.as.getLiteral =
      cur.as.getLiteral ++ tmp.as.getLiteral := by
    have both := congrArg₂ (fun d e : NodeData => d.as.getLiteral ++ e.as.getLiteral) first second
    exact both
  have merged := congrArg (fun d : NodeData => { d with
    as := .literal (cur.as.getLiteral ++ tmp.as.getLiteral), chunkPos := none }) first
  unfold mergeText
  rw [literals]
  exact merged

mutual

theorem same_consolidateTextNodes : (n n' : Node) → SameNode n n' →
    SameNode (consolidateTextNodes n) (consolidateTextNodes n')
  | .mk i d cs, .mk i' d' cs', same => by
    obtain rfl : i' = i := same.id_eq
    obtain ⟨data, children⟩ := sameNode_mk.mp same
    rw [consolidateTextNodes, consolidateTextNodes]
    exact sameNode_mk.mpr ⟨data, same_consolidateList cs cs' children⟩

theorem same_consolidateList : (f f' : Forest) → SameForest f f' →
    SameForest (consolidateList f) (consolidateList f')
  | [], _, same => by
    rw [same.nil_eq]
    exact .refl _
  | n :: f, _, same => by
    obtain ⟨n', f', rfl, first, rest⟩ := same.cases
    have node := same_consolidateTextNodes n n' first
    have others := same_consolidateList f f' rest
    rw [consolidateList, consolidateList]
    generalize consolidateTextNodes n = m at node ⊢
    generalize consolidateTextNodes n' = m' at node ⊢
    generalize consolidateList f = l at others ⊢
    generalize consolidateList f' = l' at others ⊢
    obtain ⟨i, cur, cs⟩ := m
    obtain ⟨i', cur', cs'⟩ := m'
    obtain rfl : i' = i := node.id_eq
    obtain ⟨data, children⟩ := sameNode_mk.mp node
    cases l with
    | nil =>
      rw [others.nil_eq]
      have alone : SameForest [.mk i' cur cs] [.mk i' cur' cs'] := .cons node (.refl _)
      cases cs with
      | nil =>
        rw [children.nil_eq] at alone ⊢
        exact alone
      | cons c cs =>
        obtain ⟨c', cs', rfl, _, _⟩ := children.cases
        exact alone
    | cons next later =>
      obtain ⟨next', later', rfl, second, remaining⟩ := others.cases
      obtain ⟨j, tmp, ds⟩ := next
      obtain ⟨j', tmp', ds'⟩ := next'
      obtain rfl : j' = j := second.id_eq
      obtain ⟨data', children'⟩ := sameNode_mk.mp second
      cases cs with
      | nil =>
        rw [children.nil_eq]
        dsimp only
        rw [NodeData.type_eq data, NodeData.type_eq data']
        split
        next => exact .cons (sameNode_mk.mpr ⟨mergeText_withoutPlace data data', .refl _⟩) remaining
        next =>
          exact .cons (sameNode_mk.mpr ⟨data, .refl _⟩)
            (.cons (sameNode_mk.mpr ⟨data', children'⟩) remaining)
      | cons c cs =>
        obtain ⟨c', cs', rfl, _, _⟩ := children.cases
        exact .cons node (.cons second remaining)

end

/-! ### The document -/

/-- A mask without `CMARK_OPT_SOURCEPOS` does not see it. -/
theorem has_or_sourcepos (options : Options) {mask : Nat} (other : optSourcepos &&& mask = 0) :
    Options.has (options ||| optSourcepos) mask = options.has mask := by
  unfold Options.has
  rw [Nat.and_or_distrib_right, other, Nat.or_zero]

theorem sameBlockOptions_sourcepos (options : Options) :
    SameBlockOptions options (options ||| optSourcepos) where
  validateUtf8 := has_or_sourcepos options rfl
  preserveWhitespace := has_or_sourcepos options rfl
  inlineOnly := has_or_sourcepos options rfl
  footnotes := has_or_sourcepos options rfl

theorem sameInlineOptions_sourcepos (options : Options) :
    SameInlineOptions options (options ||| optSourcepos) where
  smart := has_or_sourcepos options rfl
  preserveWhitespace := has_or_sourcepos options rfl
  liberalHtmlTag := has_or_sourcepos options rfl
  footnotes := has_or_sourcepos options rfl

section

variable {T : Tables} {options options' : Options} (blocks : SameBlockOptions options options')
  (inlines : SameInlineOptions options options')

include blocks

theorem same_finalizeBlocks (p : ParserState) :
    finalizeBlocks ⟨T, options', []⟩ p = finalizeBlocks ⟨T, options, []⟩ p := by
  have close : ∀ (fuel : Nat) (p : ParserState),
      closeToRoot ⟨T, options', []⟩ fuel p = closeToRoot ⟨T, options, []⟩ fuel p := by
    intro fuel
    induction fuel with
    | zero => exact fun _ => rfl
    | succ fuel ih =>
      intro p
      simp only [closeToRoot, blocks.finalize, ih]
  unfold finalizeBlocks
  rw [close, blocks.finalize]

theorem same_finalizedDocument (chars : CharTables) (feed : Feed) (state : ParserState) :
    finalizedDocument ⟨⟨T, options', []⟩, chars, feed, state⟩ =
      finalizedDocument ⟨⟨T, options, []⟩, chars, feed, state⟩ := by
  unfold finalizedDocument
  dsimp only
  rw [same_finalizeBlocks blocks]

/-- The lines leave both parsers in the same state. -/
theorem same_flushParser (callback : Option (UInt8 → Bool)) (chunks : List Bytes) :
    ∃ chars feed state,
      flushParser (chunks.foldl cmarkParserFeed (parserNew ⟨T, options, []⟩ callback)) =
          ⟨⟨T, options, []⟩, chars, feed, state⟩ ∧
        flushParser (chunks.foldl cmarkParserFeed (parserNew ⟨T, options', []⟩ callback)) =
          ⟨⟨T, options', []⟩, chars, feed, state⟩ := by
  have run : ∀ o : Options, flushParser (chunks.foldl cmarkParserFeed (parserNew ⟨T, o, []⟩ callback)) =
      let preserve := o.has optPreserveWhitespace
      let st := feedChunks (processLine ⟨T, o, []⟩) preserve ({}, initialState) chunks
      let last := flushLine (processLine ⟨T, o, []⟩) preserve st.1 st.2
      ⟨⟨T, o, []⟩, { defaultCharTables with backslashIspunct := callback }, last.1, last.2⟩ := by
    intro o
    rw [parserNew, foldl_cmarkParserFeed]
    rfl
  refine ⟨_, _, _, run options, ?_⟩
  rw [run options', blocks.processLine, blocks.preserveWhitespace]

include inlines

theorem same_finalizeDocument (chars : CharTables) (feed : Feed) (state : ParserState)
    (runs : let parser : Parser := ⟨⟨T, options, []⟩, chars, feed, state⟩
      let chars := manageExtensionsSpecialCharacters ⟨T, options, []⟩ true chars
      ∀ subj ∈ blockSubjects ⟨T, options, []⟩ chars (finalizedDocument parser).1 (finalizedDocument parser).2,
        SameContent (parseInlines ⟨T, options, []⟩ chars subj) (parseInlines ⟨T, options', []⟩ chars subj)) :
    SameNode (finalizeDocument ⟨⟨T, options, []⟩, chars, feed, state⟩).2
      (finalizeDocument ⟨⟨T, options', []⟩, chars, feed, state⟩).2 := by
  have start := same_finalizedDocument (T := T) blocks chars feed state
  have tables : manageExtensionsSpecialCharacters ⟨T, options', []⟩ true chars =
      manageExtensionsSpecialCharacters ⟨T, options, []⟩ true chars := rfl
  unfold finalizeDocument
  rw [start]
  dsimp only at runs ⊢
  rw [tables]
  generalize finalizedDocument ⟨⟨T, options, []⟩, chars, feed, state⟩ = r at runs ⊢
  obtain ⟨st, root⟩ := r
  have parsed := same_processInlines _ inlines st root runs
  dsimp only
  rw [parsed.1, inlines.footnotes]
  split
  next => exact same_processFootnotes T options options' _ parsed.2
  next => exact parsed.2

theorem same_documentOf (callback : Option (UInt8 → Bool)) (chunks : List Bytes)
    (runs : let parser := flushedParser ⟨T, options, []⟩ callback chunks
      let chars := manageExtensionsSpecialCharacters ⟨T, options, []⟩ true parser.chars
      ∀ subj ∈ blockSubjects ⟨T, options, []⟩ chars (finalizedDocument parser).1 (finalizedDocument parser).2,
        SameContent (parseInlines ⟨T, options, []⟩ chars subj) (parseInlines ⟨T, options', []⟩ chars subj)) :
    SameNode (documentOf ⟨T, options, []⟩ callback chunks) (documentOf ⟨T, options', []⟩ callback chunks) := by
  obtain ⟨chars, feed, state, flushed, flushed'⟩ := same_flushParser (T := T) blocks callback chunks
  unfold flushedParser at runs
  unfold documentOf parserFinish
  rw [flushed] at runs
  rw [flushed, flushed']
  exact same_consolidateTextNodes _ _ (same_finalizeDocument blocks inlines chars feed state runs)

end

/-- Every footnote reference of the document is in line. -/
def FootnotesInLine (P : Config) (callback : Option (UInt8 → Bool)) (chunks : List Bytes) : Prop :=
  let parser := flushedParser P callback chunks
  let chars := manageExtensionsSpecialCharacters P true parser.chars
  ∀ subj ∈ blockSubjects P chars (finalizedDocument parser).1 (finalizedDocument parser).2,
    ReferencesInLine P chars (inlineStates P chars subj.input.length subj)

instance (P : Config) (callback : Option (UInt8 → Bool)) (chunks : List Bytes) :
    Decidable (FootnotesInLine P callback chunks) := inferInstanceAs (Decidable (∀ subj ∈ _, _))

/-- Source positions do not influence the content of a document whose footnote references are in line, whatever
stands in memory behind its texts. -/
theorem documentOf_sourcepos (T : Tables) (options : Options) (callback : Option (UInt8 → Bool))
    (notNul : callback.getD ispunct 0 = false) (chunks : List Bytes)
    (inLine : FootnotesInLine ⟨T, options, []⟩ callback chunks) :
    (documentOf ⟨T, options ||| optSourcepos, []⟩ callback chunks).withoutPlaces =
      (documentOf ⟨T, options, []⟩ callback chunks).withoutPlaces := by
  have agrees := sameInlineOptions_sourcepos options
  refine same_documentOf (sameBlockOptions_sourcepos options) agrees callback chunks fun subj member => ?_
  obtain ⟨d, refmap, nextId, block, rfl⟩ := mem_documentSubjects rfl callback chunks member
  have kept := backslashIspunct_flushedParser (P := ⟨T, options, []⟩) callback chunks
  exact same_parseInlines_of_inLine agrees (kept.symm ▸ notNul) block refmap nextId (inLine _ member)

/-- A code span of two lines stands before the footnote reference. -/
theorem documentOf_sourcepos_reference :
    (documentOf ⟨asciiTables, optFootnotes ||| optSourcepos, []⟩ none
        [lit "`x\ny` [^a]\n\n[^a]: b"]).withoutPlaces =
      (documentOf ⟨asciiTables, optFootnotes, []⟩ none [lit "`x\ny` [^a]\n\n[^a]: b"]).withoutPlaces :=
  documentOf_sourcepos asciiTables optFootnotes none rfl _ (by decide +kernel)

/-- A code span of two lines stands inside the footnote reference, whose literal ends too early when
source positions are counted. -/
theorem sourcepos_cuts_footnote :
    (documentOf ⟨asciiTables, optFootnotes ||| optSourcepos, []⟩ none [lit "[^`x\ny` b]"]).withoutPlaces ≠
      (documentOf ⟨asciiTables, optFootnotes, []⟩ none [lit "[^`x\ny` b]"]).withoutPlaces := by
  intro same
  have texts := congrArg (fun tree => (tree.exits .text).map Node.literal) same
  revert texts
  decide +kernel

/-- Without footnotes no literal is cut out of the text, and the content is always the same. -/
theorem documentOf_sourcepos_withoutFootnotes (T : Tables) {options : Options}
    (footnotes : options.has optFootnotes = false) (callback : Option (UInt8 → Bool))
    (chunks : List Bytes) :
    (documentOf ⟨T, options ||| optSourcepos, []⟩ callback chunks).withoutPlaces =
      (documentOf ⟨T, options, []⟩ callback chunks).withoutPlaces := by
  have uncut {o : Options} (off : o.has optFootnotes = false) (subj : Subject) :
      closedLiteral ⟨T, o, []⟩ subj = none := by
    have text : ∀ opener, footnoteText ⟨T, o, []⟩ subj opener = none := fun opener => by
      unfold footnoteText
      rw [off]
      rfl
    unfold closedLiteral referenceOf
    simp [text]
  have agrees := sameInlineOptions_sourcepos options
  refine same_documentOf (sameBlockOptions_sourcepos options) agrees callback chunks fun subj _ => ?_
  refine same_parseInlines (R := fun _ _ _ => True) agrees ⟨fun _ _ _ => ?_, fun _ _ _ _ _ _ => trivial⟩ trivial
  rw [uncut (agrees.footnotes.trans footnotes), uncut footnotes]

end CmarkGfm
