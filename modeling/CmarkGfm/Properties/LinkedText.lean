import CmarkGfm.Properties.AutolinkColumns
import CmarkGfm.Properties.MailLinks
import CmarkGfm.Properties.PreservedText

/-!
# Autolinks among text

A link takes letters back from the text nodes before it, but never from another link: behind a link stands only
what was trimmed off it, up to the next space, and this is neither a letter nor the beginning of `://`.
-/

namespace CmarkGfm

/-! ### What is trimmed off a link -/

/-- The characters that `autolink_delim` takes off the end of a link without entities. -/
def isTrimmed (c : UInt8) : Bool := trimsAtEnd c || c == chr ')' || c == chr ';'

/-- Behind this position there are only characters that are trimmed off a link, up to a space or the end. -/
def EndsWord (s : Bytes) (pos : Nat) : Prop :=
  ∃ stop, pos ≤ stop ∧ (∀ k, pos ≤ k → k < stop → isTrimmed (byteAt s k) = true) ∧
    (s.length ≤ stop ∨ isspace (byteAt s stop) = true)

theorem byteAt_of_getElem? {data : Bytes} {i : Nat} {c : UInt8} (here : data[i]? = some c) : byteAt data i = c := by
  simp [byteAt, List.getD_eq_getElem?_getD, here]

section

variable {data : Bytes}

/-- Without `&` every turn of the loop takes off one character. -/
theorem trimEnd_trims (plain : ∀ c ∈ data, c ≠ chr '&') {opening fuel closing linkEnd r : Nat}
    (trims : trimEnd data opening fuel closing linkEnd = some r) :
    r ≤ linkEnd ∧ ∀ k, r ≤ k → k < linkEnd → isTrimmed (byteAt data k) = true := by
  induction fuel generalizing closing linkEnd with
  | zero =>
    rw [trimEnd] at trims
    split_ifs at trims with zero
    obtain rfl : 0 = r := Option.some.inj trims
    exact ⟨Nat.zero_le _, fun k _ below => by omega⟩
  | succ fuel ih =>
    rw [trimEnd] at trims
    by_cases zero : linkEnd = 0
    · rw [if_pos zero] at trims
      obtain rfl : 0 = r := Option.some.inj trims
      exact ⟨Nat.zero_le _, fun k _ below => by omega⟩
    rw [if_neg zero] at trims
    obtain ⟨linkEnd, rfl⟩ := Nat.exists_eq_succ_of_ne_zero zero
    rw [Nat.succ_sub_one] at trims
    obtain ⟨c, here, trims⟩ := Option.bind_eq_some_iff.mp trims
    have byte : byteAt data linkEnd = c := byteAt_of_getElem? here
    have kept : linkEnd + 1 = r →
        r ≤ linkEnd + 1 ∧ ∀ k, r ≤ k → k < linkEnd + 1 → isTrimmed (byteAt data k) = true := by
      rintro rfl
      exact ⟨le_rfl, fun k low high => by omega⟩
    have next {closing : Nat} (trimmed : isTrimmed c = true)
        (later : trimEnd data opening fuel closing linkEnd = some r) :
        r ≤ linkEnd + 1 ∧ ∀ k, r ≤ k → k < linkEnd + 1 → isTrimmed (byteAt data k) = true := by
      obtain ⟨shorter, behind⟩ := ih later
      refine ⟨Nat.le_succ_of_le shorter, fun k low high => ?_⟩
      rcases Nat.lt_succ_iff_lt_or_eq.mp high with before | rfl
      · exact behind k low before
      · rw [byte]
        exact trimmed
    by_cases closes : c = chr ')'
    · rw [if_pos closes] at trims
      split_ifs at trims
      · exact kept (Option.some.inj trims)
      · apply next _ trims
        rw [closes]
        decide
    rw [if_neg closes] at trims
    by_cases trimmed : trimsAtEnd c = true
    · rw [if_pos trimmed] at trims
      apply next _ trims
      simp [isTrimmed, trimmed]
    rw [if_neg trimmed] at trims
    by_cases semicolon : c = chr ';'
    · rw [if_pos semicolon] at trims
      -- there is no entity
      obtain ⟨last, _, trims⟩ := Option.bind_eq_some_iff.mp trims
      obtain ⟨newEnd, _, trims⟩ := Option.bind_eq_some_iff.mp trims
      obtain ⟨first, found, trims⟩ := Option.bind_eq_some_iff.mp trims
      have notEntity : first ≠ chr '&' := plain first (List.mem_of_getElem? found)
      rw [if_neg (by simp [notEntity])] at trims
      apply next _ trims
      rw [semicolon]
      decide
    · rw [if_neg semicolon] at trims
      exact kept (Option.some.inj trims)

/-- Without `<` all parentheses are counted. -/
theorem countParens_end (plain : ∀ c ∈ data, c ≠ chr '<') {linkEnd fuel i closing opening : Nat} {r : Nat × Nat × Nat}
    (counts : countParens data linkEnd fuel i closing opening = some r) : r.1 = linkEnd := by
  induction fuel generalizing i closing opening with
  | zero => rw [← Option.some.inj counts]
  | succ fuel ih =>
    rw [countParens] at counts
    split_ifs at counts with more
    · obtain ⟨c, here, counts⟩ := Option.bind_eq_some_iff.mp counts
      rw [if_neg (plain c (List.mem_of_getElem? here))] at counts
      split_ifs at counts
      · exact ih counts
      · exact ih counts
      · exact ih counts
    · rw [← Option.some.inj counts]

theorem linkEndFrom_endsWord (plain : ∀ c ∈ data, c ≠ chr '<' ∧ c ≠ chr '&') {domain linkEnd : Nat}
    (ends : linkEndFrom data domain = some linkEnd) : EndsWord data linkEnd := by
  rw [linkEndFrom] at ends
  have stopped (inside : skipWhile (fun c => !isspace c && c != chr '<') data domain < data.length) :=
    not_holds_at_skipWhile inside
  generalize skipWhile (fun c => !isspace c && c != chr '<') data domain = stop at ends stopped
  obtain ⟨⟨linkEnd', closing, opening⟩, counts, trims⟩ := Option.bind_eq_some_iff.mp ends
  obtain rfl : linkEnd' = stop := countParens_end (fun c among => (plain c among).1) counts
  obtain ⟨shorter, behind⟩ := trimEnd_trims (fun c among => (plain c among).2) trims
  refine ⟨linkEnd', shorter, behind, ?_⟩
  by_cases inside : linkEnd' < data.length
  · right
    have byte := stopped inside
    have noBracket : byteAt data linkEnd' ≠ chr '<' := byteAt_ne (by decide) (fun c among => (plain c among).1) _
    simpa [noBracket] using byte
  · exact .inl (Nat.not_lt.mp inside)

theorem EndsWord.of_drop {pos i : Nat} (ends : EndsWord (data.drop pos) i) : EndsWord data (pos + i) := by
  obtain ⟨stop, shorter, behind, last⟩ := ends
  refine ⟨pos + stop, by omega, fun k low high => ?_, ?_⟩
  · obtain ⟨j, rfl⟩ := Nat.exists_eq_add_of_le (show pos ≤ k by omega)
    rw [← byteAt_drop]
    exact behind j (by omega) (by omega)
  · rw [List.length_drop, byteAt_drop] at last
    exact last.imp_left fun long => by omega

end

theorem not_isalpha_of_isTrimmed {c : UInt8} (trimmed : isTrimmed c = true) : isalpha c = false ∧ c ≠ chr '/' := by
  simp only [isTrimmed, trimsAtEnd, Bool.or_eq_true, beq_iff_eq, List.contains_iff_mem] at trimmed
  rcases trimmed with (trims | rfl) | rfl
  · revert c
    decide
  · decide
  · decide

theorem not_isalpha_of_isspace {c : UInt8} (space : isspace c = true) : isalpha c = false ∧ c ≠ chr '/' ∧ c ≠ chr ':' := by
  have blank : c = 9 ∨ c = 10 ∨ c = 13 ∨ c = 32 := by
    simpa [isspace, or_assoc] using space
  rcases blank with rfl | rfl | rfl | rfl
  all_goals decide

/-- The letters before `:/` are not those at the end of a link. -/
theorem EndsWord.rewind_le {subj : Subject} {stop : Nat} (ends : EndsWord subj.input stop) (behind : stop ≤ subj.pos)
    (colon : byteAt subj.input subj.pos = chr ':') (slash : byteAt subj.input (subj.pos + 1) = chr '/') :
    stop + subj.schemeLength ≤ subj.pos := by
  have inside : subj.pos < subj.input.length := lt_length_of_byteAt_eq colon (by decide)
  have inside' : subj.pos + 1 < subj.input.length := lt_length_of_byteAt_eq slash (by decide)
  have shorter := schemeLength_le (Nat.le_of_lt inside)
  obtain ⟨wordEnd, later, trimmed, last⟩ := ends
  by_contra crosses
  rcases Nat.lt_or_eq_of_le behind with before | rfl
  · -- the byte behind the link is a letter
    have letter : isalpha (byteAt subj.input stop) = true :=
      isalpha_of_rewind (Nat.le_of_lt inside) before (by omega)
    rcases Nat.lt_or_eq_of_le later with some | rfl
    · rw [(not_isalpha_of_isTrimmed (trimmed stop le_rfl some)).1] at letter
      cases letter
    · rcases last with long | space
      · omega
      · rw [(not_isalpha_of_isspace space).1] at letter
        cases letter
  · -- the byte behind the link is the colon, and the slash is not trimmed
    rcases Nat.lt_or_eq_of_le later with some | rfl
    · rcases Nat.lt_or_eq_of_le (Nat.succ_le_of_lt some) with more | same
      · exact (not_isalpha_of_isTrimmed (trimmed (subj.pos + 1) (Nat.le_succ _) more)).2 slash
      · rw [← same] at last
        rcases last with long | space
        · omega
        · exact (not_isalpha_of_isspace space).2.1 slash
    · rcases last with long | space
      · omega
      · exact (not_isalpha_of_isspace space).2.2 colon

/-! ### Texts and links -/

/-- Text nodes, and links with texts in them, that hold the bytes in order. -/
inductive LinkedTexts : Forest → Bytes → Prop
  | nil : LinkedTexts [] []
  | text {i : NodeId} {d : NodeData} {s : Bytes} {f : Forest} {rest : Bytes} (type : d.type = .text)
      (literal : d.as = .literal s) (later : LinkedTexts f rest) : LinkedTexts (.leaf i d :: f) (s ++ rest)
  | link {i : NodeId} {d : NodeData} {s : Bytes} {below f : Forest} {rest : Bytes} (type : d.type = .link)
      (texts : PlainTexts below s) (later : LinkedTexts f rest) : LinkedTexts (.mk i d below :: f) (s ++ rest)

theorem LinkedTexts.append {f g : Forest} {s t : Bytes} (first : LinkedTexts f s) (second : LinkedTexts g t) :
    LinkedTexts (f ++ g) (s ++ t) := by
  induction first with
  | nil => exact second
  | text type literal later ih =>
    rw [List.append_assoc]
    exact .text type literal ih
  | link type texts later ih =>
    rw [List.append_assoc]
    exact .link type texts ih

theorem PlainTexts.linked {f : Forest} {s : Bytes} (texts : PlainTexts f s) : LinkedTexts f s := by
  induction texts with
  | nil => exact .nil
  | cons type literal later ih => exact .text type literal ih

/-- The last of the text nodes. -/
theorem PlainTexts.of_append {f : Forest} {n : Node} {s : Bytes} (texts : PlainTexts (f ++ [n]) s) :
    ∃ t u i d, s = t ++ u ∧ PlainTexts f t ∧ n = .leaf i d ∧ d.type = .text ∧ d.as = .literal u := by
  induction f generalizing s with
  | nil =>
    cases texts with
    | @cons i d u _ rest type literal later =>
      cases later
      exact ⟨[], u, i, d, by simp, .nil, rfl, type, literal⟩
  | cons m f ih =>
    cases texts with
    | cons type literal later =>
      obtain ⟨t, u, i, d, rfl, before, last⟩ := ih later
      exact ⟨_, u, i, d, (List.append_assoc _ _ _).symm, .cons type literal before, last⟩

/-- Bytes are taken back from text nodes that have as many. -/
theorem unputFrom_texts {f : Forest} {s : Bytes} (texts : PlainTexts f s) {n : Nat} (enough : n ≤ s.length)
    (prevs : Forest) :
    ∃ f', unputFrom n (f.reverse ++ prevs) = f'.reverse ++ prevs ∧ PlainTexts f' (s.take (s.length - n)) := by
  induction f using List.reverseRecOn generalizing s n with
  | nil =>
    cases texts
    obtain rfl : n = 0 := Nat.le_zero.mp enough
    exact ⟨[], unputFrom_zero _, .nil⟩
  | append_singleton f last ih =>
    by_cases none : n = 0
    · rw [none, unputFrom_zero, Nat.sub_zero, List.take_length]
      exact ⟨f ++ [last], rfl, texts⟩
    obtain ⟨t, u, i, d, rfl, before, rfl, type, literal⟩ := texts.of_append
    have bytes : (Node.leaf i d).literal = u := by
      rw [Node.literal, Node.data_leaf, literal]
      rfl
    have truncated (m : Nat) : (truncateLiteral m d).as = .literal (u.take m) := by
      rw [truncateLiteral, literal]
      rfl
    have isText : 0 < n ∧ (Node.leaf i d).type = .text := ⟨Nat.pos_of_ne_zero none, type⟩
    rw [List.length_append] at enough
    rw [List.reverse_append, List.reverse_singleton, List.singleton_append, List.cons_append, unputFrom, if_pos isText,
      bytes]
    by_cases less : u.length < n
    · -- all of this text goes, and some of those before it
      obtain ⟨f', later, texts'⟩ := ih before (n := n - u.length) (by omega)
      refine ⟨f' ++ [.leaf i (truncateLiteral 0 d)], ?_, ?_⟩
      · rw [if_pos less, later]
        simp [Node.setData, Node.leaf]
      · have both := texts'.append (.single (i := i) (d := truncateLiteral 0 d) type (truncated 0))
        rw [List.take_zero, List.append_nil] at both
        rw [List.length_append, List.take_append_of_le_length (by omega),
          show t.length + u.length - n = t.length - (n - u.length) by omega]
        exact both
    · refine ⟨f ++ [.leaf i (truncateLiteral (u.length - n) d)], ?_, ?_⟩
      · rw [if_neg less]
        simp [Node.setData, Node.leaf]
      · have both := before.append (.single (i := i) (d := truncateLiteral (u.length - n) d) type (truncated _))
        rw [List.length_append, List.take_append, List.take_of_length_le (by omega),
          show t.length + u.length - n - t.length = u.length - n by omega]
        exact both

theorem unput_texts {before f : Forest} {s : Bytes} (texts : PlainTexts f s) {n : Nat} (enough : n ≤ s.length) :
    ∃ f', unput n (before ++ f) = before ++ f' ∧ PlainTexts f' (s.take (s.length - n)) := by
  obtain ⟨f', later, texts'⟩ := unputFrom_texts texts enough before.reverse
  refine ⟨f', ?_, texts'⟩
  rw [unput, List.reverse_append, later, List.reverse_append, List.reverse_reverse, List.reverse_reverse]

/-! ### The inlines -/

/-- What was read of the content is text, and links up to `stop`. -/
structure ReadLinks (s : Bytes) (stop : Nat) (subj : Subject) : Prop where
  input : subj.input = s
  delims : subj.delims = []
  inside : subj.pos ≤ s.length
  behind : stop ≤ subj.pos
  children : ∃ before after, subj.children = before ++ after ∧ LinkedTexts before (s.take stop) ∧
    PlainTexts after (chunkDup s stop (subj.pos - stop))
  ends : stop = 0 ∨ EndsWord s stop

theorem chunkDup_append (s : Bytes) {a b c : Nat} (low : a ≤ b) (high : b ≤ c) :
    chunkDup s a (b - a) ++ chunkDup s b (c - b) = chunkDup s a (c - a) := by
  obtain ⟨m, rfl⟩ := Nat.exists_eq_add_of_le low
  obtain ⟨n, rfl⟩ := Nat.exists_eq_add_of_le high
  rw [Nat.add_sub_cancel_left, Nat.add_sub_cancel_left, Nat.add_assoc, Nat.add_sub_cancel_left, chunkDup_add]

theorem take_append_chunkDup (s : Bytes) {a b : Nat} (low : a ≤ b) : s.take a ++ chunkDup s a (b - a) = s.take b := by
  obtain ⟨m, rfl⟩ := Nat.exists_eq_add_of_le low
  rw [Nat.add_sub_cancel_left, chunkDup, ← List.take_add]

theorem made_inj {r r' : Subject × Node} (same : made r = made r') : r = r' :=
  Prod.ext (Prod.mk.inj same).1 (Option.some.inj (Prod.mk.inj same).2)

theorem linkedTexts_makeLink (subj : Subject) (url : Bytes) (start len : Nat) (startColumn endColumn : Int) :
    LinkedTexts [(subj.makeLink url start len startColumn endColumn).2] (chunkDup subj.input start len) := by
  have below : PlainTexts (subj.makeLink url start len startColumn endColumn).2.children
      (chunkDup subj.input start len) := .single rfl rfl
  have link := LinkedTexts.link (i := subj.nextId) (d := (subj.makeLink url start len startColumn endColumn).2.data)
    rfl below .nil
  rw [List.append_nil] at link
  exact link

section

variable {s : Bytes} {stop : Nat} {subj : Subject}

/-- Text is read. -/
theorem ReadLinks.text (read : ReadLinks s stop subj) {r : Subject × Node} (reads : ReadsText subj r) :
    ReadLinks s stop (r.1.appendChild r.2) ∧ subj.pos < (r.1.appendChild r.2).pos := by
  obtain ⟨rfl, delims, inside, behind, ⟨before, after, split, linked, plain⟩, ends⟩ := read
  obtain ⟨⟨sameInput, forward, within⟩, kept, stack, text⟩ := reads
  refine ⟨⟨sameInput, stack.trans delims, within, by exact Nat.le_trans behind forward.le,
    ⟨before, after ++ [r.2], ?_, linked, ?_⟩, ends⟩, forward⟩
  · show r.1.children ++ [r.2] = _
    rw [kept, split, List.append_assoc]
  · have all := plain.append text
    rw [chunkDup_append subj.input behind forward.le] at all
    exact all

/-- A link is made, with letters of the texts before it. -/
theorem ReadLinks.link (read : ReadLinks s stop subj) (plain : ∀ c ∈ s, c ≠ chr '<' ∧ c ≠ chr '&') {rewind linkEnd : Nat}
    {url : Bytes} {startColumn : Int} {r : Subject × Node}
    (matched : Matched subj rewind linkEnd url startColumn (made r)) (within : subj.pos + linkEnd ≤ s.length)
    (back : stop + rewind ≤ subj.pos) :
    ReadLinks s (subj.pos + linkEnd) (r.1.appendChild r.2) ∧ subj.pos < (r.1.appendChild r.2).pos := by
  obtain ⟨rfl, delims, inside, behind, ⟨before, after, split, linked, texts⟩, _⟩ := read
  obtain ⟨result, nonempty, domain, _, _, linkEnds⟩ := matched
  have length : (chunkDup subj.input stop (subj.pos - stop)).length = subj.pos - stop := by
    rw [chunkDup, List.length_take, List.length_drop]
    omega
  obtain ⟨after', taken, texts'⟩ : ∃ f', unput rewind (before ++ after) = before ++ f' ∧ PlainTexts f' _ :=
    unput_texts texts (by omega)
  have shorter : (chunkDup subj.input stop (subj.pos - stop)).take (subj.pos - stop - rewind) =
      chunkDup subj.input stop (subj.pos - rewind - stop) := by
    rw [chunkDup, List.take_take, chunkDup]
    congr 1
    omega
  rw [length, shorter] at texts'
  obtain rfl := made_inj result
  have link : LinkedTexts [_] (chunkDup subj.input (subj.pos - rewind) (linkEnd + rewind)) :=
    linkedTexts_makeLink { subj with pos := subj.pos + linkEnd, children := unput rewind subj.children } url
      (subj.pos - rewind) (linkEnd + rewind) startColumn (subj.column ((subj.pos + linkEnd : Nat) : Int) - 1)
  have upTo : linkEnd + rewind = subj.pos + linkEnd - (subj.pos - rewind) := by omega
  have bytes : subj.input.take stop ++ (chunkDup subj.input stop (subj.pos - rewind - stop) ++
      chunkDup subj.input (subj.pos - rewind) (linkEnd + rewind)) = subj.input.take (subj.pos + linkEnd) := by
    rw [← List.append_assoc, take_append_chunkDup subj.input (show stop ≤ subj.pos - rewind by omega), upTo,
      take_append_chunkDup subj.input (show subj.pos - rewind ≤ subj.pos + linkEnd by omega)]
  have all := linked.append (texts'.linked.append link)
  rw [bytes] at all
  refine ⟨⟨rfl, delims, within, le_rfl, ⟨_, [], ?_, all, ?_⟩, .inr (.of_drop ?_)⟩, ?_⟩
  · show unput rewind subj.children ++ [_] = _
    rw [split, taken, List.append_nil, List.append_assoc]
  · show PlainTexts [] (chunkDup subj.input (subj.pos + linkEnd) (subj.pos + linkEnd - (subj.pos + linkEnd)))
    rw [Nat.sub_self, chunkDup, List.take_zero]
    exact .nil
  · exact linkEndFrom_endsWord (fun c member => plain c (List.mem_of_mem_drop member)) linkEnds
  · exact Nat.lt_add_of_pos_right nonempty

end

theorem tryExtensions_autolink (T : Tables) (options : Options) (c : UInt8) (subj : Subject) :
    tryExtensions options c (withAutolink T options).inlineSyntaxExtensions subj = Autolink.matchInline options subj c := by
  have single : (withAutolink T options).inlineSyntaxExtensions =
      [Autolink.extension fun node childType => node.type.canContainType childType] := rfl
  rw [single, tryExtensions]
  rcases matched : Autolink.matchInline options subj c with ⟨subj', _ | node⟩
  · simp only [Autolink.extension, matched, tryExtensions]
  · simp only [Autolink.extension, matched]

/-- A scheme is followed by a slash. -/
theorem slash_of_matchInline {options : Options} {subj : Subject} {r : Subject × Node}
    (matches' : Autolink.matchInline options subj (chr ':') = made r) : byteAt subj.input (subj.pos + 1) = chr '/' := by
  have nothing : (subj, none) ≠ made r := fun same => by cases (Prod.mk.inj same).2
  rw [Autolink.matchInline, beq_self_eq_true, if_pos rfl] at matches'
  split_ifs at matches' with bracket
  · exact absurd matches' nothing
  unfold urlMatch at matches'
  extract_lets maxRewind data rewind domainLen linkEnd at matches'
  by_cases slashes : (decide (data.length < 4) || byteAt data 1 != chr '/' || byteAt data 2 != chr '/') = true
  · rw [if_pos slashes] at matches'
    exact absurd matches' nothing
  · simp only [Bool.or_eq_true, decide_eq_true_eq, bne_iff_ne, ne_eq, not_or, not_not] at slashes
    rw [← byteAt_drop]
    exact slashes.1.2

section

variable {T : Tables} {options : Options} {s : Bytes} {stop : Nat} {subj : Subject}
  (verbatim : Verbatim (withAutolink T options) s) (chars : CharTables) (read : ReadLinks s stop subj)

include verbatim read

theorem ReadLinks.parseInline (more : subj.pos < s.length) :
    ∃ stop' next, parseInline (withAutolink T options) chars subj = some next ∧ ReadLinks s stop' next ∧
      subj.pos < next.pos := by
  have plain (c : UInt8) (member : c ∈ s) : c ≠ chr '<' ∧ c ≠ chr '&' := by
    have here := verbatim.ordinary c member
    constructor
    · rintro rfl
      cases here
    · rintro rfl
      cases here
  obtain ⟨rfl, _, _, behind, _, ends⟩ := id read
  have cases' := matchInline_cases options (rfl : subj.peekChar = subj.peekChar)
  have tried := tryExtensions_autolink T options subj.peekChar subj
  have passes (subj' : Subject) (none : tryExtensions (withAutolink T options).options subj.peekChar
      (withAutolink T options).inlineSyntaxExtensions subj = (subj', .none)) : subj' = subj := by
    rcases cases' with same | ⟨rewind, linkEnd, url, startColumn, matched, _⟩
    · exact (Prod.mk.inj (none.symm.trans (tried.trans same))).1
    · cases (Prod.mk.inj (none.symm.trans (tried.trans matched.result))).2
  obtain ⟨r, step, reads | extended⟩ := parseInline_ordinary verbatim chars more passes
  · obtain ⟨next, further⟩ := read.text reads
    exact ⟨stop, _, step, next, further⟩
  have result : Autolink.matchInline options subj subj.peekChar = made r := tried.symm.trans extended
  rcases cases' with same | ⟨rewind, linkEnd, url, startColumn, matched, before, column⟩
  · cases (Prod.mk.inj (same.symm.trans result)).2
  have first : subj.peekChar ≠ chr ';' := by
    rcases column with ⟨here, _⟩ | ⟨here, _⟩
    · rw [here]
      decide
    · rw [here]
      decide
  have shorter := schemeLength_le (Nat.le_of_lt more)
  have back : stop + rewind ≤ subj.pos := by
    rcases column with ⟨_, rfl, _⟩ | ⟨colon, _⟩
    · exact behind
    rcases ends with rfl | endsWord
    · omega
    · rw [colon] at result
      have taken := endsWord.rewind_le behind colon (slash_of_matchInline result)
      omega
  rw [result] at matched
  obtain ⟨next, further⟩ := read.link plain matched (matched.spec more first).1 back
  exact ⟨_, _, step, next, further⟩

/-- All of the content becomes text and links. -/
theorem ReadLinks.parseInlinesLoop {fuel : Nat} (enough : s.length - subj.pos ≤ fuel) :
    ∃ stop', ReadLinks s stop' (parseInlinesLoop (withAutolink T options) chars fuel subj) ∧
      (parseInlinesLoop (withAutolink T options) chars fuel subj).pos = s.length := by
  induction fuel generalizing subj stop with
  | zero =>
    refine ⟨stop, read, Nat.le_antisymm read.inside ?_⟩
    show s.length ≤ subj.pos
    omega
  | succ fuel ih =>
    unfold CmarkGfm.parseInlinesLoop
    by_cases eof : subj.isEof
    · rw [if_pos eof]
      have done : subj.input.length ≤ subj.pos := of_decide_eq_true eof
      rw [read.input] at done
      exact ⟨stop, read, Nat.le_antisymm read.inside done⟩
    · have more : subj.pos < s.length := by
        unfold Subject.isEof at eof
        rw [read.input] at eof
        simpa using eof
      obtain ⟨stop', next, step, readNext, forward⟩ := read.parseInline verbatim chars more
      rw [if_neg eof, step]
      exact ih readNext (by omega)

end

/-- The inlines of a block are its content, as text and links. -/
theorem parseBlockInlines_autolink {T : Tables} {options : Options} (chars : CharTables) (st : InlineState)
    {d : NodeData} (verbatim : Verbatim (withAutolink T options) (inlineContent (withAutolink T options) d.content)) :
    LinkedTexts (parseBlockInlines (withAutolink T options) chars st d []).2
      (inlineContent (withAutolink T options) d.content) := by
  have start : ReadLinks (inlineContent (withAutolink T options) d.content) 0
      (inlineSubject (withAutolink T options) d [] st.refmap st.nextId) :=
    ⟨rfl, rfl, Nat.zero_le _, le_rfl, ⟨[], [], rfl, .nil, .nil⟩, .inl rfl⟩
  obtain ⟨stop, read, consumed⟩ := start.parseInlinesLoop verbatim chars
    (show _ - 0 ≤ (inlineSubject (withAutolink T options) d [] st.refmap st.nextId).input.length from le_rfl)
  obtain ⟨before, after, split, linked, texts⟩ := read.children
  have all := linked.append texts.linked
  rw [← split, take_append_chunkDup _ read.behind, consumed, List.take_length] at all
  unfold parseBlockInlines parseInlines
  dsimp only
  rw [children_processEmphasis _ read.delims]
  exact all

end CmarkGfm
