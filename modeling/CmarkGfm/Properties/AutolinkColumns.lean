import CmarkGfm.Properties.AutolinkEnd

/-!
# The columns of autolinks

What `www_match` and `url_match` do to the subject is stated once, for both; the source positions of the links
follow from it.
-/

namespace CmarkGfm

variable {data : Bytes} {subj : Subject}

theorem byteAt_drop (n i : Nat) : byteAt (data.drop n) i = byteAt data (n + i) := by
  simp [byteAt, List.getElem?_drop]

/-! ### Domains -/

theorem isspace_of_isValidHostchar {c : UInt8} {rest : Bytes} (valid : isValidHostchar (c :: rest) = true) :
    isspace c = false := by
  apply Bool.eq_false_iff.mpr
  intro space
  have blank : c = 9 ∨ c = 10 ∨ c = 13 ∨ c = 32 := by
    simpa [isspace, or_assoc] using space
  have one (d : UInt8) (ascii : utf8Class d = 1) : utf8Iterate (d :: rest) = some (d.toNat, 1) := by
    simp [utf8Iterate, utf8Charlen, ascii, byteAt]
  rcases blank with rfl | rfl | rfl | rfl
  all_goals
    rw [isValidHostchar, one _ (by decide)] at valid
    revert valid
    decide

/-- A domain has no spaces behind its first byte. -/
theorem checkDomainLoop_spec (fuel : Nat) {s : DomainScan} (inside : s.i ≤ data.length) :
    s.i ≤ (checkDomainLoop data fuel s).i ∧ (checkDomainLoop data fuel s).i ≤ data.length ∧
      ∀ k, s.i ≤ k → k < (checkDomainLoop data fuel s).i → isspace (byteAt data k) = false := by
  induction fuel generalizing s with
  | zero => exact ⟨le_rfl, inside, fun k low high => absurd high (Nat.not_lt.mpr low)⟩
  | succ fuel ih =>
    rw [checkDomainLoop]
    by_cases more : s.i + 1 < data.length
    · rw [if_pos more]
      extract_lets i
      -- a backslash is passed together with what follows it
      have moved : s.i ≤ i ∧ i + 1 < data.length + 1 ∧ i < data.length ∧
          ∀ k, s.i ≤ k → k < i → isspace (byteAt data k) = false := by
        by_cases backslash : (byteAt data s.i == chr '\\' && decide (s.i + 2 < data.length)) = true
        · have skipped : i = s.i + 1 := if_pos backslash
          rw [Bool.and_eq_true, beq_iff_eq, decide_eq_true_eq] at backslash
          refine ⟨by omega, by omega, by omega, fun k low high => ?_⟩
          obtain rfl : k = s.i := by omega
          rw [backslash.1]
          decide
        · have same : i = s.i := if_neg backslash
          exact ⟨by omega, by omega, by omega, fun k low high => by omega⟩
      obtain ⟨above, _, below, passed⟩ := moved
      -- and so is a byte that is not a space
      have next (t : DomainScan) (at' : t.i = i + 1) (plain : isspace (byteAt data i) = false) :
          s.i ≤ (checkDomainLoop data fuel t).i ∧ (checkDomainLoop data fuel t).i ≤ data.length ∧
            ∀ k, s.i ≤ k → k < (checkDomainLoop data fuel t).i → isspace (byteAt data k) = false := by
        obtain ⟨low, high, clean⟩ := ih (s := t) (by omega)
        refine ⟨by omega, high, fun k from' before => ?_⟩
        by_cases earlier : k < i
        · exact passed k from' earlier
        · by_cases here : k = i
          · rw [here]
            exact plain
          · exact clean k (by omega) before
      by_cases underscore : (byteAt data i == chr '_') = true
      · rw [if_pos underscore]
        apply next _ rfl
        rw [beq_iff_eq.mp underscore]
        decide
      rw [if_neg underscore]
      by_cases dot : (byteAt data i == chr '.') = true
      · rw [if_pos dot]
        apply next _ rfl
        rw [beq_iff_eq.mp dot]
        decide
      rw [if_neg dot]
      by_cases stops : (!isValidHostchar (data.drop i) && byteAt data i != chr '-') = true
      · rw [if_pos stops]
        exact ⟨above, Nat.le_of_lt below, passed⟩
      · rw [if_neg stops]
        apply next _ rfl
        rw [Bool.not_eq_true, Bool.and_eq_false_iff, Bool.not_eq_false', bne_eq_false_iff_eq] at stops
        rcases stops with valid | hyphen
        · rw [List.drop_eq_getElem_cons below] at valid
          rw [byteAt_eq_getElem below]
          exact isspace_of_isValidHostchar valid
        · rw [hyphen]
          decide
    · rw [if_neg more]
      exact ⟨le_rfl, inside, fun k low high => absurd high (Nat.not_lt.mpr low)⟩

theorem checkDomain_spec (nonempty : data ≠ []) (allowShort : Bool) :
    checkDomain data allowShort ≤ data.length ∧
      ∀ k, 1 ≤ k → k < checkDomain data allowShort → isspace (byteAt data k) = false := by
  obtain ⟨_, inside, clean⟩ := checkDomainLoop_spec data.length (s := {}) (List.length_pos_of_ne_nil nonempty)
  have value : checkDomain data allowShort = 0 ∨
      checkDomain data allowShort = (checkDomainLoop data data.length {}).i := by
    rw [checkDomain]
    split_ifs <;> simp
  rcases value with zero | found
  · rw [zero]
    exact ⟨Nat.zero_le _, fun k _ below => absurd below (Nat.not_lt_zero k)⟩
  · rw [found]
    exact ⟨inside, clean⟩

/-- Nor are there spaces in a link behind its domain. -/
theorem linkEndFrom_spec {domain linkEnd : Nat} (inside : domain ≤ data.length) (first : data[0]? ≠ some (chr ';'))
    (ends : linkEndFrom data domain = some linkEnd) :
    linkEnd ≤ data.length ∧ ∀ k, domain ≤ k → k < linkEnd → isspace (byteAt data k) = false := by
  have within := skipWhile_le_length (fun c => !isspace c && c != chr '<') data domain inside
  obtain ⟨r, found, shorter, _⟩ := autolinkDelim_spec data _ within first
  rw [linkEndFrom, found, Option.some.injEq] at ends
  subst ends
  refine ⟨Nat.le_trans shorter within, fun k low high => ?_⟩
  have passed := holds_of_lt_skipWhile low (Nat.lt_of_lt_of_le high shorter)
  simp only [Bool.and_eq_true, Bool.not_eq_true'] at passed
  exact passed.1

/-! ### Matches -/

/-- What a match makes of the subject: the content from `rewind` bytes before the position to `linkEnd` bytes
behind it becomes the text of a link. -/
structure Matched (subj : Subject) (rewind linkEnd : Nat) (url : Bytes) (startColumn : Int)
    (r : Subject × Option Node) : Prop where
  result : r = made
    (Subject.makeLink { subj with pos := subj.pos + linkEnd, children := unput rewind subj.children } url
      (subj.pos - rewind) (linkEnd + rewind) startColumn (subj.column ((subj.pos + linkEnd : Nat) : Int) - 1))
  nonempty : 0 < linkEnd
  domain : ∃ domain ≤ (subj.input.drop subj.pos).length,
    (∀ k < domain, isspace (byteAt (subj.input.drop subj.pos) k) = false) ∧
      linkEndFrom (subj.input.drop subj.pos) domain = some linkEnd

theorem unputFrom_zero (children : Forest) : unputFrom 0 children = children := by
  cases children with
  | nil => rfl
  | cons node prevs => simp [unputFrom]

@[simp] theorem unput_zero (children : Forest) : unput 0 children = children := by
  rw [unput, unputFrom_zero, List.reverse_reverse]

theorem eq_some_of_getD_ne_zero {o : Option Nat} (found : o.getD 0 ≠ 0) : o = some (o.getD 0) := by
  cases o with
  | none => exact absurd rfl found
  | some n => rfl

theorem wwwMatch_cases (subj : Subject) :
    wwwMatch subj = (subj, none) ∨ ∃ linkEnd,
      Matched subj 0 linkEnd (lit "http://" ++ (subj.input.drop subj.pos).take linkEnd)
        (subj.column subj.pos - 1) (wwwMatch subj) ∧ byteAt (subj.input.drop subj.pos) 0 = chr 'w' := by
  unfold wwwMatch
  extract_lets maxRewind data start before domain linkEnd
  split_ifs with preceded short noDomain noEnd
  · exact .inl rfl
  · exact .inl rfl
  · exact .inl rfl
  · exact .inl rfl
  right
  have long : data.take 4 = lit "www." ∧ 4 ≤ data.length := by
    simpa [and_comm] using short
  have nonempty : data ≠ [] := by
    rintro empty
    rw [empty] at long
    exact absurd long.2 (by decide)
  have first : byteAt data 0 = chr 'w' := by
    cases shape : data with
    | nil => exact absurd shape nonempty
    | cons c rest =>
      rw [shape] at long
      exact (List.cons.inj long.1).1
  obtain ⟨inside, clean⟩ := checkDomain_spec nonempty false
  refine ⟨linkEnd, ⟨?_, Nat.pos_of_ne_zero noEnd, domain, inside, fun k below => ?_, eq_some_of_getD_ne_zero noEnd⟩, first⟩
  · rw [unput_zero]
    rfl
  · by_cases zero : k = 0
    · rw [zero]
      have letter : byteAt data 0 = chr 'w' := first
      rw [letter]
      decide
    · exact clean k (Nat.pos_of_ne_zero zero) below

/-! ### Schemes -/

theorem isalpha_tolower (c : UInt8) : isalpha (tolower c) = isalpha c := by
  rw [Bool.eq_iff_iff]
  simp only [isalpha, tolower, Bool.or_eq_true, Bool.and_eq_true, decide_eq_true_eq, UInt8.le_iff_toNat_le]
  split
  · simp only [UInt8.toNat_add, UInt8.toNat_ofNat] at *
    omega
  · rfl

theorem length_takeWhile_isalpha (link : Bytes) :
    ((link.map tolower).takeWhile isalpha).length = (link.takeWhile isalpha).length := by
  have same : isalpha ∘ tolower = isalpha := funext isalpha_tolower
  rw [List.takeWhile_map, List.length_map, same]

/-- The letters before the position, and the content from there on. -/
theorem drop_rewind {input : Bytes} {pos : Nat} (inside : pos ≤ input.length) :
    input.drop (pos - ((input.take pos).rtakeWhile isalpha).length) =
      (input.take pos).rtakeWhile isalpha ++ input.drop pos := by
  have split := List.rdropWhile_append_rtakeWhile (p := isalpha) (l := input.take pos)
  have length := congrArg List.length split
  rw [List.length_append, List.length_take, Nat.min_eq_left inside] at length
  have back : pos - ((input.take pos).rtakeWhile isalpha).length = ((input.take pos).rdropWhile isalpha).length := by
    omega
  have whole : (input.take pos).rdropWhile isalpha ++ ((input.take pos).rtakeWhile isalpha ++ input.drop pos) =
      input := by
    rw [← List.append_assoc, split, List.take_append_drop]
  have dropped : ((input.take pos).rdropWhile isalpha ++ ((input.take pos).rtakeWhile isalpha ++ input.drop pos)).drop
      ((input.take pos).rdropWhile isalpha).length = (input.take pos).rtakeWhile isalpha ++ input.drop pos :=
    List.drop_left
  rw [whole] at dropped
  rw [back, dropped]

/-- The letters before a colon are the scheme of a safe link, and a host character stands behind the slashes. -/
theorem hostchar_of_sdAutolinkIssafe {scheme rest : Bytes} (letters : ∀ c ∈ scheme, isalpha c = true)
    (safe : sdAutolinkIssafe (scheme ++ chr ':' :: rest) = true) : isValidHostchar (rest.drop 2) = true := by
  have length : ((scheme ++ chr ':' :: rest).takeWhile isalpha).length = scheme.length := by
    have colon : isalpha (chr ':') = false := by decide
    rw [List.takeWhile_append_of_pos letters, List.takeWhile_cons, colon]
    simp
  obtain ⟨uri, among, fits⟩ := List.any_eq_true.mp safe
  simp only [Bool.and_eq_true, decide_eq_true_eq, startsWithCase, beq_iff_eq] at fits
  obtain ⟨⟨_, starts⟩, valid⟩ := fits
  have whole : (scheme ++ chr ':' :: rest).map tolower =
      uri ++ ((scheme ++ chr ':' :: rest).drop uri.length).map tolower := by
    conv_lhs => rw [← List.take_append_drop uri.length (scheme ++ chr ':' :: rest), List.map_append, starts]
  rw [← length_takeWhile_isalpha, whole] at length
  have three : uri.length = scheme.length + 3 := by
    rw [← length]
    simp only [validUris, List.mem_cons, List.not_mem_nil, or_false] at among
    rcases among with rfl | rfl | rfl
    all_goals simp [lit, isalpha, chr]
  rwa [three, ← List.drop_drop, List.drop_left] at valid

/-- The number of letters before the position. -/
def Subject.schemeLength (subj : Subject) : Nat := ((subj.input.take subj.pos).rtakeWhile isalpha).length

theorem urlMatch_cases (here : subj.peekChar = chr ':') :
    urlMatch subj = (subj, none) ∨ ∃ linkEnd,
      Matched subj subj.schemeLength linkEnd
        (chunkDup subj.input (subj.pos - subj.schemeLength) (linkEnd + subj.schemeLength))
        ((subj.pos - subj.schemeLength : Nat) : Int) (urlMatch subj) := by
  unfold urlMatch
  extract_lets maxRewind data rewind domainLen linkEnd
  split_ifs with slashes safe noDomain noEnd
  · exact .inl rfl
  · exact .inl rfl
  · exact .inl rfl
  · exact .inl rfl
  right
  simp only [Bool.or_eq_true, decide_eq_true_eq, bne_iff_ne, ne_eq, not_or, Nat.not_lt, not_not] at slashes
  obtain ⟨⟨long, slash⟩, slash'⟩ := slashes
  have inside : subj.pos < subj.input.length := lt_length_of_byteAt_eq here (by decide)
  have first : data = chr ':' :: data.tail := by
    have begins : data = subj.input[subj.pos] :: subj.input.drop (subj.pos + 1) := List.drop_eq_getElem_cons inside
    rw [begins, ← byteAt_eq_getElem inside, List.tail_cons]
    exact congrArg (· :: _) here
  have hostchar : isValidHostchar (data.drop 3) = true := by
    rw [Bool.not_eq_true, Bool.not_eq_false', drop_rewind (Nat.le_of_lt inside)] at safe
    have letters : ∀ c ∈ (subj.input.take subj.pos).rtakeWhile isalpha, isalpha c = true := fun c => List.mem_rtakeWhile_imp
    have colon : subj.input.drop subj.pos = chr ':' :: data.tail := first
    rw [colon] at safe
    rw [first]
    exact hostchar_of_sdAutolinkIssafe letters safe
  have more : data.drop 3 ≠ [] := by
    rw [ne_eq, List.drop_eq_nil_iff]
    omega
  obtain ⟨within, clean⟩ := checkDomain_spec more true
  refine ⟨linkEnd, ⟨rfl, Nat.pos_of_ne_zero noEnd, 3 + domainLen, ?_, fun k below => ?_, eq_some_of_getD_ne_zero noEnd⟩⟩
  · rw [List.length_drop] at within
    exact (Nat.add_le_of_le_sub' (by omega) within : 3 + domainLen ≤ data.length)
  · have next : isspace (byteAt (data.drop 3) 0) = false := by
      cases shape : data.drop 3 with
      | nil => exact absurd shape more
      | cons c rest =>
        rw [shape] at hostchar
        exact isspace_of_isValidHostchar hostchar
    change isspace (byteAt data k) = false
    rcases k with _ | _ | _ | _ | k
    · rw [first]
      exact (by decide : isspace (chr ':') = false)
    · rw [slash]
      decide
    · rw [slash']
      decide
    · rwa [byteAt_drop] at next
    · have passed := clean (k + 1) (Nat.succ_pos k) (by omega)
      rwa [byteAt_drop, show 3 + (k + 1) = k + 4 by omega] at passed

/-- `match`, called at the character that it is given. -/
theorem matchInline_cases (options : Options) {c : UInt8} (here : subj.peekChar = c) :
    Autolink.matchInline options subj c = (subj, none) ∨ ∃ rewind linkEnd url startColumn,
      Matched subj rewind linkEnd url startColumn (Autolink.matchInline options subj c) ∧
        rewind ≤ subj.schemeLength ∧
        (c = chr 'w' ∧ rewind = 0 ∧ startColumn = subj.column subj.pos - 1 ∨
          c = chr ':' ∧ startColumn = ((subj.pos - rewind : Nat) : Int)) := by
  unfold Autolink.matchInline
  split_ifs with bracket colon www
  · exact .inl rfl
  · rw [beq_iff_eq] at colon
    rcases urlMatch_cases (here.trans colon) with none | ⟨linkEnd, matched⟩
    · exact .inl none
    · exact .inr ⟨_, linkEnd, _, _, matched, le_rfl, .inr ⟨colon, rfl⟩⟩
  · rw [beq_iff_eq] at www
    rcases wwwMatch_cases subj with none | ⟨linkEnd, matched, _⟩
    · exact .inl none
    · exact .inr ⟨0, linkEnd, _, _, matched, Nat.zero_le _, .inl ⟨www, rfl, rfl⟩⟩
  · exact .inl rfl

/-! ### Columns -/

/-- The text of the link stands on one line of the content, from `start` to the position at which parsing goes on. -/
structure LinkText (subj subj' : Subject) (link : Node) (start : Nat) : Prop where
  text : ∃ text, link.children = [text] ∧ text.type = .text ∧
    text.literal = chunkDup subj.input start (subj'.pos - start)
  nonempty : start < subj'.pos
  inside : subj'.pos ≤ subj.input.length
  line : link.data.startLine = subj.line ∧ link.data.endLine = subj.line
  oneLine : ∀ k, start ≤ k → k < subj'.pos → isLineEndChar (byteAt subj.input k) = false

/-- The columns of the link are those of the first and the last byte, as `make_literal` counts them. -/
def Delimits (subj : Subject) (link : Node) (start stop : Nat) : Prop :=
  link.data.startColumn = subj.column start ∧ link.data.endColumn = subj.column ((stop : Int) - 1)

instance (subj : Subject) (link : Node) (start stop : Nat) : Decidable (Delimits subj link start stop) :=
  inferInstanceAs (Decidable (_ ∧ _))

theorem isLineEndChar_of_isspace {c : UInt8} (plain : isspace c = false) : isLineEndChar c = false := by
  simp only [isspace, Bool.or_eq_false_iff] at plain
  simp only [isLineEndChar, Bool.or_eq_false_iff]
  exact ⟨plain.1.1.2, plain.1.2⟩

theorem isLineEndChar_of_isalpha {c : UInt8} (letter : isalpha c = true) : isLineEndChar c = false := by
  apply Bool.eq_false_iff.mpr
  intro lineEnd
  simp only [isLineEndChar, Bool.or_eq_true, beq_iff_eq] at lineEnd
  rcases lineEnd with rfl | rfl
  all_goals
    revert letter
    decide

theorem schemeLength_le (inside : subj.pos ≤ subj.input.length) : subj.schemeLength ≤ subj.pos := by
  have shorter : ((subj.input.take subj.pos).rtakeWhile isalpha).length ≤ (subj.input.take subj.pos).length :=
    (List.rtakeWhile_suffix isalpha _).length_le
  rwa [List.length_take, Nat.min_eq_left inside] at shorter

theorem isalpha_of_rewind {k : Nat} (inside : subj.pos ≤ subj.input.length) (below : k < subj.pos)
    (above : subj.pos - subj.schemeLength ≤ k) : isalpha (byteAt subj.input k) = true := by
  have letters : ∀ c ∈ (subj.input.take subj.pos).rtakeWhile isalpha, isalpha c = true := fun c => List.mem_rtakeWhile_imp
  have shorter := schemeLength_le inside
  obtain ⟨j, rfl⟩ := Nat.exists_eq_add_of_le above
  have within : j < subj.schemeLength := by omega
  rw [← byteAt_drop, Subject.schemeLength, drop_rewind inside,
    byteAt_eq_getElem (by rw [List.length_append]; exact Nat.lt_add_right _ within), List.getElem_append_left within]
  exact letters _ (List.getElem_mem within)

namespace Matched

variable {rewind linkEnd : Nat} {url : Bytes} {startColumn : Int} {r : Subject × Option Node}

/-- The link ends in the content, and there are no spaces in it. -/
theorem spec (matched : Matched subj rewind linkEnd url startColumn r) (inside : subj.pos < subj.input.length)
    (first : subj.peekChar ≠ chr ';') : subj.pos + linkEnd ≤ subj.input.length ∧
      ∀ k, subj.pos ≤ k → k < subj.pos + linkEnd → isspace (byteAt subj.input k) = false := by
  obtain ⟨domain, within, clean, ends⟩ := matched.domain
  have start : (subj.input.drop subj.pos)[0]? ≠ some (chr ';') := by
    rw [List.getElem?_drop, Nat.add_zero, List.getElem?_eq_getElem inside, ne_eq, Option.some.injEq,
      ← byteAt_eq_getElem inside]
    exact first
  obtain ⟨shorter, behind⟩ := linkEndFrom_spec within start ends
  rw [List.length_drop] at shorter
  refine ⟨by omega, fun k low high => ?_⟩
  obtain ⟨j, rfl⟩ := Nat.exists_eq_add_of_le low
  rw [← byteAt_drop]
  by_cases inDomain : j < domain
  · exact clean j inDomain
  · exact behind j (by omega) (by omega)

end Matched

/-- The start column is one too small, or counted without the offsets of the line and the block: it is right only
where these make up for the missing one. -/
theorem matchInline_columns_iff (options : Options) {subj subj' : Subject} {c : UInt8} {link : Node}
    (here : subj.peekChar = c) (matches' : Autolink.matchInline options subj c = (subj', some link)) :
    ∃ start, LinkText subj subj' link start ∧
      (Delimits subj link start subj'.pos ↔ c = chr ':' ∧ subj.columnOffset + subj.blockOffset = -1) := by
  rcases matchInline_cases options here with none | ⟨rewind, linkEnd, url, startColumn, matched, before, column⟩
  · rw [none] at matches'
    cases (Prod.mk.inj matches').2
  have isStart : c ≠ 0 ∧ c ≠ chr ';' := by
    rcases column with ⟨rfl, _⟩ | ⟨rfl, _⟩ <;> decide
  have inside : subj.pos < subj.input.length := lt_length_of_byteAt_eq here isStart.1
  obtain ⟨within, clean⟩ := matched.spec inside (here ▸ isStart.2)
  have result := matched.result
  have nonempty := matched.nonempty
  rw [matches'] at result
  obtain ⟨rfl, found⟩ := Prod.mk.inj result
  obtain rfl := Option.some.inj found
  have back : rewind ≤ subj.pos := Nat.le_trans before (schemeLength_le (Nat.le_of_lt inside))
  refine ⟨subj.pos - rewind, ⟨⟨_, rfl, rfl, ?_⟩, ?_, within, ⟨rfl, rfl⟩, fun k low high => ?_⟩, ?_⟩
  · change chunkDup subj.input (subj.pos - rewind) (linkEnd + rewind) =
      chunkDup subj.input (subj.pos - rewind) (subj.pos + linkEnd - (subj.pos - rewind))
    congr 1
    omega
  · change subj.pos - rewind < subj.pos + linkEnd
    omega
  · by_cases earlier : k < subj.pos
    · exact isLineEndChar_of_isalpha (isalpha_of_rewind (Nat.le_of_lt inside) earlier (by omega))
    · exact isLineEndChar_of_isspace (clean k (Nat.not_lt.mp earlier) high)
  · -- the end column is right in any case
    change startColumn = subj.column ((subj.pos - rewind : Nat) : Int) ∧
      subj.column ((subj.pos + linkEnd : Nat) : Int) - 1 = subj.column (((subj.pos + linkEnd : Nat) : Int) - 1) ↔ _
    unfold Subject.column at column ⊢
    rcases column with ⟨rfl, rfl, rfl⟩ | ⟨rfl, rfl⟩
    · have other : chr 'w' ≠ chr ':' := by decide
      simp only [other, false_and, iff_false, not_and]
      omega
    · simp only [true_and]
      omega

/-- The colon in the second line of `- ab`, `  http://x.yz`. -/
def colonInSecondLine : Subject where
  input := lit "ab\nhttp://x.yz"
  parent := { type := .paragraph, startLine := 1, startColumn := 3 }
  line := 2
  pos := 7
  blockOffset := 2
  columnOffset := -3
  refmap := .new
  children := [.leaf 4 { type := .text, as := .literal (lit "http"), startColumn := 3, endColumn := 6 }]
  nextId := 5

theorem matchInline_columns_secondLine : ∃ subj' link start,
    Autolink.matchInline 0 colonInSecondLine (chr ':') = (subj', some link) ∧
      LinkText colonInSecondLine subj' link start ∧ Delimits colonInSecondLine link start subj'.pos := by
  obtain ⟨link, found⟩ : ∃ link, (Autolink.matchInline 0 colonInSecondLine (chr ':')).2 = some link :=
    Option.isSome_iff_exists.mp (by decide +kernel)
  have matched : Autolink.matchInline 0 colonInSecondLine (chr ':') =
      ((Autolink.matchInline 0 colonInSecondLine (chr ':')).1, some link) := by
    rw [← found]
  obtain ⟨start, text, right⟩ := matchInline_columns_iff 0 (by decide) matched
  exact ⟨_, link, start, matched, text, right.mpr ⟨rfl, by decide⟩⟩

/-- The content of the paragraph `www.a.bc`, before it is parsed. -/
def wwwSubject : Subject :=
  inlineSubject (withAutolink asciiTables 0)
    { type := .paragraph, content := lit "www.a.bc\n", startLine := 1, startColumn := 1, endLine := 1, endColumn := 8 }
    [] .new 2

/-- The link is the whole line, from column 1 to column 8. -/
theorem wwwMatch_startsBefore :
    ((cmarkParseDocument (withAutolink asciiTables 0) (lit "www.a.bc\n")).exits .link).map (fun link =>
        (link.children.map Node.literal, link.data.startColumn, link.data.endColumn)) = [([lit "www.a.bc"], 0, 8)] ∧
      ∃ subj' link, Autolink.matchInline 0 wwwSubject wwwSubject.peekChar = (subj', some link) ∧
        LinkText wwwSubject subj' link 0 ∧ ¬ Delimits wwwSubject link 0 subj'.pos := by
  have oneLine : ∀ k < 8, isLineEndChar (byteAt wwwSubject.input k) = false := by decide
  refine ⟨by decide +kernel, _, _, rfl, ⟨⟨_, rfl, rfl, rfl⟩, by decide, by decide, ⟨rfl, rfl⟩, fun k _ => oneLine k⟩, ?_⟩
  decide

end CmarkGfm
