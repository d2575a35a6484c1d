import CmarkGfm.Properties.AutolinkColumns

/-!
# The schemes of e-mail links

The walk to the left from an at sign passes the local part, and then the scheme if there is one. The flags that it
leaves behind outlive it where the domain runs into another at sign.
-/

namespace CmarkGfm

/-- The bytes of a local part; `strchr` finds NUL among them, too. -/
def localChar (c : UInt8) : Bool := isalnum c || strchr (lit ".+-_") c

/-- The bytes that the walk to the right passes. -/
def domainChar (c : UInt8) : Bool := isalnum c || (lit "./-_").contains c

def schemes : List Bytes := [lit "mailto:", lit "xmpp:"]

/-- The scheme that ends where the bytes to the left begin. -/
def schemeBefore (left : Bytes) : Option Bytes := schemes.find? fun scheme => validateProtocol scheme left

/-- The walk to the left does not go on here. -/
def StopsWalk (left : Bytes) : Prop := (∀ c ∈ left.head?, localChar c = false) ∧ schemeBefore left = none

section

variable {left run : Bytes} {rewind : Nat} {protocols : Protocols} {scheme : Bytes}

/-! ### To the left -/

theorem rewindLoop_append (passed : ∀ c ∈ run, localChar c = true) (left : Bytes) (rewind : Nat)
    (protocols : Protocols) :
    rewindLoop (run ++ left) rewind protocols = rewindLoop left (rewind + run.length) protocols := by
  induction run generalizing rewind with
  | nil => rfl
  | cons c run ih =>
    rw [List.forall_mem_cons] at passed
    have next := ih passed.2 (rewind + 1)
    rw [show rewind + 1 + run.length = rewind + (c :: run).length by rw [List.length_cons]; omega] at next
    rw [List.cons_append, rewindLoop]
    by_cases letter : isalnum c = true
    · rw [if_pos letter]
      exact next
    · have other : strchr (lit ".+-_") c = true := by simpa [localChar, letter] using passed.1
      rw [if_neg letter, if_pos other]
      exact next

theorem rewindLoop_stops (stops : StopsWalk left) : rewindLoop left rewind protocols = (rewind, protocols) := by
  cases left with
  | nil => rfl
  | cons c left =>
    have other := stops.1 c rfl
    have none := stops.2
    rw [localChar, Bool.or_eq_false_iff] at other
    simp only [schemeBefore, schemes, List.find?_eq_none, List.mem_cons, List.not_mem_nil, or_false,
      forall_eq_or_imp, forall_eq] at none
    rw [rewindLoop, other.1, other.2, if_neg Bool.false_ne_true, if_neg Bool.false_ne_true, if_neg none.1, if_neg none.2]
    exact ite_self _

theorem prefix_of_validateProtocol (valid : validateProtocol scheme left = true) :
    left = scheme.reverse ++ left.drop scheme.length := by
  unfold validateProtocol at valid
  split_ifs at valid with long other
  all_goals
    rw [bne_iff_ne, not_not] at other
    conv_lhs => rw [← List.take_append_drop scheme.length left, other]

theorem schemeBefore_cases (found : schemeBefore left = some scheme) :
    validateProtocol scheme left = true ∧ (scheme = lit "mailto:" ∨
      scheme = lit "xmpp:" ∧ validateProtocol (lit "mailto:") left = false) := by
  unfold schemeBefore schemes at found
  refine ⟨List.find?_some (p := fun scheme => validateProtocol scheme left) found, ?_⟩
  by_cases mailto : validateProtocol (lit "mailto:") left = true
  · rw [List.find?_cons_of_pos (p := fun scheme => validateProtocol scheme left) mailto] at found
    exact .inl (Option.some.inj found).symm
  · rw [List.find?_cons_of_neg (p := fun scheme => validateProtocol scheme left) mailto] at found
    have among := List.mem_of_find?_eq_some found
    exact .inr ⟨List.mem_singleton.mp among, Bool.eq_false_iff.mpr mailto⟩

/-- The walk passes a scheme, which is then no longer put before the link. -/
theorem rewindLoop_scheme (found : schemeBefore left = some scheme) :
    rewindLoop left rewind protocols = rewindLoop (left.drop scheme.length) (rewind + scheme.length)
      { autoMailto := false, isXmpp := protocols.isXmpp || scheme == lit "xmpp:" } := by
  have colon : isalnum (chr ':') = false ∧ strchr (lit ".+-_") (chr ':') = false ∧ strchr (lit ":") (chr ':') = true := by
    decide
  obtain ⟨valid, which⟩ := schemeBefore_cases found
  have whole := prefix_of_validateProtocol valid
  rcases which with rfl | ⟨rfl, other⟩
  · have letters : ∀ c ∈ lit "otliam", localChar c = true := by decide
    have begins : left = chr ':' :: (lit "otliam" ++ left.drop (lit "mailto:").length) := whole
    have notXmpp : (lit "mailto:" == lit "xmpp:") = false := by decide
    rw [begins] at valid
    conv_lhs => rw [begins]
    rw [rewindLoop, colon.1, colon.2.1, colon.2.2, if_neg Bool.false_ne_true, if_neg Bool.false_ne_true, if_pos rfl,
      if_pos valid, rewindLoop_append letters, notXmpp, Bool.or_false]
    rfl
  · have letters : ∀ c ∈ lit "ppmx", localChar c = true := by decide
    have begins : left = chr ':' :: (lit "ppmx" ++ left.drop (lit "xmpp:").length) := whole
    have xmpp : (lit "xmpp:" == lit "xmpp:") = true := by decide
    rw [begins] at valid other
    conv_lhs => rw [begins]
    rw [rewindLoop, colon.1, colon.2.1, colon.2.2, if_neg Bool.false_ne_true, if_neg Bool.false_ne_true, if_pos rfl,
      other, if_neg Bool.false_ne_true, if_pos valid, rewindLoop_append letters, xmpp, Bool.or_true]
    rfl

/-- Once a scheme has been passed, none is put before the link. -/
theorem autoMailto_rewindLoop (left : Bytes) (rewind : Nat) {protocols : Protocols} (passed : protocols.autoMailto = false) :
    (rewindLoop left rewind protocols).2.autoMailto = false := by
  induction left generalizing rewind protocols with
  | nil => exact passed
  | cons c left ih =>
    rw [rewindLoop]
    split_ifs
    · exact ih _ passed
    · exact ih _ passed
    · exact ih _ rfl
    · exact ih _ rfl
    · exact passed
    · exact passed

theorem rewindLoop_bounds (left : Bytes) (rewind : Nat) (protocols : Protocols) :
    rewind ≤ (rewindLoop left rewind protocols).1 ∧ (rewindLoop left rewind protocols).1 ≤ rewind + left.length := by
  induction left generalizing rewind protocols with
  | nil => exact ⟨le_rfl, le_rfl⟩
  | cons c left ih =>
    have next (protocols : Protocols) : rewind ≤ (rewindLoop left (rewind + 1) protocols).1 ∧
        (rewindLoop left (rewind + 1) protocols).1 ≤ rewind + (c :: left).length := by
      have ⟨low, high⟩ := ih (rewind + 1) protocols
      rw [List.length_cons]
      omega
    have here : rewind ≤ rewind ∧ rewind ≤ rewind + (c :: left).length := ⟨le_rfl, Nat.le_add_right _ _⟩
    rw [rewindLoop]
    split_ifs
    · exact next _
    · exact next _
    · exact next _
    · exact next _
    · exact here
    · exact here

end

/-! ### To the right -/

/-- The domain ends where another at sign begins. -/
inductive RunsIntoAt (isXmpp : Bool) : Bytes → Prop
  | at' (behind : Bytes) : RunsIntoAt isXmpp (chr '@' :: behind)
  | dot {c : UInt8} {behind : Bytes} : isalnum c = true → RunsIntoAt isXmpp (c :: behind) →
      RunsIntoAt isXmpp (chr '.' :: c :: behind)
  | char {c : UInt8} {behind : Bytes} : (isalnum c || c == chr '-' || c == chr '_' || (c == chr '/' && isXmpp)) = true →
      RunsIntoAt isXmpp behind → RunsIntoAt isXmpp (c :: behind)

section

variable {behind : Bytes} {isXmpp : Bool}

theorem RunsIntoAt.cons_iff {c : UInt8} : RunsIntoAt isXmpp (c :: behind) ↔
    c = chr '@' ∨ c = chr '.' ∧ behind.head?.any isalnum = true ∧ RunsIntoAt isXmpp behind ∨
      (isalnum c || c == chr '-' || c == chr '_' || (c == chr '/' && isXmpp)) = true ∧ RunsIntoAt isXmpp behind := by
  constructor
  · intro runs
    cases runs with
    | at' => exact .inl rfl
    | dot letter runs => exact .inr (.inl ⟨rfl, letter, runs⟩)
    | char passed runs => exact .inr (.inr ⟨passed, runs⟩)
  · rintro (rfl | ⟨rfl, letter, runs⟩ | ⟨passed, runs⟩)
    · exact .at' behind
    · cases behind with
      | nil => cases letter
      | cons d behind => exact .dot letter runs
    · exact .char passed runs

theorem forwardLoop_another_iff (isXmpp : Bool) (behind : Bytes) (linkEnd np : Nat) :
    (forwardLoop isXmpp behind linkEnd np).2.2 = true ↔ RunsIntoAt isXmpp behind := by
  induction behind generalizing linkEnd np with
  | nil =>
    constructor
    · intro impossible
      cases impossible
    · intro impossible
      cases impossible
  | cons c behind ih =>
    rw [forwardLoop, RunsIntoAt.cons_iff]
    have atSign : isalnum (chr '@') = false := by decide
    have dotSign : isalnum (chr '.') = false := by decide
    by_cases letter : isalnum c = true
    · have notAt : c ≠ chr '@' := by
        rintro rfl
        cases letter.symm.trans atSign
      have notDot : c ≠ chr '.' := by
        rintro rfl
        cases letter.symm.trans dotSign
      rw [if_pos letter, ih]
      simp [letter, notAt, notDot]
    rw [if_neg letter]
    by_cases another : c = chr '@'
    · simp [another]
    rw [if_neg (by simpa using another)]
    by_cases dot : c = chr '.'
    · have others : chr '.' ≠ chr '@' ∧ chr '.' ≠ chr '/' ∧ chr '.' ≠ chr '-' ∧ chr '.' ≠ chr '_' := by decide
      cases follows : behind.head?.any isalnum <;> simp [dot, dotSign, others, ih]
    by_cases slash : c = chr '/'
    · have others : chr '/' ≠ chr '@' ∧ chr '/' ≠ chr '.' ∧ chr '/' ≠ chr '-' ∧ chr '/' ≠ chr '_' := by decide
      cases xmpp : isXmpp <;> simp_all
    by_cases inner : c = chr '-' ∨ c = chr '_'
    · rcases inner with rfl | rfl <;> simp [another, dot, slash, ih]
    · rw [not_or] at inner
      simp [letter, another, dot, slash, inner]

/-- What the walk passes belongs to a domain, and it may stop at an at sign. -/
theorem forwardLoop_spec (isXmpp : Bool) (behind : Bytes) (linkEnd np : Nat) :
    ∃ passed, (forwardLoop isXmpp behind linkEnd np).1 = linkEnd + passed ∧ passed ≤ behind.length ∧ (∀ c ∈ behind.take passed, domainChar c = true) ∧
      ((forwardLoop isXmpp behind linkEnd np).2.2 = true → behind[passed]? = some (chr '@')) := by
  induction behind generalizing linkEnd np with
  | nil => exact ⟨0, rfl, le_rfl, by simp, fun impossible => by cases impossible⟩
  | cons c behind ih =>
    have next (np : Nat) (char : domainChar c = true) :
        ∃ passed, (forwardLoop isXmpp behind (linkEnd + 1) np).1 = linkEnd + passed ∧
          passed ≤ (c :: behind).length ∧ (∀ d ∈ (c :: behind).take passed, domainChar d = true) ∧
            ((forwardLoop isXmpp behind (linkEnd + 1) np).2.2 = true → (c :: behind)[passed]? = some (chr '@')) := by
      obtain ⟨passed, goes, within, chars, stops⟩ := ih (linkEnd + 1) np
      refine ⟨passed + 1, by omega, Nat.succ_le_succ within, ?_, stops⟩
      rw [List.take_succ_cons, List.forall_mem_cons]
      exact ⟨char, chars⟩
    rw [forwardLoop]
    split_ifs with letter another dot slash other
    · exact next np (by simp [domainChar, letter])
    · rw [beq_iff_eq] at another
      exact ⟨0, rfl, Nat.zero_le _, by simp, fun _ => congrArg some another⟩
    · refine next (np + 1) ?_
      rw [Bool.and_eq_true, beq_iff_eq] at dot
      rw [dot.1]
      decide
    · refine next np ?_
      rw [Bool.and_eq_true, beq_iff_eq] at slash
      rw [slash.1]
      decide
    · exact ⟨0, rfl, Nat.zero_le _, by simp, False.elim⟩
    · refine next np ?_
      have inner : c = chr '-' ∨ c = chr '_' := by
        simpa [Decidable.or_iff_not_imp_left] using other
      rcases inner with rfl | rfl <;> decide

end

/-! ### One search -/

theorem chunkDup_add (data : Bytes) (pos a b : Nat) :
    chunkDup data pos (a + b) = chunkDup data pos a ++ chunkDup data (pos + a) b := by
  rw [chunkDup, List.take_add, List.drop_drop]
  rfl

/-- What is written before the text of a link. -/
def Protocols.added (protocols : Protocols) : Bytes := if protocols.autoMailto then lit "mailto:" else []

/-- What comes of a search, from the at sign at `offset + maxRewind` on. -/
inductive Search (data : Bytes) : Nat → Nat → Protocols → Address → Prop
  | skip {offset maxRewind n : Nat} {protocols : Protocols} :
      0 < n → Search data offset maxRewind protocols (.skip (offset + maxRewind + n))
  | again {offset maxRewind rewind passed : Nat} {protocols walked : Protocols} {a : Address} :
      rewindLoop (chunkDup data offset maxRewind).reverse 0 protocols = (rewind, walked) →
      RunsIntoAt walked.isXmpp (data.drop (offset + maxRewind + 1)) →
      (∀ c ∈ chunkDup data (offset + maxRewind + 1) passed, domainChar c = true) →
      Search data (offset + maxRewind + 1) passed walked a → Search data offset maxRewind protocols a
  | link {offset maxRewind rewind linkEnd : Nat} {protocols walked : Protocols} :
      rewindLoop (chunkDup data offset maxRewind).reverse 0 protocols = (rewind, walked) →
      ¬ RunsIntoAt walked.isXmpp (data.drop (offset + maxRewind + 1)) →
      data[offset + maxRewind]? = some (chr '@') → offset + maxRewind + linkEnd < data.length →
      (∀ c ∈ chunkDup data (offset + maxRewind + 1) linkEnd, domainChar c = true) →
      Search data offset maxRewind protocols (.link (offset + maxRewind - rewind) (offset + maxRewind + (linkEnd + 1))
        (walked.added ++ chunkDup data (offset + maxRewind - rewind) (linkEnd + 1 + rewind)))

section

variable {data : Bytes} {offset maxRewind np : Nat} {protocols : Protocols} {a : Address}

theorem search_foundAt (fuel : Nat) (at' : data[offset + maxRewind]? = some (chr '@')) :
    Search data offset maxRewind protocols (foundAt data fuel offset maxRewind np protocols) := by
  induction fuel generalizing offset maxRewind np protocols with
  | zero => exact .skip Nat.one_pos
  | succ fuel ih =>
    have inside : offset + maxRewind < data.length := (List.getElem?_eq_some_iff.mp at').1
    unfold foundAt
    rcases walk : rewindLoop (chunkDup data offset maxRewind).reverse 0 protocols with ⟨rewind, walked⟩
    have further := forwardLoop_another_iff walked.isXmpp (data.drop (offset + maxRewind + 1)) 1 np
    obtain ⟨passed, goes, within, chars, stops⟩ :=
      forwardLoop_spec walked.isXmpp (data.drop (offset + maxRewind + 1)) 1 np
    dsimp only
    rw [List.tail_drop]
    rcases forward : forwardLoop walked.isXmpp (data.drop (offset + maxRewind + 1)) 1 np with ⟨linkEnd, np', another⟩
    rw [forward] at further goes stops
    obtain rfl : linkEnd = 1 + passed := goes
    rw [List.length_drop] at within
    dsimp only
    by_cases none : rewind = 0
    · rw [if_pos none]
      exact .skip Nat.one_pos
    rw [if_neg none]
    by_cases again : another = true
    · have next : data[offset + maxRewind + 1 + passed]? = some (chr '@') := by
        rw [← List.getElem?_drop]
        exact stops again
      rw [if_pos again, Nat.add_sub_cancel_left]
      exact .again walk (further.mp again) chars (ih next)
    rw [if_neg again]
    split
    · exact .skip (by omega)
    -- the link is trimmed at its end
    have first : (data.drop (offset + maxRewind))[0]? ≠ some (chr ';') := by
      rw [List.getElem?_drop, Nat.add_zero, at']
      decide
    obtain ⟨linkEnd, delim, shorter, _⟩ := autolinkDelim_spec (data.drop (offset + maxRewind)) (1 + passed)
      (by rw [List.length_drop]; omega) first
    rw [delim, Option.getD_some]
    by_cases noEnd : linkEnd = 0
    · rw [if_pos noEnd]
      exact .skip Nat.one_pos
    · rw [if_neg noEnd]
      obtain ⟨linkEnd, rfl⟩ := Nat.exists_eq_succ_of_ne_zero noEnd
      have fewer : ∀ c ∈ chunkDup data (offset + maxRewind + 1) linkEnd, domainChar c = true := fun c among =>
        chars c ((List.take_sublist_take_left (by omega)).subset among)
      exact .link walk (fun runs => again (further.mpr runs)) at' (by omega) fewer

end

/-! ### Addresses -/

/-- A local part, an at sign and a domain. -/
def IsAddress (s : Bytes) : Prop :=
  ∃ name domain, s = name ++ chr '@' :: domain ∧ (∀ c ∈ name, localChar c = true) ∧ chr '@' ∉ domain

/-- The link is for a part of the text, and leads to a scheme with the address behind it. -/
structure MailLink (text url literal : Bytes) : Prop where
  source : literal <:+: text
  scheme : ∃ scheme ∈ schemes, ∃ address, IsAddress address ∧ url = scheme ++ address ∧
    (literal = url ∨ literal = address)

theorem no_at_of_domainChar {s : Bytes} (chars : ∀ c ∈ s, domainChar c = true) : chr '@' ∉ s := fun among =>
  absurd (chars _ among) (by decide)

theorem no_colon_of_domainChar {s : Bytes} (chars : ∀ c ∈ s, domainChar c = true) : chr ':' ∉ s := fun among =>
  absurd (chars _ among) (by decide)

theorem no_colon_of_localChar {s : Bytes} (chars : ∀ c ∈ s, localChar c = true) : chr ':' ∉ s := fun among =>
  absurd (chars _ among) (by decide)

section

variable {left : Bytes} {protocols : Protocols}

/-- The walk passes the local part. -/
theorem rewindLoop_eq (left : Bytes) (protocols : Protocols) : rewindLoop left 0 protocols =
    rewindLoop (left.dropWhile localChar) (left.takeWhile localChar).length protocols := by
  have chars : ∀ c ∈ left.takeWhile localChar, localChar c = true := fun c => List.mem_takeWhile_imp
  have passed := rewindLoop_append chars (left.dropWhile localChar) 0 protocols
  rwa [List.takeWhile_append_dropWhile, Nat.zero_add] at passed

theorem not_localChar_head (left : Bytes) : ∀ c ∈ (left.dropWhile localChar).head?, localChar c = false := by
  intro c first
  have other := List.head?_dropWhile_not localChar left
  rw [Option.mem_def] at first
  rw [first] at other
  simpa using other

/-- It ends there unless there is a scheme. -/
theorem rewindLoop_noScheme (none : schemeBefore (left.dropWhile localChar) = none) :
    rewindLoop left 0 protocols = ((left.takeWhile localChar).length, protocols) := by
  rw [rewindLoop_eq, rewindLoop_stops ⟨not_localChar_head left, none⟩]

theorem schemeBefore_noColon (absent : chr ':' ∉ left) : schemeBefore left = none := by
  cases found : schemeBefore left with
  | none => rfl
  | some scheme =>
    obtain ⟨valid, which⟩ := schemeBefore_cases found
    have begins := prefix_of_validateProtocol valid
    refine absurd ?_ absent
    rw [begins]
    rcases which with rfl | ⟨rfl, _⟩
    · exact List.mem_append_left _ (by decide)
    · exact List.mem_append_left _ (by decide)

/-- A domain has no colons, so there is no scheme between one at sign and the next. -/
theorem schemeBefore_domain {s : Bytes} (chars : ∀ c ∈ s, domainChar c = true) :
    schemeBefore (s.reverse.dropWhile localChar) = none :=
  schemeBefore_noColon fun among =>
    no_colon_of_domainChar chars (List.mem_reverse.mp ((List.dropWhile_sublist localChar).subset among))

theorem stopsWalk_nil : StopsWalk [] := ⟨by simp, schemeBefore_noColon List.not_mem_nil⟩

/-- Where the walk does not stop it goes on by a byte. -/
theorem lt_rewindLoop (goes : ¬ StopsWalk left) (rewind : Nat) (protocols : Protocols) : rewind < (rewindLoop left rewind protocols).1 := by
  cases found : schemeBefore left with
  | none =>
    cases left with
    | nil => exact absurd stopsWalk_nil goes
    | cons c left =>
      have char : localChar c = true := by
        by_contra other
        exact goes ⟨by simpa using other, found⟩
      have chars : ∀ d ∈ [c], localChar d = true := by simpa using char
      have passed := rewindLoop_append chars left rewind protocols
      rw [List.singleton_append] at passed
      rw [passed]
      exact (rewindLoop_bounds left (rewind + 1) protocols).1
  | some scheme =>
    have nonempty : 0 < scheme.length := by
      rcases (schemeBefore_cases found).2 with rfl | ⟨rfl, _⟩ <;> decide
    have further := (rewindLoop_bounds (left.drop scheme.length) (rewind + scheme.length)
      { autoMailto := false, isXmpp := protocols.isXmpp || scheme == lit "xmpp:" }).1
    rw [rewindLoop_scheme found]
    omega

/-- What the walk passes where there is a scheme, and the flags behind it. -/
theorem rewindLoop_passes {scheme : Bytes} {rewind : Nat} {walked : Protocols}
    (found : schemeBefore (left.dropWhile localChar) = some scheme)
    (walk : rewindLoop left 0 {} = (rewind, walked)) :
    walked.autoMailto = false ∧
      (StopsWalk ((left.dropWhile localChar).drop scheme.length) → walked.isXmpp = (scheme == lit "xmpp:")) ∧
      ∃ more, (left.take rewind).reverse = more ++ (scheme ++ (left.takeWhile localChar).reverse) ∧
        (more = [] ↔ StopsWalk ((left.dropWhile localChar).drop scheme.length)) := by
  have begins := prefix_of_validateProtocol (schemeBefore_cases found).1
  rw [rewindLoop_eq, rewindLoop_scheme found] at walk
  generalize beyond' : (left.dropWhile localChar).drop scheme.length = beyond at begins walk
  generalize flags' : Protocols.mk false (false || scheme == lit "xmpp:") = flags at walk
  have flag := autoMailto_rewindLoop beyond ((left.takeWhile localChar).length + scheme.length)
    (show flags.autoMailto = false by rw [← flags'])
  have bounds := rewindLoop_bounds beyond ((left.takeWhile localChar).length + scheme.length) flags
  rw [walk] at bounds flag
  obtain ⟨n, size⟩ := Nat.exists_eq_add_of_le bounds.1
  have whole : left = left.takeWhile localChar ++ (scheme.reverse ++ beyond) := by
    rw [← begins, List.takeWhile_append_dropWhile]
  have parts : left.take rewind = left.takeWhile localChar ++ (scheme.reverse ++ beyond.take n) := by
    conv_lhs => rw [whole]
    have size' : rewind = (left.takeWhile localChar).length + (scheme.reverse.length + n) := by
      rw [List.length_reverse]
      omega
    rw [size', List.take_length_add_append, List.take_length_add_append]
  refine ⟨flag, fun stops => ?_, (beyond.take n).reverse, ?_, ?_⟩
  · rw [rewindLoop_stops stops] at walk
    rw [← (Prod.mk.inj walk).2, ← flags', Bool.false_or]
  · rw [parts]
    simp
  · rw [List.reverse_eq_nil_iff, List.take_eq_nil_iff]
    constructor
    · intro empty
      by_contra goes
      have further := lt_rewindLoop goes ((left.takeWhile localChar).length + scheme.length) flags
      rw [walk] at further
      rcases empty with rfl | rfl
      · omega
      · exact goes stopsWalk_nil
    · intro stops
      rw [rewindLoop_stops stops] at walk
      have same := (Prod.mk.inj walk).1
      exact .inl (by omega)

end

section

variable {data url : Bytes} {offset maxRewind start stop : Nat} {protocols : Protocols} {a : Address}

theorem rewind_le {rewind : Nat} {walked : Protocols}
    (walk : rewindLoop (chunkDup data offset maxRewind).reverse 0 protocols = (rewind, walked)) : rewind ≤ maxRewind := by
  have bounds := (rewindLoop_bounds (chunkDup data offset maxRewind).reverse 0 protocols).2
  rw [walk, List.length_reverse, chunkDup, Nat.zero_add] at bounds
  exact Nat.le_trans bounds (List.length_take_le _ _)

theorem link_size {rewind : Nat} (linkEnd : Nat) (before : rewind ≤ maxRewind) :
    offset + maxRewind + (linkEnd + 1) - (offset + maxRewind - rewind) = linkEnd + 1 + rewind := by
  omega

/-- The text of a link: what the walk to the left has passed, the at sign, and the domain. -/
theorem chunkDup_link {rewind : Nat} {walked : Protocols} (linkEnd : Nat)
    (at' : data[offset + maxRewind]? = some (chr '@'))
    (walk : rewindLoop (chunkDup data offset maxRewind).reverse 0 protocols = (rewind, walked)) :
    chunkDup data (offset + maxRewind - rewind) (linkEnd + 1 + rewind) =
      ((chunkDup data offset maxRewind).reverse.take rewind).reverse ++
        chr '@' :: chunkDup data (offset + maxRewind + 1) linkEnd := by
  obtain ⟨inside, here⟩ := List.getElem?_eq_some_iff.mp at'
  have length : (chunkDup data offset maxRewind).length = maxRewind := by
    rw [chunkDup, List.length_take, List.length_drop]
    omega
  have bounds := rewind_le walk
  have before : chunkDup data (offset + maxRewind - rewind) rewind =
      ((chunkDup data offset maxRewind).reverse.take rewind).reverse := by
    rw [List.take_reverse, List.reverse_reverse, length, chunkDup, chunkDup, List.drop_take, List.drop_drop]
    congr 1
    · omega
    · congr 1
      omega
  have one : chunkDup data (offset + maxRewind) 1 = [chr '@'] := by
    rw [chunkDup, List.drop_eq_getElem_cons inside, here]
    rfl
  have order : linkEnd + 1 + rewind = rewind + (1 + linkEnd) := by omega
  have back : offset + maxRewind - rewind + rewind = offset + maxRewind := Nat.sub_add_cancel (by omega)
  rw [order, chunkDup_add, back, chunkDup_add, one, before]
  rfl

/-- With no scheme to pass, the flag says what is written before the link. -/
theorem Search.noScheme (search : Search data offset maxRewind protocols a)
    (none : schemeBefore ((chunkDup data offset maxRewind).reverse.dropWhile localChar) = none)
    (made : a = .link start stop url) :
    IsAddress (chunkDup data start (stop - start)) ∧ url = protocols.added ++ chunkDup data start (stop - start) := by
  induction search with
  | skip => cases made
  | again walk runs chars search ih =>
    rw [rewindLoop_noScheme none] at walk
    obtain ⟨_, rfl⟩ := Prod.mk.inj walk
    exact ih (schemeBefore_domain chars) made
  | @link offset maxRewind rewind linkEnd protocols walked walk alone at' within chars =>
    have text := chunkDup_link linkEnd at' walk
    have bounds := rewind_le walk
    rw [rewindLoop_noScheme none] at walk
    obtain ⟨rfl, rfl⟩ := Prod.mk.inj walk
    obtain ⟨rfl, rfl, rfl⟩ := Address.link.inj made
    rw [link_size linkEnd bounds]
    refine ⟨⟨_, _, text, ?_, no_at_of_domainChar chars⟩, rfl⟩
    rw [← List.prefix_iff_eq_take.mp (List.takeWhile_prefix localChar)]
    intro c among
    exact List.mem_takeWhile_imp (List.mem_reverse.mp among)

/-- If a scheme is passed then the walk to the left stops behind it, and the domain does not run into another at
sign. -/
def SchemeKept (data : Bytes) (offset maxRewind : Nat) : Prop :=
  let left := (chunkDup data offset maxRewind).reverse.dropWhile localChar
  ∀ scheme, schemeBefore left = some scheme → StopsWalk (left.drop scheme.length) ∧
    ¬ RunsIntoAt (scheme == lit "xmpp:") (data.drop (offset + maxRewind + 1))

/-- A link that leads to its text has a scheme before the local part. -/
theorem MailLink.before_at {before domain : Bytes} (noAt : chr '@' ∉ before) (noAt' : chr '@' ∉ domain)
    (link : MailLink data (before ++ chr '@' :: domain) (before ++ chr '@' :: domain)) :
    ∃ scheme name, (scheme = lit "mailto" ∨ scheme = lit "xmpp") ∧ (∀ c ∈ name, localChar c = true) ∧
      before = scheme ++ chr ':' :: name := by
  obtain ⟨_, scheme, among, address, ⟨name, domain', rfl, chars, _⟩, same, _⟩ := link
  rw [← List.append_assoc, List.append_cons_inj_of_notMem noAt noAt'] at same
  rw [schemes, List.mem_pair] at among
  rcases among with rfl | rfl
  · exact ⟨lit "mailto", name, .inl rfl, chars, same.1⟩
  · exact ⟨lit "xmpp", name, .inr rfl, chars, same.1⟩

/-- With more before the scheme there is none at the beginning. -/
theorem eq_nil_of_schemes {more scheme other name name' : Bytes} (which : scheme = lit "mailto" ∨ scheme = lit "xmpp")
    (which' : other = lit "mailto" ∨ other = lit "xmpp") (chars : chr ':' ∉ name)
    (same : more ++ (scheme ++ chr ':' :: name') = other ++ chr ':' :: name) : more = [] := by
  have noColon : chr ':' ∉ other := by
    rcases which' with rfl | rfl <;> decide
  rw [← List.append_assoc, eq_comm, List.append_cons_inj_of_notMem noColon chars] at same
  have length := congrArg List.length same.1
  have last := congrArg List.getLast? same.1
  rw [List.length_append] at length
  rw [List.getLast?_append] at last
  have ends : (lit "mailto").getLast? = some (chr 'o') ∧ (lit "xmpp").getLast? = some (chr 'p') := by decide
  rcases which with rfl | rfl <;> rcases which' with rfl | rfl
  · exact List.length_eq_zero_iff.mp (Nat.right_eq_add.mp length)
  · rw [ends.1, ends.2, Option.some_or] at last
    exact absurd last (by decide)
  · rw [ends.1, ends.2, Option.some_or] at last
    exact absurd last (by decide)
  · exact List.length_eq_zero_iff.mp (Nat.right_eq_add.mp length)

/-- A link without `mailto:` before its text leads nowhere if there is no colon in the text. -/
theorem IsAddress.not_mailLink {address : Bytes} (is : IsAddress address) : ¬ MailLink data address address := by
  obtain ⟨name, domain, rfl, chars, noAt⟩ := is
  intro link
  have noAt' : chr '@' ∉ name := fun among => absurd (chars _ among) (by decide)
  obtain ⟨scheme, name', _, _, rfl⟩ := link.before_at noAt' noAt
  exact no_colon_of_localChar chars (List.mem_append_right _ List.mem_cons_self)

theorem chunkDup_isInfix (data : Bytes) (pos len : Nat) : chunkDup data pos len <:+: data :=
  (List.take_prefix len (data.drop pos)).isInfix.trans (List.drop_suffix pos data).isInfix

/-- The link that a search makes has its scheme exactly if it is kept. -/
theorem Search.mailLink_iff (search : Search data offset maxRewind {} (.link start stop url))
    (first : chr '@' ∉ chunkDup data offset maxRewind) :
    MailLink data url (chunkDup data start (stop - start)) ↔ SchemeKept data offset maxRewind := by
  unfold SchemeKept
  extract_lets left
  have source := chunkDup_isInfix data start (stop - start)
  cases found : schemeBefore left with
  | none =>
    obtain ⟨is, same⟩ := search.noScheme found rfl
    refine ⟨fun _ scheme some => ?_, fun _ => ⟨source, lit "mailto:", by decide, _, is, same, .inr rfl⟩⟩
    cases some
  | some scheme =>
    cases search with
    | again walk runs chars search =>
      obtain ⟨flag, xmpp, _⟩ := rewindLoop_passes found walk
      obtain ⟨is, same⟩ := search.noScheme (schemeBefore_domain chars) rfl
      rw [Protocols.added, flag, if_neg Bool.false_ne_true, List.nil_append] at same
      rw [same]
      refine iff_of_false is.not_mailLink fun kept => ?_
      obtain ⟨stops, alone⟩ := kept scheme rfl
      rw [xmpp stops] at runs
      exact alone runs
    | @link _ _ rewind linkEnd _ walked walk alone at' within chars =>
      obtain ⟨flag, xmpp, more, passed, stops⟩ := rewindLoop_passes found walk
      have text := chunkDup_link linkEnd at' walk
      rw [passed] at text
      rw [Protocols.added, flag, if_neg Bool.false_ne_true, List.nil_append, link_size linkEnd (rewind_le walk), text]
      rw [link_size linkEnd (rewind_le walk), text] at source
      have noAt : chr '@' ∉ more ++ (scheme ++ ((chunkDup data offset maxRewind).reverse.takeWhile localChar).reverse) := by
        rw [← passed]
        intro among
        exact first (List.mem_reverse.mp (List.mem_of_mem_take (List.mem_reverse.mp among)))
      have noAt' := no_at_of_domainChar chars
      obtain ⟨valid, which⟩ := schemeBefore_cases found
      constructor
      · intro link scheme' same
        obtain rfl := Option.some.inj same
        obtain ⟨other, name, which', chars', before⟩ := link.before_at noAt noAt'
        obtain ⟨s, which'', colon⟩ : ∃ s, (s = lit "mailto" ∨ s = lit "xmpp") ∧ scheme = s ++ [chr ':'] := by
          rcases which with rfl | ⟨rfl, _⟩
          · exact ⟨lit "mailto", .inl rfl, rfl⟩
          · exact ⟨lit "xmpp", .inr rfl, rfl⟩
        rw [colon, List.append_assoc] at before
        have stopped := stops.mp (eq_nil_of_schemes which'' which' (no_colon_of_localChar chars') before)
        rw [xmpp stopped] at alone
        exact ⟨stopped, alone⟩
      · intro kept
        obtain rfl := stops.mpr (kept scheme rfl).1
        have among : scheme ∈ schemes := by
          rcases which with rfl | ⟨rfl, _⟩ <;> decide
        rw [List.nil_append, List.append_assoc] at source ⊢
        refine ⟨source, scheme, among, _, ⟨_, _, rfl, fun c inside => ?_, noAt'⟩, rfl, .inl rfl⟩
        exact List.mem_takeWhile_imp (List.mem_reverse.mp inside)

end

/-! ### The whole text -/

/-- The states of the loop of `postprocess_text` on a text: what remains of it, and the offset. -/
inductive Reached (text : Bytes) : Bytes → Nat → Prop
  | start : Reached text text 0
  | skip {remaining : Bytes} {offset offset' : Nat} :
      Reached text remaining offset → findAddress remaining offset = some (.skip offset') → Reached text remaining offset'
  | link {remaining : Bytes} {offset start stop : Nat} {url : Bytes} :
      Reached text remaining offset → findAddress remaining offset = some (.link start stop url) →
      Reached text (remaining.drop stop) 0

/-- The at sign that is found next. -/
def nextAt (remaining : Bytes) (offset : Nat) : Option Nat := (remaining.drop offset).findIdx? (· == chr '@')

/-- The parts from a state of the loop on. -/
def piecesFrom (remaining : Bytes) (offset : Nat) : List TextPiece := postprocessLoop remaining.length remaining offset

section

variable {text remaining : Bytes} {offset maxRewind start stop : Nat} {url : Bytes} {a : Address}

theorem nextAt_spec (next : nextAt remaining offset = some maxRewind) :
    remaining[offset + maxRewind]? = some (chr '@') ∧ chr '@' ∉ chunkDup remaining offset maxRewind := by
  obtain ⟨inside, here, before⟩ := List.findIdx?_eq_some_iff_getElem.mp next
  constructor
  · rw [← List.getElem?_drop, List.getElem?_eq_getElem inside]
    exact congrArg some (by simpa using here)
  · intro (among : chr '@' ∈ (remaining.drop offset).take maxRewind)
    obtain ⟨i, low, same⟩ := List.mem_iff_getElem.mp among
    rw [List.length_take] at low
    have other := before i (by omega)
    rw [List.getElem_take] at same
    rw [same] at other
    exact other rfl

theorem search_findAddress (found : findAddress remaining offset = some a) : ∃ maxRewind,
    nextAt remaining offset = some maxRewind ∧ Search remaining offset maxRewind {} a := by
  obtain ⟨maxRewind, next, rfl⟩ := Option.map_eq_some_iff.mp found
  exact ⟨maxRewind, next, search_foundAt _ (nextAt_spec next).1⟩

/-- Where the loop goes on after a search. -/
def Address.next : Address → Nat
  | .skip offset => offset
  | .link _ stop _ => stop

theorem Search.lt_next {protocols : Protocols} (search : Search remaining offset maxRewind protocols a) :
    offset + maxRewind < a.next := by
  induction search with
  | skip positive => exact Nat.lt_add_of_pos_right positive
  | again _ _ _ _ ih => omega
  | link _ _ _ _ _ => exact Nat.lt_add_of_pos_right (Nat.succ_pos _)

/-- Every turn of the loop comes closer to the end. -/
theorem findAddress_next (found : findAddress remaining offset = some a) :
    offset < a.next ∧ offset < remaining.length := by
  obtain ⟨maxRewind, next, search⟩ := search_findAddress found
  have further := search.lt_next
  have inside := (List.getElem?_eq_some_iff.mp (nextAt_spec next).1).1
  omega

theorem postprocessLoop_fuel {fuel fuel' : Nat} (enough : remaining.length - offset ≤ fuel)
    (enough' : remaining.length - offset ≤ fuel') :
    postprocessLoop fuel remaining offset = postprocessLoop fuel' remaining offset := by
  induction fuel generalizing fuel' remaining offset with
  | zero =>
    cases fuel' with
    | zero => rfl
    | succ fuel' =>
      rw [postprocessLoop, postprocessLoop]
      cases found : findAddress remaining offset with
      | none => rfl
      | some a =>
        have inside := (findAddress_next found).2
        omega
  | succ fuel ih =>
    cases found : findAddress remaining offset with
    | none => cases fuel' <;> simp [postprocessLoop, found]
    | some a =>
      obtain ⟨further, inside⟩ := findAddress_next found
      obtain ⟨fuel', rfl⟩ := Nat.exists_eq_succ_of_ne_zero (by omega : fuel' ≠ 0)
      rw [postprocessLoop, postprocessLoop, found]
      cases a with
      | skip offset' =>
        have further : offset < offset' := further
        exact ih (by omega) (by omega)
      | link start stop url =>
        have further : offset < stop := further
        have shorter : (remaining.drop stop).length = remaining.length - stop := List.length_drop
        have rest : postprocessLoop fuel (remaining.drop stop) 0 = postprocessLoop fuel' (remaining.drop stop) 0 :=
          ih (by omega) (by omega)
        dsimp only
        rw [rest]

theorem piecesFrom_succ (remaining : Bytes) (offset : Nat) :
    piecesFrom remaining offset = postprocessLoop (remaining.length + 1) remaining offset :=
  postprocessLoop_fuel (Nat.sub_le _ _) (Nat.le_succ_of_le (Nat.sub_le _ _))

theorem piecesFrom_none (found : findAddress remaining offset = none) :
    piecesFrom remaining offset = [.text remaining] := by
  rw [piecesFrom_succ, postprocessLoop, found]

theorem piecesFrom_skip {offset' : Nat} (found : findAddress remaining offset = some (.skip offset')) :
    piecesFrom remaining offset = piecesFrom remaining offset' := by
  rw [piecesFrom_succ, postprocessLoop, found]
  rfl

theorem piecesFrom_link (found : findAddress remaining offset = some (.link start stop url)) :
    piecesFrom remaining offset = .text (remaining.take start) ::
      .link url (chunkDup remaining start (stop - start)) :: piecesFrom (remaining.drop stop) 0 := by
  have shorter : (remaining.drop stop).length = remaining.length - stop := List.length_drop
  have rest : postprocessLoop remaining.length (remaining.drop stop) 0 = piecesFrom (remaining.drop stop) 0 :=
    postprocessLoop_fuel (by omega) (by omega)
  rw [piecesFrom_succ, postprocessLoop, found]
  dsimp only
  rw [rest]

/-- What remains is the end of the text. -/
theorem Reached.suffix (reached : Reached text remaining offset) : remaining <:+ text := by
  induction reached with
  | start => exact List.suffix_rfl
  | skip _ _ ih => exact ih
  | link _ _ ih => exact (List.drop_suffix _ _).trans ih

/-- The parts from a reached state on are parts of the text. -/
theorem Reached.pieces (reached : Reached text remaining offset) :
    ∀ piece ∈ piecesFrom remaining offset, piece ∈ postprocessText text := by
  induction reached with
  | start => exact fun _ => id
  | skip _ found ih => rwa [← piecesFrom_skip found]
  | link _ found ih =>
    intro piece among
    apply ih
    rw [piecesFrom_link found]
    exact List.mem_cons_of_mem _ (List.mem_cons_of_mem _ among)

/-- Every link comes of a search in a reached state. -/
theorem reached_of_link {literal : Bytes} (fuel : Nat) (reached : Reached text remaining offset)
    (among : .link url literal ∈ postprocessLoop fuel remaining offset) :
    ∃ remaining offset start stop, Reached text remaining offset ∧
      findAddress remaining offset = some (.link start stop url) ∧ literal = chunkDup remaining start (stop - start) := by
  induction fuel generalizing remaining offset with
  | zero =>
    cases List.mem_singleton.mp among
  | succ fuel ih =>
    rw [postprocessLoop] at among
    cases found : findAddress remaining offset with
    | none =>
      rw [found] at among
      cases List.mem_singleton.mp among
    | some a =>
      rw [found] at among
      cases a with
      | skip offset' => exact ih (reached.skip found) among
      | link start stop url' =>
        rcases List.mem_cons.mp among with impossible | among
        · cases impossible
        rcases List.mem_cons.mp among with here | among
        · obtain ⟨rfl, rfl⟩ := TextPiece.link.inj here
          exact ⟨remaining, offset, start, stop, reached, found, rfl⟩
        · exact ih (reached.link found) among

end

/-- Every link that is made leads to its address exactly if no scheme that stands before an address is passed over
or kept for another one. -/
theorem postprocessText_mailLinks_iff (text : Bytes) :
    (∀ url literal, .link url literal ∈ postprocessText text → MailLink text url literal) ↔
      ∀ remaining offset maxRewind, Reached text remaining offset → nextAt remaining offset = some maxRewind →
        (∃ start stop url, findAddress remaining offset = some (.link start stop url)) →
          SchemeKept remaining offset maxRewind := by
  constructor
  · rintro all remaining offset maxRewind reached next ⟨start, stop, url, found⟩
    obtain ⟨maxRewind', next', search⟩ := search_findAddress found
    obtain rfl := Option.some.inj (next.symm.trans next')
    have among : .link url (chunkDup remaining start (stop - start)) ∈ piecesFrom remaining offset := by
      rw [piecesFrom_link found]
      exact List.mem_cons_of_mem _ List.mem_cons_self
    have link := all url _ (reached.pieces _ among)
    exact (search.mailLink_iff (nextAt_spec next).2).mp ⟨chunkDup_isInfix _ _ _, link.scheme⟩
  · intro kept url literal among
    obtain ⟨remaining, offset, start, stop, reached, found, rfl⟩ := reached_of_link _ .start among
    obtain ⟨maxRewind, next, search⟩ := search_findAddress found
    have link := (search.mailLink_iff (nextAt_spec next).2).mpr (kept _ _ _ reached next ⟨start, stop, url, found⟩)
    exact ⟨link.source.trans reached.suffix.isInfix, link.scheme⟩

theorem MailLink.head_url {text url literal : Bytes} (link : MailLink text url literal) :
    url.head? = some (chr 'm') ∨ url.head? = some (chr 'x') := by
  obtain ⟨scheme, among, address, _, rfl, _⟩ := link.scheme
  rcases List.mem_pair.mp among with rfl | rfl
  · exact .inl rfl
  · exact .inr rfl

/-- In `a.mailto:foo@bar.com` the walk goes on behind the scheme; in `mailto:a@b@c.com` the scheme is that of an
address which is given up. -/
theorem schemes_lost :
    ¬ (∀ url literal, .link url literal ∈ postprocessText (lit "a.mailto:foo@bar.com") →
        MailLink (lit "a.mailto:foo@bar.com") url literal) ∧
      ¬ (∀ url literal, .link url literal ∈ postprocessText (lit "mailto:a@b@c.com") →
        MailLink (lit "mailto:a@b@c.com") url literal) := by
  constructor
  · intro all
    have link := all (lit "a.mailto:foo@bar.com") (lit "a.mailto:foo@bar.com") (by decide +kernel)
    exact absurd link.head_url (by decide)
  · intro all
    have link := all (lit "b@c.com") (lit "b@c.com") (by decide +kernel)
    exact absurd link.head_url (by decide)

end CmarkGfm
