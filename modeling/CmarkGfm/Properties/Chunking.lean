import CmarkGfm.Parser.Document

/-!
# Chunking of the input

`S_parser_feed` is the fold of a step that reads one byte. Two ways of cutting the input
then differ only by the flag for a CR at the end of a buffer, which an empty buffer
clears: the main result, `sameResult_iff`, says when that changes the lines.
-/

namespace CmarkGfm

/-! ### Reading byte by byte -/

section

variable {σ τ : Type}

/-- Read one byte: the meaning of `S_parser_feed` apart from the counting. -/
def readByte (emit : σ → Bytes → Bool → σ) (st : Feed × σ) (c : UInt8) : Feed × σ :=
  let (feed, s) := st
  if c = 10 ∧ feed.lastBufferEndedWithCr = true then
    ({ feed with lastBufferEndedWithCr := false }, s)
  else if isLineEndChar c then
    ({ feed with linebuf := [], lastBufferEndedWithCr := c = 13 }, emit s feed.linebuf true)
  else
    ({ feed with
        linebuf := feed.linebuf ++ if c = 0 then encodeUnknown else [c]
        lastBufferEndedWithCr := false }, s)

variable (emit : σ → Bytes → Bool → σ) (preserveWhitespace : Bool)

def setCr (cr : Bool) (st : Feed × σ) : Feed × σ :=
  ({ st.1 with lastBufferEndedWithCr := cr }, st.2)

/-- Read a chunk: an empty one only clears the flag. -/
def readChunk (st : Feed × σ) (chunk : Bytes) : Feed × σ :=
  if chunk = [] then setCr false st else chunk.foldl (readByte emit) st

/-- The flag matters for a line feed only. -/
theorem readByte_setCr {c : UInt8} (other : c ≠ 10) (cr : Bool) (st : Feed × σ) :
    readByte emit (setCr cr st) c = readByte emit st c := by
  simp [readByte, setCr, other]

/-- A piece of a line goes into `linebuf`. -/
theorem foldl_readByte_plain {chunk : Bytes} (feed : Feed) (s : σ)
    (plain : ∀ c ∈ chunk, isPlain c = true) (noCr : feed.lastBufferEndedWithCr = false) :
    chunk.foldl (readByte emit) (feed, s) = ({ feed with linebuf := feed.linebuf ++ chunk }, s) := by
  induction chunk generalizing feed with
  | nil => simp
  | cons c rest ih =>
    obtain ⟨notEnd, notNul⟩ : isLineEndChar c = false ∧ c ≠ 0 := by
      simpa [isPlain] using plain c List.mem_cons_self
    have step : readByte emit (feed, s) c = ({ feed with linebuf := feed.linebuf ++ [c] }, s) := by
      simp [readByte, noCr, notEnd, notNul]
    have later := ih { feed with linebuf := feed.linebuf ++ [c] }
      (fun d member => plain d (List.mem_cons_of_mem _ member)) noCr
    rw [List.foldl_cons, step, later, List.append_assoc]
    rfl

/-- After a CR the rest of the buffer is read as if a following LF were dropped. -/
theorem foldl_readByte_afterCr (feed : Feed) (s : σ) (rest : Bytes)
    (cr : feed.lastBufferEndedWithCr = true) :
    rest.foldl (readByte emit) (feed, s) =
      (if rest.head? == some 10 then rest.tail else rest).foldl (readByte emit)
        (setCr rest.isEmpty (feed, s)) := by
  cases rest with
  | nil => simp [setCr, ← cr]
  | cons d rest =>
    by_cases lf : d = 10
    · simp [lf, readByte, cr, setCr]
    · simp [lf, List.foldl_cons, readByte_setCr emit lf]

/-- The loop of `S_parser_feed` reads byte by byte. -/
theorem feedLoop_eq_foldl (fuel : Nat) (buffer : Bytes) (feed : Feed) (s : σ)
    (enough : buffer.length ≤ fuel) (noCr : feed.lastBufferEndedWithCr = false) :
    feedLoop emit preserveWhitespace false fuel buffer feed s =
      buffer.foldl (readByte emit) (feed, s) := by
  induction fuel generalizing buffer feed s with
  | zero =>
    have empty : buffer = [] := List.length_eq_zero_iff.mp (Nat.le_zero.mp enough)
    simp [feedLoop, empty]
  | succ fuel ih =>
    by_cases empty : buffer = []
    · simp [feedLoop, empty]
    have plain : ∀ c ∈ buffer.takeWhile isPlain, isPlain c = true :=
      fun c member => List.mem_takeWhile_imp member
    conv_rhs => rw [← List.takeWhile_append_dropWhile (p := isPlain) (l := buffer)]
    rw [List.foldl_append, foldl_readByte_plain emit feed s plain noCr]
    simp only [feedLoop, empty, if_false, drop_length_takeWhile]
    have shorter : (buffer.dropWhile isPlain).length ≤ buffer.length :=
      (List.dropWhile_sublist _).length_le
    cases stopped : buffer.dropWhile isPlain with
    | nil => simp
    | cons c rest =>
      rw [stopped, List.length_cons] at shorter
      have enoughRest : rest.length ≤ fuel := by omega
      let joined : Feed := { feed with linebuf := feed.linebuf ++ buffer.takeWhile isPlain }
      by_cases nul : c = 0
      · have step : readByte emit (joined, s) c =
            ({ joined with linebuf := joined.linebuf ++ encodeUnknown }, s) := by
          simp [readByte, joined, nul, noCr, isLineEndChar]
        rw [List.foldl_cons, step]
        simpa [nul, joined] using
          ih rest { joined with linebuf := joined.linebuf ++ encodeUnknown } s enoughRest noCr
      · have isEnd : isLineEndChar c = true := by
          have head := List.head_dropWhile_not isPlain (l := buffer) (by simp [stopped])
          simpa [stopped, isPlain, nul] using head
        have step : readByte emit (joined, s) c =
            ({ feed with linebuf := [], lastBufferEndedWithCr := c = 13 },
              emit s joined.linebuf true) := by
          simp [readByte, joined, noCr, isEnd]
        rw [List.foldl_cons, step]
        by_cases isCr : c = 13
        · rw [foldl_readByte_afterCr emit _ _ rest (by simp [isCr])]
          cases rest with
          | nil => cases fuel <;> simp [isCr, processChunk, feedLoop, setCr, joined]
          | cons d rest =>
            have enoughTail : (if d = 10 then rest else d :: rest).length ≤ fuel := by
              split
              next => exact (Nat.le_succ _).trans enoughRest
              next => exact enoughRest
            have later := ih (if d = 10 then rest else d :: rest)
              { feed with linebuf := [], lastBufferEndedWithCr := false }
              (emit s joined.linebuf true) enoughTail rfl
            simpa [isCr, processChunk, setCr, joined] using later
        · have later := ih rest { feed with linebuf := [], lastBufferEndedWithCr := false }
            (emit s joined.linebuf true) enoughRest rfl
          simpa [nul, isCr, processChunk, joined, ← noCr] using later

/-- `S_parser_feed` counts the bytes of the buffer and reads them. -/
theorem parserFeed_eq_readChunk (feed : Feed) (s : σ) (buffer : Bytes) :
    parserFeed emit preserveWhitespace false feed s buffer =
      readChunk emit (feed.count buffer.length, s) buffer := by
  unfold parserFeed
  rw [feedLoop_eq_foldl emit preserveWhitespace _ _ _ _ (Nat.le_refl _) rfl]
  cases buffer with
  | nil => simp [readChunk, setCr]
  | cons c rest =>
    by_cases skipped : c = 10 ∧ feed.lastBufferEndedWithCr = true
    · simp [readChunk, skipped, byteAt, readByte, Feed.count]
    · have notSkipped : (feed.lastBufferEndedWithCr && c == 10) = false := by
        simpa [and_comm] using skipped
      have step : readByte emit ((feed.count (rest.length + 1)), s) c =
          readByte emit (setCr false (feed.count (rest.length + 1), s)) c := by
        simp [readByte, setCr, Feed.count, skipped]
      simp only [readChunk, List.cons_ne_nil, if_false, List.foldl_cons, List.length_cons, step]
      simp [byteAt, Feed.count, notSkipped, setCr]

/-! ### Chunks -/

/-- Feed chunks in order. -/
def feedChunks (st : Feed × σ) (chunks : List Bytes) : Feed × σ :=
  chunks.foldl (fun st chunk => parserFeed emit preserveWhitespace false st.1 st.2 chunk) st

end

/-- The lines that reach `S_process_line`, with the flag they are given. -/
def recordLine (lines : List (Bytes × Bool)) (line : Bytes) (ensureEndsInNewline : Bool) :
    List (Bytes × Bool) :=
  lines ++ [(line, ensureEndsInNewline)]

/-- The lines that feeding the chunks and then finishing passes to `S_process_line`. -/
def processedLines (preserveWhitespace : Bool) (chunks : List Bytes) : List (Bytes × Bool) :=
  let (feed, lines) := feedChunks recordLine preserveWhitespace ({}, []) chunks
  (flushLine recordLine preserveWhitespace feed lines).2

/-- `total_size` after the chunks. -/
def totalSizeOf (preserveWhitespace : Bool) (chunks : List Bytes) : Nat :=
  (feedChunks recordLine preserveWhitespace ({}, []) chunks).1.totalSize

/-- The document that a fresh parser makes of the chunks. -/
def documentOf (P : Config) (callback : Option (UInt8 → Bool)) (chunks : List Bytes) : Node :=
  (parserFinish (chunks.foldl cmarkParserFeed (parserNew P callback))).2

/-- Cutting the input into these chunks has the same result as not cutting it. -/
def SameResult (P : Config) (callback : Option (UInt8 → Bool)) (chunks : List Bytes) : Prop :=
  let preserve := P.options.has optPreserveWhitespace
  processedLines preserve chunks = processedLines preserve [chunks.flatten] ∧
    totalSizeOf preserve chunks = totalSizeOf preserve [chunks.flatten] ∧
    documentOf P callback chunks = documentOf P callback [chunks.flatten]

/-- A CR at the end of a chunk and an LF at the start of another have nothing between them but
empty chunks, at least one. -/
def EmptyChunkSplitsCrLf (chunks : List Bytes) : Prop :=
  ∃ before cr empties lf after, chunks = before ++ cr :: empties ++ lf :: after ∧
    empties ≠ [] ∧ (∀ e ∈ empties, e = []) ∧ cr.getLast? = some 13 ∧ lf.head? = some 10

/-! ### Lines that only the chunks have -/

/-- How many lines the chunks add. The flags say whether the last byte was a CR, and whether
the parser still knows it. -/
def extraLines : Bool → Bool → List Bytes → Nat
  | _, _, [] => 0
  | cr, _, [] :: chunks => extraLines cr false chunks
  | cr, known, (c :: rest) :: chunks =>
    let ends := (c :: rest).getLast? == some 13
    (if cr && !known && c == 10 then 1 else 0) + extraLines ends ends chunks

theorem extraLines_append (before chunks : List Bytes) (cr known : Bool) :
    ∃ cr' known', extraLines cr' known' chunks ≤ extraLines cr known (before ++ chunks) := by
  induction before generalizing cr known with
  | nil => exact ⟨cr, known, Nat.le_refl _⟩
  | cons chunk before ih =>
    cases chunk with
    | nil => exact ih cr false
    | cons c rest =>
      obtain ⟨cr', known', fewer⟩ := ih ((c :: rest).getLast? == some 13)
        ((c :: rest).getLast? == some 13)
      exact ⟨cr', known', fewer.trans (Nat.le_add_left _ _)⟩

theorem extraLines_empties (empties chunks : List Bytes) (empty : ∀ e ∈ empties, e = [])
    (present : empties ≠ []) (cr known : Bool) :
    extraLines cr known (empties ++ chunks) = extraLines cr false chunks := by
  induction empties generalizing known with
  | nil => exact absurd rfl present
  | cons e empties ih =>
    obtain rfl : e = [] := empty e List.mem_cons_self
    by_cases last : empties = []
    · simp [last, extraLines]
    · rw [List.cons_append, extraLines]
      exact ih (fun e member => empty e (List.mem_cons_of_mem _ member)) last false

/-- Where the extra lines come from, by induction on the chunks: a pair of chunks, or a chunk
that starts with LF after the CR the flags stand for. -/
theorem splits_of_extraLines (chunks : List Bytes) (cr known : Bool)
    (extra : extraLines cr known chunks ≠ 0) :
    EmptyChunkSplitsCrLf chunks ∨
      cr = true ∧ ∃ empties lf after, chunks = empties ++ lf :: after ∧
        (known = true → empties ≠ []) ∧ (∀ e ∈ empties, e = []) ∧ lf.head? = some 10 := by
  induction chunks generalizing cr known with
  | nil => exact absurd rfl extra
  | cons chunk chunks ih =>
    cases chunk with
    | nil =>
      rcases ih cr false extra with ⟨before, c, empties, lf, after, rfl, rest⟩ | ⟨isCr, found⟩
      · exact Or.inl ⟨[] :: before, c, empties, lf, after, rfl, rest⟩
      · obtain ⟨empties, lf, after, rfl, _, empty, head⟩ := found
        exact Or.inr ⟨isCr, [] :: empties, lf, after, rfl, by simp, by simpa using empty, head⟩
    | cons c rest =>
      by_cases here : (cr && !known && c == 10) = true
      · simp only [Bool.and_eq_true, Bool.not_eq_true', beq_iff_eq] at here
        obtain ⟨⟨isCr, unknown⟩, rfl⟩ := here
        exact Or.inr ⟨isCr, [], 10 :: rest, chunks, rfl, by simp [unknown], by simp, rfl⟩
      · simp only [extraLines, here] at extra
        rcases ih _ _ (by simpa using extra) with
          ⟨before, d, empties, lf, after, rfl, found⟩ | ⟨isCr, empties, lf, after, rfl, present, found⟩
        · exact Or.inl ⟨(c :: rest) :: before, d, empties, lf, after, rfl, found⟩
        · exact Or.inl ⟨[], c :: rest, empties, lf, after, rfl, present isCr, found.1,
            by simpa using isCr, found.2⟩

theorem extraLines_eq_zero_iff (chunks : List Bytes) :
    extraLines false false chunks = 0 ↔ ¬ EmptyChunkSplitsCrLf chunks := by
  constructor
  · rintro noExtra ⟨before, cr, empties, lf, after, rfl, present, empty, endsCr, startsLf⟩
    obtain ⟨c, rest, rfl⟩ := List.exists_cons_of_ne_nil (l := cr) (by rintro rfl; simp at endsCr)
    obtain ⟨d, tail, rfl⟩ := List.exists_cons_of_ne_nil (l := lf) (by rintro rfl; simp at startsLf)
    obtain rfl : d = 10 := by simpa using startsLf
    obtain ⟨cr', known', fewer⟩ := extraLines_append before
      ((c :: rest) :: empties ++ (10 :: tail) :: after) false false
    have positive : 0 < extraLines cr' known' ((c :: rest) :: (empties ++ (10 :: tail) :: after)) := by
      rw [extraLines, endsCr, extraLines_empties empties _ empty present, extraLines]
      have counted : (if (some (13 : UInt8) == some 13 && !false && (10 : UInt8) == 10) = true then 1
          else 0) = 1 := rfl
      rw [counted]
      omega
    simp only [List.cons_append, List.append_assoc] at fewer noExtra
    omega
  · intro whole
    by_contra extra
    rcases splits_of_extraLines chunks false false extra with splits | ⟨impossible, _⟩
    · exact whole splits
    · exact absurd impossible (by simp)

/-! ### Comparing the runs -/

/-- The chunked run is `k` lines ahead, which are empty lines; otherwise it has the same lines and
the same unfinished line. -/
structure Ahead (k : Nat) (st st' : Feed × List (Bytes × Bool)) : Prop where
  linebuf : st.1.linebuf = st'.1.linebuf
  lines : st'.2.length = st.2.length + k
  equal : k = 0 → st.2 = st'.2

/-- Equal flags: the same byte has the same effect on both runs. -/
theorem ahead_readByte {k : Nat} {st st' : Feed × List (Bytes × Bool)} (ahead : Ahead k st st')
    (flags : st.1.lastBufferEndedWithCr = st'.1.lastBufferEndedWithCr) (c : UInt8) :
    Ahead k (readByte recordLine st c) (readByte recordLine st' c) ∧
      (readByte recordLine st c).1.lastBufferEndedWithCr =
        (readByte recordLine st' c).1.lastBufferEndedWithCr := by
  obtain ⟨linebuf, lines, equal⟩ := ahead
  simp only [readByte, ← flags, ← linebuf]
  split
  next => exact ⟨⟨rfl, lines, equal⟩, rfl⟩
  next =>
    split
    next =>
      refine ⟨⟨rfl, ?_, fun none => ?_⟩, rfl⟩
      · simp only [recordLine, List.length_append, List.length_singleton]
        omega
      · simp only [recordLine, equal none]
    next => exact ⟨⟨rfl, lines, equal⟩, rfl⟩

/-- A line feed after a CR that only the chunked run has forgotten adds an empty line. -/
theorem ahead_firstByte {k : Nat} {st st' : Feed × List (Bytes × Bool)} (ahead : Ahead k st st')
    (weaker : st'.1.lastBufferEndedWithCr = true → st.1.lastBufferEndedWithCr = true)
    (afterCr : st.1.lastBufferEndedWithCr = true → st.1.linebuf = []) (c : UInt8) :
    Ahead (k + if st.1.lastBufferEndedWithCr && !st'.1.lastBufferEndedWithCr && c == 10 then 1 else 0)
        (readByte recordLine st c) (readByte recordLine st' c) ∧
      (readByte recordLine st c).1.lastBufferEndedWithCr =
        (readByte recordLine st' c).1.lastBufferEndedWithCr := by
  cases flag : st.1.lastBufferEndedWithCr with
  | false =>
    have flag' : st'.1.lastBufferEndedWithCr = false := by
      cases flag' : st'.1.lastBufferEndedWithCr with
      | false => rfl
      | true => rw [← flag, weaker flag']
    simpa using ahead_readByte ahead (flag.trans flag'.symm) c
  | true =>
    cases flag' : st'.1.lastBufferEndedWithCr with
    | true => simpa using ahead_readByte ahead (flag.trans flag'.symm) c
    | false =>
      by_cases lf : c = 10
      · obtain ⟨linebuf, lines, equal⟩ := ahead
        have empty := afterCr flag
        refine ⟨⟨?_, ?_, ?_⟩, ?_⟩
        · simp [readByte, lf, flag, flag', isLineEndChar, empty]
        · simp [readByte, lf, flag, flag', isLineEndChar, recordLine, lines, Nat.add_assoc]
        · simp [lf]
        · simp [readByte, lf, flag, flag', isLineEndChar]
      · have forgotten := readByte_setCr recordLine lf true st'
        rw [← forgotten]
        have ahead' : Ahead k st (setCr true st') := ⟨ahead.linebuf, ahead.lines, ahead.equal⟩
        simpa [lf] using ahead_readByte ahead' flag c

theorem ahead_foldl {k : Nat} (bytes : Bytes) {st st' : Feed × List (Bytes × Bool)}
    (ahead : Ahead k st st')
    (flags : st.1.lastBufferEndedWithCr = st'.1.lastBufferEndedWithCr) :
    Ahead k (bytes.foldl (readByte recordLine) st) (bytes.foldl (readByte recordLine) st') ∧
      (bytes.foldl (readByte recordLine) st).1.lastBufferEndedWithCr =
        (bytes.foldl (readByte recordLine) st').1.lastBufferEndedWithCr := by
  induction bytes generalizing st st' with
  | nil => exact ⟨ahead, flags⟩
  | cons c bytes ih =>
    obtain ⟨ahead', flags'⟩ := ahead_readByte ahead flags c
    exact ih ahead' flags'

/-- The flag after some bytes says whether the last one was a CR, and then `linebuf` is empty. -/
theorem flag_foldl {σ : Type} (emit : σ → Bytes → Bool → σ) (c : UInt8) (rest : Bytes)
    (st : Feed × σ) :
    ((c :: rest).foldl (readByte emit) st).1.lastBufferEndedWithCr =
        ((c :: rest).getLast? == some 13) ∧
      (((c :: rest).getLast? == some 13) = true →
        ((c :: rest).foldl (readByte emit) st).1.linebuf = []) := by
  induction rest generalizing c st with
  | nil =>
    by_cases isCr : c = 13
    · simp [readByte, isCr, isLineEndChar]
    · have other : (c == 13) = false := by simpa using isCr
      simp only [readByte, List.foldl_cons, List.foldl_nil, List.getLast?_singleton,
        Option.some_beq_some, other, isCr, decide_false]
      split
      next => simp
      next => split <;> simp
  | cons d rest ih =>
    rw [List.foldl_cons, List.getLast?_cons_cons]
    exact ih d (readByte emit st c)

/-- The run lemma: `known` is the flag of the chunked run, `cr` that of the other. -/
theorem ahead_readChunks (chunks : List Bytes) {k : Nat} {st st' : Feed × List (Bytes × Bool)}
    (ahead : Ahead k st st') (weaker : st'.1.lastBufferEndedWithCr = true →
      st.1.lastBufferEndedWithCr = true)
    (afterCr : st.1.lastBufferEndedWithCr = true → st.1.linebuf = []) :
    Ahead (k + extraLines st.1.lastBufferEndedWithCr st'.1.lastBufferEndedWithCr chunks)
      (chunks.flatten.foldl (readByte recordLine) st) (chunks.foldl (readChunk recordLine) st') := by
  induction chunks generalizing k st st' with
  | nil => exact ahead
  | cons chunk chunks ih =>
    cases chunk with
    | nil =>
      obtain ⟨linebuf, lines, equal⟩ := ahead
      exact @ih _ _ (setCr false st') ⟨linebuf, lines, equal⟩ (by simp [setCr]) afterCr
    | cons c rest =>
      obtain ⟨firstAhead, firstFlags⟩ := ahead_firstByte ahead weaker afterCr c
      obtain ⟨chunkAhead, chunkFlags⟩ := ahead_foldl rest firstAhead firstFlags
      obtain ⟨flag, empty⟩ := flag_foldl recordLine c rest st
      rw [List.foldl_cons] at flag empty
      have later := ih chunkAhead (fun known => chunkFlags ▸ known)
        (fun known => empty (flag ▸ known))
      rw [← chunkFlags, flag, Nat.add_assoc] at later
      rw [List.flatten_cons, List.foldl_append]
      exact later

/-! ### Counting -/

section

variable {σ τ : Type} (emit : σ → Bytes → Bool → σ) (preserveWhitespace : Bool)

def setTotal (n : Nat) (st : Feed × σ) : Feed × σ := ({ st.1 with totalSize := n }, st.2)

theorem readByte_setTotal (n : Nat) (st : Feed × σ) (c : UInt8) :
    readByte emit (setTotal n st) c = setTotal n (readByte emit st c) := by
  by_cases skipped : c = 10 ∧ st.1.lastBufferEndedWithCr = true
  · simp [readByte, setTotal, skipped]
  · by_cases isEnd : isLineEndChar c = true
    · simp [readByte, setTotal, skipped, isEnd]
    · simp [readByte, setTotal, skipped, isEnd]

theorem readChunk_setTotal (n : Nat) (st : Feed × σ) (chunk : Bytes) :
    readChunk emit (setTotal n st) chunk = setTotal n (readChunk emit st chunk) := by
  unfold readChunk
  split
  next => rfl
  next => exact List.foldl_hom (setTotal n) fun st c => readByte_setTotal emit n st c

/-- The count of `total_size`. -/
def addTotal (total len : Nat) : Nat := if len > uintMax - total then uintMax else total + len

theorem addTotal_eq {total : Nat} (bound : total ≤ uintMax) (len : Nat) :
    addTotal total len = min uintMax (total + len) := by
  unfold addTotal
  split <;> omega

theorem foldl_addTotal (chunks : List Bytes) {total : Nat} (bound : total ≤ uintMax) :
    chunks.foldl (fun total chunk => addTotal total chunk.length) total =
      min uintMax (total + chunks.flatten.length) := by
  induction chunks generalizing total with
  | nil => simp [bound]
  | cons chunk chunks ih =>
    rw [List.foldl_cons, addTotal_eq bound, ih (Nat.min_le_left _ _), List.flatten_cons,
      List.length_append]
    omega

theorem feedChunks_eq (chunks : List Bytes) (st : Feed × σ) :
    feedChunks emit preserveWhitespace st chunks =
      setTotal (chunks.foldl (fun total chunk => addTotal total chunk.length) st.1.totalSize)
        (chunks.foldl (readChunk emit) st) := by
  induction chunks generalizing st with
  | nil => rfl
  | cons chunk chunks ih =>
    have counted : (st.1.count chunk.length, st.2) =
        setTotal (addTotal st.1.totalSize chunk.length) st := rfl
    have first : feedChunks emit preserveWhitespace st (chunk :: chunks) =
        feedChunks emit preserveWhitespace (readChunk emit
          (setTotal (addTotal st.1.totalSize chunk.length) st) chunk) chunks := by
      rw [← counted, ← parserFeed_eq_readChunk emit preserveWhitespace]
      rfl
    have later : chunks.foldl (readChunk emit)
        (setTotal (addTotal st.1.totalSize chunk.length) (readChunk emit st chunk)) =
        setTotal (addTotal st.1.totalSize chunk.length)
          (chunks.foldl (readChunk emit) (readChunk emit st chunk)) :=
      List.foldl_hom (setTotal _) fun st chunk => readChunk_setTotal emit _ st chunk
    rw [first, readChunk_setTotal, ih, later]
    rfl

/-! ### The document depends on the lines only -/

/-- Process recorded lines. -/
def replay (s : σ) (lines : List (Bytes × Bool)) : σ :=
  lines.foldl (fun s line => emit s line.1 line.2) s

def replaySnd (s : σ) (st : Feed × List (Bytes × Bool)) : Feed × σ := (st.1, replay emit s st.2)

theorem replay_recordLine (s : σ) (lines : List (Bytes × Bool)) (line : Bytes) (ensure : Bool) :
    replay emit s (recordLine lines line ensure) = emit (replay emit s lines) line ensure := by
  simp [replay, recordLine]

theorem readChunk_replay (s : σ) (st : Feed × List (Bytes × Bool)) (chunk : Bytes) :
    readChunk emit (replaySnd emit s st) chunk = replaySnd emit s (readChunk recordLine st chunk) := by
  have byte : ∀ (st : Feed × List (Bytes × Bool)) (c : UInt8),
      readByte emit (replaySnd emit s st) c = replaySnd emit s (readByte recordLine st c) := by
    intro st c
    by_cases skipped : c = 10 ∧ st.1.lastBufferEndedWithCr = true
    · simp [readByte, replaySnd, skipped]
    · by_cases isEnd : isLineEndChar c = true
      · simp [readByte, replaySnd, skipped, isEnd, replay_recordLine]
      · simp [readByte, replaySnd, skipped, isEnd]
  unfold readChunk
  split
  next => rfl
  next => exact List.foldl_hom (replaySnd emit s) byte

theorem feedChunks_replay (chunks : List Bytes) (feed : Feed) (s : σ) :
    feedChunks emit preserveWhitespace (feed, s) chunks =
      replaySnd emit s (feedChunks recordLine preserveWhitespace (feed, []) chunks) := by
  rw [feedChunks_eq, feedChunks_eq]
  have run : chunks.foldl (readChunk emit) (replaySnd emit s (feed, [])) =
      replaySnd emit s (chunks.foldl (readChunk recordLine) (feed, [])) :=
    List.foldl_hom (replaySnd emit s) (readChunk_replay emit s)
  rw [show (feed, s) = replaySnd emit s (feed, []) from rfl, run]
  rfl

end

theorem foldl_cmarkParserFeed (P : Config) (chars : CharTables) (chunks : List Bytes) (feed : Feed)
    (state : ParserState) :
    chunks.foldl cmarkParserFeed ⟨P, chars, feed, state⟩ =
      let st := feedChunks (processLine P) (P.options.has optPreserveWhitespace) (feed, state) chunks
      ⟨P, chars, st.1, st.2⟩ := by
  induction chunks generalizing feed state with
  | nil => rfl
  | cons chunk chunks ih =>
    rw [List.foldl_cons, cmarkParserFeed, ih]
    rfl

/-- What `cmark_parser_finish` makes of the state after the last line. -/
def documentTree (P : Config) (chars : CharTables) (totalSize : Nat) (state : ParserState) : Node :=
  postprocess P (consolidateTextNodes
    (finalizeDocument ⟨P, chars, { totalSize := totalSize }, state⟩).2)

theorem parserFinish_eq (P : Config) (chars : CharTables) (feed : Feed) (state : ParserState) :
    (parserFinish ⟨P, chars, feed, state⟩).2 =
      documentTree P chars feed.totalSize
        (flushLine (processLine P) (P.options.has optPreserveWhitespace) feed state).2 := by
  unfold parserFinish flushParser flushLine
  split <;> rfl

theorem flushLine_replay {σ : Type} (emit : σ → Bytes → Bool → σ) (preserveWhitespace : Bool)
    (s : σ) (st : Feed × List (Bytes × Bool)) :
    (flushLine emit preserveWhitespace (replaySnd emit s st).1 (replaySnd emit s st).2).2 =
      replay emit s (flushLine recordLine preserveWhitespace st.1 st.2).2 := by
  unfold flushLine replaySnd
  split
  next => exact (replay_recordLine emit s _ _ _).symm
  next => rfl

/-- The state after the last line is reached by processing the lines one after the other. -/
theorem flushedState_eq (P : Config) (callback : Option (UInt8 → Bool)) (chunks : List Bytes) :
    (flushParser (chunks.foldl cmarkParserFeed (parserNew P callback))).state =
      replay (processLine P) initialState
        (processedLines (P.options.has optPreserveWhitespace) chunks) := by
  rw [parserNew, foldl_cmarkParserFeed, feedChunks_replay]
  exact flushLine_replay (processLine P) _ initialState _

theorem flushedConfig_eq (P : Config) (callback : Option (UInt8 → Bool)) (chunks : List Bytes) :
    (flushParser (chunks.foldl cmarkParserFeed (parserNew P callback))).config = P := by
  rw [parserNew, foldl_cmarkParserFeed]
  rfl

/-- The document as a function of the lines and of the size of the input. -/
theorem documentOf_eq (P : Config) (callback : Option (UInt8 → Bool)) (chunks : List Bytes) :
    documentOf P callback chunks =
      documentTree P { defaultCharTables with backslashIspunct := callback }
        (totalSizeOf (P.options.has optPreserveWhitespace) chunks)
        (replay (processLine P) initialState
          (processedLines (P.options.has optPreserveWhitespace) chunks)) := by
  rw [documentOf, parserNew, foldl_cmarkParserFeed, parserFinish_eq, feedChunks_replay,
    flushLine_replay]
  rfl

/-! ### The whole document at once -/

/-- Processing the last line at the end of the buffer is the same as leaving it in `linebuf`. -/
theorem flushLine_feedLoop {σ : Type} (emit : σ → Bytes → Bool → σ) (preserveWhitespace : Bool)
    (fuel : Nat) (buffer : Bytes) (feed : Feed) (s : σ) :
    flushLine emit preserveWhitespace
        (feedLoop emit preserveWhitespace true fuel buffer feed s).1
        (feedLoop emit preserveWhitespace true fuel buffer feed s).2 =
      flushLine emit preserveWhitespace
        (feedLoop emit preserveWhitespace false fuel buffer feed s).1
        (feedLoop emit preserveWhitespace false fuel buffer feed s).2 := by
  induction fuel generalizing buffer feed s with
  | zero => rfl
  | succ fuel ih =>
    unfold feedLoop
    by_cases empty : buffer = []
    · rw [if_pos empty, if_pos empty]
    rw [if_neg empty, if_neg empty]
    dsimp only
    cases here : buffer.drop (buffer.takeWhile isPlain).length with
    | nil =>
      have some : (buffer.takeWhile isPlain).length > 0 := by
        have bound := List.drop_eq_nil_iff.mp here
        exact Nat.lt_of_lt_of_le (List.length_pos_of_ne_nil empty) bound
      have more : (feed.linebuf ++ buffer.takeWhile isPlain).length > 0 := by
        rw [List.length_append]
        omega
      simp only [if_true, Bool.false_eq_true, if_false, flushLine, processChunk, List.length_nil,
        gt_iff_lt, lt_self_iff_false, more, List.append_nil, Bool.not_true, Bool.or_false]
    | cons c rest =>
      dsimp only
      split
      next => exact ih rest _ s
      next =>
        split
        next => exact ih _ _ _
        next => exact ih _ _ _

/-- `cmark_parse_document` is feeding the document and finishing. -/
theorem cmarkParseDocument_eq (P : Config) (document : Bytes) :
    cmarkParseDocument P document = documentOf P none [document] := by
  have flushed : ∀ parser : Parser, ∀ eof, flushParser
      { parser with
        feed := (parserFeed (processLine P) (P.options.has optPreserveWhitespace) eof parser.feed
          parser.state document).1
        state := (parserFeed (processLine P) (P.options.has optPreserveWhitespace) eof parser.feed
          parser.state document).2
        config := P } =
      flushParser
        { parser with
          feed := (parserFeed (processLine P) (P.options.has optPreserveWhitespace) false parser.feed
            parser.state document).1
          state := (parserFeed (processLine P) (P.options.has optPreserveWhitespace) false parser.feed
            parser.state document).2
          config := P } := by
    intro parser eof
    cases eof with
    | false => rfl
    | true =>
      unfold flushParser parserFeed
      dsimp only
      rw [flushLine_feedLoop]
  have same := flushed (parserNew P none) true
  unfold cmarkParseDocument documentOf parserFinish
  exact congrArg (fun parser : Parser => postprocess parser.config
    (consolidateTextNodes (finalizeDocument parser).2)) same

/-! ### The main result -/

theorem totalSizeOf_flatten (preserveWhitespace : Bool) (chunks : List Bytes) :
    totalSizeOf preserveWhitespace chunks = totalSizeOf preserveWhitespace [chunks.flatten] := by
  have counted : ∀ chunks : List Bytes, totalSizeOf preserveWhitespace chunks =
      min uintMax chunks.flatten.length := fun chunks => by
    rw [totalSizeOf, feedChunks_eq, ← Nat.zero_add chunks.flatten.length]
    exact foldl_addTotal chunks (Nat.zero_le _)
  rw [counted, counted, List.flatten_singleton]

/-- The line without a line end, if there is one. -/
def lastLine (preserveWhitespace : Bool) (linebuf : Bytes) : List (Bytes × Bool) :=
  if linebuf.length > 0 then [(linebuf, !preserveWhitespace)] else []

theorem flushLine_recordLine (preserveWhitespace : Bool) (feed : Feed)
    (lines : List (Bytes × Bool)) :
    (flushLine recordLine preserveWhitespace feed lines).2 =
      lines ++ lastLine preserveWhitespace feed.linebuf := by
  unfold flushLine lastLine
  split
  next => simp [processChunk, recordLine]
  next => simp

theorem processedLines_eq (preserveWhitespace : Bool) (chunks : List Bytes) :
    processedLines preserveWhitespace chunks =
      (chunks.foldl (readChunk recordLine) ({}, [])).2 ++
        lastLine preserveWhitespace (chunks.foldl (readChunk recordLine) ({}, [])).1.linebuf := by
  rw [processedLines, feedChunks_eq]
  exact flushLine_recordLine preserveWhitespace _ _

theorem processedLines_single (preserveWhitespace : Bool) (bytes : Bytes) :
    processedLines preserveWhitespace [bytes] =
      (bytes.foldl (readByte recordLine) ({}, [])).2 ++
        lastLine preserveWhitespace (bytes.foldl (readByte recordLine) ({}, [])).1.linebuf := by
  rw [processedLines_eq]
  cases bytes <;> rfl

/-- The chunks have all the lines of their concatenation, and the extra ones. -/
theorem processedLines_flatten (preserveWhitespace : Bool) (chunks : List Bytes) :
    (processedLines preserveWhitespace chunks).length =
        (processedLines preserveWhitespace [chunks.flatten]).length +
          extraLines false false chunks ∧
      (extraLines false false chunks = 0 →
        processedLines preserveWhitespace chunks =
          processedLines preserveWhitespace [chunks.flatten]) := by
  have start : Ahead 0 (({}, []) : Feed × List (Bytes × Bool)) ({}, []) := ⟨rfl, rfl, fun _ => rfl⟩
  obtain ⟨linebuf, lines, equal⟩ := ahead_readChunks chunks start id fun _ => rfl
  have flags : (({}, []) : Feed × List (Bytes × Bool)).1.lastBufferEndedWithCr = false := rfl
  rw [Nat.zero_add, flags] at lines equal
  rw [processedLines_eq, processedLines_single, linebuf]
  constructor
  · rw [List.length_append, List.length_append]
    omega
  · intro none
    rw [equal none]

/-- Cutting the input changes nothing, unless empty chunks stand between a CR and the LF that
belongs to it. -/
theorem sameResult_iff (P : Config) (callback : Option (UInt8 → Bool)) (chunks : List Bytes) :
    SameResult P callback chunks ↔ ¬ EmptyChunkSplitsCrLf chunks := by
  obtain ⟨length, equal⟩ :=
    processedLines_flatten (P.options.has optPreserveWhitespace) chunks
  rw [← extraLines_eq_zero_iff]
  constructor
  · rintro ⟨lines, _⟩
    rw [lines] at length
    omega
  · intro none
    refine ⟨equal none, totalSizeOf_flatten _ chunks, ?_⟩
    rw [documentOf_eq, documentOf_eq, equal none, ← totalSizeOf_flatten]

/-- An empty chunk makes the parser forget the CR before it: the LF ends a line of its own. -/
theorem not_sameResult_of_empty_chunk :
    ¬ SameResult { tables := asciiTables, options := 0 } none [lit "a\r", [], lit "\nb"] := by
  rintro ⟨lines, _⟩
  revert lines
  decide

end CmarkGfm
