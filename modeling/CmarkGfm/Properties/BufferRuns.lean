import CmarkGfm.Properties.BufferContents

/-!
# Runs of buffer operations

What a buffer represents is a list of bytes, and every operation has one on lists. A run of operations
on several buffers is a run of the operations on their lists as long as no list gets too long; it may
only start with buffers that are terminated. A buffer that a run leads to has room for its size,
whatever the run, but the sum that `cmark_strbuf_put` forms may overflow.
-/

namespace CmarkGfm

open Strbuf

/-! ### The operations on lists -/

/-- What an operation does to the contents. -/
def StrbufOp.contents (s : Bytes) : StrbufOp → Bytes
  | .grow _ => s
  | .clear => []
  | .free => []
  | .set data len => (data.of s).take len.toNat
  | .sets string => cstr (string.getD [])
  | .putc c => s ++ [UInt8.ofNat (c % 256).toNat]
  | .put data len => s ++ data.take len.toNat
  | .puts string => s ++ cstr string
  | .truncate len => s.take len.toNat
  | .drop n => s.drop n.toNat
  | .trim => strbufTrim s
  | .rtrim => chunkRtrim s
  | .normalizeWhitespace => strbufNormalizeWhitespace s
  | .unescape => strbufUnescape s
  | .detach => []

/-- The arguments are as long as they say, and the new contents are not too long. Memory is not
requested or given back but by the other operations. -/
def StrbufOp.Within (s : Bytes) : StrbufOp → Prop
  | .grow _ | .free => False
  | .set data len => 0 < len → data ≠ .null → len ≤ (data.of s).length ∧ len ≤ maxRequest
  | .sets string => (cstr (string.getD [])).length ≤ maxRequest
  | .putc _ => s.length + 1 ≤ maxRequest
  | .put data len => 0 < len → len ≤ data.length ∧ s.length + len ≤ maxRequest
  | .puts string => s.length + (cstr string).length ≤ maxRequest
  | .clear | .truncate _ | .drop _ | .trim | .rtrim | .normalizeWhitespace | .unescape | .detach => True

/-- An operation that keeps within the limits ends and does what its list operation does; any other
fails or leaves a buffer that holds something. -/
def OpOutcome (t : UInt8) (r : Except BufferError Strbuf) (within : Prop) (s : Bytes) : Prop :=
  (∃ e, r = .error e ∧ ¬within) ∨
    ∃ b t' s', r = .ok b ∧ Holds t' b s' ∧ b.asize ≤ maxAsize ∧ (within → s' = s ∧ (t' = 0 ∨ t' = t))

theorem Strbuf.Holds.Yields.outcome {t : UInt8} {r : Except BufferError Strbuf} {within : Prop} {s s' : Bytes}
    {capacity : Nat} (yields : Holds.Yields t r s' capacity) (bounded : capacity ≤ maxAsize)
    (same : within → s' = s) : OpOutcome t r within s := by
  obtain ⟨b, t', returns, holds, nul, asize⟩ := yields
  exact .inr ⟨b, t', s', returns, holds, asize.trans bounded, fun within => ⟨same within, nul⟩⟩

theorem castInt32_eq {n : Nat} (small : n ≤ maxRequest) : castInt32 n = n := by
  unfold castInt32 int32Max
  unfold maxRequest at small
  omega

namespace Strbuf.Holds

variable {t : UInt8} {b : Strbuf} {s : Bytes}

theorem set_outcome (holds : Holds t b s) (bounded : b.asize ≤ maxAsize) (junk : Junk) (data : Data) (len : Int) :
    OpOutcome t (b.set junk data len) (StrbufOp.Within s (.set data len)) ((data.of s).take len.toNat) := by
  rcases holds.set junk bounded data len with ⟨e, fails, positive, some, too⟩ | yields
  · left
    refine ⟨e, fails, fun within => ?_⟩
    have ⟨valid, small⟩ := within positive some
    omega
  · exact yields.outcome (Nat.le_refl _) fun _ => rfl

theorem sets_outcome (holds : Holds t b s) (bounded : b.asize ≤ maxAsize) (junk : Junk) (string : Option Bytes) :
    OpOutcome t (b.sets junk string) (StrbufOp.Within s (.sets string)) (cstr (string.getD [])) := by
  cases string with
  | none => exact (holds.clear.mono bounded).outcome (Nat.le_refl _) fun _ => rfl
  | some d =>
    rcases holds.set junk bounded (.bytes (cstr d)) (castInt32 (cstr d).length) with
      ⟨e, fails, positive, some, too⟩ | yields
    · left
      refine ⟨e, fails, fun within => ?_⟩
      have small : ((cstr d).length : Int) ≤ maxRequest := within
      rw [castInt32_eq small, Data.of] at too
      omega
    · refine yields.outcome (Nat.le_refl _) fun within => ?_
      have small : ((cstr d).length : Int) ≤ maxRequest := within
      rw [castInt32_eq small, Int.toNat_natCast, Data.of, List.take_length]
      rfl

theorem put_outcome (holds : Holds t b s) (bounded : b.asize ≤ maxAsize) (junk : Junk) (data : Bytes) (len : Int) :
    OpOutcome t (b.put junk data len) (0 < len → len ≤ data.length ∧ s.length + len ≤ maxRequest)
      (s ++ data.take len.toNat) := by
  by_cases positive : 0 < len
  · rcases holds.put junk bounded data positive with
      ⟨fails, large⟩ | ⟨fails, large, _⟩ | ⟨fails, beyond⟩ | ⟨_, yields⟩
    · refine .inl ⟨_, fails, fun within => ?_⟩
      have ⟨valid, small⟩ := within positive
      unfold int32Max at large
      unfold maxRequest at small
      omega
    · refine .inl ⟨_, fails, fun within => ?_⟩
      have ⟨valid, small⟩ := within positive
      omega
    · refine .inl ⟨_, fails, fun within => ?_⟩
      have ⟨valid, small⟩ := within positive
      omega
    · exact yields.outcome (Nat.le_refl _) fun _ => rfl
  · exact (holds.put_none junk bounded data (Int.not_lt.mp positive)).outcome (Nat.le_refl _) fun _ => rfl

theorem puts_outcome (holds : Holds t b s) (bounded : b.asize ≤ maxAsize) (junk : Junk) (string : Bytes) :
    OpOutcome t (b.puts junk string) (StrbufOp.Within s (.puts string)) (s ++ cstr string) := by
  have length : StrbufOp.Within s (.puts string) → castInt32 (cstr string).length = (cstr string).length := by
    intro within
    have small : (s.length : Int) + (cstr string).length ≤ maxRequest := within
    exact castInt32_eq (by omega)
  rcases holds.put_outcome bounded junk (cstr string) (castInt32 (cstr string).length) with
    ⟨e, fails, too⟩ | ⟨b', t', s', returns, holds', asize, same⟩
  · refine .inl ⟨e, fails, fun within => too fun _ => ?_⟩
    rw [length within]
    exact ⟨Int.le_refl _, within⟩
  · refine .inr ⟨b', t', s', returns, holds', asize, fun within => ?_⟩
    rw [length within, Int.toNat_natCast, List.take_length] at same
    exact same fun _ => ⟨Int.le_refl _, within⟩

theorem putc_outcome (holds : Holds t b s) (bounded : b.asize ≤ maxAsize) (junk : Junk) (c : Int) :
    OpOutcome t (b.putc junk c) (StrbufOp.Within s (.putc c)) (s ++ [UInt8.ofNat (c % 256).toNat]) := by
  rcases holds.putc junk bounded c with ⟨fails, large⟩ | yields
  · refine .inl ⟨_, fails, fun within => ?_⟩
    have small : (s.length : Int) + 1 ≤ maxRequest := within
    omega
  · exact yields.outcome (Nat.le_refl _) fun _ => rfl

theorem grow_outcome (holds : Holds t b s) (bounded : b.asize ≤ maxAsize) (junk : Junk) (target : Int) :
    OpOutcome t (b.grow junk target) False s := by
  rcases holds.grow junk target with ⟨fails, _⟩ | ⟨b', t', grown, holds', _, asize, _⟩
  · exact .inl ⟨_, fails, id⟩
  · exact .inr ⟨b', t', s, grown, holds', asize.elim (·.trans bounded) id, False.elim⟩

/-- Every operation, one by one. -/
theorem run_outcome (holds : Holds t b s) (bounded : b.asize ≤ maxAsize) (junk : Junk) (op : StrbufOp) :
    OpOutcome t (op.run junk b) (op.Within s) (op.contents s) := by
  cases op with
  | grow target => exact holds.grow_outcome bounded junk target
  | free => exact .inr ⟨.empty, 0, [], rfl, holds_empty, Nat.zero_le _, False.elim⟩
  | set data len => exact holds.set_outcome bounded junk data len
  | sets string => exact holds.sets_outcome bounded junk string
  | putc c => exact holds.putc_outcome bounded junk c
  | put data len => exact holds.put_outcome bounded junk data len
  | puts string => exact holds.puts_outcome bounded junk string
  | clear => exact holds.clear.outcome bounded fun _ => rfl
  | truncate len => exact (holds.truncate len).outcome bounded fun _ => rfl
  | drop n => exact (holds.drop n).outcome bounded fun _ => rfl
  | trim => exact holds.trim.outcome bounded fun _ => rfl
  | rtrim => exact holds.rtrim.outcome bounded fun _ => rfl
  | normalizeWhitespace => exact holds.normalizeWhitespace.outcome bounded fun _ => rfl
  | unescape => exact holds.unescape.outcome bounded fun _ => rfl
  | detach =>
    right
    by_cases shared : b.asize = 0
    · obtain ⟨rfl, rfl, one⟩ := holds.nil_of_asize shared
      have same : StrbufOp.run junk b .detach = .ok b := by
        show Except.ok b.detach.2 = _
        rw [detach, if_pos shared]
      exact ⟨b, 0, [], same, holds, bounded, fun _ => ⟨rfl, .inl rfl⟩⟩
    · have fresh : StrbufOp.run junk b .detach = .ok .empty := by
        show Except.ok b.detach.2 = _
        rw [detach, if_neg shared]
      exact ⟨.empty, 0, [], fresh, holds_empty, Nat.zero_le _, fun _ => ⟨rfl, .inl rfl⟩⟩

end Strbuf.Holds

/-- A new buffer is empty; the byte after its contents is what its memory happens to hold. -/
theorem init_holds (junk : Junk) {initialSize : Int} (small : initialSize ≤ maxRequest) :
    ∃ b, Strbuf.init junk initialSize = .ok b ∧ b.asize ≤ maxAsize ∧
      Holds (if initialSize ≤ 0 then 0 else junk 0) b [] := by
  unfold Strbuf.init
  split
  next some =>
    rw [if_neg (by omega)]
    rcases holds_empty.grow junk initialSize with ⟨_, none | large⟩ | ⟨b, t, grown, holds, _, asize, first⟩
    · exact absurd some (Int.not_lt.mpr none)
    · exact absurd large (Int.not_lt.mpr small)
    · refine ⟨b, grown, asize.elim (fun none => none.trans (Nat.zero_le _)) id, ?_⟩
      rw [← first rfl]
      exact holds
  next none =>
    rw [if_pos (by omega)]
    exact ⟨_, rfl, Nat.zero_le _, holds_empty⟩

/-! ### Buffers that a run leads to -/

/-- A buffer that operations with any arguments have led to. -/
inductive Strbuf.Reachable : Strbuf → Prop where
  | init {junk : Junk} {initialSize : Int} {b : Strbuf} :
      Strbuf.init junk initialSize = .ok b → Reachable b
  | step {junk : Junk} {op : StrbufOp} {b b' : Strbuf} :
      Reachable b → op.run junk b = .ok b' → Reachable b'

/-- What `init` makes, when it does not abort. -/
theorem init_small {junk : Junk} {initialSize : Int} {b : Strbuf}
    (returns : Strbuf.init junk initialSize = .ok b) : initialSize ≤ maxRequest := by
  by_contra large
  have some : initialSize > 0 := by
    unfold maxRequest at large
    omega
  have aborts : initialSize > int32Max / 2 := by
    unfold maxRequest at large
    unfold int32Max
    omega
  unfold Strbuf.init at returns
  rw [if_pos some] at returns
  unfold Strbuf.grow at returns
  rw [if_neg (by omega), if_neg (by simp [Strbuf.empty]; omega), if_pos aborts] at returns
  cases returns

theorem Strbuf.Reachable.holds {b : Strbuf} (reachable : Reachable b) :
    ∃ t s, Holds t b s ∧ b.asize ≤ maxAsize := by
  induction reachable with
  | init returns =>
    obtain ⟨b', made, bounded, holds⟩ := init_holds _ (init_small returns)
    obtain rfl := Except.ok.inj (made.symm.trans returns)
    exact ⟨_, [], holds, bounded⟩
  | step _ returns ih =>
    obtain ⟨t, s, holds, bounded⟩ := ih
    rcases holds.run_outcome bounded _ _ with ⟨e, fails, _⟩ | ⟨b', t', s', returns', holds', bounded', _⟩
    · cases fails.symm.trans returns
    · obtain rfl := Except.ok.inj (returns'.symm.trans returns)
      exact ⟨t', s', holds', bounded'⟩

/-- A call aborts before it writes, or leaves a buffer with room for more than its size. It neither
writes outside the memory nor computes a size that does not fit. -/
def Safe (r : Except BufferError Strbuf) : Prop :=
  r = .error .abort ∨ ∃ b, r = .ok b ∧ b.size < b.asize

theorem Strbuf.Holds.safe_of_allocated {t : UInt8} {b : Strbuf} {s : Bytes} (holds : Holds t b s)
    (allocated : b.asize ≠ 0) : Safe (.ok b) :=
  .inr ⟨b, rfl, holds.size_lt_asize allocated⟩

theorem grow_safe {t : UInt8} {b : Strbuf} {s : Bytes} (holds : Holds t b s) (junk : Junk) {target : Int}
    (positive : 0 < target) : Safe (b.grow junk target) := by
  rcases holds.grow junk target with ⟨aborts, _⟩ | ⟨b', t', grown, holds', room, _⟩
  · exact .inl aborts
  · rw [grown]
    exact holds'.safe_of_allocated (by omega)

theorem putc_safe {t : UInt8} {b : Strbuf} {s : Bytes} (holds : Holds t b s) (bounded : b.asize ≤ maxAsize)
    (junk : Junk) (c : Int) : Safe (b.putc junk c) := by
  rcases holds.putc junk bounded c with ⟨aborts, _⟩ | ⟨b', t', returns, holds', _⟩
  · exact .inl aborts
  · rw [returns]
    -- A buffer that is not empty is allocated.
    refine holds'.safe_of_allocated fun shared => ?_
    have empty := (holds'.nil_of_asize shared).1
    exact absurd empty (by simp)

theorem put_safe_iff {t : UInt8} {b : Strbuf} {s : Bytes} (holds : Holds t b s) (bounded : b.asize ≤ maxAsize)
    (junk : Junk) {data : Bytes} {len : Int} (positive : 0 < len) (valid : len ≤ data.length) :
    Safe (b.put junk data len) ↔ b.size + len ≤ int32Max := by
  rw [holds.size]
  rcases holds.put junk bounded data positive with
    ⟨fails, large⟩ | ⟨aborts, _, fits⟩ | ⟨_, beyond⟩ | ⟨fits, b', t', returns, holds', _⟩
  · rw [fails]
    constructor
    · rintro (aborts | ⟨b', returns, _⟩)
      · cases aborts
      · cases returns
    · intro fits
      omega
  · exact ⟨fun _ => fits, fun _ => .inl aborts⟩
  · omega
  · refine ⟨fun _ => fits, fun _ => ?_⟩
    rw [returns]
    refine holds'.safe_of_allocated fun shared => ?_
    have empty := congrArg List.length (holds'.nil_of_asize shared).1
    rw [List.length_append, List.length_take_of_le (by omega), List.length_nil] at empty
    omega

/-- From every buffer that a run leads to, `cmark_strbuf_grow` and `cmark_strbuf_putc` are safe.
`cmark_strbuf_put` is as long as the size and the length it is given have a sum that fits. -/
theorem appending_safe_iff (b : Strbuf) (reachable : b.Reachable) (junk : Junk) :
    (∀ target, 0 < target → target ≤ int32Max → Safe (b.grow junk target)) ∧
      (∀ c, Safe (b.putc junk c)) ∧
      ∀ data len, 0 < len → len ≤ int32Max → len ≤ data.length →
        (Safe (b.put junk data len) ↔ b.size + len ≤ int32Max) := by
  obtain ⟨t, s, holds, bounded⟩ := reachable.holds
  refine ⟨?_, ?_, ?_⟩
  · intro target positive _
    exact grow_safe holds junk positive
  · intro c
    exact putc_safe holds bounded junk c
  · intro data len positive _ valid
    exact put_safe_iff holds bounded junk positive valid

/-- A buffer that holds one byte. -/
theorem reachable_byte : Strbuf.Reachable ⟨[97, 0, 0, 0, 0, 0, 0, 0], 8, 1⟩ :=
  have made : Strbuf.init (fun _ => 0) 0 = .ok .empty := rfl
  have put : StrbufOp.run (fun _ => 0) .empty (.putc 97) = .ok ⟨[97, 0, 0, 0, 0, 0, 0, 0], 8, 1⟩ := by decide
  .step (.init made) put

theorem appending_safe_byte :
    Safe (Strbuf.put (fun _ => 0) [98, 99] 2 ⟨[97, 0, 0, 0, 0, 0, 0, 0], 8, 1⟩) :=
  ((appending_safe_iff _ reachable_byte _).2.2 [98, 99] 2 (by decide) (by decide) (by decide)).mpr (by decide)

/-- One byte and as many as a signed integer can count. -/
theorem put_unsafe : ∃ b : Strbuf, b.Reachable ∧ ∃ (data : Bytes) (len : Int), 0 < len ∧ len ≤ int32Max ∧
    len ≤ data.length ∧ ¬Safe (b.put (fun _ => 0) data len) := by
  refine ⟨_, reachable_byte, List.replicate 2147483647 97, 2147483647, by decide, by decide, ?_, ?_⟩
  · rw [List.length_replicate]
    decide
  · obtain ⟨t, s, holds, bounded⟩ := reachable_byte.holds
    rw [put_safe_iff holds bounded _ (by decide) (by rw [List.length_replicate]; decide)]
    decide

/-! ### What a buffer represents -/

/-- The shared empty buffer, or one whose contents end with NUL inside its memory. -/
structure Strbuf.Represents (b : Strbuf) (s : Bytes) : Prop where
  valid : b.asize = 0 ∧ b.size = 0 ∧ b.mem = [0] ∨
    b.size < b.asize ∧ b.mem.length = b.asize ∧ byteAt b.mem b.size = 0
  contents : b.mem.take b.size = s

theorem Strbuf.represents_iff {b : Strbuf} {s : Bytes} : b.Represents s ↔ Holds 0 b s := by
  constructor
  · rintro ⟨⟨shared, none, one⟩ | ⟨below, whole, nul⟩, rfl⟩
    · rw [none]
      exact ⟨⟨[], one⟩, none, .inl ⟨shared, one⟩, fun _ => rfl⟩
    · rw [← whole] at below
      refine ⟨⟨b.mem.drop (b.size + 1), ?_⟩, (List.length_take_of_le below.le).symm, .inr whole.symm, fun _ => rfl⟩
      have byte : byteAt b.mem b.size = b.mem[b.size] := by
        rw [byteAt, List.getD_eq_getElem?_getD, List.getElem?_eq_getElem below, Option.getD_some]
      rw [← nul, byte, ← List.drop_eq_getElem_cons below, List.take_append_drop]
  · intro holds
    refine ⟨?_, holds.contents⟩
    by_cases shared : b.asize = 0
    · obtain ⟨rfl, _, one⟩ := holds.nil_of_asize shared
      exact .inl ⟨shared, holds.size, one⟩
    · right
      refine ⟨holds.size_lt_asize shared, ?_, ?_⟩
      · rcases holds.capacity with ⟨zero, _⟩ | whole
        · exact absurd zero shared
        · exact whole.symm
      · rw [holds.size]
        exact holds.byteAt_size

/-- The memory that is handed over is the contents with a NUL after them. -/
theorem Strbuf.Represents.detach {b : Strbuf} {s : Bytes} (represents : b.Represents s) :
    ∃ tail, b.detach.1 = s ++ 0 :: tail := by
  have holds := represents_iff.mp represents
  unfold Strbuf.detach
  split
  next shared =>
    obtain ⟨rfl, _⟩ := holds.nil_of_asize shared
    exact ⟨[], rfl⟩
  next => exact holds.mem

/-! ### Runs on several buffers -/

/-- An operation on one of the buffers, or `cmark_strbuf_swap`. -/
inductive BufferStep (ι : Type) where
  | on (i : ι) (junk : Junk) (op : StrbufOp)
  | swap (i j : ι)

section Steps

variable {ι : Type} [DecidableEq ι]

/-- Two of the buffers, or of what they represent, change places. -/
def swapAt {α : Type} (bufs : ι → α) (i j : ι) : ι → α :=
  Function.update (Function.update bufs i (bufs j)) j (bufs i)

def BufferStep.run (bufs : ι → Strbuf) : BufferStep ι → Except BufferError (ι → Strbuf)
  | .on i junk op => do
    let b ← op.run junk (bufs i)
    return Function.update bufs i b
  | .swap i j => .ok (swapAt bufs i j)

def BufferStep.contents (s : ι → Bytes) : BufferStep ι → ι → Bytes
  | .on i _ op => Function.update s i (op.contents (s i))
  | .swap i j => swapAt s i j

def BufferStep.Within (s : ι → Bytes) : BufferStep ι → Prop
  | .on i _ op => op.Within (s i)
  | .swap _ _ => True

/-- Every step keeps within the limits. -/
def RunWithin (s : ι → Bytes) : List (BufferStep ι) → Prop
  | [] => True
  | step :: steps => step.Within s ∧ RunWithin (step.contents s) steps

/-- The buffers represent lists, and have no more memory than is ever asked for. -/
def AllRepresent (bufs : ι → Strbuf) (s : ι → Bytes) : Prop :=
  ∀ i, (bufs i).Represents (s i) ∧ (bufs i).asize ≤ maxAsize

theorem AllRepresent.update {bufs : ι → Strbuf} {s : ι → Bytes} (all : AllRepresent bufs s) (i : ι)
    {b : Strbuf} {s' : Bytes} (represents : b.Represents s') (bounded : b.asize ≤ maxAsize) :
    AllRepresent (Function.update bufs i b) (Function.update s i s') := by
  intro k
  by_cases same : k = i
  · rw [same, Function.update_self, Function.update_self]
    exact ⟨represents, bounded⟩
  · rw [Function.update_of_ne same, Function.update_of_ne same]
    exact all k

/-- A step within the limits ends, and the buffers represent what the step makes of the lists. -/
theorem AllRepresent.step {bufs : ι → Strbuf} {s : ι → Bytes} (all : AllRepresent bufs s)
    (step : BufferStep ι) (within : step.Within s) :
    ∃ bufs', step.run bufs = .ok bufs' ∧ AllRepresent bufs' (step.contents s) := by
  cases step with
  | on i junk op =>
    have ⟨represents, bounded⟩ := all i
    rcases (represents_iff.mp represents).run_outcome bounded junk op with
      ⟨e, _, too⟩ | ⟨b, t, s', returns, holds, bounded', same⟩
    · exact absurd within too
    · obtain ⟨rfl, rfl | rfl⟩ := same within
      · refine ⟨Function.update bufs i b, ?_, all.update i (represents_iff.mpr holds) bounded'⟩
        rw [BufferStep.run, returns]
        rfl
      · refine ⟨Function.update bufs i b, ?_, all.update i (represents_iff.mpr holds) bounded'⟩
        rw [BufferStep.run, returns]
        rfl
  | swap i j =>
    exact ⟨swapAt bufs i j, rfl, (all.update i (all j).1 (all j).2).update j (all i).1 (all i).2⟩

theorem AllRepresent.run {bufs : ι → Strbuf} {s : ι → Bytes} (all : AllRepresent bufs s)
    (steps : List (BufferStep ι)) (within : RunWithin s steps) :
    ∃ bufs', steps.foldlM BufferStep.run bufs = .ok bufs' ∧
      AllRepresent bufs' (steps.foldl BufferStep.contents s) := by
  induction steps generalizing bufs s with
  | nil => exact ⟨bufs, rfl, all⟩
  | cons step steps ih =>
    obtain ⟨bufs', returns, all'⟩ := all.step step within.1
    obtain ⟨bufs'', rest, all''⟩ := ih all' within.2
    refine ⟨bufs'', ?_, all''⟩
    rw [List.foldlM_cons, returns]
    exact rest

/-- Every run that keeps within the limits ends with buffers that represent their lists. -/
def RunsRepresent (bufs : ι → Strbuf) : Prop :=
  ∀ steps : List (BufferStep ι), RunWithin (fun _ => []) steps →
    ∃ bufs', steps.foldlM BufferStep.run bufs = .ok bufs' ∧
      ∀ i, (bufs' i).Represents (steps.foldl BufferStep.contents (fun _ => []) i) ∧
        ∃ tail, (bufs' i).detach.1 = steps.foldl BufferStep.contents (fun _ => []) i ++ 0 :: tail

/-- The run without a step says how the buffers begin. -/
theorem RunsRepresent.start {bufs : ι → Strbuf} (represent : RunsRepresent bufs) (i : ι) : Holds 0 (bufs i) [] := by
  obtain ⟨bufs', returns, all⟩ := represent [] trivial
  obtain rfl : bufs = bufs' := Except.ok.inj returns
  exact represents_iff.mp (all i).1

/-- The buffers that `cmark_strbuf_init` makes represent their lists throughout every run if and only
if those that it gives memory happen to start with a NUL. -/
theorem init_represents_iff (initialSize : ι → Int) (junk : ι → Junk) (small : ∀ i, initialSize i ≤ maxRequest) :
    ∃ bufs : ι → Strbuf, (∀ i, Strbuf.init (junk i) (initialSize i) = .ok (bufs i)) ∧
      (RunsRepresent bufs ↔ ∀ i, initialSize i ≤ 0 ∨ junk i 0 = 0) := by
  choose bufs made bounded holds using fun i => init_holds (junk i) (small i)
  refine ⟨bufs, made, ?_, ?_⟩
  · intro represent i
    have nul := (represent.start i).byteAt_size
    rw [(holds i).byteAt_size] at nul
    split at nul
    next none => exact .inl none
    next => exact .inr nul
  · intro start steps within
    have all : AllRepresent bufs fun _ => [] := by
      intro i
      have first := holds i
      rcases start i with none | nul
      · rw [if_pos none] at first
        exact ⟨represents_iff.mpr first, bounded i⟩
      · rw [nul, ite_self] at first
        exact ⟨represents_iff.mpr first, bounded i⟩
    obtain ⟨bufs', returns, all'⟩ := all.run steps within
    exact ⟨bufs', returns, fun i => ⟨(all' i).1, (all' i).1.detach⟩⟩

end Steps

theorem init_represents_two : ∃ bufs : Bool → Strbuf,
    (∀ i, Strbuf.init (fun _ => 0) (bif i then 10 else 0) = .ok (bufs i)) ∧
      (RunsRepresent bufs ↔ ∀ i : Bool, (bif i then 10 else 0 : Int) ≤ 0 ∨ (0 : UInt8) = 0) :=
  init_represents_iff (fun i : Bool => bif i then 10 else 0) (fun _ _ => 0) (by decide)

/-- A buffer that is made for ten bytes, in memory that holds other bytes. -/
theorem init_unterminated : ∃ b, Strbuf.init (fun _ => 65) 10 = .ok b ∧ ¬RunsRepresent fun _ : Unit => b := by
  refine ⟨⟨List.replicate 16 65, 16, 0⟩, by decide, fun represent => ?_⟩
  have nul := (represent.start ()).byteAt_size
  revert nul
  decide

end CmarkGfm
