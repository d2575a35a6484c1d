import CmarkGfm.Buffer

/-!
# Buffers and their contents

A buffer holds its contents, the byte after them, and bytes that do not matter. Each operation is
given by what it does to the contents; the byte after them is the terminating NUL, except in a buffer
that has been allocated and not been written yet.
-/

namespace CmarkGfm

namespace Strbuf

theorem ok_bind {α β : Type} (a : α) (f : α → Except BufferError β) : (Except.ok a >>= f) = f a := rfl

/-- The largest size that can be asked for, `INT32_MAX / 2`. -/
abbrev maxRequest : Int := 1073741823

/-- The capacity that it leads to. -/
abbrev maxAsize : Nat := 1610612736

/-- What an argument points to, in a buffer with contents `s`. -/
def Data.of (s : Bytes) : Data → Bytes
  | .null => []
  | .self => s
  | .bytes d => d

/-- The contents, and the byte after them. -/
structure Holds (t : UInt8) (b : Strbuf) (s : Bytes) : Prop where
  mem : ∃ tail, b.mem = s ++ t :: tail
  size : b.size = s.length
  capacity : b.asize = 0 ∧ b.mem = [0] ∨ b.asize = b.mem.length
  ends : s ≠ [] → t = 0

variable {t : UInt8} {b : Strbuf} {s : Bytes}

theorem holds_empty : Holds 0 .empty [] := ⟨⟨[], rfl⟩, rfl, .inl ⟨rfl, rfl⟩, fun _ => rfl⟩

namespace Holds

theorem size_lt (holds : Holds t b s) : b.size < b.mem.length := by
  obtain ⟨tail, mem⟩ := holds.mem
  rw [holds.size, mem]
  simp

/-- The size is below the capacity of a buffer that is allocated. -/
theorem size_lt_asize (holds : Holds t b s) (allocated : b.asize ≠ 0) : b.size < b.asize := by
  rcases holds.capacity with ⟨zero, _⟩ | whole
  · exact absurd zero allocated
  · rw [whole]
    exact holds.size_lt

theorem nil_of_asize (holds : Holds t b s) (shared : b.asize = 0) : s = [] ∧ t = 0 ∧ b.mem = [0] := by
  obtain ⟨tail, mem⟩ := holds.mem
  have one : b.mem = [0] := by
    rcases holds.capacity with ⟨_, one⟩ | whole
    · exact one
    · rw [shared] at whole
      rw [List.length_eq_zero_iff.mp whole.symm] at mem
      simp at mem
  rw [one] at mem
  cases s with
  | nil =>
    have same := List.cons.inj mem
    exact ⟨rfl, same.1.symm, one⟩
  | cons c s =>
    have longer := congrArg List.length mem
    simp at longer

theorem contents (holds : Holds t b s) : b.mem.take b.size = s := by
  obtain ⟨tail, mem⟩ := holds.mem
  rw [holds.size, mem, List.take_left']
  rfl

theorem byteAt_getElem (holds : Holds t b s) {i : Nat} (inside : i < s.length) : byteAt b.mem i = s[i] := by
  obtain ⟨tail, mem⟩ := holds.mem
  rw [mem, byteAt, List.getD_eq_getElem?_getD, List.getElem?_append_left inside,
    List.getElem?_eq_getElem inside, Option.getD_some]

theorem byteAt_size (holds : Holds t b s) : byteAt b.mem s.length = t := by
  obtain ⟨tail, mem⟩ := holds.mem
  rw [mem, byteAt, List.getD_eq_getElem?_getD, List.getElem?_append_right (Nat.le_refl _)]
  simp

/-- A byte of the contents, or the one after them. -/
theorem load (holds : Holds t b s) {i : Nat} (inside : i ≤ s.length) : b.load i = .ok (byteAt b.mem i) := by
  have bound := holds.size_lt
  have size := holds.size
  unfold Strbuf.load
  rw [if_pos (by omega)]

/-- Terminating a buffer anywhere in its memory leaves what is before. -/
theorem terminate_mem (holds : Holds t b s) {n : Nat} (inside : n < b.mem.length) :
    ∃ b', b.terminate n = .ok b' ∧ Holds 0 b' (b.mem.take n) ∧ b'.asize = b.asize := by
  unfold Strbuf.terminate store
  rw [if_pos inside]
  refine ⟨_, rfl, ⟨⟨b.mem.drop (n + 1), ?_⟩, ?_, ?_, fun _ => rfl⟩, rfl⟩
  · exact List.set_eq_take_append_cons_drop .. |>.trans (if_pos inside)
  · exact (List.length_take_of_le (Nat.le_of_lt inside)).symm
  · rcases holds.capacity with ⟨zero, one⟩ | whole
    · left
      refine ⟨zero, ?_⟩
      rw [one] at inside ⊢
      obtain rfl : n = 0 := Nat.lt_one_iff.mp inside
      rfl
    · right
      rw [List.length_set]
      exact whole

/-- Terminating a buffer inside its contents. -/
theorem terminate (holds : Holds t b s) {n : Nat} (inside : n ≤ s.length) :
    ∃ b', b.terminate n = .ok b' ∧ Holds 0 b' (s.take n) ∧ b'.asize = b.asize := by
  have bound : n < b.mem.length := by
    have := holds.size_lt
    rw [holds.size] at this
    omega
  obtain ⟨b', terminated, holds', asize⟩ := holds.terminate_mem bound
  refine ⟨b', terminated, ?_, asize⟩
  obtain ⟨tail, mem⟩ := holds.mem
  rw [mem, List.take_append_of_le_length inside] at holds'
  exact holds'

/-! ### Growing -/

/-- The largest size that is asked for, and the capacity it leads to. -/
theorem capacity_le {target : Int} (small : target ≤ maxRequest) :
    (target + target / 2 + 1 + 7) / 8 * 8 ≤ maxAsize := by
  unfold maxAsize
  unfold maxRequest at small
  omega

theorem int32_eq {n : Int} (lower : 0 ≤ n) (upper : n ≤ int32Max) : int32 n = .ok n := by
  unfold int32
  rw [if_pos]
  unfold int32Max at upper ⊢
  omega

/-- After a reallocation the contents are where they were. -/
theorem realloc (holds : Holds t b s) (junk : Junk) {n : Nat} (larger : b.asize < n) :
    Holds (if b.asize = 0 then junk 0 else t) (b.realloc junk n) s ∧ (b.realloc junk n).asize = n := by
  by_cases shared : b.asize = 0
  · obtain ⟨rfl, rfl, one⟩ := holds.nil_of_asize shared
    have mem : (b.realloc junk n).mem = (List.range n).map junk := by
      simp [Strbuf.realloc, shared]
    obtain ⟨m, rfl⟩ := Nat.exists_eq_succ_of_ne_zero (Nat.ne_zero_of_lt larger)
    rw [if_pos shared]
    refine ⟨⟨⟨((List.range m).map Nat.succ).map junk, ?_⟩, holds.size, .inr ?_, fun some => absurd rfl some⟩, rfl⟩
    · rw [mem, List.range_succ_eq_map]
      rfl
    · rw [mem]
      simp [Strbuf.realloc]
  · have whole : b.asize = b.mem.length := by
      rcases holds.capacity with ⟨zero, _⟩ | whole
      · exact absurd zero shared
      · exact whole
    have mem : (b.realloc junk n).mem =
        b.mem ++ (List.range (n - b.mem.length)).map fun i => junk (b.mem.length + i) := by
      simp [Strbuf.realloc, shared]
    obtain ⟨tail, old⟩ := holds.mem
    rw [if_neg shared]
    refine ⟨⟨?_, holds.size, .inr ?_, holds.ends⟩, rfl⟩
    · rw [mem, old, List.append_assoc, List.cons_append]
      exact ⟨_, rfl⟩
    · rw [mem, List.length_append, List.length_map, List.length_range]
      show n = _
      omega

/-- A request either aborts, because it is too large, or leads to a buffer with more memory than was
asked for. -/
theorem grow (holds : Holds t b s) (junk : Junk) (target : Int) :
    b.grow junk target = .error .abort ∧ (target ≤ 0 ∨ maxRequest < target) ∨
      ∃ b' t', b.grow junk target = .ok b' ∧ Holds t' b' s ∧ target < b'.asize ∧
        (b'.asize ≤ b.asize ∨ b'.asize ≤ maxAsize) ∧ (b.asize = 0 → t' = junk 0) := by
  unfold Strbuf.grow
  split
  next negative => exact .inl ⟨rfl, .inl negative⟩
  next positive =>
    split
    next enough => exact .inr ⟨b, t, rfl, holds, enough, .inl (Nat.le_refl _), fun shared => by omega⟩
    next short =>
      split
      next large =>
        left
        refine ⟨rfl, .inr ?_⟩
        unfold int32Max at large
        unfold maxRequest
        omega
      next small =>
        right
        have small : target ≤ maxRequest := by
          unfold maxRequest
          unfold int32Max at small
          omega
        have bound := capacity_le small
        -- None of the three sums overflows.
        have fits : target + target / 2 + 1 + 7 ≤ int32Max := by
          unfold int32Max
          unfold maxRequest at small
          omega
        rw [int32_eq (by omega) (by omega)]
        dsimp only [bind, Except.bind]
        rw [int32_eq (by omega) (by omega)]
        dsimp only [bind, Except.bind]
        rw [int32_eq (by omega) fits]
        dsimp only [bind, Except.bind]
        obtain ⟨holds', asize⟩ :=
          holds.realloc junk (n := ((target + target / 2 + 1 + 7) / 8 * 8).toNat) (by omega)
        refine ⟨_, _, rfl, holds', ?_, .inr ?_, fun shared => if_pos shared⟩
        · rw [asize]
          omega
        · rw [asize]
          omega

/-- With the size added, the sum must fit as well. -/
theorem growBy (holds : Holds t b s) (junk : Junk) {add : Int} (positive : 0 < add) :
    b.growBy junk add =
      if s.length + add ≤ int32Max then b.grow junk (s.length + add) else .error .overflow := by
  unfold Strbuf.growBy
  rw [holds.size]
  split
  next fits =>
    rw [int32_eq (by omega) fits]
    rfl
  next large =>
    unfold int32
    rw [if_neg (by omega)]
    rfl

/-! ### Operations that overwrite -/

/-- What an operation makes of a buffer with the byte `t` after its contents: it ends, holds `s`, and
has no more than `capacity` bytes. The byte after the contents is NUL or has not changed. -/
def Yields (t : UInt8) (r : Except BufferError Strbuf) (s : Bytes) (capacity : Nat) : Prop :=
  ∃ b t', r = .ok b ∧ Holds t' b s ∧ (t' = 0 ∨ t' = t) ∧ b.asize ≤ capacity

theorem self (holds : Holds t b s) : Yields t (.ok b) s b.asize :=
  ⟨b, t, rfl, holds, .inr rfl, Nat.le_refl _⟩

theorem clear (holds : Holds t b s) : Yields t b.clear [] b.asize := by
  unfold Strbuf.clear
  split
  next allocated =>
    obtain ⟨b', terminated, holds', asize⟩ := holds.terminate (Nat.zero_le _)
    exact ⟨b', 0, terminated, holds', .inl rfl, Nat.le_of_eq asize⟩
  next shared =>
    obtain ⟨rfl, rfl, one⟩ := holds.nil_of_asize (Nat.eq_zero_of_not_pos shared)
    refine ⟨_, 0, rfl, ⟨⟨[], one⟩, rfl, holds.capacity, fun _ => rfl⟩, .inl rfl, Nat.le_refl _⟩

/-- Bytes moved to the end of the contents, or before it, are the contents from there on. -/
theorem move_terminate (holds : Holds t b s) {i : Nat} (inside : i ≤ s.length) {d : Bytes}
    (fits : i + d.length < b.mem.length) :
    ∃ b', (b.move i d >>= fun b' => b'.terminate (i + d.length)) = .ok b' ∧
      Holds 0 b' (s.take i ++ d) ∧ b'.asize = b.asize := by
  unfold Strbuf.move
  rw [if_pos (Nat.le_of_lt fits)]
  dsimp only [bind, Except.bind]
  obtain ⟨tail, mem⟩ := holds.mem
  have before : b.mem.take i = s.take i := by
    rw [mem, List.take_append_of_le_length inside]
  have length : (s.take i ++ d).length = i + d.length := by
    rw [List.length_append, List.length_take_of_le inside]
  have bound : i + d.length < (b.mem.take i ++ d ++ b.mem.drop (i + d.length)).length := by
    rw [before, List.length_append, length, List.length_drop]
    omega
  unfold Strbuf.terminate store
  rw [if_pos bound]
  refine ⟨_, rfl, ⟨⟨b.mem.drop (i + d.length + 1), ?_⟩, length.symm, ?_, fun _ => rfl⟩, rfl⟩
  · dsimp only
    rw [before, List.set_append_right _ _ (Nat.le_of_eq length), length, Nat.sub_self]
    rw [List.drop_eq_getElem_cons fits]
    rfl
  · rcases holds.capacity with ⟨zero, one⟩ | whole
    · left
      refine ⟨zero, ?_⟩
      rw [one] at fits ⊢
      obtain ⟨rfl, none⟩ := Nat.add_eq_zero_iff.mp (Nat.lt_one_iff.mp fits)
      obtain rfl := List.length_eq_zero_iff.mp none
      rfl
    · right
      dsimp only
      rw [List.length_set, before, List.length_append, length, List.length_drop, whole]
      exact (Nat.add_sub_of_le (Nat.le_of_lt fits)).symm

/-- The memory of a buffer with room for more than was asked. -/
theorem lt_length (holds : Holds t b s) {n : Int} (room : n < b.asize) : n < b.mem.length := by
  rcases holds.capacity with ⟨zero, _⟩ | whole
  · omega
  · omega

theorem Yields.mono {r : Except BufferError Strbuf} {capacity capacity' : Nat} (yields : Yields t r s capacity)
    (le : capacity ≤ capacity') : Yields t r s capacity' := by
  obtain ⟨b, t', returns, holds, nul, bound⟩ := yields
  exact ⟨b, t', returns, holds, nul, bound.trans le⟩

/-- The memory that there is, or the memory that is asked for. -/
theorem room (holds : Holds t b s) (junk : Junk) (bounded : b.asize ≤ maxAsize) {len : Int} (positive : 0 < len) :
    (∃ e, (if len ≥ b.asize then b.grow junk len else .ok b) = .error e ∧ maxRequest < len) ∨
      ∃ b' t', (if len ≥ b.asize then b.grow junk len else .ok b) = .ok b' ∧ Holds t' b' s ∧
        len < b'.asize ∧ b'.asize ≤ maxAsize := by
  split
  next more =>
    rcases holds.grow junk len with ⟨aborts, none | large⟩ | ⟨b', t', grown, holds', room, capacity, _⟩
    · omega
    · exact .inl ⟨_, aborts, large⟩
    · exact .inr ⟨b', t', grown, holds', room, capacity.elim (·.trans bounded) id⟩
  next enough => exact .inr ⟨b, t, rfl, holds, Int.not_le.mp enough, bounded⟩

/-- The argument is too long for its memory, or too long for a buffer, or is the new contents. -/
theorem set (holds : Holds t b s) (junk : Junk) (bounded : b.asize ≤ maxAsize) (data : Data) (len : Int) :
    (∃ e, b.set junk data len = .error e ∧ 0 < len ∧ data ≠ .null ∧
        (maxRequest < len ∨ (data.of s).length < len)) ∨
      Yields t (b.set junk data len) ((data.of s).take len.toNat) maxAsize := by
  unfold Strbuf.set
  split
  next none =>
    right
    rw [Int.toNat_of_nonpos none, List.take_zero]
    exact holds.clear.mono bounded
  next some =>
    have positive := Int.not_le.mp some
    cases data with
    | null =>
      right
      rw [Data.of, List.take_nil]
      exact holds.clear.mono bounded
    | self =>
      dsimp only [Data.of]
      have size := holds.size
      split
      next beyond => exact .inl ⟨_, rfl, positive, by simp, .inr (by omega)⟩
      next within =>
        right
        obtain ⟨b', terminated, holds', asize⟩ := holds.terminate (n := len.toNat) (by omega)
        exact ⟨b', 0, terminated, holds', .inl rfl, asize.le.trans bounded⟩
    | bytes d =>
      dsimp only [Data.of]
      rcases holds.room junk bounded positive with
        ⟨e, fails, large⟩ | ⟨b', t', grown, holds', room, capacity⟩
      · left
        rw [fails]
        exact ⟨e, rfl, positive, by simp, .inl large⟩
      · rw [grown, ok_bind]
        split
        next beyond => exact .inl ⟨_, rfl, positive, by simp, .inr beyond⟩
        next within =>
          right
          have length : (d.take len.toNat).length = len.toNat := List.length_take_of_le (by omega)
          have fits := holds'.lt_length room
          obtain ⟨b'', moved, holds'', asize⟩ :=
            holds'.move_terminate (i := 0) (Nat.zero_le _) (d := d.take len.toNat) (by omega)
          rw [length, Nat.zero_add] at moved
          rw [List.take_zero, List.nil_append] at holds''
          exact ⟨b'', 0, moved, holds'', .inl rfl, asize.le.trans capacity⟩

/-! ### Operations that append -/

/-- The sum does not fit, or is too large for a buffer, or there is room for more than it. -/
theorem growBy_room (holds : Holds t b s) (junk : Junk) (bounded : b.asize ≤ maxAsize) {add : Int} (positive : 0 < add) :
    b.growBy junk add = .error .overflow ∧ int32Max < s.length + add ∨
      b.growBy junk add = .error .abort ∧ maxRequest < s.length + add ∧ s.length + add ≤ int32Max ∨
      s.length + add ≤ int32Max ∧ ∃ b' t', b.growBy junk add = .ok b' ∧ Holds t' b' s ∧
        s.length + add < b'.asize ∧ b'.asize ≤ maxAsize := by
  rw [holds.growBy junk positive]
  split
  next fits =>
    right
    rcases holds.grow junk (s.length + add) with
      ⟨aborts, none | large⟩ | ⟨b', t', grown, holds', room, capacity, _⟩
    · omega
    · exact .inl ⟨aborts, large, fits⟩
    · exact .inr ⟨fits, b', t', grown, holds', room, capacity.elim (·.trans bounded) id⟩
  next large => exact .inl ⟨rfl, Int.not_le.mp large⟩

theorem store_eq_move {i : Nat} (c : UInt8) (inside : i < b.mem.length) : b.store i c = b.move i [c] := by
  unfold store move
  rw [if_pos inside, if_pos (show i + [c].length ≤ _ from inside), List.set_eq_take_append_cons_drop,
    if_pos inside]
  simp

theorem putc (holds : Holds t b s) (junk : Junk) (bounded : b.asize ≤ maxAsize) (c : Int) :
    b.putc junk c = .error .abort ∧ maxRequest < s.length + 1 ∨
      Yields t (b.putc junk c) (s ++ [UInt8.ofNat (c % 256).toNat]) maxAsize := by
  have small : (s.length : Int) + 1 ≤ int32Max := by
    by_cases shared : b.asize = 0
    · rw [(holds.nil_of_asize shared).1]
      decide
    · have below := holds.size_lt_asize shared
      rw [holds.size] at below
      unfold int32Max
      unfold maxAsize at bounded
      omega
  unfold Strbuf.putc
  rcases holds.growBy_room junk bounded Int.one_pos with
    ⟨_, overflows⟩ | ⟨aborts, large, _⟩ | ⟨_, b', t', grown, holds', room, capacity⟩
  · omega
  · left
    rw [aborts]
    exact ⟨rfl, large⟩
  · right
    rw [grown, ok_bind]
    have fits := holds'.lt_length room
    have size := holds'.size
    obtain ⟨b'', moved, holds'', asize⟩ := holds'.move_terminate (Nat.le_refl _)
      (d := [UInt8.ofNat (c % 256).toNat]) (by simp only [List.length_singleton]; omega)
    rw [List.take_length] at holds''
    rw [store_eq_move _ (by omega), size]
    exact ⟨b'', 0, moved, holds'', .inl rfl, asize.le.trans capacity⟩

theorem put (holds : Holds t b s) (junk : Junk) (bounded : b.asize ≤ maxAsize) (data : Bytes) {len : Int} (positive : 0 < len) :
    b.put junk data len = .error .overflow ∧ int32Max < s.length + len ∨
      b.put junk data len = .error .abort ∧ maxRequest < s.length + len ∧ s.length + len ≤ int32Max ∨
      b.put junk data len = .error .outOfBounds ∧ data.length < len ∨
      s.length + len ≤ int32Max ∧ Yields t (b.put junk data len) (s ++ data.take len.toNat) maxAsize := by
  unfold Strbuf.put
  rw [if_neg (Int.not_le.mpr positive)]
  rcases holds.growBy_room junk bounded positive with
    ⟨overflows, large⟩ | ⟨aborts, large, fits⟩ | ⟨fits, b', t', grown, holds', room, capacity⟩
  · left
    rw [overflows]
    exact ⟨rfl, large⟩
  · right
    left
    rw [aborts]
    exact ⟨rfl, large, fits⟩
  · rw [grown, ok_bind]
    split
    next beyond => exact .inr (.inr (.inl ⟨rfl, beyond⟩))
    next within =>
      refine .inr (.inr (.inr ⟨fits, ?_⟩))
      have length : (data.take len.toNat).length = len.toNat := List.length_take_of_le (by omega)
      have longer := holds'.lt_length room
      obtain ⟨b'', moved, holds'', asize⟩ :=
        holds'.move_terminate (Nat.le_refl _) (d := data.take len.toNat) (by omega)
      rw [List.take_length] at holds''
      rw [length] at moved
      rw [holds'.size]
      exact ⟨b'', 0, moved, holds'', .inl rfl, asize.le.trans capacity⟩

theorem put_none (holds : Holds t b s) (junk : Junk) (bounded : b.asize ≤ maxAsize) (data : Bytes) {len : Int} (none : len ≤ 0) :
    Yields t (b.put junk data len) (s ++ data.take len.toNat) maxAsize := by
  unfold Strbuf.put
  rw [if_pos none, Int.toNat_of_nonpos none, List.take_zero, List.append_nil]
  exact holds.self.mono bounded

/-! ### Operations that take bytes away -/

theorem truncate (holds : Holds t b s) (len : Int) : Yields t (b.truncate len) (s.take len.toNat) b.asize := by
  unfold Strbuf.truncate
  have size := holds.size
  have same : (if len < 0 then 0 else len.toNat) = len.toNat := by
    split
    next negative => exact (Int.toNat_of_nonpos negative.le).symm
    next => rfl
  dsimp only
  rw [same]
  split
  next shorter =>
    obtain ⟨b', terminated, holds', asize⟩ := holds.terminate (n := len.toNat) (by omega)
    exact ⟨b', 0, terminated, holds', .inl rfl, asize.le⟩
  next longer =>
    rw [List.take_of_length_le (by omega)]
    exact holds.self

theorem drop (holds : Holds t b s) (n : Int) : Yields t (b.drop n) (s.drop n.toNat) b.asize := by
  unfold Strbuf.drop
  have size := holds.size
  split
  next positive =>
    dsimp only
    -- What is dropped is at most everything.
    have dropped : s.drop (if n > b.size then b.size else n.toNat) = s.drop n.toNat := by
      split
      next more => rw [List.drop_of_length_le (by omega), List.drop_of_length_le (by omega)]
      next => rfl
    have le : (if n > b.size then b.size else n.toNat) ≤ b.size := by
      split
      next => exact Nat.le_refl _
      next within => omega
    rw [← dropped]
    generalize (if n > b.size then b.size else n.toNat) = k at le
    have length : (s.drop k).length = b.size - k := by rw [List.length_drop, size]
    split
    next empty =>
      rw [ok_bind, empty]
      rw [empty] at length
      obtain ⟨b', terminated, holds', asize⟩ := holds.terminate (Nat.zero_le _)
      rw [List.length_eq_zero_iff.mp length]
      exact ⟨b', 0, terminated, holds', .inl rfl, asize.le⟩
    next some =>
      have longer := holds.size_lt
      have kept : (b.mem.drop k).take (b.size - k) = s.drop k := by
        rw [List.take_drop, Nat.add_sub_of_le le, holds.contents]
      obtain ⟨b', moved, holds', asize⟩ := holds.move_terminate (i := 0) (Nat.zero_le _) (d := s.drop k) (by omega)
      rw [length, Nat.zero_add] at moved
      rw [kept]
      exact ⟨b', 0, moved, holds', .inl rfl, asize.le⟩
  next none =>
    rw [Int.toNat_of_nonpos (Int.not_lt.mp none), List.drop_zero]
    exact holds.self

theorem rtrimLoop (holds : Holds t b s) (n : Nat) (inside : n ≤ s.length) :
    b.rtrimLoop n = .ok (chunkRtrim (s.take n)).length := by
  induction n with
  | zero => rw [List.take_zero]; rfl
  | succ n ih =>
    have last : s.take (n + 1) = s.take n ++ [s[n]] := by
      rw [List.take_succ_eq_append_getElem]
    unfold Strbuf.rtrimLoop
    rw [holds.load (by omega), ok_bind, holds.byteAt_getElem inside, last, chunkRtrim]
    split
    next space => rw [List.rdropWhile_concat_pos _ _ _ space, ih (by omega), chunkRtrim]
    next other =>
      rw [List.rdropWhile_concat_neg _ _ _ other, List.length_append, List.length_take_of_le (by omega)]
      rfl

theorem rtrim (holds : Holds t b s) : Yields t b.rtrim (chunkRtrim s) b.asize := by
  unfold Strbuf.rtrim
  have size := holds.size
  split
  next none =>
    rw [none] at size
    obtain rfl := List.length_eq_zero_iff.mp size.symm
    exact holds.self
  next some =>
    rw [size, holds.rtrimLoop _ (Nat.le_refl _), ok_bind, List.take_length]
    have kept : chunkRtrim s <+: s := List.rdropWhile_prefix _ _
    obtain ⟨b', terminated, holds', asize⟩ := holds.terminate kept.length_le
    rw [← List.prefix_iff_eq_take.mp kept] at holds'
    exact ⟨b', 0, terminated, holds', .inl rfl, asize.le⟩

theorem trimLoop (holds : Holds t b s) (n i : Nat) (all : i + n = s.length) :
    b.trimLoop n i = .ok (i + ((s.drop i).takeWhile isspace).length) := by
  induction n generalizing i with
  | zero =>
    rw [List.drop_of_length_le (by omega)]
    rfl
  | succ n ih =>
    have inside : i < s.length := by omega
    unfold Strbuf.trimLoop
    rw [holds.load (by omega), ok_bind, holds.byteAt_getElem inside, List.drop_eq_getElem_cons inside]
    split
    next space =>
      rw [ih (i + 1) (by omega), List.takeWhile_cons_of_pos space, List.length_cons]
      congr 1
      omega
    next other =>
      rw [List.takeWhile_cons_of_neg other]
      rfl

theorem trim (holds : Holds t b s) : Yields t b.trim (strbufTrim s) b.asize := by
  unfold Strbuf.trim
  have size := holds.size
  split
  next none =>
    rw [none] at size
    obtain rfl := List.length_eq_zero_iff.mp size.symm
    exact holds.self
  next some =>
    rw [size, holds.trimLoop _ _ (Nat.zero_add _), ok_bind, List.drop_zero, Nat.zero_add]
    obtain ⟨b₁, t₁, dropped, holds₁, nul₁, asize₁⟩ := holds.drop (s.takeWhile isspace).length
    rw [Int.toNat_natCast, drop_length_takeWhile] at holds₁
    rw [dropped, ok_bind]
    obtain ⟨b₂, t₂, trimmed, holds₂, nul₂, asize₂⟩ := holds₁.rtrim
    refine ⟨b₂, t₂, trimmed, holds₂, ?_, asize₂.trans asize₁⟩
    rcases nul₂ with rfl | rfl
    · exact .inl rfl
    · exact nul₁

end Holds

/-! ### Operations that rewrite in place -/

/-- The state of a loop with two indices: `out` is written before `w`, and `rest` is still to be read
from `r` on. -/
structure Rewrites (t : UInt8) (asize : Nat) (b : Strbuf) (r w : Nat) (out rest : Bytes) : Prop where
  written : b.mem.take w = out
  unread : ∃ tail, b.mem.drop r = rest ++ t :: tail
  behind : w ≤ r
  size : b.size = r + rest.length
  capacity : b.asize = 0 ∧ b.mem = [0] ∨ b.asize = b.mem.length
  ends : b.size ≠ 0 → t = 0
  asize : b.asize = asize

theorem Holds.rewrites (holds : Holds t b s) : Rewrites t b.asize b 0 0 [] s where
  written := List.take_zero
  unread := holds.mem
  behind := Nat.le_refl _
  size := by rw [holds.size, Nat.zero_add]
  capacity := holds.capacity
  ends some := holds.ends fun none => some (by rw [holds.size, none]; rfl)
  asize := rfl

namespace Rewrites

variable {asize r w : Nat} {out rest : Bytes} {c : UInt8}

theorem longer (rewrites : Rewrites t asize b r w out rest) : r + rest.length < b.mem.length := by
  obtain ⟨tail, unread⟩ := rewrites.unread
  have length := congrArg List.length unread
  rw [List.length_drop, List.length_append, List.length_cons] at length
  omega

theorem length (rewrites : Rewrites t asize b r w out rest) : out.length = w := by
  have longer := rewrites.longer
  have behind := rewrites.behind
  rw [← rewrites.written, List.length_take_of_le (by omega)]

theorem load (rewrites : Rewrites t asize b r w out (c :: rest)) : b.load r = .ok c := by
  have longer := rewrites.longer
  have size := rewrites.size
  rw [List.length_cons] at longer size
  obtain ⟨tail, unread⟩ := rewrites.unread
  unfold Strbuf.load
  rw [if_pos (by omega), byteAt, List.getD_eq_getElem?_getD, ← Nat.add_zero r, ← List.getElem?_drop, unread]
  simp

/-- The byte after the one at `r`: the next one of the contents, or the one after them. -/
theorem load_next (rewrites : Rewrites t asize b r w out (c :: rest)) :
    b.load (r + 1) = .ok (rest.headD t) := by
  have longer := rewrites.longer
  have size := rewrites.size
  rw [List.length_cons] at longer size
  obtain ⟨tail, unread⟩ := rewrites.unread
  unfold Strbuf.load
  rw [if_pos (by omega), byteAt, List.getD_eq_getElem?_getD, ← List.getElem?_drop, unread]
  cases rest <;> simp

/-- A byte that is read and not written. -/
theorem skip (rewrites : Rewrites t asize b r w out (c :: rest)) : Rewrites t asize b (r + 1) w out rest := by
  obtain ⟨tail, unread⟩ := rewrites.unread
  refine { rewrites with unread := ⟨tail, ?_⟩, behind := Nat.le_succ_of_le rewrites.behind, size := ?_ }
  · rw [← List.drop_drop, unread]
    rfl
  · rw [rewrites.size, List.length_cons]
    omega

/-- A byte that is read, and one that is written not beyond it. -/
theorem store (rewrites : Rewrites t asize b r w out (c :: rest)) (d : UInt8) :
    ∃ b', b.store w d = .ok b' ∧ Rewrites t asize b' (r + 1) (w + 1) (out ++ [d]) rest := by
  have longer := rewrites.longer
  have behind := rewrites.behind
  have skipped := rewrites.skip
  rw [List.length_cons] at longer
  have inside : w < b.mem.length := by omega
  unfold Strbuf.store
  rw [if_pos inside]
  refine ⟨_, rfl, ⟨?_, ?_, Nat.succ_le_succ behind, skipped.size, ?_, rewrites.ends, rewrites.asize⟩⟩
  · have taken : (b.mem.set w d).take (w + 1) = b.mem.take w ++ [d] := by
      rw [List.take_set, List.take_succ_eq_append_getElem inside, List.set_append_right]
      · rw [List.length_take_of_le inside.le, Nat.sub_self]
        rfl
      · rw [List.length_take_of_le inside.le]
    exact taken.trans (by rw [rewrites.written])
  · obtain ⟨tail, unread⟩ := skipped.unread
    refine ⟨tail, ?_⟩
    dsimp only
    rw [List.drop_set_of_lt (by omega), unread]
  · right
    rcases rewrites.capacity with ⟨zero, one⟩ | whole
    · rw [one] at longer
      simp at longer
    · dsimp only
      rw [List.length_set, whole]

/-- At the end the contents are what has been written. -/
theorem truncate (rewrites : Rewrites t asize b r w out []) : Holds.Yields t (b.truncate w) out asize := by
  have size := rewrites.size
  have longer := rewrites.longer
  have behind := rewrites.behind
  have length := rewrites.length
  obtain ⟨tail, unread⟩ := rewrites.unread
  rw [List.length_nil, Nat.add_zero] at size longer
  rw [List.nil_append] at unread
  -- Before it is cut the buffer holds whatever is before the byte that ends it.
  have holds : Holds t b (b.mem.take r) := by
    have full : (b.mem.take r).length = r := List.length_take_of_le longer.le
    refine ⟨⟨tail, ?_⟩, size.trans full.symm, rewrites.capacity, fun some => rewrites.ends ?_⟩
    · rw [← unread, List.take_append_drop]
    · intro none
      rw [size] at none
      rw [none] at some
      exact some List.take_zero
  obtain ⟨b', t', cut, holds', nul, capacity⟩ := holds.truncate w
  rw [Int.toNat_natCast, List.take_take, Nat.min_eq_left behind, rewrites.written] at holds'
  exact ⟨b', t', cut, holds', nul, capacity.trans rewrites.asize.le⟩

/-- One turn of the loop for each byte. -/
theorem normalizeLoop (rewrites : Rewrites t asize b r w out rest) (lastCharWasSpace : Bool) :
    ∃ r' w' b', Strbuf.normalizeLoop rest.length r w lastCharWasSpace b = .ok (w', b') ∧
      Rewrites t asize b' r' w' (out ++ normalizeWhitespaceFrom lastCharWasSpace rest) [] := by
  induction rest generalizing b r w out lastCharWasSpace with
  | nil =>
    refine ⟨r, w, b, rfl, ?_⟩
    rw [normalizeWhitespaceFrom, List.append_nil]
    exact rewrites
  | cons c rest ih =>
    rw [List.length_cons]
    unfold Strbuf.normalizeLoop
    rw [rewrites.load, ok_bind, normalizeWhitespaceFrom]
    split
    next space =>
      split
      next repeated => exact ih rewrites.skip true
      next first =>
        obtain ⟨b', stored, rewrites'⟩ := rewrites.store 32
        rw [stored, ok_bind, List.append_cons]
        exact ih rewrites' true
    next other =>
      obtain ⟨b', stored, rewrites'⟩ := rewrites.store c
      rw [stored, ok_bind, List.append_cons]
      exact ih rewrites' false

/-- A turn of the loop for each byte, but one turn for a backslash and what it escapes. At the last
byte it looks at the NUL, which is no punctuation. -/
theorem unescapeLoop (rewrites : Rewrites t asize b r w out rest) (fuel : Nat) (enough : rest.length ≤ fuel) :
    ∃ r' w' b', Strbuf.unescapeLoop fuel r w b = .ok (w', b') ∧
      Rewrites t asize b' r' w' (out ++ strbufUnescape rest) [] := by
  induction fuel generalizing b r w out rest with
  | zero =>
    obtain rfl := List.length_eq_zero_iff.mp (Nat.le_zero.mp enough)
    refine ⟨r, w, b, rfl, ?_⟩
    rw [strbufUnescape, List.append_nil]
    exact rewrites
  | succ fuel ih =>
    have size := rewrites.size
    unfold Strbuf.unescapeLoop
    cases rest with
    | nil =>
      rw [if_neg (by simp [size])]
      refine ⟨r, w, b, rfl, ?_⟩
      rw [strbufUnescape, List.append_nil]
      exact rewrites
    | cons c rest =>
      rw [List.length_cons] at size enough
      obtain rfl := rewrites.ends (by omega)
      rw [if_pos (by omega), rewrites.load, ok_bind, rewrites.load_next, ok_bind]
      -- Whether the byte is a backslash that escapes the next one.
      have escapes : (if c == chr '\\' then return ispunct (rest.headD 0) else return false :
          Except BufferError Bool) = .ok (c == chr '\\' && ispunct (rest.headD 0)) := by
        cases c == chr '\\' <;> rfl
      rw [escapes, ok_bind]
      cases skips : c == chr '\\' && ispunct (rest.headD 0) with
      | true =>
        cases rest with
        | nil =>
          have escaped := (Bool.and_eq_true _ _ ▸ skips : _ ∧ _).2
          exact absurd escaped (by decide)
        | cons d rest =>
          rw [List.headD_cons] at skips
          have skipped := rewrites.skip
          rw [List.length_cons] at enough
          simp only [if_true]
          obtain ⟨b', stored, rewrites'⟩ := skipped.store d
          rw [skipped.load, ok_bind, stored, ok_bind, strbufUnescape, if_pos skips, List.append_cons]
          exact ih rewrites' (by omega)
      | false =>
        obtain ⟨b', stored, rewrites'⟩ := rewrites.store c
        have kept : strbufUnescape (c :: rest) = c :: strbufUnescape rest := by
          cases rest with
          | nil => rfl
          | cons d rest =>
            rw [List.headD_cons] at skips
            rw [strbufUnescape, if_neg (Bool.eq_false_iff.mp skips)]
        simp only [Bool.false_eq_true, if_false]
        rw [rewrites.load, ok_bind, stored, ok_bind, kept, List.append_cons]
        exact ih rewrites' (by omega)

end Rewrites

theorem Holds.normalizeWhitespace (holds : Holds t b s) :
    Yields t b.normalizeWhitespace (strbufNormalizeWhitespace s) b.asize := by
  obtain ⟨r, w, b', rewritten, rewrites⟩ := holds.rewrites.normalizeLoop false
  unfold Strbuf.normalizeWhitespace
  rw [holds.size, rewritten, ok_bind]
  exact rewrites.truncate

theorem Holds.unescape (holds : Holds t b s) : Yields t b.unescape (strbufUnescape s) b.asize := by
  obtain ⟨r, w, b', rewritten, rewrites⟩ := holds.rewrites.unescapeLoop s.length (Nat.le_refl _)
  unfold Strbuf.unescape
  rw [holds.size, rewritten, ok_bind]
  exact rewrites.truncate

end Strbuf

end CmarkGfm
