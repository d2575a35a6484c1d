import CmarkGfm.Arena
import Mathlib.Data.List.Nodup
import Mathlib.Data.List.Pairwise

/-!
# Blocks in the arena

The blocks in use lie inside their chunks and apart from each other, and the push points separate the chunks whose
blocks are gone with a pop from those whose blocks stay.
-/

namespace CmarkGfm

open MarkedStack

/-- The bytes that a block takes without its header. -/
def capacity (size : Nat) : Nat := (size + 7) / 8 * 8

theorem le_capacity (size : Nat) : size ≤ capacity size := by
  unfold capacity
  omega

theorem capacity_mono {size size' : Nat} (le : size ≤ size') : capacity size ≤ capacity size' := by
  unfold capacity
  omega

theorem allocationSize_eq {nmem size : Nat} (fits : nmem * size + 8 + 7 < 2 ^ 64) :
    Arena.allocationSize nmem size = capacity (nmem * size) + 8 := by
  unfold Arena.allocationSize toSize capacity
  generalize nmem * size = n at fits ⊢
  dsimp only
  omega

/-! ### Bytes in memory -/

namespace ArenaMemory

variable {memory : ArenaMemory} {p q : ArenaPtr} {v : Nat}

theorem sum_digits (v n : Nat) : ((List.range n).map fun k => v / 256 ^ k % 256 * 256 ^ k).sum = v % 256 ^ n := by
  induction n with
  | zero => simp [Nat.mod_one]
  | succ n ih =>
    rw [List.range_succ, List.map_append, List.sum_append, ih, Nat.mod_pow_succ]
    simp [Nat.mul_comm]

/-- The bytes of a number read back. -/
theorem readSize_writeSize (small : v < 2 ^ 64) : (memory.writeSize p v).readSize p = v := by
  have digit (k : Nat) (digit : k < 8) :
      (memory.writeSize p v p.base (p.offset + k)).toNat = v / 256 ^ k % 256 := by
    rw [writeSize, if_pos ⟨rfl, Nat.le_add_right .., Nat.add_lt_add_left digit _⟩, Nat.add_sub_cancel_left,
      UInt8.toNat_ofNat']
  unfold readSize
  rw [List.map_congr_left fun k member => by rw [digit k (List.mem_range.mp member)], sum_digits]
  exact Nat.mod_eq_of_lt small

theorem readSize_congr {memory' : ArenaMemory} (same : ∀ k < 8, memory' p.base (p.offset + k) = memory p.base (p.offset + k)) :
    memory'.readSize p = memory.readSize p := by
  unfold readSize
  rw [List.map_congr_left fun k member => by rw [same k (List.mem_range.mp member)]]

theorem writeSize_other {base k : Nat} (outside : ¬ (base = p.base ∧ p.offset ≤ k ∧ k < p.offset + 8)) :
    memory.writeSize p v base k = memory base k := if_neg outside

theorem memcpy_other {n base k : Nat} (outside : ¬ (base = p.base ∧ p.offset ≤ k ∧ k < p.offset + n)) :
    memory.memcpy p q n base k = memory base k := if_neg outside

theorem memcpy_copied {n i : Nat} (inside : i < n) :
    memory.memcpy p q n p.base (p.offset + i) = memory q.base (q.offset + i) := by
  rw [memcpy, if_pos ⟨rfl, Nat.le_add_right .., Nat.add_lt_add_left inside _⟩, Nat.add_sub_cancel_left]

theorem writeByte_other {v : UInt8} {base k : Nat} (outside : ¬ (base = p.base ∧ k = p.offset)) :
    memory.writeByte p v base k = memory base k := if_neg outside

end ArenaMemory

/-! ### The invariant -/

/-- The chunks have memory of their own, what is used of it is inside, and the rest has not been written to. -/
structure Arena.Sound (a : Arena) : Prop where
  distinct : (a.chunks.map ArenaChunk.ptr).Nodup
  old : ∀ c ∈ a.chunks, c.ptr < a.fresh
  used : ∀ c ∈ a.chunks, c.used ≤ c.sz ∧ c.used % 8 = 0 ∧ c.sz < 2 ^ 63
  blank : ∀ c ∈ a.chunks, ∀ k ≥ c.used, a.memory c.ptr k = 0

/-- The block is in the memory of a chunk. -/
def ArenaChunk.Owns (c : ArenaChunk) (b : ArenaBlock) : Prop := c.ptr = b.ptr.base

/-- The block lies in the part of its chunk that is used, behind its header. -/
structure ArenaChunk.Places (memory : ArenaMemory) (c : ArenaChunk) (b : ArenaBlock) : Prop where
  header : 8 ≤ b.ptr.offset
  aligned : b.ptr.offset % 8 = 0
  inside : b.ptr.offset + capacity b.size ≤ c.used
  size : memory.readSize ⟨b.ptr.base, b.ptr.offset - 8⟩ = capacity b.size

/-- The blocks and their headers have no byte in common. -/
def ArenaBlock.Apart (b b' : ArenaBlock) : Prop :=
  b.ptr.base ≠ b'.ptr.base ∨ b.ptr.offset + capacity b.size + 8 ≤ b'.ptr.offset ∨
    b'.ptr.offset + capacity b'.size + 8 ≤ b.ptr.offset

instance : Std.Symm ArenaBlock.Apart where
  symm b b' apart := by
    rcases apart with other | before | behind
    · exact .inl other.symm
    · exact .inr (.inr before)
    · exact .inr (.inl behind)

theorem ArenaBlock.Apart.ne {b b' : ArenaBlock} (apart : b.Apart b') : b ≠ b' := by
  rintro rfl
  rcases apart with other | before | behind
  · exact other rfl
  · omega
  · omega

/-- The chunks above each push point own the blocks from that push on. -/
abbrev ScopedChunks : List ArenaChunk → List (List ArenaBlock) → Prop :=
  Scoped ArenaChunk.pushPoint (ArenaChunk.setPushPoint false) ArenaChunk.Owns

structure ArenaUse.Layout (s : ArenaUse) : Prop where
  sound : s.arena.Sound
  scopes : ScopedChunks s.arena.chunks s.scopes
  placed : ∀ b ∈ s.live, ∀ c ∈ s.arena.chunks, c.Owns b → c.Places s.arena.memory b
  apart : s.live.Pairwise ArenaBlock.Apart

/-- The bytes of these blocks are as they were. -/
def ArenaUse.Keeps (s s' : ArenaUse) (blocks : List ArenaBlock) : Prop := ∀ b ∈ blocks, ∀ i < b.size, s'.byte b i = s.byte b i

namespace ArenaUse

variable {s : ArenaUse}

theorem layout_start : Layout {} where
  sound := ⟨List.nodup_nil, nofun, nofun, nofun⟩
  scopes := .bottom nofun nofun nofun
  placed := nofun
  apart := .nil

theorem Layout.scopes_ne_nil (layout : Layout s) : s.scopes ≠ [] := layout.scopes.ne_nil

theorem Layout.owner (layout : Layout s) {b : ArenaBlock} (member : b ∈ s.live) : ∃ c ∈ s.arena.chunks, c.Owns b :=
  layout.scopes.owner (fun _ _ owns => owns) member

/-- Two blocks in use are one, or apart. -/
theorem Layout.eq_or_apart (layout : Layout s) {b b' : ArenaBlock} (member : b ∈ s.live) (member' : b' ∈ s.live) :
    b = b' ∨ b.Apart b' := by
  by_cases same : b = b'
  · exact .inl same
  · exact .inr (layout.apart.forall member member' same)

theorem live_hold (some : s.scopes ≠ []) (a : Arena) (b : ArenaBlock) : (s.hold a b).live = b :: s.live := by
  obtain ⟨top, scopes, all⟩ := List.exists_cons_of_ne_nil some
  rw [live, hold, live, all]
  rfl

end ArenaUse

/-! ### Taking bytes from a chunk -/

section

variable {a : Arena} {before behind : List ArenaChunk} {c : ArenaChunk}

/-- The other chunks have other memory. -/
theorem Arena.Sound.other (sound : a.Sound) (chunks : a.chunks = before ++ c :: behind) {d : ArenaChunk}
    (member : d ∈ before ++ behind) : d.ptr ≠ c.ptr := by
  have distinct := sound.distinct
  rw [chunks, List.map_append, List.map_cons, List.nodup_middle, ← List.map_append] at distinct
  intro same
  exact (List.nodup_cons.mp distinct).1 (same ▸ List.mem_map_of_mem member)

theorem Arena.Sound.cases (sound : a.Sound) (chunks : a.chunks = before ++ c :: behind) {c' d : ArenaChunk}
    (member : d ∈ before ++ c' :: behind) : d = c' ∨ d ∈ a.chunks ∧ d.ptr ≠ c.ptr := by
  rw [List.mem_append, List.mem_cons, or_left_comm, ← List.mem_append] at member
  refine member.imp_right fun other => ⟨?_, sound.other chunks other⟩
  rw [chunks, List.mem_append, List.mem_cons, or_left_comm, ← List.mem_append]
  exact .inr other

theorem Arena.Sound.take (sound : a.Sound) (chunks : a.chunks = before ++ c :: behind) {sz v : Nat}
    (aligned : sz % 8 = 0) (header : 8 ≤ sz) (room : c.used + sz ≤ c.sz) :
    Sound { a with
      chunks := before ++ { c with used := c.used + sz } :: behind
      memory := a.memory.writeSize ⟨c.ptr, c.used⟩ v } := by
  have member : c ∈ a.chunks := by simp [chunks]
  obtain ⟨_, usedAligned, small⟩ := sound.used c member
  constructor
  case distinct =>
    have distinct := sound.distinct
    rw [chunks, List.map_append, List.map_cons] at distinct
    rw [List.map_append, List.map_cons]
    exact distinct
  case old =>
    intro d inside
    rcases sound.cases chunks inside with rfl | ⟨old, _⟩
    · exact sound.old c member
    · exact sound.old d old
  case used =>
    intro d inside
    rcases sound.cases chunks inside with rfl | ⟨old, _⟩
    · refine ⟨room, ?_, small⟩
      dsimp only
      omega
    · exact sound.used d old
  case blank =>
    intro d inside k unused
    rcases sound.cases chunks inside with rfl | ⟨old, other⟩
    · dsimp only at unused
      refine (ArenaMemory.writeSize_other ?_).trans (sound.blank c member k (by omega))
      rintro ⟨_, _, above⟩
      dsimp only at above
      omega
    · exact (ArenaMemory.writeSize_other fun within => other within.1).trans (sound.blank d old k unused)

end

/-- A new chunk has memory that nothing has been written to. -/
theorem Arena.allocArenaChunk_cases {a a' : Arena} {sz : Nat} {new : ArenaChunk}
    (alloc : a.allocArenaChunk sz = some (new, a')) : sz < 2 ^ 63 ∧ new = { ptr := a.fresh, sz := sz } ∧
      a' = { a with memory := Function.update a.memory a.fresh fun _ => 0, fresh := a.fresh + 1 } := by
  rw [allocArenaChunk] at alloc
  split at alloc
  next small =>
    cases alloc
    exact ⟨small, rfl, rfl⟩
  next => cases alloc

namespace ArenaUse

section

variable {s : ArenaUse} (layout : Layout s)

include layout

/-- A block stays where it is in a chunk of which more is used. -/
theorem Layout.places_congr {b : ArenaBlock} (member : b ∈ s.live) {memory : ArenaMemory} {c d : ArenaChunk}
    (inside : c ∈ s.arena.chunks) (owns : c.Owns b) (more : c.used ≤ d.used)
    (same : ∀ k < c.used, memory b.ptr.base k = s.arena.memory b.ptr.base k) : d.Places memory b := by
  obtain ⟨header, aligned, within, size⟩ := layout.placed b member c inside owns
  refine ⟨header, aligned, Nat.le_trans within more, ?_⟩
  rw [← size]
  apply ArenaMemory.readSize_congr
  intro k small
  apply same
  dsimp only
  omega

variable {before behind : List ArenaChunk} {c : ArenaChunk} (chunks : s.arena.chunks = before ++ c :: behind)
  {n : Nat} (room : c.used + (capacity n + 8) ≤ c.sz)

include chunks room

theorem Layout.take_eq : s.arena.take before c behind (capacity n + 8) = (⟨c.ptr, c.used + 8⟩,
    { s.arena with
      chunks := before ++ { c with used := c.used + (capacity n + 8) } :: behind
      memory := s.arena.memory.writeSize ⟨c.ptr, c.used⟩ (capacity n) }) := by
  have small := (layout.sound.used c (by simp [chunks])).2.2
  have used : toSize (c.used + (capacity n + 8)) = c.used + (capacity n + 8) := Nat.mod_eq_of_lt (by omega)
  have size : toSize (capacity n + 8 + 2 ^ 64 - 8) = capacity n := by
    unfold toSize
    omega
  rw [Arena.take, used, size]

omit layout room in
/-- A byte of a block in use is before what is taken now. -/
theorem Layout.take_memory {b : ArenaBlock} {k : Nat}
    (below : ∀ d ∈ s.arena.chunks, d.Owns b → k < d.used) :
    s.arena.memory.writeSize ⟨c.ptr, c.used⟩ (capacity n) b.ptr.base k = s.arena.memory b.ptr.base k := by
  apply ArenaMemory.writeSize_other
  rintro ⟨here, above, _⟩
  have := below c (by simp [chunks]) here.symm
  dsimp only at above
  omega

/-- The new block is behind the others, and its header in front of it. -/
theorem Layout.take (plain : ∀ d ∈ before, d.pushPoint = false) (here : c.pushPoint = false) :
    Layout (s.hold (s.arena.take before c behind (capacity n + 8)).2
      ⟨(s.arena.take before c behind (capacity n + 8)).1, n⟩) := by
  rw [layout.take_eq chunks room]
  have member : c ∈ s.arena.chunks := by simp [chunks]
  have rounded : capacity n % 8 = 0 := by
    unfold capacity
    omega
  obtain ⟨_, usedAligned, small⟩ := layout.sound.used c member
  have aligned : (capacity n + 8) % 8 = 0 := by omega
  have sound := @layout.sound.take _ _ _ _ chunks _ (capacity n) aligned (Nat.le_add_left _ _) room
  refine ⟨sound, ?_, ?_, ?_⟩
  · have stack := layout.scopes
    obtain ⟨top, scopes, all⟩ := List.exists_cons_of_ne_nil layout.scopes_ne_nil
    rw [chunks, all] at stack
    rw [hold, all]
    have owns : ArenaChunk.Owns { c with used := c.used + (capacity n + 8) } ⟨⟨c.ptr, c.used + 8⟩, n⟩ := rfl
    have still : ArenaChunk.pushPoint { c with used := c.used + (capacity n + 8) } = false := here
    exact stack.give plain here still (fun _ owns => owns) owns
  · rw [live_hold layout.scopes_ne_nil]
    intro b among d inside owns
    rcases List.mem_cons.mp among with rfl | old
    · -- the chunk is known by its memory
      rcases layout.sound.cases chunks inside with rfl | ⟨_, other⟩
      · refine ⟨Nat.le_add_left _ _, ?_, ?_, ?_⟩
        · dsimp only
          omega
        · dsimp only
          omega
        · exact ArenaMemory.readSize_writeSize (by omega)
      · exact absurd owns other
    · have same {e : ArenaChunk} (isChunk : e ∈ s.arena.chunks) (owner : e.Owns b) (k : Nat) (below : k < e.used) :
          s.arena.memory.writeSize ⟨c.ptr, c.used⟩ (capacity n) b.ptr.base k = s.arena.memory b.ptr.base k := by
        refine Layout.take_memory chunks fun f isChunk' owner' => ?_
        have unique : f = e := List.inj_on_of_nodup_map layout.sound.distinct isChunk' isChunk (owner'.trans owner.symm)
        rw [unique]
        exact below
      rcases layout.sound.cases chunks inside with rfl | ⟨isOld, _⟩
      · exact layout.places_congr old member owns (Nat.le_add_right _ _) (same member owns)
      · exact layout.places_congr old isOld owns (Nat.le_refl _) (same isOld owns)
  · rw [live_hold layout.scopes_ne_nil, List.pairwise_cons]
    refine ⟨fun b old => ?_, layout.apart⟩
    by_cases owns : c.Owns b
    · have inside := (layout.placed b old c member owns).inside
      refine .inr (.inr ?_)
      dsimp only
      omega
    · exact .inl owns

omit room in
/-- What is taken is zero behind the header. -/
theorem Layout.take_zero (i : Nat) :
    s.arena.memory.writeSize ⟨c.ptr, c.used⟩ (capacity n) c.ptr (c.used + 8 + i) = 0 := by
  refine (ArenaMemory.writeSize_other ?_).trans (layout.sound.blank c (by simp [chunks]) _ (by omega))
  rintro ⟨_, _, inside⟩
  dsimp only at inside
  omega

end

/-! ### More chunks -/

section

variable {s : ArenaUse} (layout : Layout s)

include layout

/-- A chunk is added somewhere; the blocks stay. -/
theorem Layout.add {a : Arena} {new : ArenaChunk} {sz : Nat} (alloc : s.arena.allocArenaChunk sz = some (new, a))
    {chunks : List ArenaChunk} {scopes : List (List ArenaBlock)}
    (perm : (chunks.map ArenaChunk.ptr).Perm (new.ptr :: s.arena.chunks.map ArenaChunk.ptr))
    (like : ∀ d ∈ chunks, d = new ∨ ∃ c ∈ s.arena.chunks, d.ptr = c.ptr ∧ d.sz = c.sz ∧ d.used = c.used)
    (stack : ScopedChunks chunks scopes) (same : scopes.flatten = s.live) :
    Layout ⟨{ a with chunks := chunks }, scopes⟩ ∧ s.Keeps ⟨{ a with chunks := chunks }, scopes⟩ s.live := by
  obtain ⟨small, rfl, rfl⟩ := Arena.allocArenaChunk_cases alloc
  have other {c : ArenaChunk} (old : c ∈ s.arena.chunks) (k : Nat) :
      Function.update s.arena.memory s.arena.fresh (fun _ => 0) c.ptr k = s.arena.memory c.ptr k :=
    congrFun (Function.update_of_ne (Nat.ne_of_lt (layout.sound.old c old)) _ _) k
  have memory {b : ArenaBlock} (member : b ∈ s.live) (k : Nat) :
      Function.update s.arena.memory s.arena.fresh (fun _ => 0) b.ptr.base k = s.arena.memory b.ptr.base k := by
    obtain ⟨c, old, owns⟩ := layout.owner member
    have here : c.ptr = b.ptr.base := owns
    rw [← here]
    exact other old k
  refine ⟨⟨⟨?_, ?_, ?_, ?_⟩, stack, ?_, ?_⟩, fun b member i _ => memory member _⟩
  · refine perm.nodup_iff.mpr (List.nodup_cons.mpr ⟨fun again => ?_, layout.sound.distinct⟩)
    obtain ⟨c, old, here⟩ := List.mem_map.mp again
    exact Nat.ne_of_lt (layout.sound.old c old) here
  · intro d member
    rcases like d member with rfl | ⟨c, old, ptr, _⟩
    · exact Nat.lt_succ_self _
    · rw [ptr]
      exact Nat.lt_succ_of_lt (layout.sound.old c old)
  · intro d member
    rcases like d member with rfl | ⟨c, old, _, size, used⟩
    · exact ⟨Nat.zero_le _, rfl, small⟩
    · rw [size, used]
      exact layout.sound.used c old
  · intro d member k unused
    rcases like d member with rfl | ⟨c, old, ptr, _, used⟩
    · show Function.update s.arena.memory s.arena.fresh (fun _ => 0) s.arena.fresh k = 0
      rw [Function.update_self]
    · dsimp only
      rw [ptr, other old]
      exact layout.sound.blank c old k (used ▸ unused)
  · intro b member d inside owns
    have member : b ∈ s.live := same ▸ member
    rcases like d inside with rfl | ⟨c, old, ptr, _, used⟩
    · obtain ⟨c, old, owner⟩ := layout.owner member
      exact absurd (owner.trans owns.symm) (Nat.ne_of_lt (layout.sound.old c old))
    · exact layout.places_congr member old (ptr.symm.trans owns) (Nat.le_of_eq used.symm) fun k _ => memory member k
  · show scopes.flatten.Pairwise _
    rw [same]
    exact layout.apart

/-- Nothing changes, or the first chunk is there. -/
theorem Layout.ensure {a : Arena} (got : s.arena.ensure = some a) :
    Layout ⟨a, s.scopes⟩ ∧ s.Keeps ⟨a, s.scopes⟩ s.live ∧ a.chunks ≠ [] := by
  rw [Arena.ensure] at got
  cases chunks : s.arena.chunks with
  | cons c rest =>
    rw [chunks] at got
    cases got
    refine ⟨layout, fun _ _ _ _ => rfl, ?_⟩
    rw [chunks]
    exact List.cons_ne_nil c rest
  | nil =>
    rw [chunks, List.isEmpty_nil, if_pos rfl, Arena.initArena] at got
    obtain ⟨⟨new, a'⟩, alloc, rest⟩ := Option.bind_eq_some_iff.mp got
    cases rest
    have stack := layout.scopes
    rw [chunks] at stack
    have plain : new.pushPoint = false := by
      rw [(Arena.allocArenaChunk_cases alloc).2.1]
    have only : ([new].map ArenaChunk.ptr).Perm (new.ptr :: s.arena.chunks.map ArenaChunk.ptr) := by simp [chunks]
    obtain ⟨layout', keeps⟩ := layout.add alloc only (by simp) (stack.first plain) rfl
    exact ⟨layout', keeps, List.cons_ne_nil _ _⟩

/-- There is a chunk with room for a block, above every push point. -/
theorem Layout.calloc_room {nmem size : Nat} (fits : nmem * size + 8 + 7 < 2 ^ 64) {ptr : ArenaPtr} {a' : Arena}
    (got : s.arena.calloc nmem size = some (ptr, a')) : ∃ a before c behind, Layout ⟨a, s.scopes⟩ ∧
      s.Keeps ⟨a, s.scopes⟩ s.live ∧ a.chunks = before ++ c :: behind ∧ (∀ d ∈ before, d.pushPoint = false) ∧
      c.pushPoint = false ∧ c.used + (capacity (nmem * size) + 8) ≤ c.sz ∧
      a.take before c behind (capacity (nmem * size) + 8) = (ptr, a') := by
  rw [Arena.calloc, allocationSize_eq fits] at got
  obtain ⟨a, ensured, got⟩ := Option.bind_eq_some_iff.mp got
  obtain ⟨layout, keeps, some⟩ := layout.ensure ensured
  obtain ⟨head, rest, chunks⟩ := List.exists_cons_of_ne_nil some
  have stack := layout.scopes
  rw [chunks] at stack
  have plain : head.pushPoint = false := stack.head
  obtain ⟨used, _, small⟩ := layout.sound.used head (by simp [chunks])
  have free : toSize (head.sz + 2 ^ 64 - head.used) = head.sz - head.used := by
    unfold toSize
    omega
  have grown : toSize (head.sz + head.sz / 2) = head.sz + head.sz / 2 := Nat.mod_eq_of_lt (by omega)
  dsimp only at got
  rw [chunks] at got
  dsimp only at got
  rw [free, grown] at got
  have like (front : List ArenaChunk) (new : ArenaChunk) (among : ∀ d ∈ front, d = new ∨ d = head) :
      ∀ d ∈ front ++ rest, d = new ∨ ∃ c ∈ a.chunks, d.ptr = c.ptr ∧ d.sz = c.sz ∧ d.used = c.used := by
    intro d member
    rcases List.mem_append.mp member with inside | old
    · rcases among d inside with rfl | rfl
      · exact .inl rfl
      · exact .inr ⟨d, by simp [chunks], rfl, rfl, rfl⟩
    · exact .inr ⟨d, by simp [chunks, old], rfl, rfl, rfl⟩
  split at got
  next large =>
    -- a large block gets a chunk of its own behind the head
    obtain ⟨⟨new, b⟩, alloc, got⟩ := Option.bind_eq_some_iff.mp got
    have isNew := (Arena.allocArenaChunk_cases alloc).2.1
    have both : ∀ u ∈ [head, new], u.pushPoint = false := by simp [plain, isNew]
    have perm : (([head, new] ++ rest).map ArenaChunk.ptr).Perm (new.ptr :: a.chunks.map ArenaChunk.ptr) := by
      rw [chunks]
      exact List.Perm.swap ..
    obtain ⟨layout', keeps'⟩ := layout.add alloc perm (like _ new (by simp [or_comm]))
      (stack.add both List.mem_cons_self) rfl
    refine ⟨_, [head], new, rest, layout', ?_, rfl, by simp [plain], by rw [isNew], ?_, Option.some.inj got⟩
    · exact fun b member i inside => (keeps' b member i inside).trans (keeps b member i inside)
    · rw [isNew]
      dsimp only
      omega
  next notLarge =>
    split at got
    next full =>
      obtain ⟨⟨new, b⟩, alloc, got⟩ := Option.bind_eq_some_iff.mp got
      have isNew := (Arena.allocArenaChunk_cases alloc).2.1
      have both : ∀ u ∈ [new, head], u.pushPoint = false := by simp [plain, isNew]
      have perm : (([new, head] ++ rest).map ArenaChunk.ptr).Perm (new.ptr :: a.chunks.map ArenaChunk.ptr) := by
        rw [chunks]
        exact List.Perm.refl _
      obtain ⟨layout', keeps'⟩ := layout.add alloc perm (like _ new (by simp))
        (stack.add both (by simp)) rfl
      refine ⟨_, [], new, head :: rest, layout', ?_, rfl, nofun, by rw [isNew], ?_, Option.some.inj got⟩
      · exact fun b member i inside => (keeps' b member i inside).trans (keeps b member i inside)
      · rw [isNew]
        dsimp only
        omega
    next fitsHead =>
      exact ⟨a, [], head, rest, layout, keeps, chunks, nofun, plain, by omega, Option.some.inj got⟩

/-! ### The calls -/

/-- The bytes of a new block are zero. -/
theorem Layout.calloc {nmem size : Nat} (fits : nmem * size + 8 + 7 < 2 ^ 64) {ptr : ArenaPtr} {a : Arena}
    (got : s.arena.calloc nmem size = some (ptr, a)) : Layout (s.hold a ⟨ptr, nmem * size⟩) ∧
      s.Keeps (s.hold a ⟨ptr, nmem * size⟩) s.live ∧
      ∀ i < nmem * size, (s.hold a ⟨ptr, nmem * size⟩).byte ⟨ptr, nmem * size⟩ i = 0 := by
  obtain ⟨a', before, c, behind, layout', keeps, chunks, plain, here, room, took⟩ := layout.calloc_room fits got
  have held := layout'.take chunks room plain here
  have taken := layout'.take_eq chunks room
  rw [taken] at took
  cases took
  rw [taken] at held
  refine ⟨held, fun b member i inside => ?_, fun i _ => layout'.take_zero chunks i⟩
  refine .trans ?_ (keeps b member i inside)
  refine Layout.take_memory (s := ⟨a', s.scopes⟩) chunks fun d isChunk owns => ?_
  have within := (layout'.placed b member d isChunk owns).inside
  have := le_capacity b.size
  omega

/-- Writing into a block leaves everything else alone. -/
theorem Layout.overwrite {b : ArenaBlock} (member : b ∈ s.live) {memory : ArenaMemory}
    (same : ∀ base k, ¬ (base = b.ptr.base ∧ b.ptr.offset ≤ k ∧ k < b.ptr.offset + capacity b.size) →
      memory base k = s.arena.memory base k) :
    Layout ⟨{ s.arena with memory := memory }, s.scopes⟩ ∧
      ∀ b' ∈ s.live, b' ≠ b → ∀ i < b'.size,
        memory b'.ptr.base (b'.ptr.offset + i) = s.arena.memory b'.ptr.base (b'.ptr.offset + i) := by
  refine ⟨⟨⟨layout.sound.distinct, layout.sound.old, layout.sound.used, ?_⟩, layout.scopes, ?_, layout.apart⟩, ?_⟩
  · intro c isChunk k unused
    refine (same c.ptr k fun ⟨owns, _, inside⟩ => ?_).trans (layout.sound.blank c isChunk k unused)
    have within := (layout.placed b member c isChunk owns).inside
    omega
  · intro b' member' c isChunk owns
    obtain ⟨header, aligned, inside, size⟩ := layout.placed b' member' c isChunk owns
    refine ⟨header, aligned, inside, ?_⟩
    rw [← size]
    apply ArenaMemory.readSize_congr
    intro k small
    apply same
    rintro ⟨here, above, below⟩
    dsimp only at here above below
    rcases layout.eq_or_apart member' member with rfl | other | before | behind
    · omega
    · exact other here
    · omega
    · omega
  · intro b' member' other i inside
    apply same
    rintro ⟨here, above, below⟩
    have := le_capacity b'.size
    rcases layout.eq_or_apart member' member with again | elsewhere | before | behind
    · exact other again
    · exact elsewhere here
    · omega
    · omega

/-- In front of a block stands its size. -/
theorem Layout.header {b : ArenaBlock} (member : b ∈ s.live) :
    s.arena.memory.readSize ⟨b.ptr.base, b.ptr.offset - 8⟩ = capacity b.size := by
  obtain ⟨c, isChunk, owns⟩ := layout.owner member
  exact (layout.placed b member c isChunk owns).size

/-- A new block is none of those in use. -/
theorem Layout.ne_new {a : Arena} {b new : ArenaBlock} (held : Layout (s.hold a new)) (member : b ∈ s.live) :
    b ≠ new := by
  have apart := held.apart
  rw [live_hold layout.scopes_ne_nil, List.pairwise_cons] at apart
  exact (apart.1 b member).ne.symm

/-- The new block begins with the bytes of the old one. -/
theorem Layout.realloc {block : Option ArenaBlock} {size : Nat} (old : ∀ b ∈ block, b ∈ s.live ∧ b.size ≤ size)
    (fits : size + 8 + 7 < 2 ^ 64) {ptr : ArenaPtr} {a : Arena}
    (got : s.arena.realloc (block.map (·.ptr)) size = some (ptr, a)) : Layout (s.hold a ⟨ptr, size⟩) ∧
      s.Keeps (s.hold a ⟨ptr, size⟩) s.live ∧
      ∀ b ∈ block, ∀ i < b.size, (s.hold a ⟨ptr, size⟩).byte ⟨ptr, size⟩ i = s.byte b i := by
  rw [Arena.realloc] at got
  obtain ⟨a₀, ensured, got⟩ := Option.bind_eq_some_iff.mp got
  obtain ⟨⟨newPtr, a₁⟩, called, got⟩ := Option.bind_eq_some_iff.mp got
  obtain ⟨layout₀, keeps₀, _⟩ := layout.ensure ensured
  have fits₁ : 1 * size + 8 + 7 < 2 ^ 64 := by rwa [Nat.one_mul]
  obtain ⟨layout₁, keeps₁, _⟩ := layout₀.calloc fits₁ called
  rw [Nat.one_mul] at layout₁ keeps₁
  have keeps : s.Keeps (s.hold a₁ ⟨newPtr, size⟩) s.live := fun b member i inside =>
    (keeps₁ b member i inside).trans (keeps₀ b member i inside)
  cases block with
  | none =>
    cases got
    exact ⟨layout₁, keeps, nofun⟩
  | some b =>
    obtain ⟨member, smaller⟩ := old b rfl
    have live := live_hold layout.scopes_ne_nil a₁ ⟨newPtr, size⟩
    have new : ⟨newPtr, size⟩ ∈ (s.hold a₁ ⟨newPtr, size⟩).live := live ▸ List.mem_cons_self
    have inUse {b : ArenaBlock} (member : b ∈ s.live) : b ∈ (s.hold a₁ ⟨newPtr, size⟩).live :=
      live ▸ List.mem_cons_of_mem _ member
    have length : a₁.memory.readSize ⟨b.ptr.base, b.ptr.offset - 8⟩ = capacity b.size := layout₁.header (inUse member)
    have room := capacity_mono smaller
    dsimp only [Option.map_some] at got
    rw [length] at got
    cases got
    have copies : ∀ base k, ¬ (base = ptr.base ∧ ptr.offset ≤ k ∧ k < ptr.offset + capacity size) →
        a₁.memory.memcpy ptr b.ptr (capacity b.size) base k = a₁.memory base k := by
      intro base k outside
      apply ArenaMemory.memcpy_other
      rintro ⟨here, above, below⟩
      exact outside ⟨here, above, by omega⟩
    obtain ⟨layout', others⟩ := layout₁.overwrite new copies
    refine ⟨layout', fun b' member' i inside => ?_, ?_⟩
    · exact (others b' (inUse member') (layout.ne_new layout₁ member') i inside).trans (keeps b' member' i inside)
    · rintro _ ⟨⟩ i inside
      have copied : i < capacity b.size := Nat.lt_of_lt_of_le inside (le_capacity _)
      exact (ArenaMemory.memcpy_copied copied).trans (keeps b member i inside)

theorem Layout.write {b : ArenaBlock} (member : b ∈ s.live) {i : Nat} (inside : i < b.size) (v : UInt8) :
    Layout ⟨{ s.arena with memory := s.arena.memory.writeByte ⟨b.ptr.base, b.ptr.offset + i⟩ v }, s.scopes⟩ ∧
      ∀ b' ∈ s.live, b' ≠ b → ∀ j < b'.size,
        s.arena.memory.writeByte ⟨b.ptr.base, b.ptr.offset + i⟩ v b'.ptr.base (b'.ptr.offset + j) = s.byte b' j := by
  apply layout.overwrite member
  intro base k outside
  apply ArenaMemory.writeByte_other
  rintro ⟨rfl, rfl⟩
  have := le_capacity b.size
  exact outside ⟨rfl, Nat.le_add_right .., by dsimp only; omega⟩

/-- A push point is below a new chunk. Without chunks there is nothing in use, and no push point is needed. -/
theorem Layout.push {a : Arena} (got : s.arena.push = some a) :
    Layout ⟨a, [] :: s.scopes⟩ ∧ s.Keeps ⟨a, [] :: s.scopes⟩ s.live := by
  have stack := layout.scopes
  rw [Arena.push] at got
  cases chunks : s.arena.chunks with
  | nil =>
    rw [chunks] at got stack
    cases got
    have gone : ∀ scope ∈ [] :: s.scopes, scope = [] := List.forall_mem_cons.mpr ⟨rfl, stack.nothing⟩
    refine ⟨⟨layout.sound, ?_, layout.placed, layout.apart⟩, fun _ _ _ _ => rfl⟩
    rw [chunks]
    exact .empty _ gone (List.cons_ne_nil _ _)
  | cons head rest =>
    rw [chunks] at got stack
    obtain ⟨⟨new, a'⟩, alloc, got⟩ := Option.bind_eq_some_iff.mp got
    cases got
    have plain : new.pushPoint = false := by
      rw [(Arena.allocArenaChunk_cases alloc).2.1]
    have same : (head.setPushPoint true).setPushPoint false = head := by
      have here : head.pushPoint = false := stack.head
      cases head
      cases here
      rfl
    have perm : ((new :: head.setPushPoint true :: rest).map ArenaChunk.ptr).Perm
        (new.ptr :: s.arena.chunks.map ArenaChunk.ptr) := by
      rw [chunks]
      exact List.Perm.refl _
    refine layout.add alloc perm ?_ (stack.push plain rfl same) rfl
    intro d member
    rcases List.mem_cons.mp member with rfl | old
    · exact .inl rfl
    rcases List.mem_cons.mp old with rfl | old
    · exact .inr ⟨head, by simp [chunks], rfl, rfl, rfl⟩
    · exact .inr ⟨d, by simp [chunks, old], rfl, rfl, rfl⟩

/-- The chunks that are left are chunks of before, and so are the blocks. -/
theorem Layout.drop {chunks : List ArenaChunk} {scopes : List (List ArenaBlock)}
    (sub : (chunks.map ArenaChunk.ptr).Sublist (s.arena.chunks.map ArenaChunk.ptr))
    (like : ∀ d ∈ chunks, ∃ c ∈ s.arena.chunks, d.ptr = c.ptr ∧ d.sz = c.sz ∧ d.used = c.used)
    (stack : ScopedChunks chunks scopes) (fewer : scopes.flatten.Sublist s.live) :
    Layout ⟨{ s.arena with chunks := chunks }, scopes⟩ := by
  refine ⟨⟨sub.nodup layout.sound.distinct, ?_, ?_, ?_⟩, stack, ?_, layout.apart.sublist fewer⟩
  · intro d member
    obtain ⟨c, old, ptr, _⟩ := like d member
    rw [ptr]
    exact layout.sound.old c old
  · intro d member
    obtain ⟨c, old, _, size, used⟩ := like d member
    rw [size, used]
    exact layout.sound.used c old
  · intro d member k unused
    obtain ⟨c, old, ptr, _, used⟩ := like d member
    rw [ptr]
    exact layout.sound.blank c old k (used ▸ unused)
  · intro b member d inside owns
    obtain ⟨c, old, ptr, _, used⟩ := like d inside
    exact layout.places_congr (fewer.subset member) old (ptr.symm.trans owns) (Nat.le_of_eq used.symm) fun _ _ => rfl

/-- The chunk of a block is there, and the block is inside. -/
theorem Layout.inside {b : ArenaBlock} (member : b ∈ s.live) :
    ∃ c ∈ s.arena.chunks, c.ptr = b.ptr.base ∧ b.ptr.offset + b.size ≤ c.sz := by
  obtain ⟨c, isChunk, owns⟩ := layout.owner member
  have within := (layout.placed b member c isChunk owns).inside
  have used := (layout.sound.used c isChunk).1
  have := le_capacity b.size
  exact ⟨c, isChunk, owns, by omega⟩

/-- The chunks of the blocks from the last push on are freed, and those of the other blocks stay. -/
theorem Layout.pop (nested : 1 < s.scopes.length) : Layout ⟨s.arena.pop.1, s.scopes.tail⟩ ∧
    ∀ b ∈ s.scopes.headD [], ∀ c ∈ s.arena.pop.1.chunks, c.ptr ≠ b.ptr.base := by
  obtain ⟨top, scopes, all⟩ := List.exists_cons_of_ne_nil layout.scopes_ne_nil
  have stack := layout.scopes
  rw [all] at stack nested ⊢
  have some : scopes ≠ [] := by
    rintro rfl
    exact absurd nested (Nat.lt_irrefl 1)
  obtain ⟨left, dropped, kept, split, closed, owners⟩ := stack.pop some
  have like : ∀ d ∈ kept.modifyHead (ArenaChunk.setPushPoint false),
      ∃ c ∈ kept, d.ptr = c.ptr ∧ d.sz = c.sz ∧ d.used = c.used := by
    intro d member
    cases kept with
    | nil => cases member
    | cons c kept =>
      rcases List.mem_cons.mp member with rfl | old
      · exact ⟨c, List.mem_cons_self, rfl, rfl, rfl⟩
      · exact ⟨d, List.mem_cons_of_mem c old, rfl, rfl, rfl⟩
  have ptrs : (kept.modifyHead (ArenaChunk.setPushPoint false)).map ArenaChunk.ptr = kept.map ArenaChunk.ptr := by
    cases kept <;> rfl
  have popped : s.arena.pop.1 = { s.arena with chunks := kept.modifyHead (ArenaChunk.setPushPoint false) } := by
    rw [Arena.pop, closed]
  rw [closed] at left
  rw [popped]
  refine ⟨layout.drop ?_ ?_ left ?_, ?_⟩
  · rw [ptrs, split, List.map_append]
    exact List.sublist_append_right _ _
  · intro d member
    obtain ⟨c, old, same⟩ := like d member
    exact ⟨c, by simp [split, old], same⟩
  · rw [live, all, List.flatten_cons]
    exact List.sublist_append_right _ _
  · intro b member d inside here
    obtain ⟨c, isDropped, owns⟩ := owners b member
    obtain ⟨c', isKept, same, _⟩ := like d inside
    have distinct := layout.sound.distinct
    rw [split, List.map_append, List.nodup_append] at distinct
    exact distinct.2.2 _ (List.mem_map_of_mem isDropped) _ (List.mem_map_of_mem isKept)
      (owns.trans (here.symm.trans same))

theorem Layout.reset : Layout ⟨s.arena.reset, s.scopes.map fun _ => []⟩ := by
  have gone : ∀ scope ∈ s.scopes.map fun _ => ([] : List ArenaBlock), scope = [] := by simp
  refine layout.drop (List.nil_sublist _) nofun (.empty _ gone ?_) ?_
  · rw [ne_eq, List.map_eq_nil_iff]
    exact layout.scopes_ne_nil
  · rw [List.flatten_eq_nil_iff.mpr gone]
    exact List.nil_sublist _

end

/-! ### Any number of calls -/

theorem Layout.step {s s' : ArenaUse} (layout : Layout s) {call : ArenaCall} (allowed : s.Allowed call)
    (done : s.step call = some s') : Layout s' := by
  cases call with
  | calloc nmem size =>
    obtain ⟨⟨ptr, a⟩, got, rest⟩ := Option.bind_eq_some_iff.mp done
    cases rest
    exact (layout.calloc allowed got).1
  | realloc block size =>
    obtain ⟨⟨ptr, a⟩, got, rest⟩ := Option.bind_eq_some_iff.mp done
    cases rest
    exact (layout.realloc allowed.1 allowed.2 got).1
  | write block i v =>
    cases done
    exact (layout.write allowed.1 allowed.2 v).1
  | push =>
    obtain ⟨a, got, rest⟩ := Option.bind_eq_some_iff.mp done
    cases rest
    exact (layout.push got).1
  | pop =>
    cases done
    exact (layout.pop allowed).1
  | reset =>
    cases done
    exact layout.reset

theorem Reachable.layout {s : ArenaUse} (reached : Reachable s) : Layout s := by
  induction reached with
  | start => exact layout_start
  | step _ allowed done layout => exact layout.step allowed done

end ArenaUse

/-! ### Calls that return -/

theorem Arena.exists_alloc (a : Arena) {sz : Nat} (small : sz < 2 ^ 63) : ∃ r, a.allocArenaChunk sz = some r :=
  ⟨_, if_pos small⟩

theorem Arena.exists_ensure (a : Arena) : ∃ a', a.ensure = some a' ∧
    ((∀ c ∈ a.chunks, c.sz < 2 ^ 62) → ∀ c ∈ a'.chunks, c.sz < 2 ^ 62) := by
  rw [ensure]
  split
  next =>
    have small : 4 * 1048576 < 2 ^ 62 := by decide
    obtain ⟨⟨new, a'⟩, alloc⟩ := a.exists_alloc (Nat.lt_trans small (by decide))
    refine ⟨_, by rw [initArena, alloc]; rfl, fun _ c member => ?_⟩
    rw [List.mem_singleton.mp member, (allocArenaChunk_cases alloc).2.1]
    exact small
  next => exact ⟨a, rfl, id⟩

/-! ### What a caller sees -/

/-- How many bytes a call asks for. -/
def ArenaCall.bytes : ArenaCall → Nat
  | .calloc nmem size => nmem * size
  | .realloc _ size => size
  | .write .. | .push | .pop | .reset => 0

/-- The memory of the block has not been freed, and the block is inside. -/
def Arena.Valid (a : Arena) (b : ArenaBlock) : Prop :=
  ∃ c ∈ a.chunks, c.ptr = b.ptr.base ∧ b.ptr.offset + b.size ≤ c.sz

/-- The blocks have no byte in common, nor the same address. -/
def ArenaBlock.Disjoint (b b' : ArenaBlock) : Prop :=
  b.ptr.base ≠ b'.ptr.base ∨ b.ptr.offset + b.size < b'.ptr.offset ∨ b'.ptr.offset + b'.size < b.ptr.offset

theorem ArenaBlock.Apart.disjoint {b b' : ArenaBlock} (apart : b.Apart b') : b.Disjoint b' := by
  have := le_capacity b.size
  have := le_capacity b'.size
  rcases apart with other | before | behind
  · exact .inl other
  · exact .inr (.inl (by omega))
  · exact .inr (.inr (by omega))

namespace ArenaUse

/-- Every block in use is inside its chunk, at a multiple of the size of a `size_t`, and disjoint from the others. -/
structure Sound (s : ArenaUse) : Prop where
  valid : ∀ b ∈ s.live, s.arena.Valid b
  aligned : ∀ b ∈ s.live, b.ptr.offset % 8 = 0
  disjoint : s.live.Pairwise ArenaBlock.Disjoint

/-- What a call is for: a block from `calloc` is zero and one from `realloc` begins with what was in the old one, a
pop frees the blocks from the last push on and no others, and nothing else changes in a block that stays in use. -/
def Does (s : ArenaUse) (call : ArenaCall) (s' : ArenaUse) : Prop :=
  match call with
  | .calloc nmem size => ∃ ptr, s'.scopes = s.scopes.modifyHead (⟨ptr, nmem * size⟩ :: ·) ∧
      (∀ i < nmem * size, s'.byte ⟨ptr, nmem * size⟩ i = 0) ∧ s.Keeps s' s.live
  | .realloc block size => ∃ ptr, s'.scopes = s.scopes.modifyHead (⟨ptr, size⟩ :: ·) ∧
      (∀ b ∈ block, ∀ i < b.size, s'.byte ⟨ptr, size⟩ i = s.byte b i) ∧ s.Keeps s' s.live
  | .write b i v => s'.scopes = s.scopes ∧ s'.byte b i = v ∧
      ∀ b' ∈ s.live, ∀ j < b'.size, b' ≠ b ∨ j ≠ i → s'.byte b' j = s.byte b' j
  | .push => s'.scopes = [] :: s.scopes ∧ s.Keeps s' s.live
  | .pop => s'.scopes = s.scopes.tail ∧ s.Keeps s' s'.live ∧
      ∀ b ∈ s.live, s'.arena.Valid b ↔ b ∉ s.scopes.headD []
  | .reset => s'.live = [] ∧ ∀ b, ¬ s'.arena.Valid b

theorem Layout.sees {s : ArenaUse} (layout : Layout s) : s.Sound where
  valid := fun _ member => layout.inside member
  aligned := by
    intro b member
    obtain ⟨c, isChunk, owns⟩ := layout.owner member
    exact (layout.placed b member c isChunk owns).aligned
  disjoint := layout.apart.imp ArenaBlock.Apart.disjoint

theorem Layout.does {s s' : ArenaUse} (layout : Layout s) {call : ArenaCall} (allowed : s.Allowed call)
    (done : s.step call = some s') : s.Does call s' := by
  cases call with
  | calloc nmem size =>
    obtain ⟨⟨ptr, a⟩, got, rest⟩ := Option.bind_eq_some_iff.mp done
    cases rest
    obtain ⟨_, keeps, zero⟩ := layout.calloc allowed got
    exact ⟨ptr, rfl, zero, keeps⟩
  | realloc block size =>
    obtain ⟨⟨ptr, a⟩, got, rest⟩ := Option.bind_eq_some_iff.mp done
    cases rest
    obtain ⟨_, keeps, copied⟩ := layout.realloc allowed.1 allowed.2 got
    exact ⟨ptr, rfl, copied, keeps⟩
  | write b i v =>
    cases done
    refine ⟨rfl, if_pos ⟨rfl, rfl⟩, fun b' member j inside other => ?_⟩
    by_cases same : b' = b
    · subst same
      have elsewhere : j ≠ i := other.resolve_left fun differs => differs rfl
      exact ArenaMemory.writeByte_other fun both => elsewhere (Nat.add_left_cancel both.2)
    · exact (layout.write allowed.1 allowed.2 v).2 b' member same j inside
  | push =>
    obtain ⟨a, got, rest⟩ := Option.bind_eq_some_iff.mp done
    cases rest
    exact ⟨rfl, (layout.push got).2⟩
  | pop =>
    cases done
    obtain ⟨layout', freed⟩ := layout.pop allowed
    refine ⟨rfl, fun _ _ _ _ => rfl, fun b member => ⟨?_, fun outside => ?_⟩⟩
    · rintro ⟨c, isChunk, here, _⟩ inTop
      exact freed b inTop c isChunk here
    · apply layout'.inside
      obtain ⟨top, scopes, all⟩ := List.exists_cons_of_ne_nil layout.scopes_ne_nil
      rw [live, all, List.flatten_cons, List.mem_append] at member
      rw [all] at outside
      rw [live, all]
      exact member.resolve_left outside
  | reset =>
    cases done
    refine ⟨List.flatten_eq_nil_iff.mpr (by simp), ?_⟩
    rintro b ⟨c, isChunk, _⟩
    cases isChunk

theorem Layout.exists_calloc {s : ArenaUse} (layout : Layout s) {nmem size : Nat}
    (fits : nmem * size + 8 + 7 < 2 ^ 64) (chunks : ∀ c ∈ s.arena.chunks, c.sz < 2 ^ 62)
    (small : nmem * size < 2 ^ 62) : ∃ r, s.arena.calloc nmem size = some r := by
  obtain ⟨a, ensured, still⟩ := s.arena.exists_ensure
  obtain ⟨_, _, some⟩ := layout.ensure ensured
  obtain ⟨head, rest, all⟩ := List.exists_cons_of_ne_nil some
  have bound : head.sz < 2 ^ 62 := still chunks head (by simp [all])
  have large : capacity (nmem * size) + 8 < 2 ^ 63 := by
    unfold capacity
    omega
  have grown : toSize (head.sz + head.sz / 2) < 2 ^ 63 := by
    have sum : head.sz + head.sz / 2 < 2 ^ 63 := by omega
    exact Nat.lt_of_le_of_lt (Nat.mod_le _ _) sum
  obtain ⟨_, alloc⟩ := a.exists_alloc large
  obtain ⟨_, alloc'⟩ := a.exists_alloc grown
  simp only [Arena.calloc, ensured, Option.bind_eq_bind, Option.bind_some, allocationSize_eq fits, all, alloc, alloc']
  split
  next => exact ⟨_, rfl⟩
  next =>
    split
    next => exact ⟨_, rfl⟩
    next => exact ⟨_, rfl⟩

/-- After any calls the blocks in use are sound, and the next call does what it is for, unless it aborts. -/
theorem arena_sound {s : ArenaUse} (reached : Reachable s) :
    s.Sound ∧ ∀ call s', s.Allowed call → s.step call = some s' → s.Does call s' :=
  ⟨reached.layout.sees, fun _ _ allowed done => reached.layout.does allowed done⟩

/-- A call returns if no size is near the largest one of an object. -/
theorem exists_step {s : ArenaUse} (reached : Reachable s) {call : ArenaCall} (allowed : s.Allowed call)
    (chunks : ∀ c ∈ s.arena.chunks, c.sz < 2 ^ 62) (small : call.bytes < 2 ^ 62) : ∃ s', s.step call = some s' := by
  cases call with
  | calloc nmem size =>
    obtain ⟨⟨ptr, a⟩, got⟩ := reached.layout.exists_calloc allowed chunks small
    exact ⟨_, by rw [step, got]; rfl⟩
  | realloc block size =>
    obtain ⟨a, ensured, still⟩ := s.arena.exists_ensure
    obtain ⟨layout, _⟩ := reached.layout.ensure ensured
    have fits : 1 * size + 8 + 7 < 2 ^ 64 := by
      rw [Nat.one_mul]
      exact allowed.2
    have few : 1 * size < 2 ^ 62 := by
      rw [Nat.one_mul]
      exact small
    obtain ⟨⟨ptr, a'⟩, got⟩ := layout.exists_calloc fits (still chunks) few
    have called : a.calloc 1 size = some (ptr, a') := got
    simp only [step, Arena.realloc, ensured, Option.bind_eq_bind, Option.bind_some, called]
    cases block with
    | none => exact ⟨_, rfl⟩
    | some b => exact ⟨_, rfl⟩
  | push =>
    rw [step, Arena.push]
    cases s.arena.chunks with
    | nil => exact ⟨_, rfl⟩
    | cons head rest =>
      have small : 10240 < 2 ^ 63 := by decide
      obtain ⟨⟨new, a⟩, alloc⟩ := s.arena.exists_alloc small
      simp only [alloc]
      exact ⟨_, rfl⟩
  | write | pop | reset => exact ⟨_, rfl⟩

/-- A large block behind the head of the list goes with the next pop. -/
theorem arena_sound_large : ∃ s : ArenaUse, s.scopes.map (·.map ArenaBlock.size) = [[20000], [16]] ∧
    s.arena.chunks.map (fun c => (c.sz, c.pushPoint)) = [(10240, false), (20008, false), (4194304, true)] ∧
    s.Sound ∧ ∀ call s', s.Allowed call → s.step call = some s' → s.Does call s' := by
  have small : 1 * 16 + 8 + 7 < 2 ^ 64 := by decide
  have large : 1 * 20000 + 8 + 7 < 2 ^ 64 := by decide
  have first := @Reachable.step _ _ (.calloc 1 16) .start small rfl
  have second := @Reachable.step _ _ .push first trivial rfl
  exact ⟨_, rfl, rfl, arena_sound (@Reachable.step _ _ (.calloc 1 20000) second large rfl)⟩

end ArenaUse

end CmarkGfm
