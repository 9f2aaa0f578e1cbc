import Zephyr.Mempool.Runs
import Mathlib.Algebra.BigOperators.Ring.List
/-!
# The bits of a pool have their place

Three computations have to agree: the words that `_MPOOL_BITS_SIZE` reserves behind the buffer (from
`n_max << (2 * l)`), those that `_sys_mem_pool_base_init` gives to each level (from the size of the buffer and the
rounded size of the blocks), and the numbers of the blocks whose bits are used (`4 * bn + i`, whether the buffer
has room for the block or not).

A level of 32 blocks is a case of its own. The initialisation puts its bits behind the buffer, and the macro has no
words for it; it has those of one level too many, and these are enough.
-/
namespace Zephyr

open Ring Buddy PoolDef List

variable {g : PoolDef} {p : Pool} {F : Nat → List Nat} {B : Set Block} {used : List Block} {x : Block} {l : Nat}

/-! ## The bits that a call uses -/

section used

variable (g)

def breakDownBits (block : Nat) : Nat → Nat → List Block
  | 0, _ => []
  | n + 1, fromL => [1, 2, 3].map (fun i => (fromL + 1, 4 * blockNum block (g.lsizes fromL) + i)) ++
      breakDownBits block n (fromL + 1)

def allocBits (p : Pool) (size : Nat) : List Block :=
  match findLevels g p size g.nLevels 0 none none with
  | (some allocL, some freeL) =>
    match (sysDlistGet p.links (.level freeL)).2 with
    | some (.block block) => (freeL, blockNum block (g.lsizes freeL)) :: breakDownBits g block (allocL - freeL) freeL
    | _ => []
  | _ => []

/-- `partner_bits` reads the bits of all four partners. -/
def freeBits (p : Pool) : Nat → Nat → List Block
  | 0, bn => [(0, bn)]
  | level + 1, bn =>
    (level + 1, bn) :: [0, 1, 2, 3].map (fun i => (level + 1, 4 * (bn / 4) + i)) ++
      match blockFreeSection g p (level + 1) bn with
      | some (p, some _) => freeBits p level (bn / 4)
      | _ => []

def PoolOp.bits (p : Pool) : PoolOp → List Block
  | .alloc size => allocBits g p size
  | .free block => freeBits g p block.level block.block

/-- The bit of the block is in the storage of its level. -/
def PoolDef.HasBit (x : Block) : Prop :=
  x.1 < g.nLevels ∧ if g.nblocks x.1 < 32 then x.2 < 32 else x.2 / 32 < (g.nblocks x.1 + 31) / 32

instance decidableHasBit (x : Block) : Decidable (g.HasBit x) := by
  unfold PoolDef.HasBit
  exact inferInstance

end used

theorem freeBits_inRange (level : Nat) :
    ∀ {p : Pool} {bn : Nat}, g.InRange (level, bn) → ∀ y ∈ freeBits g p level bn, g.InRange y := by
  induction level with
  | zero => intro p bn hx y hy; simp only [freeBits, mem_singleton] at hy; rwa [hy]
  | succ level ih =>
    intro p bn hx y hy
    have hparent := hx.parent
    simp only [freeBits, cons_append, mem_cons, mem_append, mem_map] at hy
    rcases hy with rfl | ⟨i, hi, rfl⟩ | hy
    · exact hx
    · simp only [not_mem_nil, or_false] at hi
      exact hparent.child hx.1 (by omega)
    · split at hy
      · exact ih hparent y hy
      · simp at hy

theorem blockNum_blockPtr (h4 : 4 ∣ g.maxsz) (hl : l < g.nLevels) (b : Nat) :
    blockNum (blockPtr (g.lsizes l) b) (g.lsizes l) = b :=
  Nat.mul_div_cancel_left _ (by have := eight_le_lsizes h4 hl; omega)

section even

variable (h4 : 4 ∣ g.maxsz) (he : g.EvenLevels)

include h4 he

theorem PoolDef.InRange.hasBit (hx : g.InRange x) : g.HasBit x := by
  obtain ⟨hinline, hwords⟩ := he.capacity h4 hx.1
  have hb := hx.2
  refine ⟨hx.1, ?_⟩
  split
  · rename_i hin
    have := hinline hin
    omega
  · have := hwords (by omega)
    omega

/-- The parts that a block is broken into, down to the level asked for. -/
theorem breakDownBits_inRange (n : Nat) : ∀ {x : Block}, g.InRange x → x.1 + n < g.nLevels →
    ∀ y ∈ breakDownBits g (blockPtr (g.lsizes x.1) x.2) n x.1, g.InRange y := by
  induction n with
  | zero => intro x _ _ y hy; simp [breakDownBits] at hy
  | succ n ih =>
    intro x hx hn y hy
    have hnum := blockNum_blockPtr h4 hx.1 x.2
    have hchild : ∀ i < 4, g.InRange (x.1 + 1, 4 * x.2 + i) := fun i hi => hx.child (by omega) hi
    simp only [breakDownBits, hnum, mem_append, mem_map] at hy
    rcases hy with ⟨i, hi, rfl⟩ | hy
    · simp only [mem_cons, not_mem_nil, or_false] at hi
      exact hchild i (by omega)
    · -- the first part starts where the block does
      rw [← he.ptr_child hx (by omega)] at hy
      exact ih (hchild 0 (by omega)) (by simp only; omega) y hy

theorem PoolInv.allocBits_inRange (h : PoolInv g p F B used) (size : Nat) : ∀ y ∈ allocBits g p size, g.InRange y := by
  obtain ⟨k, hk, -, hfound⟩ := findLevels_found g.nLevels (found_start g p size)
  rw [zero_add] at hk
  intro y hy
  unfold allocBits at hy
  generalize findLevels g p size g.nLevels 0 none none = r at hfound hy
  obtain ⟨_ | a, _ | f⟩ := r
  · simp at hy
  · simp at hy
  · simp at hy
  · obtain rfl : k = a + 1 := hfound.alloc
    obtain ⟨hfk, -⟩ := hfound.free f rfl
    have hring := h.rings.ring ⟨f, by omega⟩
    cases hF : F f with
    | nil =>
      simp only [hF, map_nil] at hring
      simp [sysDlistGet_nil hring] at hy
    | cons b C =>
      simp only [hF, map_cons] at hring
      have hx : g.InRange (f, b) := h.range _ ((h.lists (f, b) (by simp only; omega)).1 (by simp [hF])).1
      have hnum : blockNum (blockPtr (g.lsizes f) b) (g.lsizes f) = b := blockNum_blockPtr h4 hx.1 b
      simp only [(sysDlistGet_cons hring).1, nodeOf, hnum, mem_cons] at hy
      rcases hy with rfl | hy
      · exact hx
      · exact breakDownBits_inRange h4 he (a - f) hx (by simp only; omega) y hy

/-! ## The words behind the buffer -/

/-- The words given to the levels are those reserved for them, but for the one of a level of 32 blocks. -/
theorem offset_le_words {n : Nat} (hn : n ≤ g.nLevels) :
    g.offset n ≤ ((List.range n).map (mpoolLbitWords g.nmax)).sum ∨
      g.offset n ≤ ((List.range n).map (mpoolLbitWords g.nmax)).sum + 1 ∧ 128 ≤ g.nMax * 4 ^ n := by
  induction n with
  | zero => exact .inl (Nat.zero_le _)
  | succ n ih =>
    have hblocks := (he.nblocks_bounds h4 (l := n) (by omega)).1
    have hmod : g.nMax * 4 ^ n ≤ g.nmax * 4 ^ n := Nat.mul_le_mul_right _ (Nat.mod_le _ _)
    have hwords : 33 ≤ g.nmax * 4 ^ n → (g.nmax * 4 ^ n + 31) / 32 ≤ mpoolLbitWords g.nmax n := by
      intro h33
      rw [mpoolLbitWords, Nat.shiftLeft_eq, show 2 ^ (2 * n) = 4 ^ n from pow_mul 2 2 n, if_neg (by omega)]
    rw [range_succ, map_append, sum_append, pow_succ, ← mul_assoc, offset]
    simp only [map_cons, map_nil, sum_cons, sum_nil, add_zero]
    generalize g.nMax * 4 ^ n = a at *
    generalize g.nmax * 4 ^ n = c at *
    have := ih (by omega)
    split
    · omega
    · by_cases h32 : a = 32
      · omega
      · have := hwords (by omega)
        omega

/-- **The macro reserves enough**: a level of 32 blocks has its word from the level that does not exist. -/
theorem offset_le_mpoolBitsSize (hsz : g.maxsz < 2 ^ 32) :
    4 * g.offset g.nLevels ≤ mpoolBitsSize g.maxsz g.minsz g.nmax := by
  have hlevels : g.nLevels + 1 ≤ 16 := by
    by_contra hlt
    have h8 : 8 ≤ g.maxsz / 4 ^ 15 := minblk_le_of_lt (by omega)
    omega
  have hfirst : 4 * ((List.range (g.nLevels + 1)).map (mpoolLbitWords g.nmax)).sum ≤
    mpoolBitsSize g.maxsz g.minsz g.nmax := by
    have hsplit : List.range 16 = List.range (g.nLevels + 1) ++ (List.range (16 - (g.nLevels + 1))).map
      (g.nLevels + 1 + ·) := by
      rw [← range_add, Nat.add_sub_cancel' hlevels]
    have hsame : (List.range (g.nLevels + 1)).map (fun l => mpoolLbitBytes g.maxsz g.minsz l g.nmax) =
        (List.range (g.nLevels + 1)).map fun l => 4 * mpoolLbitWords g.nmax l := by
      refine map_congr_left fun l hl => if_pos ?_
      exact Nat.le_of_lt_succ (List.mem_range.1 hl)
    rw [mpoolBitsSize, hsplit, map_append, sum_append, hsame, sum_map_mul_left]
    exact Nat.le_add_right _ _
  rw [range_succ, map_append, sum_append] at hfirst
  simp only [map_cons, map_nil, sum_cons, sum_nil, add_zero] at hfirst
  rcases offset_le_words h4 he (le_refl g.nLevels) with hle | ⟨hle, h128⟩
  · omega
  · have hmod : g.nMax * 4 ^ g.nLevels ≤ g.nmax * 4 ^ g.nLevels := Nat.mul_le_mul_right _ (Nat.mod_le _ _)
    have hword : 1 ≤ mpoolLbitWords g.nmax g.nLevels := by
      rw [mpoolLbitWords, Nat.shiftLeft_eq, show 2 ^ (2 * g.nLevels) = 4 ^ g.nLevels from pow_mul 2 2 _,
        if_neg (by omega)]
      omega
    omega

end even

/-- **Every bit has its place** in a pool whose levels are even: the words of the levels are within the bytes
reserved behind the buffer, and each bit that the initialisation or a call after it uses is in the word of its
level or in the words given to its level. -/
theorem bits_in_storage (g : PoolDef) (p : Pool) (hmin : g.minsz ≤ g.maxsz) (h4 : 4 ∣ g.maxsz)
    (h8 : 8 ≤ g.maxsz) (hsz : g.maxsz < 2 ^ 32) (he : g.EvenLevels) (hp : p.Blank) :
    4 * g.offset g.nLevels ≤ mpoolBitsSize g.maxsz g.minsz g.nmax ∧ (∀ i < g.nMax, g.HasBit (0, i)) ∧
      ∃ p0, sysMemPoolBaseInit g p = some p0 ∧
        ∀ ops, Runs.Along (PoolOp.exec g) (fun s op => op.Legal s) ⟨p0, []⟩ ops →
          ∃ s, Runs.run (PoolOp.exec g) ⟨p0, []⟩ ops = some s ∧ Layout g s.pool ∧
            ∀ op : PoolOp, op.Legal s → ∀ x ∈ op.bits g s.pool, g.HasBit x := by
  have hpos := nLevels_pos h8 hmin
  refine ⟨offset_le_mpoolBitsSize h4 he hsz, fun i hi => InRange.hasBit h4 he ⟨hpos, by simpa using hi⟩, ?_⟩
  obtain ⟨p0, F, B, hinit, hinv⟩ := PoolInv.sysMemPoolBaseInit h4 he hpos hp
  refine ⟨p0, hinit, fun ops hops => ?_⟩
  have hstart : PoolState.Inv g ⟨p0, []⟩ F B := ⟨hinv, by simp⟩
  obtain ⟨s, hs, F', B', hs'⟩ := hstart.run h4 he hops
  refine ⟨s, hs, hs'.pool.layout, fun op hop x hx => ?_⟩
  apply InRange.hasBit h4 he
  cases op with
  | alloc size => exact hs'.pool.allocBits_inRange h4 he size x hx
  | free block => exact freeBits_inRange block.level (hs'.pool.usedRange _ (mem_map_of_mem hop)) x hx

theorem bits_in_storage_evenPool : 4 * (⟨16, 64, 2⟩ : PoolDef).offset 2 ≤ mpoolBitsSize 64 16 2 ∧
    ∃ p0 s, sysMemPoolBaseInit ⟨16, 64, 2⟩ blankPool = some p0 ∧
    Runs.run (PoolOp.exec ⟨16, 64, 2⟩) ⟨p0, []⟩ evenOps = some s ∧
      ∀ op : PoolOp, op.Legal s → ∀ x ∈ op.bits ⟨16, 64, 2⟩ s.pool, (⟨16, 64, 2⟩ : PoolDef).HasBit x := by
  obtain ⟨hsize, -, p0, h0, hall⟩ := bits_in_storage ⟨16, 64, 2⟩ blankPool (by decide) (by decide) (by decide)
    (by decide) evenLevels_evenPool
    ⟨fun _ => rfl, fun _ => rfl⟩
  obtain ⟨s, hs, -, hbits⟩ := hall evenOps (evenOps_legal p0 h0)
  exact ⟨hsize, p0, s, h0, hs, hbits⟩

def nineOps : List PoolOp := List.replicate 8 (.alloc 68)

/-- Nine blocks of 68 bytes have room for 30 of 20 bytes, whose bits are in one word; the ninth is broken into
those with the numbers 32 to 35. -/
theorem rounded_bit_outside : ∃ p0 s, sysMemPoolBaseInit ⟨16, 68, 9⟩ blankPool = some p0 ∧
    Runs.Along (PoolOp.exec ⟨16, 68, 9⟩) (fun s op => op.Legal s) ⟨p0, []⟩ nineOps ∧
    Runs.run (PoolOp.exec ⟨16, 68, 9⟩) ⟨p0, []⟩ nineOps = some s ∧
    (1, 33) ∈ PoolOp.bits ⟨16, 68, 9⟩ s.pool (.alloc 20) ∧ ¬ (⟨16, 68, 9⟩ : PoolDef).HasBit (1, 33) ∧
    PoolOp.exec ⟨16, 68, 9⟩ s (.alloc 20) = none := by
  have hrun : ((sysMemPoolBaseInit ⟨16, 68, 9⟩ blankPool).bind fun p0 =>
    Runs.run (PoolOp.exec ⟨16, 68, 9⟩) ⟨p0, []⟩ nineOps).map
      (fun s => decide ((1, 33) ∈ PoolOp.bits ⟨16, 68, 9⟩ s.pool (.alloc 20)) && (PoolOp.exec ⟨16, 68, 9⟩ s
        (.alloc 20)).isNone) =
        some true := by decide +kernel
  obtain ⟨s, hs, hcheck⟩ := Option.map_eq_some_iff.1 hrun
  obtain ⟨p0, h0, hs⟩ := Option.bind_eq_some_iff.1 hs
  rw [Bool.and_eq_true, decide_eq_true_eq, Option.isNone_iff_eq_none] at hcheck
  refine ⟨p0, s, h0, ?_, hs, hcheck.1, by decide, hcheck.2⟩
  simp [nineOps, Runs.Along, PoolOp.Legal, List.replicate]

end Zephyr
