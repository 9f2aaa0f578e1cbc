import Zephyr.Mempool.Base
/-!
# Sizes and bits of a pool

`_ALIGN4(size / 4)` is a quarter of a size that is a multiple of 16, and more than a quarter of any other: the
four parts of a block are then larger than the block. If no level is rounded up (`EvenLevels`) blocks that
are apart in the sense of `Buddy` have no byte in common. The first level may be rounded up if it has
one block only, for nothing lies behind it. The rest of the module is about the place of each
block's bit: blocks of the pool have bits of their own.
-/
namespace Zephyr

open Buddy List Nat

namespace PoolDef

variable {g : PoolDef} {l m n : Nat} {x y : Block}

/-! ## Sizes -/

/-- A block of each level but the last is as large as four of the next; the first level is excused in a pool of one
block. -/
def EvenLevels (g : PoolDef) : Prop := ∀ l, l + 1 < g.nLevels → (g.nMax = 1 ∧ l = 0) ∨ g.lsizes l = 4 * g.lsizes (l + 1)

/-- The block of level `x.1` with the number `x.2` is one of the pool. -/
def InRange (g : PoolDef) (x : Block) : Prop := x.1 < g.nLevels ∧ x.2 < g.nMax * 4 ^ x.1

theorem four_dvd_lsizes (l : Nat) : 4 ∣ g.lsizes l := by
  cases l <;> exact Dvd.intro_left _ rfl

theorem lsizes_succ_bounds (l : Nat) : g.lsizes l ≤ 4 * g.lsizes (l + 1) ∧ 4 * g.lsizes (l + 1) ≤ g.lsizes l + 12 := by
  have h4 : 4 ∣ g.lsizes l := four_dvd_lsizes l
  have hsucc : g.lsizes (l + 1) = (g.lsizes l / 4 + 3) / 4 * 4 := rfl
  omega

theorem sum_range_le {f : Nat → Nat} (h1 : ∀ j, f j ≤ 1) (h0 : ∀ j, l ≤ j → f j = 0) (n : Nat) :
    ((List.range n).map f).sum ≤ l := by
  have hmin : ((List.range n).map f).sum ≤ min n l := by
    induction n with
    | zero => simp
    | succ n ih =>
      rw [range_succ, map_append, List.sum_append_nat]
      simp only [map_cons, map_nil, sum_cons, sum_nil, add_zero]
      have := h1 n
      by_cases hl : l ≤ n
      · have := h0 n hl
        omega
      · omega
  omega

theorem mpoolHaveLvl_le (max min l : Nat) : mpoolHaveLvl max min l ≤ 1 := by
  unfold mpoolHaveLvl
  split <;> omega

theorem mpoolHaveLvl_eq_zero {max min l : Nat} (h : max / 4 ^ l < min) : mpoolHaveLvl max min l = 0 := by
  have hpow : 2 ^ (2 * l) = 4 ^ l := pow_mul 2 2 l
  rw [mpoolHaveLvl, shiftRight_eq_div_pow, hpow, if_neg (by omega)]

/-- `n_levels` counts the levels whose blocks are not below the minimum. -/
theorem min_le_of_lt (hl : l < g.nLevels) :
    (if mpoolMinblk ≤ g.minsz then g.minsz else mpoolMinblk) ≤ g.maxsz / 4 ^ l := by
  by_contra hlt
  have hmono : ∀ j, l ≤ j → g.maxsz / 4 ^ j ≤ g.maxsz / 4 ^ l := fun j hj =>
    Nat.div_le_div_left (Nat.pow_le_pow_right (by omega) hj) (Nat.pow_pos (by omega))
  have hle : g.nLevels ≤ l := by
    refine sum_range_le (fun j => mpoolHaveLvl_le _ _ j) (fun j hj => mpoolHaveLvl_eq_zero ?_) 16
    have := hmono j hj
    omega
  omega

theorem minblk_le_of_lt (hl : l < g.nLevels) : mpoolMinblk ≤ g.maxsz / 4 ^ l := by
  have := min_le_of_lt hl
  split at this <;> omega

theorem minsz_le_of_lt (h : mpoolMinblk ≤ g.minsz) (hl : l < g.nLevels) : g.minsz ≤ g.maxsz / 4 ^ l := by
  have := min_le_of_lt hl
  rwa [if_pos h] at this

section

variable (h4 : 4 ∣ g.maxsz)

include h4

theorem lsizes_zero : g.lsizes 0 = g.maxsz := by
  show (g.maxsz + 3) / 4 * 4 = g.maxsz
  omega

theorem div_pow_le_lsizes (l : Nat) : g.maxsz / 4 ^ l ≤ g.lsizes l := by
  induction l with
  | zero => simp [lsizes_zero h4]
  | succ l ih =>
    have := (lsizes_succ_bounds (g := g) l).1
    rw [pow_succ, ← Nat.div_div_eq_div_mul]
    omega

theorem eight_le_lsizes (hl : l < g.nLevels) : 8 ≤ g.lsizes l :=
  (minblk_le_of_lt hl).trans (div_pow_le_lsizes h4 l)

theorem lsizes_anti (hmn : m ≤ n) (hn : n < g.nLevels) : g.lsizes n ≤ g.lsizes m := by
  induction n, hmn using le_induction with
  | base => exact le_rfl
  | succ n hmn ih =>
    have h8 := eight_le_lsizes h4 (l := n) (by omega)
    have hsucc := (lsizes_succ_bounds (g := g) n).2
    have := ih (by omega)
    omega

theorem blockFits_iff (hl : l < g.nLevels) (b : Nat) :
    g.blockFits (blockPtr (g.lsizes l) b) (g.lsizes l) = true ↔ g.lsizes l * (b + 1) ≤ g.bufSize := by
  have h8 := eight_le_lsizes h4 hl
  unfold blockFits blockPtr
  rw [decide_eq_true_eq, mul_add, mul_one]
  omega

end

/-! ## Blocks -/

theorem InRange.child (hx : g.InRange x) (hl : x.1 + 1 < g.nLevels) {i : Nat} (hi : i < 4) :
    g.InRange (Buddy.child 4 x i) := by
  refine ⟨hl, ?_⟩
  show 4 * x.2 + i < g.nMax * 4 ^ (x.1 + 1)
  have := hx.2
  rw [pow_succ, ← mul_assoc]
  omega

theorem InRange.parent {b : Nat} (hx : g.InRange (l + 1, b)) : g.InRange (l, b / 4) := by
  obtain ⟨hl, hb⟩ := hx
  refine ⟨by simp only at hl ⊢; omega, ?_⟩
  show b / 4 < g.nMax * 4 ^ l
  rw [pow_succ, ← mul_assoc] at hb
  simp only at hb
  omega

/-- All blocks of a pool of one block are parts of it. -/
theorem under_of_single (h1 : g.nMax = 1) (hx : g.InRange x) (hx0 : x.1 = 0) (hy : g.InRange y) : Under 4 x y := by
  obtain ⟨-, hxb⟩ := hx
  obtain ⟨-, hyb⟩ := hy
  rw [h1, hx0] at hxb
  rw [h1, one_mul] at hyb
  refine ⟨by omega, ?_⟩
  rw [hx0, Nat.sub_zero, Nat.div_eq_of_lt hyb]
  omega

/-- **Blocks that are apart have no byte in common.** -/
theorem EvenLevels.disjoint (he : g.EvenLevels) (hx : g.InRange x) (hy : g.InRange y) (h : Apart 4 x y) :
    g.lsizes x.1 * (x.2 + 1) ≤ g.lsizes y.1 * y.2 ∨ g.lsizes y.1 * (y.2 + 1) ≤ g.lsizes x.1 * x.2 := by
  have hstep : ∀ {x y : Block}, g.InRange x → g.InRange y → Apart 4 x y → x.1 ≤ y.1 →
      g.lsizes x.1 * (x.2 + 1) ≤ g.lsizes y.1 * y.2 ∨ g.lsizes y.1 * (y.2 + 1) ≤ g.lsizes x.1 * x.2 := by
    intro x y hx hy h hle
    refine h.disjoint (by omega) hle fun m hm hm' => ?_
    rcases he m (by have := hy.1; omega) with ⟨h1, rfl⟩ | heq
    · exact absurd (under_of_single h1 hx (by omega) hy) h.1
    · exact heq
  rcases le_total x.1 y.1 with hle | hle
  · exact hstep hx hy h hle
  · exact (hstep hy hx h.symm hle).symm

theorem EvenLevels.ptr_ne (h4 : 4 ∣ g.maxsz) (he : g.EvenLevels) (hx : g.InRange x) (hy : g.InRange y)
    (h : Apart 4 x y) :
    blockPtr (g.lsizes x.1) x.2 ≠ blockPtr (g.lsizes y.1) y.2 := by
  have hxs := eight_le_lsizes h4 hx.1
  have hys := eight_le_lsizes h4 hy.1
  have := he.disjoint hx hy h
  simp only [blockPtr, mul_add, mul_one] at this ⊢
  omega

/-- The first part of a block starts where the block does. -/
theorem EvenLevels.ptr_child (he : g.EvenLevels) (hx : g.InRange x) (hl : x.1 + 1 < g.nLevels) :
    blockPtr (g.lsizes (x.1 + 1)) (4 * x.2) = blockPtr (g.lsizes x.1) x.2 := by
  unfold blockPtr
  rcases he x.1 hl with ⟨h1, h0⟩ | heq
  · have hb := hx.2
    rw [h1, h0] at hb
    have : x.2 = 0 := by omega
    simp [this]
  · rw [heq]
    ring

/-! ## Bits -/

def nblocks (g : PoolDef) (l : Nat) : Nat := g.bufSize / g.lsizes l

/-- The first of the words of a level that are behind the buffer. -/
def offset (g : PoolDef) : Nat → Nat
  | 0 => 0
  | l + 1 => if g.nblocks l < 32 then offset g l else offset g l + (g.nblocks l + 31) / 32

theorem pow_four_cases (l : Nat) : 4 ^ l ≤ 16 ∨ ∃ k, 4 ^ l = 32 * k := by
  rcases lt_or_ge l 3 with hl | hl
  · left
    calc 4 ^ l ≤ 4 ^ 2 := Nat.pow_le_pow_right (by omega) (by omega)
      _ = 16 := rfl
  · right
    refine ⟨2 * 4 ^ (l - 3), ?_⟩
    calc 4 ^ l = 4 ^ (3 + (l - 3)) := by rw [Nat.add_sub_cancel' hl]
      _ = 32 * (2 * 4 ^ (l - 3)) := by rw [pow_add]; omega

section

variable (he : g.EvenLevels) (h4 : 4 ∣ g.maxsz) (hl : l < g.nLevels)

include he h4 hl

theorem EvenLevels.pow_mul_lsizes :
    g.maxsz ≤ 4 ^ l * g.lsizes l ∧ 4 ^ l * g.lsizes l ≤ g.maxsz + 12 ∧ (g.nMax ≠ 1 → 4 ^ l * g.lsizes l = g.maxsz) := by
  induction l with
  | zero => simp [lsizes_zero h4]
  | succ l ih =>
    obtain ⟨hlo, hhi, heq⟩ := ih (by omega)
    have hassoc : 4 ^ (l + 1) * g.lsizes (l + 1) = 4 ^ l * (4 * g.lsizes (l + 1)) := by rw [pow_succ, mul_assoc]
    rw [hassoc]
    rcases he l hl with ⟨h1, rfl⟩ | hsz
    · have := lsizes_succ_bounds (g := g) 0
      simp only [pow_zero, one_mul, lsizes_zero h4] at *
      exact ⟨this.1, this.2, fun hne => absurd h1 hne⟩
    · rw [← hsz]
      exact ⟨hlo, hhi, heq⟩

theorem EvenLevels.nblocks_bounds :
    g.nblocks l ≤ g.nMax * 4 ^ l ∧ (g.nMax = 1 → 4 ^ l ≤ g.nblocks l + 2) ∧
    (g.nMax ≠ 1 → g.nblocks l = g.nMax * 4 ^ l) := by
  have h8 := eight_le_lsizes h4 hl
  obtain ⟨hlo, hhi, heq⟩ := he.pow_mul_lsizes h4 hl
  unfold nblocks bufSize
  refine ⟨?_, fun h1 => ?_, fun hne => ?_⟩
  · rw [← Nat.mul_div_cancel (g.nMax * 4 ^ l) (by omega : 0 < g.lsizes l), Nat.mul_assoc]
    exact Nat.div_le_div_right (Nat.mul_le_mul_left _ hlo)
  · have hle : (4 ^ l - 2) * g.lsizes l ≤ 1 * g.maxsz := by
      rw [Nat.sub_mul]
      omega
    have := (le_div_iff_mul_le (by omega : 0 < g.lsizes l)).2 hle
    rw [h1]
    omega
  · rw [← heq hne, ← Nat.mul_assoc, Nat.mul_div_cancel _ (by omega)]

/-- One word is enough for a level whose bits are in the pool, and the words behind the buffer for the others. -/
theorem EvenLevels.capacity :
    (g.nblocks l < 32 → g.nMax * 4 ^ l ≤ 32) ∧
    (32 ≤ g.nblocks l → g.nMax * 4 ^ l ≤ 32 * ((g.nblocks l + 31) / 32)) := by
  obtain ⟨hle, hone, hmany⟩ := he.nblocks_bounds h4 hl
  by_cases h1 : g.nMax = 1
  · rw [h1, one_mul] at hle ⊢
    rcases pow_four_cases l with hp | ⟨k, hk⟩ <;> omega
  · omega

end

theorem nblocks_mono (h4 : 4 ∣ g.maxsz) (hmn : m ≤ n) (hn : n < g.nLevels) : g.nblocks m ≤ g.nblocks n := by
  have h8 := eight_le_lsizes h4 hn
  exact div_le_div_left (lsizes_anti h4 hmn hn) (by omega)

theorem offset_mono (h : m ≤ n) : g.offset m ≤ g.offset n := by
  induction n, h using le_induction with
  | base => exact le_rfl
  | succ n _ ih =>
    rw [offset]
    split <;> omega

theorem offset_add_le (h : m < n) (hm : 32 ≤ g.nblocks m) : g.offset m + (g.nblocks m + 31) / 32 ≤ g.offset n := by
  have hsucc : g.offset (m + 1) = g.offset m + (g.nblocks m + 31) / 32 := by
    rw [offset, if_neg (by omega)]
  rw [← hsucc]
  exact offset_mono h

end PoolDef

end Zephyr
