import Mathlib.Data.List.Pairwise
import Mathlib.Tactic.Ring
/-!
# Blocks that are split into equal parts

Block `(l, b)` of level `l` has the parts `(l + 1, d * b)` .. `(l + 1, d * b + d - 1)`. Two blocks are apart
if neither is a part of the other, at any depth. A buddy allocator has free blocks and blocks in use, all
of them apart (`Sep`); it takes a free block, gives one back, splits one and joins the parts of one.
Where a block is `d` times as large as its parts, blocks that are apart share no bytes.
-/
namespace Buddy

open List Nat

abbrev Block := ℕ × ℕ

/-- `y` is `x` or a part of it. -/
def Under (d : ℕ) (x y : Block) : Prop := x.1 ≤ y.1 ∧ y.2 / d ^ (y.1 - x.1) = x.2

def Apart (d : ℕ) (x y : Block) : Prop := ¬ Under d x y ∧ ¬ Under d y x

def child (d : ℕ) (x : Block) (i : ℕ) : Block := (x.1 + 1, d * x.2 + i)

variable {d i j : ℕ} {x y z : Block}

theorem under_refl : Under d x x := by simp [Under]

theorem Under.trans (h : Under d x y) (h' : Under d y z) : Under d x z := by
  obtain ⟨hl, hb⟩ := h
  obtain ⟨hl', hb'⟩ := h'
  refine ⟨hl.trans hl', ?_⟩
  rw [← hb, ← hb', Nat.div_div_eq_div_mul, ← pow_add]
  congr 2
  omega

theorem child_div (hi : i < d) : (child d x i).2 / d = x.2 := by
  show (d * x.2 + i) / d = x.2
  rw [mul_add_div (by omega), div_eq_of_lt hi, add_zero]

theorem under_child (hi : i < d) : Under d x (child d x i) := by
  refine ⟨by simp [child], ?_⟩
  have : (child d x i).1 - x.1 = 1 := by simp [child]
  rw [this, pow_one, child_div hi]

theorem Under.eq_of_level (h : Under d x y) (hl : y.1 ≤ x.1) : y = x := by
  obtain ⟨hle, hb⟩ := h
  have he : x.1 = y.1 := by omega
  rw [he, Nat.sub_self, pow_zero, Nat.div_one] at hb
  exact Prod.ext he.symm hb

/-- A proper part of `x` is in one of its `d` parts. -/
theorem Under.cases (hd : 0 < d) (h : Under d x y) : y = x ∨ ∃ i < d, Under d (child d x i) y := by
  rcases le_or_gt y.1 x.1 with hle | hlt
  · exact .inl (h.eq_of_level hle)
  · right
    obtain ⟨-, hb⟩ := h
    have hsplit : y.1 - x.1 = (y.1 - (x.1 + 1)) + 1 := by omega
    rw [hsplit, pow_succ, ← Nat.div_div_eq_div_mul] at hb
    refine ⟨y.2 / d ^ (y.1 - (x.1 + 1)) % d, mod_lt _ hd, hlt, ?_⟩
    show _ = d * x.2 + _
    rw [← hb]
    exact (div_add_mod _ _).symm

/-- What has a part of `x` as a part is that part, or has `x`. -/
theorem Under.of_child (hi : i < d) (h : Under d y (child d x i)) : y = child d x i ∨ Under d y x := by
  rcases le_or_gt (x.1 + 1) y.1 with hle | hlt
  · exact .inl (h.eq_of_level hle).symm
  · right
    obtain ⟨-, hb⟩ := h
    refine ⟨le_of_lt_succ hlt, ?_⟩
    have hsplit : (child d x i).1 - y.1 = 1 + (x.1 - y.1) := by simp only [child]; omega
    rwa [hsplit, pow_add, pow_one, ← Nat.div_div_eq_div_mul, child_div hi] at hb

/-- The block at the bottom with which a block begins. -/
theorem under_bottom (hd : 0 < d) {D : ℕ} (hx : x.1 ≤ D) : Under d x (D, x.2 * d ^ (D - x.1)) :=
  ⟨hx, Nat.mul_div_cancel _ (Nat.pow_pos hd)⟩

/-- Of two blocks with a common part, one is a part of the other. -/
theorem Under.total (h : Under d x z) (h' : Under d y z) : Under d x y ∨ Under d y x := by
  have hstep : ∀ {x y : Block}, Under d x z → Under d y z → x.1 ≤ y.1 → Under d x y := by
    rintro x y ⟨hl, hb⟩ ⟨hl', hb'⟩ hle
    refine ⟨hle, ?_⟩
    rw [← hb, ← hb', Nat.div_div_eq_div_mul, ← pow_add]
    congr 2
    omega
  rcases le_total x.1 y.1 with hle | hle
  · exact .inl (hstep h h' hle)
  · exact .inr (hstep h' h hle)

theorem Apart.symm (h : Apart d x y) : Apart d y x := ⟨h.2, h.1⟩

instance : Std.Symm (Apart d) := ⟨fun _ _ h => h.symm⟩

theorem Apart.ne (h : Apart d x y) : x ≠ y := by
  rintro rfl
  exact h.1 under_refl

theorem Apart.child (h : Apart d x y) (hi : i < d) : Apart d (child d x i) y := by
  refine ⟨fun hu => h.1 ((under_child hi).trans hu), fun hu => ?_⟩
  rcases hu.of_child hi with rfl | hu
  · exact h.1 (under_child hi)
  · exact h.2 hu

theorem apart_children (hij : i ≠ j) : Apart d (child d x i) (child d x j) := by
  constructor <;> rintro ⟨-, hb⟩ <;> simp [Buddy.child] at hb <;> omega

/-- What is apart from all parts of `x` is apart from `x`. -/
theorem apart_of_children (hd : 0 < d) (h : ∀ i < d, Apart d (child d x i) y) : Apart d x y := by
  refine ⟨fun hu => ?_, fun hu => (h 0 hd).2 (hu.trans (under_child hd))⟩
  rcases hu.cases hd with rfl | ⟨i, hi, hu⟩
  · exact (h 0 hd).2 (under_child hd)
  · exact (h i hi).1 hu

/-! ## Free blocks and blocks in use -/

structure Sep (d : ℕ) (free : Set Block) (used : List Block) : Prop where
  among : ∀ x ∈ free, ∀ y ∈ free, x ≠ y → Apart d x y
  across : ∀ x ∈ free, ∀ y ∈ used, Apart d x y
  inUse : used.Pairwise (Apart d)

variable {free : Set Block} {used : List Block}

theorem Sep.take (h : Sep d free used) (hx : x ∈ free) : Sep d (free \ {x}) (x :: used) where
  among y hy z hz := h.among y hy.1 z hz.1
  across y hy z hz := by
    rcases mem_cons.1 hz with rfl | hz
    · exact h.among y hy.1 z hx hy.2
    · exact h.across y hy.1 z hz
  inUse := pairwise_cons.2 ⟨h.across x hx, h.inUse⟩

theorem Sep.give (h : Sep d free (x :: used)) : Sep d (insert x free) used where
  among := by
    rintro y (rfl | hy) z (rfl | hz) hne
    · exact absurd rfl hne
    · exact (h.across z hz y (by simp)).symm
    · exact h.across y hy z (by simp)
    · exact h.among y hy z hz hne
  across := by
    rintro y (rfl | hy) z hz
    · exact (pairwise_cons.1 h.inUse).1 z hz
    · exact h.across y hy z (by simp [hz])
  inUse := (pairwise_cons.1 h.inUse).2

/-- A block in use is taken apart. -/
theorem Sep.split (h : Sep d free (x :: used)) : Sep d free ((List.range d).map (child d x) ++ used) where
  among := h.among
  across y hy z hz := by
    rcases mem_append.1 hz with hz | hz
    · obtain ⟨i, hi, rfl⟩ := mem_map.1 hz
      exact ((h.across y hy x (by simp)).symm.child (mem_range.1 hi)).symm
    · exact h.across y hy z (by simp [hz])
  inUse := by
    obtain ⟨hx, hused⟩ := pairwise_cons.1 h.inUse
    refine pairwise_append.2 ⟨?_, hused, ?_⟩
    · exact pairwise_map.2 (nodup_range.imp fun hij => apart_children hij)
    · rintro y hy z hz
      obtain ⟨i, hi, rfl⟩ := mem_map.1 hy
      exact (hx z hz).child (mem_range.1 hi)

/-- A block whose parts are all free is put together. -/
theorem Sep.join (hd : 0 < d) (h : Sep d free used) (hx : ∀ i < d, child d x i ∈ free) :
    Sep d {y | y ∈ free ∧ ∀ i < d, y ≠ child d x i} (x :: used) where
  among y hy z hz := h.among y hy.1 z hz.1
  across y hy z hz := by
    rcases mem_cons.1 hz with rfl | hz
    · exact (apart_of_children hd fun i hi => h.among _ (hx i hi) y hy.1 (hy.2 i hi).symm).symm
    · exact h.across y hy.1 z hz
  inUse := pairwise_cons.2 ⟨fun z hz => apart_of_children hd fun i hi => h.across _ (hx i hi) z hz, h.inUse⟩

theorem Sep.not_mem (h : Sep d free (x :: used)) : x ∉ free := fun hx => (h.across x hx x (by simp)).ne rfl

theorem child_inj (hi : i < d) (hj : j < d) (h : child d x i = child d y j) : x = y :=
  Prod.ext (Nat.succ.inj (congrArg Prod.fst h)) (by rw [← child_div hi, h, child_div hj])

/-- Beside being apart, the blocks leave no part of `bottom` out, and no block is free in `d` parts. -/
structure Tiling (d : ℕ) (bottom free : Set Block) (used : List Block) : Prop extends Sep d free used where
  cover : ∀ y ∈ bottom, ∃ x, (x ∈ free ∨ x ∈ used) ∧ Under d x y
  proper : ∀ x, ∃ i < d, child d x i ∉ free

namespace Tiling

variable {bottom : Set Block}

theorem take (h : Tiling d bottom free used) (hx : x ∈ free) : Tiling d bottom (free \ {x}) (x :: used) where
  toSep := h.toSep.take hx
  cover y hy := by
    obtain ⟨z, hz, hu⟩ := h.cover y hy
    refine ⟨z, ?_, hu⟩
    by_cases hzx : z = x
    · exact .inr (by simp [hzx])
    · exact hz.imp (fun hf => ⟨hf, hzx⟩) (mem_cons_of_mem _)
  proper z := by
    obtain ⟨i, hi, hz⟩ := h.proper z
    exact ⟨i, hi, fun hm => hz hm.1⟩

/-- A block is given back that is not the last part of another. -/
theorem give (h : Tiling d bottom free (x :: used))
    (hx : ∀ z, ∀ k < d, x = child d z k → ∃ i < d, child d z i ∉ insert x free) :
    Tiling d bottom (insert x free) used where
  toSep := h.toSep.give
  cover y hy := by
    obtain ⟨z, hz, hu⟩ := h.cover y hy
    refine ⟨z, ?_, hu⟩
    rcases hz with hf | hz
    · exact .inl (.inr hf)
    · exact (mem_cons.1 hz).imp (fun e => .inl e) id
  proper z := by
    obtain ⟨i, hi, hz⟩ := h.proper z
    by_cases hix : child d z i = x
    · exact hx z i hi hix.symm
    · exact ⟨i, hi, fun hm => hm.elim hix hz⟩

theorem split (hd : 0 < d) (h : Tiling d bottom free (x :: used)) (hx : x ∉ bottom) :
    Tiling d bottom free ((List.range d).map (child d x) ++ used) where
  toSep := h.toSep.split
  cover y hy := by
    obtain ⟨z, hz, hu⟩ := h.cover y hy
    rcases hz with hf | hz
    · exact ⟨z, .inl hf, hu⟩
    · rcases mem_cons.1 hz with rfl | hz
      · obtain ⟨i, hi, hu⟩ := (hu.cases hd).resolve_left fun e => hx (e ▸ hy)
        exact ⟨child d z i, .inr (mem_append_left _ (mem_map.2 ⟨i, mem_range.2 hi, rfl⟩)), hu⟩
      · exact ⟨z, .inr (mem_append_right _ hz), hu⟩
  proper := h.proper

/-- The last part of `x` is given back, and `x` is put together. -/
theorem join (h : Tiling d bottom free (child d x j :: used)) (hj : j < d)
    (hx : ∀ i < d, child d x i ∈ insert (child d x j) free) :
    Tiling d bottom {y | y ∈ insert (child d x j) free ∧ ∀ i < d, y ≠ child d x i} (x :: used) where
  toSep := h.toSep.give.join (by omega) hx
  cover y hy := by
    obtain ⟨z, hz, hu⟩ := h.cover y hy
    by_cases hzx : ∃ i < d, z = child d x i
    · obtain ⟨i, hi, rfl⟩ := hzx
      exact ⟨x, .inr (by simp), (under_child hi).trans hu⟩
    · have hne : ∀ i < d, z ≠ child d x i := fun i hi e => hzx ⟨i, hi, e⟩
      refine ⟨z, ?_, hu⟩
      rcases hz with hf | hz
      · exact .inl ⟨.inr hf, hne⟩
      · exact .inr (mem_cons_of_mem _ ((mem_cons.1 hz).resolve_left (hne j hj)))
  proper z := by
    obtain ⟨i, hi, hz⟩ := h.proper z
    refine ⟨i, hi, ?_⟩
    rintro ⟨rfl' | hm, hne⟩
    · exact hne j hj rfl'
    · exact hz hm

theorem perm {used' : List Block} (h : Tiling d bottom free used) (hp : used'.Perm used) :
    Tiling d bottom free used' where
  among := h.among
  across x hx y hy := h.across x hx y (hp.subset hy)
  inUse := (hp.pairwise_iff fun hxy => hxy.symm).2 h.inUse
  cover y hy := by
    obtain ⟨z, hz, hu⟩ := h.cover y hy
    exact ⟨z, hz.imp_right fun hm => hp.symm.subset hm, hu⟩
  proper := h.proper

/-- Every part of `bottom` is in one block only. -/
theorem cover_unique (h : Tiling d bottom free used) {x' : Block} (hx : x ∈ free ∨ x ∈ used)
    (hx' : x' ∈ free ∨ x' ∈ used) (hu : Under d x y) (hu' : Under d x' y) : x = x' := by
  by_contra hne
  have hapart : Apart d x x' := by
    rcases hx with hx | hx <;> rcases hx' with hx' | hx'
    · exact h.among x hx x' hx' hne
    · exact h.across x hx x' hx'
    · exact (h.across x' hx' x hx).symm
    · exact h.inUse.forall hx hx' hne
  rcases hu.total hu' with h1 | h1
  · exact hapart.1 h1
  · exact hapart.2 h1

/-- **With no block in use everything is put together**: the free blocks are the `n` blocks of level 0. -/
theorem free_eq_roots (hd : 0 < d) {D n : ℕ} (h : Tiling d {y | y.1 = D ∧ y.2 < n * d ^ D} free [])
    (hr : ∀ x ∈ free, x.1 ≤ D ∧ x.2 < n * d ^ x.1) : free = {x | x.1 = 0 ∧ x.2 < n} := by
  have hmem : ∀ {x}, x ∈ free ∨ x ∈ ([] : List Block) → x ∈ free := fun hx => hx.resolve_right not_mem_nil
  have hbottom : ∀ {l b : ℕ}, l ≤ D → b < n * d ^ l → b * d ^ (D - l) < n * d ^ D := by
    intro l b hl hb
    calc b * d ^ (D - l) < n * d ^ l * d ^ (D - l) := Nat.mul_lt_mul_of_pos_right hb (Nat.pow_pos hd)
      _ = n * d ^ D := by rw [Nat.mul_assoc, ← pow_add, Nat.add_sub_cancel' hl]
  -- by induction from the bottom up, all parts of a block would be free where one is and none below
  have hzero : ∀ k, ∀ x ∈ free, D - x.1 = k → x.1 = 0 := by
    intro k
    induction k using Nat.strong_induction_on with
    | _ k ih =>
      intro x hx hk
      by_contra hne
      obtain ⟨hxD, hxb⟩ := hr x hx
      obtain ⟨l, hl⟩ := exists_eq_succ_of_ne_zero hne
      have hlow : ∀ z ∈ free, z.1 ≤ x.1 := by
        intro z hz
        by_contra hlt
        have := (hr z hz).1
        exact absurd (ih (D - z.1) (by omega) z hz rfl) (by omega)
      have hxc : x = child d (l, x.2 / d) (x.2 % d) := Prod.ext hl (div_add_mod _ _).symm
      obtain ⟨i, hi, hout⟩ := h.proper (l, x.2 / d)
      refine hout ?_
      have hcb : (child d (l, x.2 / d) i).2 < n * d ^ (l + 1) := by
        rw [hl, succ_eq_add_one, pow_succ, ← mul_assoc] at hxb
        have hq := Nat.div_lt_of_lt_mul (Nat.mul_comm _ d ▸ hxb)
        show d * (x.2 / d) + i < n * d ^ (l + 1)
        calc d * (x.2 / d) + i < d * (x.2 / d + 1) := by rw [mul_add]; omega
          _ ≤ d * (n * d ^ l) := mul_le_mul_left _ hq
          _ = n * d ^ (l + 1) := by ring
      have hcl : (child d (l, x.2 / d) i).1 ≤ D := by simp only [Buddy.child]; omega
      obtain ⟨z, hz, hu⟩ := h.cover (D, _) ⟨rfl, hbottom hcl hcb⟩
      have hz := hmem hz
      have hzl := hlow z hz
      rcases hu.total (under_bottom hd hcl) with hzc | hcz
      · rcases hzc.of_child hi with rfl | hzq
        · exact hz
        · have hzx : Under d z x := by
            rw [hxc]
            exact hzq.trans (under_child (mod_lt _ hd))
          have hne' : z ≠ x := by
            rintro rfl
            have := hzq.1
            simp only at this
            omega
          exact absurd hzx (h.among z hz x hx hne').1
      · have hzeq := hcz.eq_of_level (by simp only [Buddy.child]; omega)
        rwa [← hzeq]
  ext x
  constructor
  · intro hx
    have h0 := hzero _ x hx rfl
    have := (hr x hx).2
    rw [h0, pow_zero, mul_one] at this
    exact ⟨h0, this⟩
  · rintro ⟨h0, hn⟩
    have hb := hbottom (zero_le D) (by simpa using hn)
    obtain ⟨z, hz, -, hzb⟩ := h.cover (D, _) ⟨rfl, hb⟩
    have hz := hmem hz
    have hz0 := hzero _ z hz rfl
    rw [hz0] at hzb
    have hzx : z = x := Prod.ext (hz0.trans h0.symm) (by rw [← hzb]; exact Nat.mul_div_cancel _ (Nat.pow_pos hd))
    rwa [← hzx]

end Tiling

/-! ## Bytes -/

/-- The size of a block of level `l + k`, `k` times split. -/
theorem size_eq_pow {sz : ℕ → ℕ} {l k : ℕ} (h : ∀ m, l ≤ m → m < l + k → sz m = d * sz (m + 1)) :
    sz l = d ^ k * sz (l + k) := by
  induction k with
  | zero => simp
  | succ k ih =>
    rw [ih fun m hm hm' => h m hm (by omega), h (l + k) (by omega) (by omega), pow_succ, mul_assoc, add_assoc]

/-- Blocks that are apart have no byte in common. -/
theorem Apart.disjoint (hd : 0 < d) {sz : ℕ → ℕ} (h : Apart d x y) (hle : x.1 ≤ y.1)
    (hsz : ∀ m, x.1 ≤ m → m < y.1 → sz m = d * sz (m + 1)) :
    sz x.1 * (x.2 + 1) ≤ sz y.1 * y.2 ∨ sz y.1 * (y.2 + 1) ≤ sz x.1 * x.2 := by
  obtain ⟨k, hk⟩ := Nat.exists_eq_add_of_le hle
  have hpow : sz x.1 = d ^ k * sz y.1 := by
    rw [hk]
    exact size_eq_pow fun m hm hm' => hsz m hm (by omega)
  have hne : y.2 / d ^ k ≠ x.2 := fun e => h.1 ⟨hle, by rwa [hk, Nat.add_sub_cancel_left]⟩
  rw [hpow]
  rcases lt_or_gt_of_ne hne with hlt | hgt
  · right
    have hy : y.2 + 1 ≤ x.2 * d ^ k := (Nat.div_lt_iff_lt_mul (Nat.pow_pos hd)).1 hlt
    calc sz y.1 * (y.2 + 1) ≤ sz y.1 * (x.2 * d ^ k) := mul_le_mul_left _ hy
      _ = d ^ k * sz y.1 * x.2 := by ring
  · left
    have hy : (x.2 + 1) * d ^ k ≤ y.2 := (mul_le_mul_right _ hgt).trans (div_mul_le_self _ _)
    calc d ^ k * sz y.1 * (x.2 + 1) = sz y.1 * ((x.2 + 1) * d ^ k) := by ring
      _ ≤ sz y.1 * y.2 := mul_le_mul_left _ hy

end Buddy
