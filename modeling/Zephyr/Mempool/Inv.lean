import Zephyr.Mempool.Geometry
/-!
# What a pool keeps true

`PoolRep p F B`: the lists of the levels have the blocks `F`, and the bits that are set are those of the blocks
`B`. `PoolInv p F B used`: beside that, the lists have the free blocks that the buffer has room for, and the
free blocks and those in use are apart and leave nothing out (`Buddy.Tiling`). A block that `block_free` or
`block_break` works on counts as in use, and so each of their steps takes, gives, splits or joins.
-/
namespace Zephyr

open Ring Buddy PoolDef Function List

variable {g : PoolDef} {p : Pool} {F : Nat → List Nat} {B : Set Block} {used : List Block} {x y : Block} {l b : Nat}

/-! ## Bits -/

/-- `max_inline_level` and `bits_p` are as `_sys_mem_pool_base_init` sets them. -/
structure Layout (g : PoolDef) (p : Pool) : Prop where
  inline : ∀ l, l < g.nLevels → ((l : ℤ) ≤ p.maxInlineLevel ↔ g.nblocks l < 32)
  bitsP : ∀ l, l < g.nLevels → 32 ≤ g.nblocks l → p.bitsP l = g.offset l

theorem Layout.congr {p' : Pool} (h : Layout g p) (hi : p'.maxInlineLevel = p.maxInlineLevel)
    (hb : p'.bitsP = p.bitsP) : Layout g p' :=
  ⟨fun l hl => by rw [hi]; exact h.inline l hl, fun l hl hn => by rw [hb]; exact h.bitsP l hl hn⟩

/-- Where the bit of a block is. -/
def wordOf (g : PoolDef) (x : Block) : WordPtr :=
    if g.nblocks x.1 < 32 then .bits x.1 else .word (g.offset x.1 + x.2 / 32)

theorem Layout.getBitPtr_eq (h : Layout g p) (h4 : 4 ∣ g.maxsz) (he : g.EvenLevels) (hx : g.InRange x) :
    getBitPtr p x.1 x.2 = some (wordOf g x) := by
  have hcap := (he.capacity h4 hx.1).1
  have hb := hx.2
  unfold getBitPtr wordOf
  by_cases hin : g.nblocks x.1 < 32
  · have := hcap hin
    rw [if_pos ((h.inline _ hx.1).2 hin), if_pos hin, if_pos (by omega)]
  · rw [if_neg (fun hle => hin ((h.inline _ hx.1).1 hle)), if_neg hin, h.bitsP _ hx.1 (by omega)]

/-- Different blocks have different bits. -/
theorem wordOf_inj (h4 : 4 ∣ g.maxsz) (he : g.EvenLevels) (hx : g.InRange x) (hy : g.InRange y)
    (hw : wordOf g x = wordOf g y) (hm : x.2 % 32 = y.2 % 32) : x = y := by
  have hxc := he.capacity h4 hx.1
  have hyc := he.capacity h4 hy.1
  have hxb := hx.2
  have hyb := hy.2
  unfold wordOf at hw
  split at hw <;> split at hw
  · rename_i hxi hyi
    have hl : x.1 = y.1 := WordPtr.bits.inj hw
    have := hxc.1 hxi
    have := hyc.1 hyi
    exact Prod.ext hl (by omega)
  · cases hw
  · cases hw
  · rename_i hxi hyi
    have hwi : g.offset x.1 + x.2 / 32 = g.offset y.1 + y.2 / 32 := WordPtr.word.inj hw
    -- the words of a level end before those of the next begin
    have hl : x.1 = y.1 := by
      rcases lt_trichotomy x.1 y.1 with hlt | heq | hlt
      · have := offset_add_le hlt (by omega : 32 ≤ g.nblocks x.1)
        omega
      · exact heq
      · have := offset_add_le hlt (by omega : 32 ≤ g.nblocks y.1)
        omega
    rw [hl] at hwi
    exact Prod.ext hl (by omega)

def bitOf (g : PoolDef) (p : Pool) (x : Block) : Bool := (p.read (wordOf g x)).getLsbD (x.2 % 32)

theorem Pool.read_write (p : Pool) (w w' : WordPtr) (v : BitVec 32) :
    (p.write w v).read w' = if w' = w then v else p.read w' := by
  cases w <;> cases w' <;> simp [Pool.write, Pool.read, update_apply]

theorem Pool.write_links (p : Pool) (w : WordPtr) (v : BitVec 32) : (p.write w v).links = p.links := by cases w <;> rfl

theorem Layout.write (h : Layout g p) (w : WordPtr) (v : BitVec 32) : Layout g (p.write w v) := by
  cases w <;> exact h.congr rfl rfl

/-- A word is written that differs in the bit of `x` only. -/
theorem bitOf_write (h4 : 4 ∣ g.maxsz) (he : g.EvenLevels) (hx : g.InRange x) (hy : g.InRange y)
    {v : BitVec 32} {c : Bool}
    (hv : ∀ k < 32, v.getLsbD k = if k = x.2 % 32 then c else (p.read (wordOf g x)).getLsbD k) :
    bitOf g (p.write (wordOf g x) v) y = if y = x then c else bitOf g p y := by
  unfold bitOf
  rw [Pool.read_write]
  by_cases hw : wordOf g y = wordOf g x
  · rw [if_pos hw, hv _ (by omega), ← hw]
    by_cases hyx : y = x
    · rw [if_pos hyx, if_pos (by rw [hyx])]
    · rw [if_neg hyx, if_neg fun hm => hyx (wordOf_inj h4 he hy hx hw hm)]
  · rw [if_neg hw, if_neg fun e => hw (by rw [e])]

theorem getLsbD_set (w : BitVec 32) {k c : Nat} (hk : k < 32) :
    (w ||| (1#32 <<< c)).getLsbD k = if k = c then true else w.getLsbD k := by
  simp only [BitVec.getLsbD_or, BitVec.getLsbD_shiftLeft, BitVec.getLsbD_one]
  grind

theorem getLsbD_clear (w : BitVec 32) {k c : Nat} (hk : k < 32) :
    (w &&& ~~~(1#32 <<< c)).getLsbD k = if k = c then false else w.getLsbD k := by
  simp only [BitVec.getLsbD_and, BitVec.getLsbD_not, BitVec.getLsbD_shiftLeft, BitVec.getLsbD_one]
  grind

theorem nibble_eq_iff (w : BitVec 32) (k : Nat) :
    (w >>> (4 * k)) &&& 0xf#32 = 0xf#32 ↔ ∀ i < 4, w.getLsbD (4 * k + i) = true := by
  have hf : ∀ j < 32, (0xf#32).getLsbD j = decide (j < 4) := by decide
  constructor
  · intro h i hi
    have := congrArg (fun v => v.getLsbD i) h
    simp only [BitVec.getLsbD_and, BitVec.getLsbD_ushiftRight, hf i (by omega), hi, decide_true, Bool.and_true] at this
    exact this
  · intro h
    refine BitVec.eq_of_getLsbD_eq fun j hj => ?_
    rw [BitVec.getLsbD_and, BitVec.getLsbD_ushiftRight, hf j hj]
    by_cases hj4 : j < 4
    · simp [h j hj4]
    · simp [hj4]

/-! ## Lists and bits -/

def nodeOf (g : PoolDef) (l b : Nat) : PoolNode := .block (blockPtr (g.lsizes l) b)

/-- The buffer has room for the block. -/
def InBuffer (g : PoolDef) (x : Block) : Prop := g.blockFits (blockPtr (g.lsizes x.1) x.2) (g.lsizes x.1) = true

structure PoolRep (g : PoolDef) (p : Pool) (F : Nat → List Nat) (B : Set Block) : Prop where
  layout : Layout g p
  rings : IsRings p.links (fun i : Fin g.nLevels => PoolNode.level i) fun i => (F i).map (nodeOf g i)
  bits : ∀ x, g.InRange x → (bitOf g p x = true ↔ x ∈ B)

theorem nodes_update (F : Nat → List Nat) (hl : l < g.nLevels) (v : List Nat) :
    (fun i : Fin g.nLevels => (update F l v i).map (nodeOf g i)) =
      update (fun i : Fin g.nLevels => (F i).map (nodeOf g i)) ⟨l, hl⟩ (v.map (nodeOf g l)) := by
  funext i
  by_cases hi : i = ⟨l, hl⟩
  · subst hi; simp
  · have : (i : Nat) ≠ l := fun e => hi (Fin.ext e)
    simp [hi, this]

section rep

variable (h4 : 4 ∣ g.maxsz) (he : g.EvenLevels)

include h4 he

theorem setFreeBit_spec (h : PoolRep g p F B) (hx : g.InRange x) :
    ∃ p', setFreeBit p x.1 x.2 = some p' ∧ PoolRep g p' F (insert x B) := by
  refine ⟨_, by rw [setFreeBit, h.layout.getBitPtr_eq h4 he hx]; rfl, h.layout.write _ _, ?_, fun y hy => ?_⟩
  · rw [Pool.write_links]; exact h.rings
  · rw [bitOf_write (c := true) h4 he hx hy fun k hk => getLsbD_set _ hk, Set.mem_insert_iff, ← h.bits y hy]
    by_cases hyx : y = x <;> simp [hyx]

theorem clearFreeBit_spec (h : PoolRep g p F B) (hx : g.InRange x) :
    ∃ p', clearFreeBit p x.1 x.2 = some p' ∧ PoolRep g p' F (B \ {x}) := by
  refine ⟨_, by rw [clearFreeBit, h.layout.getBitPtr_eq h4 he hx]; rfl, h.layout.write _ _, ?_, fun y hy => ?_⟩
  · rw [Pool.write_links]; exact h.rings
  · rw [bitOf_write (c := false) h4 he hx hy fun k hk => getLsbD_clear _ hk, Set.mem_sdiff,
      Set.mem_singleton_iff, ← h.bits y hy]
    by_cases hyx : y = x <;> simp [hyx]

/-- The bits of the four partners are in one word. -/
theorem partnerBits_spec (h : PoolRep g p F B) (hx : g.InRange (l + 1, b)) :
    ∃ v, partnerBits p (l + 1) b = some v ∧ (v = 0xf#32 ↔ ∀ i < 4, child 4 (l, b / 4) i ∈ B) := by
  refine ⟨_, by rw [partnerBits, h.layout.getBitPtr_eq h4 he hx]; rfl, ?_⟩
  rw [nibble_eq_iff]
  refine forall₂_congr fun i hi => ?_
  rw [← h.bits _ (hx.parent.child hx.1 hi)]
  have hword : wordOf g (child 4 (l, b / 4) i) = wordOf g (l + 1, b) := by
    have : (4 * (b / 4) + i) / 32 = b / 32 := by omega
    simp only [wordOf, child, this]
  have hbit : (4 * (b / 4) + i) % 32 = 4 * (b % 32 / 4) + i := by omega
  rw [bitOf, hword]
  show _ ↔ (p.read (wordOf g (l + 1, b))).getLsbD ((4 * (b / 4) + i) % 32) = true
  rw [hbit]

end rep

theorem appendBlock_spec (h : PoolRep g p F B) (hl : l < g.nLevels)
    (hfresh : ∀ j, j < g.nLevels → ∀ c ∈ F j, blockPtr (g.lsizes j) c ≠ blockPtr (g.lsizes l) b) :
    PoolRep g (appendBlock p l (blockPtr (g.lsizes l) b)) (update F l (F l ++ [b])) B := by
  refine ⟨h.layout.congr rfl rfl, ?_, h.bits⟩
  rw [nodes_update F hl, map_append]
  refine isRings_append (i := ⟨l, hl⟩) h.rings fun j => ?_
  simp only [mem_cons, reduceCtorEq, mem_map, false_or, not_exists, not_and]
  exact fun c hc hn => hfresh j j.isLt c hc (PoolNode.block.inj hn)

theorem removeBlock_spec (h : PoolRep g p F B) (hl : l < g.nLevels) (hb : b ∈ F l) :
    PoolRep g (removeBlock p (blockPtr (g.lsizes l) b)) (update F l ((F l).erase b)) B := by
  refine ⟨h.layout.congr rfl rfl, ?_, h.bits⟩
  obtain ⟨A, C, hbA, hF, herase⟩ := exists_erase_eq hb
  rw [nodes_update F hl, herase, map_append]
  exact isRings_remove (i := ⟨l, hl⟩) (n := nodeOf g l b) (l := A.map (nodeOf g l))
    (r := C.map (nodeOf g l)) h.rings (by simp [hF])

theorem PoolRep.nodup (h : PoolRep g p F B) (hl : l < g.nLevels) : (F l).Nodup :=
    (h.rings.ring ⟨l, hl⟩).nodup_tail.of_map _

/-! ## The invariant -/

/-- The blocks of the last level. -/
def bottom (g : PoolDef) : Set Block := {y | y.1 = g.nLevels - 1 ∧ y.2 < g.nMax * 4 ^ (g.nLevels - 1)}

structure PoolInv (g : PoolDef) (p : Pool) (F : Nat → List Nat) (B : Set Block) (used : List Block) :
    Prop extends PoolRep g p F B where
  lists : ∀ x : Block, x.1 < g.nLevels → (x.2 ∈ F x.1 ↔ x ∈ B ∧ InBuffer g x)
  range : ∀ x ∈ B, g.InRange x
  usedRange : ∀ x ∈ used, g.InRange x
  tiling : Tiling 4 (bottom g) B used

theorem PoolInv.perm {used' : List Block} (h : PoolInv g p F B used) (hp : used'.Perm used) : PoolInv g p F B used' :=
  ⟨h.toPoolRep, h.lists, h.range, fun x hx => h.usedRange x (hp.subset hx), h.tiling.perm hp⟩

section inv

variable (h4 : 4 ∣ g.maxsz) (he : g.EvenLevels)

include h4 he

/-- A block in use is in no list. -/
theorem PoolInv.fresh (h : PoolInv g p F B (x :: used)) {j : Nat} (hj : j < g.nLevels) {c : Nat} (hc : c ∈ F j) :
    blockPtr (g.lsizes j) c ≠ blockPtr (g.lsizes x.1) x.2 := by
  have hfree := ((h.lists (j, c) hj).1 hc).1
  exact he.ptr_ne h4 (h.range _ hfree) (h.usedRange x (by simp)) (h.tiling.across _ hfree x (by simp))

/-- **A block is given back**: its bit is set, and it goes to its list if it fits. It is not the last of four. -/
theorem PoolInv.give (h : PoolInv g p F B (x :: used))
    (hlast : ∀ z, ∀ k < 4, x = child 4 z k → ∃ i < 4, child 4 z i ∉ insert x B) :
    ∃ p1 F', setFreeBit p x.1 x.2 = some p1 ∧ PoolRep g p1 F (insert x B) ∧
    PoolInv g (appendFitting g p1 x.1 (blockPtr (g.lsizes x.1) x.2)) F' (insert x B) used := by
  have hx := h.usedRange x (by simp)
  obtain ⟨p1, hset, hrep⟩ := setFreeBit_spec h4 he h.toPoolRep hx
  have hrange : ∀ y ∈ insert x B, g.InRange y := by
    rintro y (rfl | hy)
    · exact hx
    · exact h.range y hy
  have hused : ∀ y ∈ used, g.InRange y := fun y hy => h.usedRange y (by simp [hy])
  by_cases hfits : InBuffer g x
  · refine ⟨p1, update F x.1 (F x.1 ++ [x.2]), hset, hrep, ?_⟩
    rw [appendFitting, if_pos (by exact hfits)]
    refine ⟨appendBlock_spec hrep hx.1 fun j hj c hc => h.fresh h4 he hj hc, fun y hy => ?_, hrange, hused,
      h.tiling.give hlast⟩
    rw [Set.mem_insert_iff]
    by_cases hl : y.1 = x.1
    · rw [hl, update_self, mem_append, mem_singleton]
      have := h.lists y hy
      rw [hl] at this
      rw [this]
      constructor
      · rintro (⟨hB, hf⟩ | hb)
        · exact ⟨.inr hB, hf⟩
        · obtain rfl : y = x := Prod.ext hl hb
          exact ⟨.inl rfl, hfits⟩
      · rintro ⟨rfl | hB, hf⟩
        · exact .inr rfl
        · exact .inl ⟨hB, hf⟩
    · have hne : y ≠ x := fun e => hl (by rw [e])
      rw [update_of_ne hl, h.lists y hy]
      simp [hne]
  · refine ⟨p1, F, hset, hrep, ?_⟩
    rw [appendFitting, if_neg (by exact hfits)]
    refine ⟨hrep, fun y hy => ?_, hrange, hused, h.tiling.give hlast⟩
    rw [h.lists y hy, Set.mem_insert_iff]
    constructor
    · exact fun ⟨hB, hf⟩ => ⟨.inr hB, hf⟩
    · rintro ⟨rfl | hB, hf⟩
      · exact absurd hf hfits
      · exact ⟨hB, hf⟩

/-- **`block_alloc` (mempool.c:144)** of a level that has a free block. -/
theorem PoolInv.blockAlloc (h : PoolInv g p F B used) (hl : l < g.nLevels) {C : List Nat} (hF : F l = b :: C) :
    ∃ p' F', blockAlloc p l (g.lsizes l) = some (p', some (blockPtr (g.lsizes l) b)) ∧ InBuffer g (l, b) ∧
      PoolInv g p' F' (B \ {(l, b)}) ((l, b) :: used) := by
  obtain ⟨hB, hfits⟩ := (h.lists (l, b) hl).1 (by simp [hF])
  have hx := h.range _ hB
  have h8 := eight_le_lsizes h4 hl
  have hring := h.rings.ring ⟨l, hl⟩
  simp only [hF, map_cons] at hring
  have hget := (sysDlistGet_cons hring).1
  have hrep : PoolRep g (removeBlock p (blockPtr (g.lsizes l) b)) (update F l C) B := by
    have := removeBlock_spec h.toPoolRep hl (b := b) (by simp [hF])
    rwa [hF, erase_cons_head] at this
  have hnum : blockNum (blockPtr (g.lsizes l) b) (g.lsizes l) = b := Nat.mul_div_cancel_left b (by omega)
  obtain ⟨p', hclear, hrep'⟩ := clearFreeBit_spec h4 he hrep hx
  refine ⟨p', update F l C, ?_, hfits, hrep', fun y hy => ?_, fun y hy => h.range y hy.1, ?_, h.tiling.take hB⟩
  · unfold Zephyr.blockAlloc
    rw [hget]
    simp only [nodeOf, hnum]
    show (clearFreeBit (removeBlock p _) l b).bind _ = _
    rw [hclear]
    rfl
  · have hnd := h.nodup hl
    rw [hF, nodup_cons] at hnd
    rw [Set.mem_sdiff, Set.mem_singleton_iff]
    by_cases hyl : y.1 = l
    · have := h.lists y hy
      rw [hyl, hF, mem_cons] at this
      rw [hyl, update_self]
      constructor
      · intro hc
        obtain ⟨hyB, hyf⟩ := this.1 (.inr hc)
        exact ⟨⟨hyB, fun e => hnd.1 (by rw [e] at hc; exact hc)⟩, hyf⟩
      · rintro ⟨⟨hyB, hne⟩, hyf⟩
        exact (this.2 ⟨hyB, hyf⟩).resolve_left fun e => hne (Prod.ext hyl e)
    · have hne : y ≠ (l, b) := fun e => hyl (by rw [e])
      rw [update_of_ne hyl, h.lists y hy]
      simp [hne]
  · intro y hy
    rcases mem_cons.1 hy with rfl | hy
    · exact hx
    · exact h.usedRange y hy

end inv

end Zephyr
