import Zephyr.Mempool.Runs
/-!
# Bits, lists and blocks of a pool agree

In a pool of the documented geometry (blocks are "repeatedly partitioned into quarters, down to blocks of min_size
bytes", kernel.h:4054) every block has a place in the buffer. The free bit of a block then says whether it is in
the list of its level, each minimal block is in one block that is free or live, and blocks whose partners are all
free do not exist: they have been put together. With the last live block freed the pool is as it was at first.
-/
namespace Zephyr

open Ring Buddy PoolDef List Nat

variable {g : PoolDef} {p p' : Pool} {F : Nat → List Nat} {B : Set Block} {used : List Block} {x y : Block}
    {l b : Nat} {s : PoolState}

/-! ## The geometry -/

structure PoolDef.Documented (g : PoolDef) : Prop where
  aligned : 4 ∣ g.minsz
  node : mpoolMinblk ≤ g.minsz
  power : ∃ k, g.maxsz = g.minsz * 4 ^ k

namespace PoolDef.Documented

variable (hg : g.Documented)

include hg

theorem four_dvd : 4 ∣ g.maxsz := by
  obtain ⟨k, hk⟩ := hg.power
  rw [hk]
  exact Dvd.dvd.mul_right hg.aligned _

theorem min_le : g.minsz ≤ g.maxsz := by
  obtain ⟨k, hk⟩ := hg.power
  rw [hk]
  exact Nat.le_mul_of_pos_right _ (Nat.pow_pos (by omega))

theorem eight_le : 8 ≤ g.maxsz := hg.node.trans hg.min_le

/-- Each level is a quarter of the one above. -/
theorem lsizes_eq {k : Nat} (hk : g.maxsz = g.minsz * 4 ^ k) (hl : l ≤ k) : g.lsizes l = g.minsz * 4 ^ (k - l) := by
  induction l with
  | zero => rw [lsizes_zero hg.four_dvd, hk, Nat.sub_zero]
  | succ l ih =>
    have hstep : k - l = (k - (l + 1)) + 1 := by omega
    obtain ⟨m, hm⟩ := hg.aligned
    rw [lsizes, ih (by omega), hstep, pow_succ, hm]
    have hq : 4 * m * (4 ^ (k - (l + 1)) * 4) / 4 = 4 * (m * 4 ^ (k - (l + 1))) := by
      rw [← Nat.mul_assoc, Nat.mul_div_cancel _ (by omega), Nat.mul_assoc]
    rw [hq, align4, mul_assoc]
    omega

theorem nLevels_le {k : Nat} (hk : g.maxsz = g.minsz * 4 ^ k) : g.nLevels ≤ k + 1 := by
  by_contra hlt
  have hmin := minsz_le_of_lt (g := g) hg.node (l := k + 1) (by omega)
  have hnode : 8 ≤ g.minsz := hg.node
  rw [hk, pow_succ, ← Nat.div_div_eq_div_mul, Nat.mul_div_cancel _ (Nat.pow_pos (by omega))] at hmin
  omega

theorem lsizes_succ (hl : l + 1 < g.nLevels) : g.lsizes l = 4 * g.lsizes (l + 1) := by
  obtain ⟨k, hk⟩ := hg.power
  have := hg.nLevels_le hk
  have hstep : k - l = (k - (l + 1)) + 1 := by omega
  rw [hg.lsizes_eq hk (by omega), hg.lsizes_eq hk (by omega), hstep, pow_succ]
  ring

theorem evenLevels : g.EvenLevels := fun _ hl => .inr (hg.lsizes_succ hl)

theorem pow_mul_lsizes (hl : l < g.nLevels) : 4 ^ l * g.lsizes l = g.maxsz := by
  obtain ⟨k, hk⟩ := hg.power
  have := hg.nLevels_le hk
  have hstep : 4 ^ k = 4 ^ l * 4 ^ (k - l) := by rw [← pow_add, Nat.add_sub_cancel' (by omega)]
  rw [hg.lsizes_eq hk (by omega), hk, hstep]
  ring

theorem inBuffer (hx : g.InRange x) : InBuffer g x := by
  rw [InBuffer, blockFits_iff hg.four_dvd hx.1]
  calc g.lsizes x.1 * (x.2 + 1) ≤ g.lsizes x.1 * (g.nMax * 4 ^ x.1) := mul_le_mul_left _ hx.2
    _ = g.nMax * (4 ^ x.1 * g.lsizes x.1) := by ring
    _ = g.bufSize := by rw [hg.pow_mul_lsizes hx.1, bufSize]

end PoolDef.Documented

/-! ## Bits and lists -/

/-- The bit that `get_bit_ptr` finds. -/
def Pool.freeBit (p : Pool) (l b : Nat) : Option Bool := (getBitPtr p l b).map fun w => (p.read w).getLsbD (b % 32)

/-- The list of level `l` has the blocks at the addresses `A`. -/
def Pool.FreeList (p : Pool) (l : Nat) (A : List Nat) : Prop := IsRing p.links (.level l) (A.map .block)

/-- The bytes of the block of level `e.1` at the address `e.2` include those of the minimal block `b`. -/
def PoolDef.Covers (g : PoolDef) (b : Nat) (e : Nat × Nat) : Prop :=
  e.2 ≤ g.lsizes (g.nLevels - 1) * b ∧ g.lsizes (g.nLevels - 1) * (b + 1) ≤ e.2 + g.lsizes e.1

instance decidableCovers (g : PoolDef) (b : Nat) (e : Nat × Nat) : Decidable (g.Covers b e) :=
    inferInstanceAs (Decidable (_ ∧ _))

/-- The blocks of the free lists and the live ones, each with its level and its address. -/
def PoolState.blocks (g : PoolDef) (s : PoolState) (A : Nat → List Nat) : List (Nat × Nat) :=
  ((List.range g.nLevels).flatMap fun l => (A l).map fun a => (l, a)) ++ s.live.map fun a => (a.level, a.data)

structure PoolState.Consistent (g : PoolDef) (s : PoolState) (A : Nat → List Nat) : Prop where
  lists : ∀ l < g.nLevels, s.pool.FreeList l (A l)
  numbered : ∀ l < g.nLevels, ∀ a ∈ A l, ∃ b < g.nMax * 4 ^ l, a = blockPtr (g.lsizes l) b
  bits : ∀ l < g.nLevels, ∀ b < g.nMax * 4 ^ l, s.pool.freeBit l b = some (decide (blockPtr (g.lsizes l) b ∈ A l))
  covered : ∀ b < g.nMax * 4 ^ (g.nLevels - 1), ∃ e, (s.blocks g A).filter (fun e => g.Covers b e) = [e]
  siblings : ∀ l, l + 1 < g.nLevels → ∀ q < g.nMax * 4 ^ l, ∃ i < 4, blockPtr (g.lsizes (l + 1)) (4 * q + i) ∉ A (l + 1)

/-- Two pools have the same blocks in their lists and the same bits set. -/
def SameFree (g : PoolDef) (p p' : Pool) : Prop :=
  (∃ A A' : Nat → List Nat, ∀ l < g.nLevels, p.FreeList l (A l) ∧ p'.FreeList l (A' l) ∧ ∀ a, a ∈ A l ↔ a ∈ A' l) ∧
    ∀ l < g.nLevels, ∀ b < g.nMax * 4 ^ l, p.freeBit l b = p'.freeBit l b

/-! ## What the invariant says about them -/

/-- One element only of a list satisfies `P` if one does and no two do. -/
theorem filter_eq_singleton {α : Type} {P : α → Prop} [DecidablePred P] {L : List α} (hone : ∃ a ∈ L, P a)
    (htwo : L.Pairwise fun a b => ¬ (P a ∧ P b)) : ∃ a, L.filter (fun a => P a) = [a] := by
  obtain ⟨a, ha, hP⟩ := hone
  have hmem : a ∈ L.filter (fun a => P a) := mem_filter.2 ⟨ha, by simpa using hP⟩
  have hpair := htwo.filter (fun a => P a)
  cases hL : L.filter (fun a => P a) with
  | nil => simp [hL] at hmem
  | cons c C =>
    refine ⟨c, ?_⟩
    cases C with
    | nil => rfl
    | cons c' C =>
      have hP' : ∀ e ∈ L.filter (fun a => P a), P e := fun e he => by simpa using (mem_filter.1 he).2
      rw [hL] at hpair hP'
      exact absurd ⟨hP' c (by simp), hP' c' (by simp)⟩ ((pairwise_cons.1 hpair).1 c' (by simp))

def addrs (g : PoolDef) (F : Nat → List Nat) (l : Nat) : List Nat := (F l).map (blockPtr (g.lsizes l))

theorem PoolState.Inv.blocks_eq (h : s.Inv g F B) : s.blocks g (addrs g F) =
    (((List.range g.nLevels).flatMap fun l => (F l).map fun c => ((l, c) : Block)) ++ s.live.map LiveBlock.toBlock).map
      fun x => (x.1, blockPtr (g.lsizes x.1) x.2) := by
  have hlive : s.live.map (fun a => (a.level, a.data)) = (s.live.map LiveBlock.toBlock).map fun x =>
    (x.1, blockPtr (g.lsizes x.1) x.2) := by
    rw [map_map]
    exact map_congr_left fun a ha => Prod.ext rfl (h.live a ha).1
  simp only [PoolState.blocks, addrs, map_append, map_flatMap, hlive, map_map, Function.comp_def]

section facts

variable (hg : g.Documented)

include hg

theorem blockPtr_inj (hl : l < g.nLevels) {c : Nat} (h : blockPtr (g.lsizes l) b = blockPtr (g.lsizes l) c) :
    b = c := by
  have h8 := eight_le_lsizes hg.four_dvd hl
  exact Nat.eq_of_mul_eq_mul_left (by omega) h

theorem mem_addrs (hl : l < g.nLevels) : blockPtr (g.lsizes l) b ∈ addrs g F l ↔ b ∈ F l := by
  constructor
  · intro h
    obtain ⟨c, hc, he⟩ := mem_map.1 h
    rwa [blockPtr_inj hg hl he] at hc
  · exact mem_map_of_mem

theorem PoolInv.mem_list (h : PoolInv g p F B used) (hx : g.InRange x) : x.2 ∈ F x.1 ↔ x ∈ B := by
  rw [h.lists x hx.1]
  exact and_iff_left (hg.inBuffer hx)

theorem PoolRep.freeBit_eq (h : PoolRep g p F B) (hx : g.InRange x) : p.freeBit x.1 x.2 = some (bitOf g p x) := by
  rw [Pool.freeBit, h.layout.getBitPtr_eq hg.four_dvd hg.evenLevels hx]
  rfl

/-- A block has the bytes of its parts. -/
theorem covers_iff (hx : x.1 < g.nLevels) :
    g.Covers b (x.1, blockPtr (g.lsizes x.1) x.2) ↔ Under 4 x (g.nLevels - 1, b) := by
  have h8 := eight_le_lsizes hg.four_dvd (by omega : g.nLevels - 1 < g.nLevels)
  have hpow : g.lsizes x.1 = 4 ^ (g.nLevels - 1 - x.1) * g.lsizes (g.nLevels - 1) := by
    have hsize : g.lsizes x.1 = 4 ^ (g.nLevels - 1 - x.1) * g.lsizes (x.1 + (g.nLevels - 1 - x.1)) :=
      size_eq_pow fun m _ hm => hg.lsizes_succ (by omega)
    rwa [Nat.add_sub_cancel' (by omega)] at hsize
  have hpos : 0 < 4 ^ (g.nLevels - 1 - x.1) := Nat.pow_pos (by omega)
  unfold Covers Under blockPtr
  simp only [hpow]
  generalize g.lsizes (g.nLevels - 1) = m at *
  generalize 4 ^ (g.nLevels - 1 - x.1) = q at *
  have hlo : q * m * x.2 ≤ m * b ↔ x.2 * q ≤ b := by
    rw [show q * m * x.2 = m * (x.2 * q) by ring]
    exact Nat.mul_le_mul_left_iff (by omega)
  have hhi : m * (b + 1) ≤ q * m * x.2 + q * m ↔ b < (x.2 + 1) * q := by
    rw [show q * m * x.2 + q * m = m * ((x.2 + 1) * q) by ring]
    exact Nat.mul_le_mul_left_iff (by omega)
  rw [hlo, hhi, ← le_div_iff_mul_le hpos, ← div_lt_iff_lt_mul hpos]
  omega

/-- Every minimal block is in one block, free or in use. -/
theorem PoolState.Inv.covered (h : s.Inv g F B) (hb : b < g.nMax * 4 ^ (g.nLevels - 1)) :
    ∃ e, (s.blocks g (addrs g F)).filter (fun e => g.Covers b e) = [e] := by
  have hfree : ∀ l < g.nLevels, ∀ c ∈ F l, (l, c) ∈ B := fun l hl c hc => ((h.pool.lists (l, c) hl).1 hc).1
  have hlevel : ∀ x, x ∈ B ∨ x ∈ s.live.map LiveBlock.toBlock → x.1 < g.nLevels := by
    rintro x (hx | hx)
    · exact (h.pool.range x hx).1
    · exact (h.pool.usedRange x hx).1
  have hno : ∀ {x y : Block}, x ∈ B ∨ x ∈ s.live.map LiveBlock.toBlock → y ∈ B ∨
    y ∈ s.live.map LiveBlock.toBlock → x ≠ y →
      ¬ (g.Covers b (x.1, blockPtr (g.lsizes x.1) x.2) ∧ g.Covers b (y.1, blockPtr (g.lsizes y.1) y.2)) := by
    rintro x y hx hy hne ⟨hcx, hcy⟩
    rw [covers_iff hg (hlevel x hx)] at hcx
    rw [covers_iff hg (hlevel y hy)] at hcy
    exact hne (h.pool.tiling.cover_unique hx hy hcx hcy)
  rw [h.blocks_eq]
  refine filter_eq_singleton ?_ ?_
  · obtain ⟨x, hx, hu⟩ := h.pool.tiling.cover (g.nLevels - 1, b) ⟨rfl, hb⟩
    refine ⟨_, mem_map_of_mem (a := x) ?_, (covers_iff hg (hlevel x hx)).2 hu⟩
    rw [mem_append, mem_flatMap]
    refine hx.imp_left fun hx => ⟨x.1, mem_range.2 (h.pool.range x hx).1, mem_map.2 ⟨x.2, ?_, rfl⟩⟩
    exact (h.pool.mem_list hg (h.pool.range x hx)).2 hx
  · rw [pairwise_map, pairwise_append]
    refine ⟨?_, ?_, ?_⟩
    · rw [pairwise_flatMap]
      refine ⟨fun l hl => ?_, ?_⟩
      · have hl := mem_range.1 hl
        rw [pairwise_map]
        refine (h.pool.nodup hl).imp_of_mem fun {c c'} hc hc' hne => ?_
        exact hno (.inl (hfree l hl c hc)) (.inl (hfree l hl c' hc')) fun e => hne (congrArg Prod.snd e)
      · refine (nodup_range).imp_of_mem fun {l l'} hl hl' hne x hx y hy => ?_
        obtain ⟨c, hc, rfl⟩ := mem_map.1 hx
        obtain ⟨c', hc', rfl⟩ := mem_map.1 hy
        exact hno (.inl (hfree l (mem_range.1 hl) c hc)) (.inl (hfree l' (mem_range.1 hl') c' hc'))
          fun e => hne (congrArg Prod.fst e)
    · refine h.pool.tiling.inUse.imp_of_mem fun {x y} hx hy hxy => ?_
      exact hno (.inr hx) (.inr hy) hxy.ne
    · intro x hx y hy
      obtain ⟨l, hl, hx⟩ := mem_flatMap.1 hx
      obtain ⟨c, hc, rfl⟩ := mem_map.1 hx
      have hB := hfree l (mem_range.1 hl) c hc
      exact hno (.inl hB) (.inr hy) (h.pool.tiling.across _ hB y hy).ne

theorem PoolState.Inv.consistent (h : s.Inv g F B) : s.Consistent g (addrs g F) where
  lists l hl := by
    have := h.pool.rings.ring ⟨l, hl⟩
    rwa [Pool.FreeList, addrs, map_map]
  numbered l hl a ha := by
    obtain ⟨c, hc, rfl⟩ := mem_map.1 ha
    exact ⟨c, (h.pool.range _ ((h.pool.lists (l, c) hl).1 hc).1).2, rfl⟩
  bits l hl b hb := by
    have hx : g.InRange (l, b) := ⟨hl, hb⟩
    rw [h.pool.freeBit_eq hg hx, Option.some_inj, Bool.eq_iff_iff, decide_eq_true_eq, mem_addrs hg hl, h.pool.bits _ hx]
    exact (h.pool.mem_list hg hx).symm
  covered b hb := h.covered hg hb
  siblings l hl q hq := by
    obtain ⟨i, hi, hout⟩ := h.pool.tiling.proper (l, q)
    have hx : g.InRange (l, q) := ⟨by simp only; omega, hq⟩
    refine ⟨i, hi, fun hm => hout ?_⟩
    exact (h.pool.mem_list hg (hx.child hl hi)).1 ((mem_addrs hg hl).1 hm)

/-- Pools with no block in use are alike. -/
theorem PoolInv.sameFree {F' : Nat → List Nat} {B' : Set Block} (h : PoolInv g p F B []) (h' : PoolInv g p' F' B' []) :
    SameFree g p p' := by
  have hroots : ∀ {p : Pool} {F : Nat → List Nat} {B : Set Block}, PoolInv g p F B [] →
    B = {x | x.1 = 0 ∧ x.2 < g.nMax} := by
    intro p F B h
    refine h.tiling.free_eq_roots (by omega) fun x hx => ?_
    have := h.range x hx
    exact ⟨le_sub_one_of_lt this.1, this.2⟩
  obtain rfl : B = B' := (hroots h).trans (hroots h').symm
  have hring : ∀ {p : Pool} {F : Nat → List Nat}, PoolInv g p F B [] → ∀ l < g.nLevels, p.FreeList l (addrs g F l) := by
    intro p F h l hl
    have := h.rings.ring ⟨l, hl⟩
    rwa [Pool.FreeList, addrs, map_map]
  refine ⟨⟨addrs g F, addrs g F', fun l hl => ⟨hring h l hl, hring h' l hl, fun a => ?_⟩⟩, fun l hl b hb => ?_⟩
  · have hmem : ∀ c, c ∈ F l ↔ c ∈ F' l := fun c => (h.lists (l, c) hl).trans (h'.lists (l, c) hl).symm
    simp only [addrs, mem_map, hmem]
  · have hx : g.InRange (l, b) := ⟨hl, hb⟩
    rw [h.freeBit_eq hg hx, h'.freeBit_eq hg hx, Option.some_inj, Bool.eq_iff_iff, h.bits _ hx, h'.bits _ hx]

end facts

/-! ## Runs -/

/-- The live blocks can be freed in any order. -/
theorem along_free : ∀ {order : List LiveBlock} {s : PoolState}, order.Perm s.live →
    Runs.Along (PoolOp.exec g) (fun s op => op.Legal s) s (order.map .free)
  | [], _, _ => trivial
  | a :: order, s, hperm => by
    refine ⟨hperm.subset (by simp), fun s' hs' => along_free ?_⟩
    obtain ⟨pool, -, he⟩ := Option.bind_eq_some_iff.1 hs'
    cases he
    exact (cons_perm_iff_perm_erase.1 hperm).2

theorem live_run_free : ∀ {order : List LiveBlock} {s s' : PoolState}, order.Perm s.live →
    Runs.run (PoolOp.exec g) s (order.map .free) = some s' → s'.live = []
  | [], s, s', hperm, hrun => by
    cases hrun
    exact hperm.nil_eq.symm
  | a :: order, s, s', hperm, hrun => by
    rw [map_cons, Runs.run_cons] at hrun
    obtain ⟨s1, hs1, hrun⟩ := Option.bind_eq_some_iff.1 hrun
    refine live_run_free ?_ hrun
    obtain ⟨pool, -, he⟩ := Option.bind_eq_some_iff.1 hs1
    cases he
    exact (cons_perm_iff_perm_erase.1 hperm).2

/-- **Bits, lists and blocks agree after every sequence of calls**, and freeing what is live, in any order, puts
the pool together again. -/
theorem pool_recombines (g : PoolDef) (p : Pool) (hg : g.Documented) (hp : p.Blank) :
    ∃ p0, sysMemPoolBaseInit g p = some p0 ∧
    ∀ ops, Runs.Along (PoolOp.exec g) (fun s op => op.Legal s) ⟨p0, []⟩ ops →
      ∃ s, Runs.run (PoolOp.exec g) ⟨p0, []⟩ ops = some s ∧ (∃ A, s.Consistent g A) ∧
        ∀ order : List LiveBlock, order.Perm s.live →
          ∃ s', Runs.run (PoolOp.exec g) s (order.map .free) = some s' ∧ s'.live = [] ∧ SameFree g s'.pool p0 := by
  have h4 := hg.four_dvd
  have he := hg.evenLevels
  have hpos := nLevels_pos hg.eight_le hg.min_le
  obtain ⟨p0, F0, B0, hinit, hinv⟩ := PoolInv.sysMemPoolBaseInit h4 he hpos hp
  refine ⟨p0, hinit, fun ops hops => ?_⟩
  have hstart : PoolState.Inv g ⟨p0, []⟩ F0 B0 := ⟨hinv, by simp⟩
  obtain ⟨s, hs, F, B, hsinv⟩ := hstart.run h4 he hops
  refine ⟨s, hs, ⟨_, hsinv.consistent hg⟩, fun order hperm => ?_⟩
  obtain ⟨s', hs', F', B', hsinv'⟩ := hsinv.run h4 he (along_free hperm)
  have hlive := live_run_free hperm hs'
  have hpool := hsinv'.pool
  rw [hlive] at hpool
  exact ⟨s', hs', hlive, hpool.sameFree hg hinv⟩

/-- Blocks of both sizes of a pool, freed in the order in which they were taken. -/
theorem pool_recombines_evenPool : ∃ p0 s s', sysMemPoolBaseInit ⟨16, 64, 2⟩ blankPool = some p0 ∧
    Runs.run (PoolOp.exec ⟨16, 64, 2⟩) ⟨p0, []⟩ evenOps = some s ∧ (∃ A, s.Consistent ⟨16, 64, 2⟩ A) ∧
    Runs.run (PoolOp.exec ⟨16, 64, 2⟩) s (s.live.reverse.map .free) = some s' ∧ s'.live = [] ∧
    SameFree ⟨16, 64, 2⟩ s'.pool p0 := by
  have hg : PoolDef.Documented ⟨16, 64, 2⟩ := ⟨by decide, by decide, 1, rfl⟩
  obtain ⟨p0, h0, hall⟩ := pool_recombines ⟨16, 64, 2⟩ blankPool hg ⟨fun _ => rfl, fun _ => rfl⟩
  obtain ⟨s, hs, hcons, hfree⟩ := hall evenOps (evenOps_legal p0 h0)
  obtain ⟨s', hs', hlive, hsame⟩ := hfree s.live.reverse s.live.reverse_perm
  exact ⟨p0, s, s', h0, hs, hcons, hs', hlive, hsame⟩

/-- **Allocation succeeds whenever it can.** After every sequence of calls a request fails exactly if no level of
large enough blocks has a free one (the first level too small is the case without such a level), and then the
pool is as before; otherwise the block is of the smallest size that is large enough. -/
theorem alloc_whenever_possible (g : PoolDef) (p : Pool) (hg : g.Documented) (hp : p.Blank) :
    ∃ p0, sysMemPoolBaseInit g p = some p0 ∧
    ∀ ops, Runs.Along (PoolOp.exec g) (fun s op => op.Legal s) ⟨p0, []⟩ ops →
      ∃ s, Runs.run (PoolOp.exec g) ⟨p0, []⟩ ops = some s ∧
        ∀ size, ∃ p' r, sysMemPoolBlockAlloc g s.pool size = some (p', r) ∧
          (r = .enomem ↔ g.lsizes 0 < size ∨ ∀ l < g.nLevels, size ≤ g.lsizes l → levelEmpty s.pool l = true) ∧
          (r = .enomem → p' = s.pool) ∧
          (r ≠ .enomem → ∃ level block data, r = .ok level block data ∧ level < g.nLevels ∧ size ≤ g.lsizes level ∧
            ∀ l < g.nLevels, size ≤ g.lsizes l → g.lsizes level ≤ g.lsizes l) := by
  have h4 := hg.four_dvd
  have he := hg.evenLevels
  obtain ⟨p0, F0, B0, hinit, hinv⟩ := PoolInv.sysMemPoolBaseInit h4 he (nLevels_pos hg.eight_le hg.min_le) hp
  refine ⟨p0, hinit, fun ops hops => ?_⟩
  have hstart : PoolState.Inv g ⟨p0, []⟩ F0 B0 := ⟨hinv, by simp⟩
  obtain ⟨s, hs, F, B, hsinv⟩ := hstart.run h4 he hops
  refine ⟨s, hs, fun size => ?_⟩
  rcases hsinv.pool.sysMemPoolBlockAlloc h4 he size with ⟨hno, hempty⟩ | ⟨p', F', B', y, halloc, hinv', -,
    hsize, hlast, l, hl, hfit, hfree⟩
  · exact ⟨_, _, hno, ⟨fun _ => .inr hempty, fun _ => rfl⟩, fun _ => rfl, fun h => absurd rfl h⟩
  · have hy := (hinv'.usedRange y (by simp)).1
    refine ⟨_, _, halloc, ⟨nofun, ?_⟩, nofun, fun _ => ⟨_, _, _, rfl, hy, hsize, ?_⟩⟩
    · rintro (hbig | hempty)
      · have := lsizes_anti h4 (zero_le l) hl
        omega
      · simp [hempty l hl hfit] at hfree
    · exact fun l hl hfit => lsizes_anti h4 (hlast l hl hfit) hy

/-- Both blocks of 64 bytes are in use, one of them in parts of 16: another 16 bytes are there, and 64 are not. -/
theorem alloc_whenever_possible_evenPool :
    ∃ p0 s p' level block data, sysMemPoolBaseInit ⟨16, 64, 2⟩ blankPool = some p0 ∧
    Runs.run (PoolOp.exec ⟨16, 64, 2⟩) ⟨p0, []⟩ evenOps = some s ∧
    sysMemPoolBlockAlloc ⟨16, 64, 2⟩ s.pool 64 = some (s.pool, .enomem) ∧
    sysMemPoolBlockAlloc ⟨16, 64, 2⟩ s.pool 16 = some (p', .ok level block data) ∧
    PoolDef.lsizes ⟨16, 64, 2⟩ level ≤ 16 := by
  have hg : PoolDef.Documented ⟨16, 64, 2⟩ := ⟨by decide, by decide, 1, rfl⟩
  obtain ⟨p0, h0, hall⟩ := alloc_whenever_possible ⟨16, 64, 2⟩ blankPool hg ⟨fun _ => rfl, fun _ => rfl⟩
  obtain ⟨s, hs, hsize⟩ := hall evenOps (evenOps_legal p0 h0)
  have hlevels : (some s).map (fun s => (levelEmpty s.pool 0, levelEmpty s.pool 1)) = some (true, false) := by
    rw [← hs, show Runs.run (PoolOp.exec ⟨16, 64, 2⟩) ⟨p0, []⟩ evenOps =
      (sysMemPoolBaseInit ⟨16, 64, 2⟩ blankPool).bind fun p0 =>
      Runs.run (PoolOp.exec ⟨16, 64, 2⟩) ⟨p0, []⟩ evenOps by rw [h0]; rfl]
    decide +kernel
  obtain ⟨hempty, hsome⟩ := Prod.mk.inj (Option.some.inj hlevels)
  obtain ⟨p₁, r₁, halloc₁, hiff₁, hsame₁, -⟩ := hsize 64
  have honly : ∀ l < 2, 64 ≤ PoolDef.lsizes ⟨16, 64, 2⟩ l → l = 0 := by decide
  have hr₁ := hiff₁.2 (.inr fun l hl hfit => honly l hl hfit ▸ hempty)
  obtain ⟨p₂, r₂, halloc₂, hiff₂, -, hok₂⟩ := hsize 16
  have hr₂ : r₂ ≠ .enomem := by
    rw [ne_eq, hiff₂, not_or]
    exact ⟨by decide, fun hall => by simp [hall 1 (by decide) (by decide)] at hsome⟩
  obtain ⟨level, block, data, rfl, -, -, hleast⟩ := hok₂ hr₂
  rw [hr₁, hsame₁ hr₁] at halloc₁
  exact ⟨p0, s, p₂, level, block, data, h0, hs, halloc₁, halloc₂, hleast 1 (by decide) (by decide)⟩

end Zephyr
