import Zephyr.Mempool.Ops
import Zephyr.Lib.Runs
/-!
# A pool under every sequence of calls

A run starts with `_sys_mem_pool_base_init` of a pool whose static data is zero, and then allocates blocks of any
size and frees live ones.
-/
namespace Zephyr

open Ring Buddy PoolDef List Nat

variable {g : PoolDef} {p : Pool} {F : Nat → List Nat} {B : Set Block} {used : List Block} {x y : Block} {l b : Nat}

/-! ## Initialisation -/

theorem sysDlistInit_frame {m : Links PoolNode} {h c : PoolNode} (hc : c ≠ h) :
    (sysDlistInit m h).next c = m.next c ∧ (sysDlistInit m h).prev c = m.prev c := by
  simp [sysDlistInit, Links.setNext_next_ne _ _ hc, Links.setPrev_prev_ne _ _ hc]

/-- What the loop over the levels has done after `n` rounds. -/
structure LevelsInit (g : PoolDef) (p : Pool) (n : Nat) (st : Pool × Nat × Nat) : Prop where
  rings : ∀ l < n, IsRing st.1.links (.level l) []
  below : st.1.maxInlineLevel < n
  inline : ∀ l, l < n → ((l : ℤ) ≤ st.1.maxInlineLevel ↔ g.nblocks l < 32)
  bitsP : ∀ l, l < n → 32 ≤ g.nblocks l → st.1.bitsP l = g.offset l
  bits : st.1.bits = p.bits
  words : st.1.words = p.words
  sz : st.2.1 = g.lsizes n
  next : st.2.2 = g.offset n

/-- A level after the inline ones has as many blocks as they have at least. -/
theorem LevelsInit.step (h4 : 4 ∣ g.maxsz) {n : Nat} {st : Pool × Nat × Nat} (h : LevelsInit g p n st)
    (hn : n < g.nLevels) :
    LevelsInit g p (n + 1) (initLevel g st n) := by
  obtain ⟨q, sz, bits⟩ := st
  obtain ⟨hrings, hbelow, hinline, hbitsP, hbits, hwords, hsz, hnext⟩ := h
  simp only at hrings hbelow hinline hbitsP hbits hwords hsz hnext
  subst hsz hnext
  have hring : ∀ l < n + 1, IsRing (sysDlistInit q.links (.level n)) (.level l) [] := by
    intro l hl
    rcases Nat.lt_succ_iff_lt_or_eq.1 hl with hl | rfl
    · refine (hrings l hl).frame fun c hc => ?_
      obtain rfl : c = .level l := by simpa using hc
      exact sysDlistInit_frame fun e => absurd (PoolNode.level.inj e) (by omega)
    · exact isRing_init _ _
  by_cases hin : g.bufSize / g.lsizes n < 32
  · simp only [initLevel, if_pos hin]
    refine ⟨hring, by simp only; omega, fun l hl => ?_, fun l hl hb => ?_, hbits, hwords, rfl, ?_⟩
    · have := nblocks_mono h4 (Nat.lt_succ_iff.1 hl) hn
      have hlast : g.nblocks n < 32 := hin
      simp only
      omega
    · rcases Nat.lt_succ_iff_lt_or_eq.1 hl with hl | rfl
      · exact hbitsP l hl hb
      · exact absurd hin (by unfold nblocks at hb; omega)
    · simp only
      rw [offset, if_pos (by exact hin)]
  · simp only [initLevel, if_neg hin]
    refine ⟨hring, by simp only; omega, fun l hl => ?_, fun l hl hb => ?_, hbits, hwords, rfl, ?_⟩
    · rcases Nat.lt_succ_iff_lt_or_eq.1 hl with hl | rfl
      · exact hinline l hl
      · exact iff_of_false (by simp only; omega) hin
    · rcases Nat.lt_succ_iff_lt_or_eq.1 hl with hl | rfl
      · simp only [Function.update_of_ne hl.ne]
        exact hbitsP l hl hb
      · simp
    · simp only
      rw [offset, if_neg (by exact hin)]
      rfl

theorem levelsInit (h4 : 4 ∣ g.maxsz) (p : Pool) {n : Nat} (hn : n ≤ g.nLevels) :
    LevelsInit g p n ((List.range n).foldl (initLevel g) ({ p with maxInlineLevel := -1 }, g.maxsz, 0)) := by
  induction n with
  | zero => exact ⟨by simp, by simp, by simp, by simp, rfl, rfl, (lsizes_zero h4).symm, rfl⟩
  | succ n ih =>
    rw [range_succ, foldl_append]
    exact (ih (by omega)).step h4 hn

/-- The blocks of level 0. -/
def roots (g : PoolDef) : List Block := (List.range g.nMax).map fun i => (0, i)

theorem tiling_roots (g : PoolDef) : Tiling 4 (bottom g) ∅ (roots g) where
  among := by simp
  across := by simp
  inUse := by
    rw [roots, pairwise_map]
    refine (nodup_range).imp fun {i j} hij => ?_
    simp only [Apart, Under, le_refl, true_and, Nat.sub_self, pow_zero, Nat.div_one]
    exact ⟨fun e => hij e.symm, hij⟩
  cover := by
    rintro ⟨l, b⟩ ⟨hl, hb⟩
    refine ⟨(0, b / 4 ^ l), .inr ?_, Nat.zero_le _, rfl⟩
    simp only at hl hb
    rw [← hl, Nat.mul_comm] at hb
    exact List.mem_map.2 ⟨_, List.mem_range.2 (Nat.div_lt_of_lt_mul hb), rfl⟩
  proper _ := ⟨0, by omega, by simp⟩

theorem setFreeBit_appendBlock (p : Pool) (l b a : Nat) :
    setFreeBit (appendBlock p l a) l b = (setFreeBit p l b).map fun p => appendBlock p l a := by
  have hptr : getBitPtr (appendBlock p l a) l b = getBitPtr p l b := rfl
  unfold setFreeBit
  rw [hptr]
  cases getBitPtr p l b with
  | none => rfl
  | some w => cases w <;> rfl

theorem nLevels_pos (h8 : 8 ≤ g.maxsz) (hmin : g.minsz ≤ g.maxsz) : 0 < g.nLevels := by
  have hone : mpoolHaveLvl g.maxsz (if mpoolMinblk ≤ g.minsz then g.minsz else mpoolMinblk) 0 = 1 := by
    refine if_pos ?_
    show (if mpoolMinblk ≤ g.minsz then g.minsz else mpoolMinblk) ≤ g.maxsz
    split
    · exact hmin
    · exact h8
  unfold nLevels mpoolLvls
  rw [show List.range 16 = 0 :: List.range' 1 15 from rfl, map_cons, sum_cons, hone]
  omega

section init

variable (h4 : 4 ∣ g.maxsz) (he : g.EvenLevels)

include h4 he

/-- Each round of the loop over the blocks gives one block of level 0 to its list. -/
theorem PoolInv.initBlocks (hpos : 0 < g.nLevels) (L : List Nat) : ∀ {p : Pool} {F : Nat → List Nat} {B : Set Block},
    PoolInv g p F B (L.map fun i => (0, i)) → ∃ p' F' B', L.foldlM (initBlock g) p = some p' ∧
    PoolInv g p' F' B' [] := by
  induction L with
  | nil => exact fun h => ⟨_, _, _, rfl, h⟩
  | cons i L ih =>
    intro p F B h
    obtain ⟨p1, F1, hset, -, h1⟩ := h.give h4 he fun z k _ hz => by simp [child] at hz
    have hi := (h.usedRange (0, i) (by simp)).2
    have hfits : g.blockFits (blockPtr (g.lsizes 0) i) (g.lsizes 0) = true := by
      rw [blockFits_iff h4 hpos, lsizes_zero h4, mul_comm]
      exact mul_le_mul_right _ (succ_le_of_lt (by simpa using hi))
    rw [appendFitting, if_pos hfits, lsizes_zero h4] at h1
    obtain ⟨p2, F2, B2, hfold, h2⟩ := ih h1
    refine ⟨p2, F2, B2, ?_, h2⟩
    have hblock : initBlock g p i = some (appendBlock p1 0 (blockPtr g.maxsz i)) := by
      rw [initBlock, if_neg (by omega), setFreeBit_appendBlock, show setFreeBit p 0 i = some p1 from hset]
      rfl
    rw [foldlM_cons, hblock]
    exact hfold

/-- **`_sys_mem_pool_base_init` (mempool.c:79)** ends with every block free and none in use. -/
theorem PoolInv.sysMemPoolBaseInit (hpos : 0 < g.nLevels) (hp : p.Blank) :
    ∃ p' F' B', sysMemPoolBaseInit g p = some p' ∧ PoolInv g p' F' B' [] := by
  have hl := levelsInit h4 p (le_refl g.nLevels)
  unfold Zephyr.sysMemPoolBaseInit
  generalize (List.range g.nLevels).foldl (initLevel g) ({ p with maxInlineLevel := -1 }, g.maxsz, 0) = st at hl ⊢
  obtain ⟨q, sz, bits⟩ := st
  have hzero : ∀ w, q.read w = 0#32 := by
    have hb : q.bits = p.bits := hl.bits
    have hw : q.words = p.words := hl.words
    intro w
    cases w with
    | bits l => show q.bits l = _; rw [hb, hp.bits]
    | word i => show q.words i = _; rw [hw, hp.words]
  refine PoolInv.initBlocks h4 he hpos (F := fun _ => []) (B := ∅) _ ⟨⟨⟨hl.inline, hl.bitsP⟩, ⟨?_, ?_⟩, ?_⟩,
    ?_, ?_, ?_, tiling_roots g⟩
  · exact fun i => hl.rings i i.isLt
  · intro i j hij c hc hc'
    simp only [map_nil, mem_singleton] at hc hc'
    exact hij (Fin.ext (PoolNode.level.inj (hc.symm.trans hc')))
  · intro x _
    simp [bitOf, hzero]
  · simp
  · simp
  · intro x hx
    obtain ⟨i, hi, rfl⟩ := List.mem_map.1 hx
    exact ⟨hpos, by simpa using hi⟩

end init

/-! ## Allocation -/

/-- What the walk down the levels has found when it stops at level `i`: `alloc_l` is the level above, and `free_l` is
not below it and has a free block. -/
structure Found (g : PoolDef) (p : Pool) (size i : Nat) (allocL freeL : Option Nat) : Prop where
  large : ∀ l < i, size ≤ g.lsizes l
  alloc : i = allocL.elim 0 (· + 1)
  free : ∀ f ∈ freeL, f < i ∧ levelEmpty p f = false
  none : freeL = none → ∀ l < i, levelEmpty p l = true

theorem found_start (g : PoolDef) (p : Pool) (size : Nat) : Found g p size 0 none none :=
    ⟨by simp, rfl, by simp, by simp⟩

theorem findLevels_found {size : Nat} (n : Nat) :
    ∀ {i : Nat} {allocL freeL : Option Nat}, Found g p size i allocL freeL →
    ∃ k ≤ i + n, (k < i + n → g.lsizes k < size) ∧
      Found g p size k (findLevels g p size n i allocL freeL).1 (findLevels g p size n i allocL freeL).2 := by
  induction n with
  | zero => exact fun {i} _ _ h => ⟨i, le_rfl, fun hk => absurd hk (lt_irrefl _), h⟩
  | succ n ih =>
    intro i allocL freeL h
    unfold findLevels
    split
    · rename_i hsz
      exact ⟨i, by omega, fun _ => hsz, h⟩
    · rename_i hsz
      have hbelow : ∀ {l : Nat}, l < i + 1 → l < i ∨ l = i := fun hl => by omega
      rw [show i + (n + 1) = i + 1 + n by omega]
      refine ih ⟨?_, rfl, ?_, ?_⟩
      · intro l hl
        rcases hbelow hl with hl | rfl
        · exact h.large l hl
        · omega
      · intro f hf
        split at hf
        · exact ⟨by have := (h.free f hf).1; omega, (h.free f hf).2⟩
        · cases hf
          exact ⟨by omega, by simp_all⟩
      · intro hnone l hl
        split at hnone
        · rcases hbelow hl with hl | rfl
          · exact h.none hnone l hl
          · assumption
        · cases hnone

section alloc

variable (h4 : 4 ∣ g.maxsz) (he : g.EvenLevels)

include h4 he

/-- **`_sys_mem_pool_block_alloc` (mempool.c:223)** has no memory, or puts one more block in use: one of the last level
that is large enough. -/
theorem PoolInv.sysMemPoolBlockAlloc (h : PoolInv g p F B used) (size : Nat) :
    (Zephyr.sysMemPoolBlockAlloc g p size = some (p, .enomem) ∧ ∀ l < g.nLevels, size ≤ g.lsizes l →
      levelEmpty p l = true) ∨
      ∃ p' F' B' y, Zephyr.sysMemPoolBlockAlloc g p size = some (p', .ok y.1 y.2 (blockPtr (g.lsizes y.1) y.2)) ∧
        PoolInv g p' F' B' (y :: used) ∧ InBuffer g y ∧ size ≤ g.lsizes y.1 ∧
        (∀ l < g.nLevels, size ≤ g.lsizes l → l ≤ y.1) ∧ ∃ l < g.nLevels, size ≤ g.lsizes l ∧
        levelEmpty p l = false := by
  obtain ⟨k, hk, hstop, hfound⟩ := findLevels_found g.nLevels (found_start g p size)
  rw [zero_add] at hk hstop
  -- the levels below are smaller still
  have hlast : ∀ l < g.nLevels, size ≤ g.lsizes l → l < k := by
    intro l hl hsize
    by_contra hkl
    have := lsizes_anti h4 (Nat.le_of_not_lt hkl) hl
    have := hstop (by omega)
    omega
  unfold Zephyr.sysMemPoolBlockAlloc
  generalize findLevels g p size g.nLevels 0 none none = r at hfound ⊢
  obtain ⟨allocL, freeL⟩ := r
  cases freeL with
  | none =>
    refine .inl ⟨?_, fun l hl hsize => hfound.none rfl l (hlast l hl hsize)⟩
    cases allocL <;> rfl
  | some f =>
    obtain ⟨hfk, hne⟩ := hfound.free f rfl
    cases allocL with
    | none => exact absurd hfk (by rw [hfound.alloc]; exact not_lt_zero _)
    | some a =>
      right
      obtain rfl : k = a + 1 := hfound.alloc
      have hsize := hfound.large a (by omega)
      have hf : f < g.nLevels := by omega
      -- the list of level `free_l` is not empty
      obtain ⟨b, C, hF⟩ : ∃ b C, F f = b :: C := by
        cases hF : F f with
        | nil =>
          have hring := h.rings.ring ⟨f, hf⟩
          simp only [hF, map_nil] at hring
          have := (sysDlistIsEmpty_iff hring).2 rfl
          rw [levelEmpty] at hne
          simp [this] at hne
        | cons b C => exact ⟨b, C, rfl⟩
      obtain ⟨p1, F1, halloc, hbuf, h1⟩ := h.blockAlloc h4 he hf hF
      obtain ⟨p2, F2, B2, y, hdown, h2, hy, hptr, hybuf⟩ := h1.breakDown h4 he (a - f) (by simp only; omega) hbuf
      have hya : y.1 = a := by rw [hy]; simp only; omega
      have h8 := eight_le_lsizes h4 (h2.usedRange y (by simp)).1
      have hnum : blockNum (blockPtr (g.lsizes f) b) (g.lsizes a) = y.2 := by
        rw [← hptr, hya, blockNum, blockPtr]
        rw [hya] at h8
        exact Nat.mul_div_cancel_left _ (by omega)
      refine ⟨p2, F2, B2, y, ?_, h2, hybuf, by rwa [hya], fun l hl hsz => ?_, f, hf, hfound.large f hfk, hne⟩
      · simp only [halloc, Option.bind_eq_bind, Option.bind_some]
        rw [show Zephyr.breakDown g (blockPtr (g.lsizes f) b) (a - f) f p1 = some p2 from hdown, hptr, hya, hnum]
        rfl
      · rw [hya]
        exact le_of_lt_succ (hlast l hl hsz)

end alloc

/-! ## Runs -/

def LiveBlock.toBlock (a : LiveBlock) : Block := (a.level, a.block)

/-- The invariant with the live blocks in use, each at the place and with the size it was given. -/
structure PoolState.Inv (g : PoolDef) (s : PoolState) (F : Nat → List Nat) (B : Set Block) : Prop where
  pool : PoolInv g s.pool F B (s.live.map LiveBlock.toBlock)
  live : ∀ a ∈ s.live, a.data = blockPtr (g.lsizes a.level) a.block ∧ InBuffer g a.toBlock ∧ a.size ≤ g.lsizes a.level

section runs

variable {s : PoolState} (h4 : 4 ∣ g.maxsz) (he : g.EvenLevels)

include h4 he

theorem PoolState.Inv.exec (h : s.Inv g F B) (op : PoolOp) (hop : op.Legal s) :
    ∃ s', op.exec g s = some s' ∧ ∃ F' B', s'.Inv g F' B' := by
  cases op with
  | alloc size =>
    rcases h.pool.sysMemPoolBlockAlloc h4 he size with ⟨hno, -⟩ | ⟨p', F', B', y, halloc, hinv, hbuf, hsize, -⟩
    · refine ⟨⟨s.pool, s.live⟩, ?_, F, B, h⟩
      simp only [PoolOp.exec, hno]
      rfl
    · refine ⟨⟨p', ⟨y.1, y.2, blockPtr (g.lsizes y.1) y.2, size⟩ :: s.live⟩, ?_, F', B', hinv, ?_⟩
      · simp only [PoolOp.exec, halloc]
        rfl
      · intro a ha
        rcases mem_cons.1 ha with rfl | ha
        · exact ⟨rfl, hbuf, hsize⟩
        · exact h.live a ha
  | free a =>
    have hperm : (a.toBlock :: (s.live.erase a).map LiveBlock.toBlock).Perm (s.live.map LiveBlock.toBlock) :=
      ((perm_cons_erase hop).map LiveBlock.toBlock).symm
    obtain ⟨p', F', B', hfree, hinv⟩ := (h.pool.perm hperm).blockFree h4 he
    refine ⟨⟨p', s.live.erase a⟩, ?_, F', B', hinv, fun c hc => h.live c (mem_of_mem_erase hc)⟩
    simp only [PoolOp.exec, sysMemPoolBlockFree]
    rw [show Zephyr.blockFree g s.pool a.level a.block = some p' from hfree]
    rfl

theorem PoolState.Inv.run (h : s.Inv g F B) {ops : List PoolOp}
    (hops : Runs.Along (PoolOp.exec g) (fun s op => op.Legal s) s ops) :
    ∃ s', Runs.run (PoolOp.exec g) s ops = some s' ∧ ∃ F' B', s'.Inv g F' B' :=
  Runs.run_total (fun _ op ⟨_, _, hs⟩ hop => hs.exec h4 he op hop) ⟨F, B, h⟩ hops

theorem PoolState.Inv.good (h : s.Inv g F B) : s.Good g := by
  have hrange : ∀ a ∈ s.live, g.InRange a.toBlock := fun a ha => h.pool.usedRange _ (mem_map_of_mem ha)
  constructor
  · have happart := h.pool.tiling.inUse
    rw [pairwise_map] at happart
    refine happart.imp_of_mem fun {a b} ha hb hab => ?_
    have := he.disjoint (hrange a ha) (hrange b hb) hab
    rw [(h.live a ha).1, (h.live b hb).1]
    simp only [blockPtr]
    simp only [LiveBlock.toBlock] at this
    rwa [mul_add, mul_one, mul_add, mul_one] at this
  · intro a ha
    obtain ⟨hdata, hbuf, hsize⟩ := h.live a ha
    refine ⟨?_, hsize⟩
    have hle := (blockFits_iff h4 (hrange a ha).1 _).1 hbuf
    rw [hdata]
    calc blockPtr (g.lsizes a.level) a.block + g.lsizes a.level = g.lsizes a.level * (a.block + 1) := by
          rw [blockPtr, mul_add, mul_one]
      _ ≤ g.nMax * g.maxsz := hle
      _ ≤ g.nmax * g.maxsz := mul_le_mul_right _ (mod_le _ _)

end runs

/-- **No two live blocks overlap** in a pool whose levels are even, whatever is allocated and freed. -/
theorem liveBlocks_disjoint (g : PoolDef) (p : Pool) (hmin : g.minsz ≤ g.maxsz) (h4 : 4 ∣ g.maxsz)
    (h8 : 8 ≤ g.maxsz) (he : g.EvenLevels) (hp : p.Blank) : ∃ p0, sysMemPoolBaseInit g p = some p0 ∧
      ∀ ops, Runs.Along (PoolOp.exec g) (fun s op => op.Legal s) ⟨p0, []⟩ ops →
        ∃ s, Runs.run (PoolOp.exec g) ⟨p0, []⟩ ops = some s ∧ s.Good g := by
  obtain ⟨p0, F, B, hinit, hinv⟩ := PoolInv.sysMemPoolBaseInit h4 he (nLevels_pos h8 hmin) hp
  refine ⟨p0, hinit, fun ops hops => ?_⟩
  have hstart : PoolState.Inv g ⟨p0, []⟩ F B := ⟨hinv, by simp⟩
  obtain ⟨s, hs, F', B', hs'⟩ := hstart.run h4 he hops
  exact ⟨s, hs, hs'.good h4 he⟩

/-- Static data. -/
def blankPool : Pool := ⟨⟨id, id⟩, 0, fun _ => 0#32, fun _ => 0, fun _ => 0#32⟩

def evenOps : List PoolOp := [.alloc 10, .alloc 64, .alloc 16, .free ⟨1, 0, 0, 10⟩, .alloc 12]

theorem evenLevels_evenPool : EvenLevels ⟨16, 64, 2⟩ := by
  intro l hl
  have hlevels : (⟨16, 64, 2⟩ : PoolDef).nLevels = 2 := by decide
  obtain rfl : l = 0 := by omega
  exact .inr (by decide)

theorem evenOps_legal : ∀ p0 ∈ sysMemPoolBaseInit ⟨16, 64, 2⟩ blankPool,
    Runs.Along (PoolOp.exec ⟨16, 64, 2⟩) (fun s op => op.Legal s) ⟨p0, []⟩ evenOps := by decide +kernel

theorem liveBlocks_disjoint_evenPool : ∃ p0 s, sysMemPoolBaseInit ⟨16, 64, 2⟩ blankPool = some p0 ∧
    Runs.run (PoolOp.exec ⟨16, 64, 2⟩) ⟨p0, []⟩ evenOps = some s ∧ s.Good ⟨16, 64, 2⟩ := by
  obtain ⟨p0, h0, hall⟩ := liveBlocks_disjoint ⟨16, 64, 2⟩ blankPool (by decide) (by decide)
    (by decide) evenLevels_evenPool ⟨fun _ => rfl, fun _ => rfl⟩
  obtain ⟨s, hs, hgood⟩ := hall evenOps (evenOps_legal p0 h0)
  exact ⟨p0, s, h0, hs, hgood⟩

/-- With blocks of 68 bytes the next level has blocks of 20, and the fourth of them ends 12 bytes into the second
block of 68. -/
theorem rounded_overlap : ∃ p0 s, sysMemPoolBaseInit ⟨16, 68, 2⟩ blankPool = some p0 ∧
    Runs.Along (PoolOp.exec ⟨16, 68, 2⟩) (fun s op => op.Legal s) ⟨p0, []⟩ [.alloc 20, .alloc 20, .alloc 20,
      .alloc 20, .alloc 68] ∧
    Runs.run (PoolOp.exec ⟨16, 68, 2⟩) ⟨p0, []⟩ [.alloc 20, .alloc 20, .alloc 20, .alloc 20, .alloc 68] = some s ∧
    s.live.map LiveBlock.data = [68, 60, 40, 20, 0] ∧ ¬ s.Good ⟨16, 68, 2⟩ := by
  have hrun : ((sysMemPoolBaseInit ⟨16, 68, 2⟩ blankPool).bind fun p0 =>
      Runs.run (PoolOp.exec ⟨16, 68, 2⟩) ⟨p0, []⟩ [.alloc 20, .alloc 20, .alloc 20, .alloc 20,
        .alloc 68]).map PoolState.live =
        some [⟨0, 1, 68, 68⟩, ⟨1, 3, 60, 20⟩, ⟨1, 2, 40, 20⟩, ⟨1, 1, 20, 20⟩, ⟨1, 0, 0, 20⟩] := by decide +kernel
  obtain ⟨s, hs, hlive⟩ := Option.map_eq_some_iff.1 hrun
  obtain ⟨p0, h0, hs⟩ := Option.bind_eq_some_iff.1 hs
  refine ⟨p0, s, h0, ?_, hs, by rw [hlive]; rfl, ?_⟩
  · simp [Runs.Along, PoolOp.Legal]
  · rintro ⟨hpair, -⟩
    rw [hlive] at hpair
    have := (pairwise_cons.1 hpair).1 ⟨1, 3, 60, 20⟩ (by simp)
    revert this
    decide

end Zephyr
