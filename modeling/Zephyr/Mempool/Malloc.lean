import Zephyr.Mempool.Runs
/-!
# Allocators on top of the pools (lib/mempool/mempool.c:310, kernel/mempool.c:134-214)

A `size_t` has 32 bits, as pointers have on every architecture there is. `NULL` is `none`; the outer `none` is a
fault of the pool.
-/
namespace Zephyr

def sizeMax : Nat := 2 ^ 32

/-- `sizeof(struct sys_mem_pool_block)` -/
def sysBlockDesc : Nat := 8

/-- `sizeof(struct k_mem_block_id)` -/
def memBlockId : Nat := 4

/-- What is behind a pointer: its block, and level and number as the bit-fields of the descriptor hold them. -/
structure Allocation where
  ptr : Nat
  level : Nat
  data : Nat
  descLevel : Nat
  descBlock : Nat
deriving DecidableEq

section code

variable (g : PoolDef) (p : Pool)

def sysMemPoolAlloc (size : Nat) : Option (Pool × Option Allocation) := do
  match ← sysMemPoolBlockAlloc g p ((size + sysBlockDesc) % sizeMax) with
  | (p, .ok level block data) => some (p, some ⟨data + sysBlockDesc, level, data, level % 2 ^ 4, block % 2 ^ 28⟩)
  | (p, _) => some (p, none)

/-- It is tried once more after `-EAGAIN`. -/
def kMemPoolAllocNoWait (size : Nat) : Option (Pool × AllocResult) := do
  match ← sysMemPoolBlockAlloc g p size with
  | (p, .eagain) =>
    match ← sysMemPoolBlockAlloc g p size with
    | (p, .eagain) => some (p, .enomem)
    | r => some r
  | r => some r

def kMemPoolMalloc (size : Nat) : Option (Pool × Option Allocation) :=
  if sizeMax ≤ size + memBlockId then some (p, none)
  else do
    match ← kMemPoolAllocNoWait g p (size + memBlockId) with
    | (p, .ok level block data) => some (p, some ⟨data + memBlockId, level, data, level % 2 ^ 4, block % 2 ^ 20⟩)
    | (p, _) => some (p, none)

def heapMemPool (heapSize : Nat) : PoolDef := ⟨64, heapSize, 1⟩

def kMalloc (heapSize : Nat) (size : Nat) : Option (Pool × Option Allocation) :=
    kMemPoolMalloc (heapMemPool heapSize) p size

/-- With the bytes from `ptr` on that are zeroed. -/
def kCalloc (heapSize : Nat) (nmemb size : Nat) : Option (Pool × Option (Allocation × Nat)) :=
  if sizeMax ≤ nmemb * size then some (p, none)
  else (kMalloc p heapSize (nmemb * size)).map fun r => (r.1, r.2.map (·, nmemb * size))

def zThreadMalloc (resourcePool : Option (PoolDef × Pool)) (size : Nat) :
    Option (Option (PoolDef × Pool) × Option Allocation) :=
  match resourcePool with
  | none => some (none, none)
  | some (g, p) => (kMemPoolMalloc g p size).map fun r => (some (g, r.1), r.2)

end code

variable {g : PoolDef} {p p' : Pool} {size : Nat}

/-- There is a free block, of a level that the walk down the levels comes to. -/
def PoolDef.HasBlock (g : PoolDef) (p : Pool) (size : Nat) : Prop :=
  ∃ l < g.nLevels, (∀ i ≤ l, size ≤ g.lsizes i) ∧ levelEmpty p l = false

theorem blockAlloc_some {l lsz : Nat} {r : Option Nat} (hl : levelEmpty p l = false)
    (h : blockAlloc p l lsz = some (p', r)) :
    ∃ data, r = some data := by
  unfold blockAlloc sysDlistGet at h
  rw [if_neg (by simpa [levelEmpty] using hl)] at h
  split at h
  · simp_all
  · obtain ⟨p1, -, h⟩ := Option.bind_eq_some_iff.1 h
    cases h
    exact ⟨_, rfl⟩
  · cases h

/-- A request is granted if there is a block, and the block is one of a level whose blocks are large enough. -/
theorem sysMemPoolBlockAlloc_cases {r : AllocResult} (h : sysMemPoolBlockAlloc g p size = some (p', r)) :
    (g.HasBlock p size ∧ ∃ level block data, r = .ok level block data ∧ size ≤ g.lsizes level) ∨
      ¬ g.HasBlock p size ∧ r = .enomem := by
  unfold sysMemPoolBlockAlloc at h
  obtain ⟨k, hk, hstop, hfound⟩ := findLevels_found g.nLevels (found_start g p size)
  rw [Nat.zero_add] at hk hstop
  have hbelow : ∀ l < g.nLevels, (∀ i ≤ l, size ≤ g.lsizes i) → l < k := fun l hl hfit => by
    by_contra hkl
    have := hstop (by omega)
    have := hfit k (by omega)
    omega
  revert h hfound
  generalize findLevels g p size g.nLevels 0 none none = r'
  obtain ⟨allocL, _ | freeL⟩ := r'
  · intro h hfound
    refine .inr ⟨fun ⟨l, hl, hfit, hfree⟩ => ?_, by cases allocL <;> cases h <;> rfl⟩
    rw [hfound.none rfl l (hbelow l hl hfit)] at hfree
    cases hfree
  · intro h hfound
    obtain ⟨hlt, hfree⟩ := hfound.free freeL rfl
    have halloc := hfound.alloc
    cases allocL with
    | none => exact absurd halloc (Nat.ne_of_gt (Nat.zero_lt_of_lt hlt))
    | some level =>
      obtain ⟨⟨p1, got⟩, hgot, h⟩ := Option.bind_eq_some_iff.1 h
      obtain ⟨data, rfl⟩ := blockAlloc_some hfree hgot
      obtain ⟨p2, -, h⟩ := Option.bind_eq_some_iff.1 h
      cases h
      replace halloc : k = level + 1 := halloc
      exact .inl ⟨⟨freeL, by omega, fun i hi => hfound.large i (by omega), hfree⟩, level, _, data, rfl,
        hfound.large level (by omega)⟩

theorem kMemPoolAllocNoWait_ok {level block data : Nat}
    (h : kMemPoolAllocNoWait g p size = some (p', .ok level block data)) :
    size ≤ g.lsizes level := by
  unfold kMemPoolAllocNoWait at h
  obtain ⟨⟨p1, r⟩, hr, h⟩ := Option.bind_eq_some_iff.1 h
  obtain ⟨-, _, _, _, rfl, hsize⟩ | ⟨-, rfl⟩ := sysMemPoolBlockAlloc_cases hr
  · cases h
    exact hsize
  · cases h

/-- The user has `size` bytes behind the descriptor, which is at the start of the block. -/
def Allocation.Holds (a : Allocation) (g : PoolDef) (desc size : Nat) : Prop :=
    a.ptr = a.data + desc ∧ size + desc ≤ g.lsizes a.level

/-- What `sys_mem_pool_alloc` owes for `size`: a block that holds it, and `NULL` if the descriptor cannot be added. -/
def Honours (g : PoolDef) (size : Nat) (r : Option Allocation) : Prop :=
  (∀ a, r = some a → a.Holds g sysBlockDesc size) ∧ (sizeMax ≤ size + sysBlockDesc → r = none)

theorem sysMemPoolAlloc_honours {r : Option Allocation} (h : sysMemPoolAlloc g p size = some (p', r)) :
    Honours g size r ↔ size + sysBlockDesc < sizeMax ∨ ¬ g.HasBlock p ((size + sysBlockDesc) % sizeMax) := by
  unfold sysMemPoolAlloc at h
  obtain ⟨⟨p1, r1⟩, hr, h⟩ := Option.bind_eq_some_iff.1 h
  obtain ⟨hhas, level, block, data, rfl, hsize⟩ | ⟨hno, rfl⟩ := sysMemPoolBlockAlloc_cases hr
  · cases h
    rw [or_iff_left (not_not_intro hhas)]
    refine ⟨fun hh => ?_, fun hlt => ⟨?_, fun hwrap => by omega⟩⟩
    · by_contra hwrap
      cases hh.2 (Nat.le_of_not_lt hwrap)
    · rintro a ⟨⟩
      rw [Nat.mod_eq_of_lt hlt] at hsize
      exact ⟨rfl, hsize⟩
  · cases h
    exact iff_of_true ⟨nofun, fun _ => rfl⟩ (.inr hno)

theorem kMemPoolMalloc_holds {a : Allocation} (h : kMemPoolMalloc g p size = some (p', some a)) :
    size + memBlockId < sizeMax ∧ a.Holds g memBlockId size := by
  unfold kMemPoolMalloc at h
  split at h
  · cases h
  · rename_i hsize
    obtain ⟨⟨p1, r⟩, hr, h⟩ := Option.bind_eq_some_iff.1 h
    cases r with
    | ok =>
      cases h
      exact ⟨Nat.lt_of_not_le hsize, rfl, kMemPoolAllocNoWait_ok hr⟩
    | enomem | eagain => cases h

theorem kCalloc_holds {heapSize nmemb zeroed : Nat} {a : Allocation}
    (h : kCalloc p heapSize nmemb size = some (p', some (a, zeroed))) :
    nmemb * size + memBlockId < sizeMax ∧ a.Holds (heapMemPool heapSize) memBlockId (nmemb * size) ∧
    zeroed = nmemb * size := by
  unfold kCalloc at h
  split at h
  · cases h
  · obtain ⟨⟨p1, r⟩, hr, h⟩ := Option.map_eq_some_iff.1 h
    simp only [Prod.mk.injEq, Option.map_eq_some_iff] at h
    obtain ⟨rfl, b, rfl, rfl, rfl⟩ := h
    obtain ⟨hlt, hholds⟩ := kMemPoolMalloc_holds hr
    exact ⟨hlt, hholds, rfl⟩

/-- **A block is as large as was asked for**, from each of the allocators and whatever the pool has been used for.
For `sys_mem_pool_alloc` this is so exactly if its descriptor can be added to the size or there is no block for
what is left of the sum. The others answer `NULL` where the sum or the product wraps. -/
theorem size_honoured (g : PoolDef) (p : Pool) (heapSize size nmemb : Nat) :
    (∀ p' r, sysMemPoolAlloc g p size = some (p', r) →
      (Honours g size r ↔ size + sysBlockDesc < sizeMax ∨ ¬ g.HasBlock p ((size + sysBlockDesc) % sizeMax))) ∧
    (∀ p' a, kMemPoolMalloc g p size = some (p', some a) → a.Holds g memBlockId size) ∧
    (∀ p' a, kMalloc p heapSize size = some (p', some a) → a.Holds (heapMemPool heapSize) memBlockId size) ∧
    (∀ p' a zeroed, kCalloc p heapSize nmemb size = some (p', some (a, zeroed)) →
      a.Holds (heapMemPool heapSize) memBlockId (nmemb * size) ∧ zeroed = nmemb * size) ∧
    (sizeMax ≤ size + memBlockId → kMemPoolMalloc g p size = some (p, none) ∧
      kMalloc p heapSize size = some (p, none)) ∧
    (sizeMax ≤ nmemb * size + memBlockId → kCalloc p heapSize nmemb size = some (p, none)) := by
  refine ⟨?_, ?_, ?_, ?_, ?_, ?_⟩
  · intro p' r h
    exact sysMemPoolAlloc_honours h
  · intro p' a h
    exact (kMemPoolMalloc_holds h).2
  · intro p' a h
    exact (kMemPoolMalloc_holds h).2
  · intro p' a zeroed h
    exact (kCalloc_holds h).2
  · intro hwrap
    exact ⟨if_pos hwrap, if_pos hwrap⟩
  · intro hwrap
    unfold kCalloc
    split
    · rfl
    · rw [kMalloc, kMemPoolMalloc, if_pos hwrap]
      rfl

theorem size_honoured_evenPool : ∃ p0 p' a, sysMemPoolBaseInit ⟨16, 64, 2⟩ blankPool = some p0 ∧
    sysMemPoolAlloc ⟨16, 64, 2⟩ p0 40 = some (p', some a) ∧ a.Holds ⟨16, 64, 2⟩ sysBlockDesc 40 := by
  have hrun : ((sysMemPoolBaseInit ⟨16, 64, 2⟩ blankPool).bind fun p0 =>
    sysMemPoolAlloc ⟨16, 64, 2⟩ p0 40).map Prod.snd = some (some ⟨8, 0, 0, 0, 0⟩) := by decide +kernel
  obtain ⟨⟨p', r⟩, hs, rfl⟩ := Option.map_eq_some_iff.1 hrun
  obtain ⟨p0, h0, hs⟩ := Option.bind_eq_some_iff.1 hs
  exact ⟨p0, p', _, h0, hs, ((size_honoured ⟨16, 64, 2⟩ p0 0 40 0).1 p' _ hs).2 (.inl (by decide)) |>.1 _ rfl⟩

/-- `sys_mem_pool_alloc` for all there is: the descriptor makes 7 bytes of it, and a block of 16 is given. -/
theorem huge_size_wraps : ∃ p0 p' a, sysMemPoolBaseInit ⟨16, 64, 2⟩ blankPool = some p0 ∧
    sysMemPoolAlloc ⟨16, 64, 2⟩ p0 (2 ^ 32 - 1) = some (p', some a) ∧ PoolDef.lsizes ⟨16, 64, 2⟩ a.level = 16 := by
  have hrun : ((sysMemPoolBaseInit ⟨16, 64, 2⟩ blankPool).bind fun p0 =>
    sysMemPoolAlloc ⟨16, 64, 2⟩ p0 (2 ^ 32 - 1)).map Prod.snd = some (some ⟨8, 1, 0, 1, 0⟩) := by decide +kernel
  obtain ⟨⟨p', r⟩, hs, rfl⟩ := Option.map_eq_some_iff.1 hrun
  obtain ⟨p0, h0, hs⟩ := Option.bind_eq_some_iff.1 hs
  exact ⟨p0, p', _, h0, hs, by decide⟩

end Zephyr
