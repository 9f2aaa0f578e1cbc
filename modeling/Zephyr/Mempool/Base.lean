import Zephyr.Misc.Dlist
import Zephyr.Lib.Buddy
/-!
# Memory pools (lib/mempool/mempool.c, include/misc/mempool_base.h)

A buddy allocator in four parts: the buffer has `n_max` blocks of `max_sz` bytes, and a block of one level is
broken into four of the next. Every level has a list of its free blocks, whose nodes are in the blocks
themselves, and a bit for each of its blocks that is set while the block is free.

Addresses are offsets from `buf`. The calls come one after another, so that the locks are left out. An
access to the `bits` of a level beyond their one word is a fault (`none`): it is the level's list that is
written there. `bits` and `bits_p` share their place; they are two fields here, for no level uses both.
-/
namespace Zephyr

open Ring Function

def align4 (n : Nat) : Nat := (n + 3) / 4 * 4

/-- `sizeof(sys_dnode_t)`: two pointers of 32 bits. -/
def mpoolMinblk : Nat := 8

def mpoolHaveLvl (max min l : Nat) : Nat := if min ≤ max >>> (2 * l) then 1 else 0

def mpoolLvls (max min : Nat) : Nat :=
  ((List.range 16).map (mpoolHaveLvl max (if mpoolMinblk ≤ min then min else mpoolMinblk))).sum

/-- The words for the bits of level `l`: none where one word of the level itself is enough. -/
def mpoolLbitWords (nMax l : Nat) : Nat := if (nMax <<< (2 * l) + 31) / 32 < 2 then 0 else (nMax <<< (2 * l) + 31) / 32

/-- The comparison is `>=`, so that one level more than there are has its bytes. -/
def mpoolLbitBytes (maxsz minsz l nMax : Nat) : Nat :=
    if l ≤ mpoolLvls maxsz minsz then 4 * mpoolLbitWords nMax l else 0

def mpoolBitsSize (maxsz minsz nMax : Nat) : Nat := ((List.range 16).map fun l => mpoolLbitBytes maxsz minsz l nMax).sum

structure PoolDef where
  minsz : Nat
  maxsz : Nat
  nmax : Nat

namespace PoolDef

variable (g : PoolDef)

/-- `n_max` is a `u16_t`. -/
def nMax : Nat := g.nmax % 2 ^ 16

def nLevels : Nat := mpoolLvls g.maxsz g.minsz

def bufSize : Nat := g.nMax * g.maxsz

/-- `lsizes` (mempool.c:237-241) -/
def lsizes : Nat → Nat
  | 0 => align4 g.maxsz
  | i + 1 => align4 (lsizes i / 4)

def blockFits (block bsz : Nat) : Bool := block + bsz - 1 < g.bufSize

end PoolDef

inductive PoolNode where
  | level (l : Nat)
  | block (addr : Nat)
deriving DecidableEq

structure Pool where
  links : Links PoolNode
  maxInlineLevel : ℤ
  /-- `bits` of each level -/
  bits : Nat → BitVec 32
  /-- `bits_p` of each level, in words from the end of the buffer -/
  bitsP : Nat → Nat
  /-- the words behind the buffer -/
  words : Nat → BitVec 32

/-- A `u32_t *`. -/
inductive WordPtr where
  | bits (l : Nat)
  | word (i : Nat)
deriving DecidableEq

namespace Pool

def read (p : Pool) : WordPtr → BitVec 32
  | .bits l => p.bits l
  | .word i => p.words i

def write (p : Pool) (w : WordPtr) (v : BitVec 32) : Pool :=
  match w with
  | .bits l => { p with bits := update p.bits l v }
  | .word i => { p with words := update p.words i v }

end Pool

/-! ## Blocks and bits -/

def levelEmpty (p : Pool) (l : Nat) : Bool := sysDlistIsEmpty p.links (.level l)

def blockPtr (lsz block : Nat) : Nat := lsz * block

def blockNum (block sz : Nat) : Nat := block / sz

/-- The word of the bit; the bit in it is `bn & 0x1f`. -/
def getBitPtr (p : Pool) (level bn : Nat) : Option WordPtr :=
  if (level : ℤ) ≤ p.maxInlineLevel then if bn / 32 = 0 then some (.bits level) else none
  else some (.word (p.bitsP level + bn / 32))

def setFreeBit (p : Pool) (level bn : Nat) : Option Pool := do
  let w ← getBitPtr p level bn
  some (p.write w (p.read w ||| (1#32 <<< (bn % 32))))

def clearFreeBit (p : Pool) (level bn : Nat) : Option Pool := do
  let w ← getBitPtr p level bn
  some (p.write w (p.read w &&& ~~~(1#32 <<< (bn % 32))))

def partnerBits (p : Pool) (level bn : Nat) : Option (BitVec 32) := do
  let w ← getBitPtr p level bn
  some ((p.read w >>> (4 * (bn % 32 / 4))) &&& 0xf#32)

def appendBlock (p : Pool) (level block : Nat) : Pool :=
  { p with links := sysDlistAppend p.links (.level level) (.block block) }

def removeBlock (p : Pool) (block : Nat) : Pool := { p with links := sysDlistRemove p.links (.block block) }

section code

variable (g : PoolDef)

/-! ## Initialisation -/

/-- The body of the loop over the levels (mempool.c:87-100); with it `sz` and `bits`. -/
def initLevel (st : Pool × Nat × Nat) (i : Nat) : Pool × Nat × Nat :=
  let (p, sz, bits) := st
  let nblocks := g.bufSize / sz
  let p := { p with links := sysDlistInit p.links (.level i) }
  if nblocks < 32 then ({ p with maxInlineLevel := i }, align4 (sz / 4), bits)
  else ({ p with bitsP := update p.bitsP i bits }, align4 (sz / 4), bits + (nblocks + 31) / 32)

/-- The body of the loop over the blocks (mempool.c:102-107); `levels[0]` has to exist. -/
def initBlock (p : Pool) (i : Nat) : Option Pool :=
  if g.nLevels = 0 then none else setFreeBit (appendBlock p 0 (blockPtr g.maxsz i)) 0 i

def sysMemPoolBaseInit (p : Pool) : Option Pool :=
  let (p, _, _) := (List.range g.nLevels).foldl (initLevel g) ({ p with maxInlineLevel := -1 }, g.maxsz, 0)
  (List.range g.nMax).foldlM (initBlock g) p

/-! ## Taking and giving blocks -/

def blockAlloc (p : Pool) (l lsz : Nat) : Option (Pool × Option Nat) :=
  match sysDlistGet p.links (.level l) with
  | (_, none) => some (p, none)
  | (links, some (.block block)) => do
    let p ← clearFreeBit { p with links := links } l (blockNum block lsz)
    some (p, some block)
  | (_, some (.level _)) => none

/-- A free block goes to its list if the buffer has room for it. -/
def appendFitting (p : Pool) (level block : Nat) : Pool :=
  if g.blockFits block (g.lsizes level) then appendBlock p level block else p

/-- The body of the loop over the partners (mempool.c:169-177). -/
def clearPartner (level bn : Nat) (p : Pool) (i : Nat) : Option Pool := do
  let b := 4 * (bn / 4) + i
  let p ← clearFreeBit p level b
  let block := blockPtr (g.lsizes level) b
  some (if b ≠ bn ∧ g.blockFits block (g.lsizes level) then removeBlock p block else p)

def blockFree (p : Pool) : Nat → Nat → Option Pool
  | 0, bn => do
    let p ← setFreeBit p 0 bn
    some (appendFitting g p 0 (blockPtr (g.lsizes 0) bn))
  | level + 1, bn => do
    let p ← setFreeBit p (level + 1) bn
    let partners ← partnerBits p (level + 1) bn
    if partners = 0xf#32 then do
      let p ← [0, 1, 2, 3].foldlM (clearPartner g (level + 1) bn) p
      blockFree p level (bn / 4)
    else some (appendFitting g p (level + 1) (blockPtr (g.lsizes (level + 1)) bn))

/-- What `block_free` does under one lock, and the level and number with which it goes on if it has joined the block. -/
def blockFreeSection (p : Pool) : Nat → Nat → Option (Pool × Option (Nat × Nat))
  | 0, bn => do
    let p ← setFreeBit p 0 bn
    some (appendFitting g p 0 (blockPtr (g.lsizes 0) bn), none)
  | level + 1, bn => do
    let p ← setFreeBit p (level + 1) bn
    let partners ← partnerBits p (level + 1) bn
    if partners = 0xf#32 then do
      let p ← [0, 1, 2, 3].foldlM (clearPartner g (level + 1) bn) p
      some (p, some (level, bn / 4))
    else some (appendFitting g p (level + 1) (blockPtr (g.lsizes (level + 1)) bn), none)

/-- The body of the loop of `block_break` (mempool.c:207-216). -/
def breakOff (block l bn : Nat) (p : Pool) (i : Nat) : Option Pool := do
  let p ← setFreeBit p (l + 1) (4 * bn + i)
  some (appendFitting g p (l + 1) (g.lsizes (l + 1) * i + block))

def blockBreak (p : Pool) (block l : Nat) : Option Pool :=
  [1, 2, 3].foldlM (breakOff g block l (blockNum block (g.lsizes l))) p

/-! ## Allocation -/

/-- The walk down the levels (mempool.c:237-251): `alloc_l` and `free_l`, `none` for -1. -/
def findLevels (p : Pool) (size : Nat) : Nat → Nat → Option Nat → Option Nat → Option Nat × Option Nat
  | 0, _, allocL, freeL => (allocL, freeL)
  | n + 1, i, allocL, freeL =>
    if g.lsizes i < size then (allocL, freeL)
    else findLevels p size n (i + 1) (some i) (if levelEmpty p i then freeL else some i)

/-- The loop that breaks the block (mempool.c:275-277), from level `fromL` on `n` times. -/
def breakDown (block : Nat) : Nat → Nat → Pool → Option Pool
  | 0, _, p => some p
  | n + 1, fromL, p => do
    let p ← blockBreak g p block fromL
    breakDown block n (fromL + 1) p

inductive AllocResult where
  | enomem
  | eagain
  | ok (level block data : Nat)
deriving DecidableEq

def sysMemPoolBlockAlloc (p : Pool) (size : Nat) : Option (Pool × AllocResult) :=
  match findLevels g p size g.nLevels 0 none none with
  | (some allocL, some freeL) => do
    match ← blockAlloc p freeL (g.lsizes freeL) with
    | (p, none) => some (p, .eagain)
    | (p, some data) =>
      let p ← breakDown g data (allocL - freeL) freeL p
      some (p, .ok allocL (blockNum data (g.lsizes allocL)) data)
  | _ => some (p, .enomem)

def sysMemPoolBlockFree (p : Pool) (level block : Nat) : Option Pool := blockFree g p level block

end code

/-! ## Calls -/

/-- A block that has been allocated and not freed yet, with the size that was asked for. -/
structure LiveBlock where
  level : Nat
  block : Nat
  data : Nat
  size : Nat
deriving DecidableEq

structure PoolState where
  pool : Pool
  live : List LiveBlock

inductive PoolOp where
  | alloc (size : Nat)
  | free (block : LiveBlock)

def PoolOp.exec (g : PoolDef) (s : PoolState) : PoolOp → Option PoolState
  | .alloc size => do
    match ← sysMemPoolBlockAlloc g s.pool size with
    | (pool, .ok level block data) => some ⟨pool, ⟨level, block, data, size⟩ :: s.live⟩
    | (pool, _) => some ⟨pool, s.live⟩
  | .free block => do
    let pool ← sysMemPoolBlockFree g s.pool block.level block.block
    some ⟨pool, s.live.erase block⟩

/-- Only what is allocated is freed. -/
def PoolOp.Legal (s : PoolState) : PoolOp → Prop
  | .alloc _ => True
  | .free block => block ∈ s.live

instance decidablePoolOpLegal (s : PoolState) : (op : PoolOp) → Decidable (op.Legal s)
  | .alloc _ => isTrue trivial
  | .free block => inferInstanceAs (Decidable (block ∈ s.live))

/-- The blocks in use have no byte in common, lie in the buffer, and are as large as was asked for. -/
def PoolState.Good (g : PoolDef) (s : PoolState) : Prop :=
  s.live.Pairwise (fun a b => a.data + g.lsizes a.level ≤ b.data ∨ b.data + g.lsizes b.level ≤ a.data) ∧
    ∀ a ∈ s.live, a.data + g.lsizes a.level ≤ g.nmax * g.maxsz ∧ a.size ≤ g.lsizes a.level

/-- A pool before `_sys_mem_pool_base_init`: static data is zero, and the links can be anything. -/
structure Pool.Blank (p : Pool) : Prop where
  bits : ∀ l, p.bits l = 0#32
  words : ∀ i, p.words i = 0#32

end Zephyr
