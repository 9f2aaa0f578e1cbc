import Zephyr.Mempool.Runs
import Zephyr.Kernel.SchedWaits
/-!
# Waiting for a block (kernel/mempool.c)

`k_mem_pool_alloc` with `K_FOREVER` and `k_mem_pool_free_id` on one pool, called by any number of threads and, the
second one, by interrupts. Interrupts are locked for no longer than one block is taken, broken or given back, for
the `_pend_current_thread` and for the `_unpend_all`; in between, and between two levels of the walk that looks for
a free block, anyone else can run. The code is cut at these places, as it is for mutexes. A thread is in one place
at most, and so is each level of nested interrupts.

`live` and `calls` are not in the source: the blocks that have been given out, and who is in `k_mem_pool_free_id`.
-/
namespace Zephyr

open Sched

variable {N : Nat} {W σ : Type} [DecidableEq W]

/-- Where a thread or an interrupt stands in the code of the pool. -/
inductive PoolPlace where
  | outside
  /-- In the walk, in front of level `i`; `again` if the first attempt has failed with `-EAGAIN`. -/
  | looking (size : Nat) (again : Bool) (i : Nat) (allocL freeL : Option Nat)
  /-- In front of `block_alloc`. -/
  | toTake (size : Nat) (again : Bool) (allocL freeL : Nat)
  /-- In front of `block_break` of the block at `data`. -/
  | toBreak (size data fromL allocL : Nat)
  /-- In front of `_pend_current_thread`. -/
  | toPend (size : Nat)
  | pended (size : Nat)
  /-- In front of a lock of `block_free`. -/
  | freeing (level bn : Nat)
  /-- In front of `_unpend_all`. -/
  | toWake
deriving DecidableEq

structure PoolWait (N : Nat) (W σ : Type) where
  sched : Sched N W σ
  pool : Pool
  place : Fin N ⊕ Nat → PoolPlace
  live : List LiveBlock
  calls : List (Fin N ⊕ Nat)

namespace PoolWait

/-- Who runs: the current thread, or the innermost interrupt. -/
def me (s : PoolWait N W σ) : Fin N ⊕ Nat := if s.sched.nested = 0 then .inl s.sched.current else .inr s.sched.nested

def here (s : PoolWait N W σ) : PoolPlace := s.place s.me

def move (s : PoolWait N W σ) (p : PoolPlace) : PoolWait N W σ := { s with place := Function.update s.place s.me p }

section code

variable (Q : Queues N W σ) (cfg : Config N) (waitQ : W) (g : PoolDef)

section

variable (s : PoolWait N W σ)

def look (size : Nat) (again : Bool) (i : Nat) (allocL freeL : Option Nat) : PoolWait N W σ :=
  if i < g.nLevels ∧ size ≤ g.lsizes i then
    s.move (.looking size again (i + 1) (some i) (if levelEmpty s.pool i then freeL else some i))
  else
    match allocL, freeL with
    | some allocL, some freeL => s.move (.toTake size again allocL freeL)
    | _, _ => s.move (.toPend size)

/-- The test of the loop that breaks the block at `data`. -/
def breakLoop (size data fromL allocL : Nat) : PoolWait N W σ :=
  if fromL < allocL then s.move (.toBreak size data fromL allocL)
  else { s.move .outside with live := ⟨allocL, blockNum data (g.lsizes allocL), data, size⟩ :: s.live }

def take (size : Nat) (again : Bool) (allocL freeL : Nat) : Option (PoolWait N W σ) := do
  match ← blockAlloc s.pool freeL (g.lsizes freeL) with
  | (pool, none) => some ({ s with pool := pool }.move (if again then .toPend size else .looking size true 0 none none))
  | (pool, some data) => some ({ s with pool := pool }.breakLoop g size data freeL allocL)

def split (size data fromL allocL : Nat) : Option (PoolWait N W σ) := do
  let pool ← blockBreak g s.pool data fromL
  some ({ s with pool := pool }.breakLoop g size data (fromL + 1) allocL)

def pend (size : Nat) : Option (PoolWait N W σ) := do
  let sched ← pendCurrentThread Q cfg s.sched (some waitQ) true
  some { s.move (.pended size) with sched := sched }

def give (level bn : Nat) : Option (PoolWait N W σ) := do
  match ← blockFreeSection g s.pool level bn with
  | (pool, none) => some ({ s with pool := pool }.move .toWake)
  | (pool, some (level, bn)) => some ({ s with pool := pool }.move (.freeing level bn))

def wake : Option (PoolWait N W σ) := do
  let needSched := Q.best s.sched.queues (.waitq waitQ) ≠ some none
  let sched ← SchedOp.exec Q cfg s.sched (.readyAll waitQ)
  some { s.move .outside with sched := if needSched then sched.reschedule else sched, calls := s.calls.filter (· ≠ s.me) }

end

end code

end PoolWait

/-! ## Steps -/

/-- `sched` is anything that threads and interrupts do without this pool. -/
inductive PoolWaitOp (N : Nat) (W : Type) where
  | sched (op : SchedOp N W)
  | alloc (size : Nat)
  | free (block : LiveBlock)
  | goOn

def PoolWaitOp.exec (Q : Queues N W σ) (cfg : Config N) (waitQ : W) (g : PoolDef) (s : PoolWait N W σ) :
    PoolWaitOp N W → Option (PoolWait N W σ)
  | .sched op => (op.exec Q cfg s.sched).map fun sched => { s with sched := sched }
  | .alloc size => some (s.move (.looking size false 0 none none))
  | .free block => some { s.move (.freeing block.level block.block) with
      live := s.live.erase block, calls := s.me :: s.calls }
  | .goOn =>
    match s.here with
    | .outside => none
    | .looking size again i allocL freeL => some (s.look g size again i allocL freeL)
    | .toTake size again allocL freeL => s.take g size again allocL freeL
    | .toBreak size data fromL allocL => s.split g size data fromL allocL
    | .toPend size => s.pend Q cfg waitQ size
    -- the loop of `k_mem_pool_alloc` starts anew
    | .pended size => some (s.move (.looking size false 0 none none))
    | .freeing level bn => s.give g level bn
    | .toWake => s.wake Q cfg waitQ

namespace PoolWait

/-- Who is in the code of the pool does nothing else, but an interrupt can come. -/
def Leaves (s : PoolWait N W σ) : SchedOp N W → Prop
  | .isrEnter => True
  | _ => s.here = .outside

/-- What the source asserts of a call, for the scheduler operations with `ResumesOthers` as well; only what is
allocated is freed. -/
def Legal {Q : Queues N W σ} (H : Q.Lawful) (cfg : Config N) (waitQ : W) (s : PoolWait N W σ) : PoolWaitOp N W → Prop
  | .sched op => op.Legal H cfg s.sched ∧ ResumesOthers s.sched op ∧ op.Avoids waitQ ∧ s.Leaves op
  | .alloc _ => s.sched.nested = 0 ∧ s.sched.current ≠ cfg.idle ∧ s.here = .outside
  | .free block => (s.sched.nested = 0 → s.sched.current ≠ cfg.idle) ∧ s.here = .outside ∧ block ∈ s.live
  | .goOn => s.here ≠ .outside

/-- **No lost wake-up**: while nobody is in `k_mem_pool_free_id`, there is no free block for a thread that waits. -/
def NoneLost (waitQ : W) (g : PoolDef) (s : PoolWait N W σ) : Prop :=
  s.calls = [] → ∀ t size, s.place (.inl t) = .pended size → s.sched.WaitsOn waitQ t →
    ∀ l < g.nLevels, size ≤ g.lsizes l → levelEmpty s.pool l = true

/-! ## When it works -/

end PoolWait

/-- The level could serve the thread, which has found it empty and is about to wait if it finds nothing else. -/
def PoolPlace.sawEmpty (g : PoolDef) (l : Nat) : PoolPlace → Bool
  | .looking _ _ i _ freeL => l < i ∧ freeL = none
  | .toPend size => l < g.nLevels ∧ size ≤ g.lsizes l
  | _ => false

/-- The thread waits for a block, and the level could serve it. -/
def PoolPlace.servedBy (g : PoolDef) (l : Nat) : PoolPlace → Bool
  | .pended size => size ≤ g.lsizes l
  | _ => false

namespace PoolWait

/-- No free block is added to a level that a thread has just found empty. Who breaks a block has nobody waiting for
the parts. And when a thread loses the race for a block for the second time, there is no other one. -/
def UnracedAt (waitQ : W) (g : PoolDef) (s : PoolWait N W σ) : PoolPlace → Prop
  | .freeing level bn => (blockFreeSection g s.pool level bn).map Prod.snd = some none →
      ∀ t, (s.place (.inl t)).sawEmpty g level = false
  | .toBreak _ _ fromL _ => ∀ t, (s.place (.inl t)).sawEmpty g (fromL + 1) = false ∧
      ((s.place (.inl t)).servedBy g (fromL + 1) = true → s.sched.WaitsOn waitQ t → s.calls ≠ [])
  | .toTake size true _ freeL => levelEmpty s.pool freeL = true → ∀ l < g.nLevels, size ≤ g.lsizes l →
      levelEmpty s.pool l = true
  | _ => True

def Unraced (waitQ : W) (g : PoolDef) (s : PoolWait N W σ) : PoolWaitOp N W → Prop
  | .goOn => s.UnracedAt waitQ g s.here
  | _ => True

end PoolWait

/-- The pool has been initialised, nobody has called it, and no thread has been started. -/
structure PoolBooted {Q : Queues N W σ} (H : Q.Lawful) (cfg : Config N) (g : PoolDef) (s : PoolWait N W σ) : Prop where
  sched : Booted H cfg s.sched
  pool : ∃ p : Pool, p.Blank ∧ sysMemPoolBaseInit g p = some s.pool
  place : ∀ c, s.place c = .outside
  live : s.live = []
  calls : s.calls = []

end Zephyr
