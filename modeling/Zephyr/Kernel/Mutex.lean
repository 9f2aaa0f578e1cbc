import Zephyr.Kernel.SchedWaits
/-!
# Mutexes (kernel/mutex.c)

One mutex over the scheduler of `Zephyr.Kernel.Sched`, used by any number of threads. `k_mutex_lock` and
`k_mutex_unlock` lock the scheduler, and yet there are places in the middle of both where another thread
can run: `_pend_current_thread`, of course, and `adjust_owner_prio`, since `_thread_priority_set` ends in a
`_reschedule` that does not ask whether the scheduler is locked. The code is cut at these places; `Place`
says for each thread at which of them it stands, and the thread goes on (`MutexOp.goOn`) when it is
`_current` again. From one cut to the next no other thread runs.

`got` is whether `_set_thread_return_value` has made the thread's `_Swap` return 0. `held` is not in the
source: it counts the `k_mutex_lock` of a thread that have got the mutex and are not matched by a
`k_mutex_unlock` yet. A NULL `owner` that is followed is a fault.
-/
namespace Zephyr

open Sched Function

variable {N : Nat} {W σ : Type} [DecidableEq W]

structure KMutex (N : Nat) where
  owner : Option (Fin N)
  lockCount : Nat
  ownerOrigPrio : ℤ

/-- Where a thread stands in the code of the mutex. -/
inductive Place where
  | outside
  /-- In front of `_pend_current_thread`, with the timeout of the call. -/
  | toPend (timeout : ℤ)
  /-- In `_pend_current_thread`. -/
  | pended
  /-- In front of the `k_sched_unlock` of a call that has timed out. -/
  | toGiveUp
  /-- In `k_mutex_unlock`, in front of `_unpend_first_thread`. -/
  | toHandOver
deriving DecidableEq

structure MutexState (N : Nat) (W σ : Type) where
  sched : Sched N W σ
  mutex : KMutex N
  place : Fin N → Place
  got : Fin N → Bool
  held : Fin N → Nat

/-- `CONFIG_PRIORITY_CEILING` -/
def newPrioForInheritance (ceiling target limit : ℤ) : ℤ :=
  let newPrio := if target < limit then target else limit
  if ceiling ≤ newPrio then newPrio else ceiling

section code

variable (Q : Queues N W σ) (cfg : Config N) (waitQ : W) (ceiling : ℤ)

def adjustOwnerPrio (mutex : KMutex N) (s : Sched N W σ) (newPrio : ℤ) : Option (Sched N W σ) := do
  let owner ← mutex.owner
  if s.prio owner ≠ newPrio then threadPrioritySet Q cfg s owner newPrio else some s

section

variable (s : MutexState N W σ)

/-- `K_NO_WAIT` is 0. -/
def kMutexLock (timeout : ℤ) : Option (MutexState N W σ) :=
  let current := s.sched.current
  let sched := schedLock s.sched
  if s.mutex.lockCount = 0 ∨ s.mutex.owner = some current then do
    let sched ← kSchedUnlock Q cfg sched
    some { s with
      sched := sched
      mutex :=
        { owner := some current
          lockCount := (s.mutex.lockCount + 1) % 2 ^ 32
          ownerOrigPrio := if s.mutex.lockCount = 0 then s.sched.prio current else s.mutex.ownerOrigPrio }
      held := update s.held current (s.held current + 1) }
  else if timeout = 0 then do
    let sched ← kSchedUnlock Q cfg sched
    some { s with sched := sched }
  else do
    let owner ← s.mutex.owner
    let newPrio := newPrioForInheritance ceiling (sched.prio current) (sched.prio owner)
    let sched ← (if newPrio < sched.prio owner then adjustOwnerPrio Q cfg s.mutex sched newPrio else some sched)
    some { s with sched := sched, place := update s.place current (.toPend timeout) }

/-- `K_FOREVER` is -1. Until someone sets another one, `_Swap` returns `-EAGAIN`. -/
def lockPend (timeout : ℤ) : Option (MutexState N W σ) := do
  let current := s.sched.current
  let sched ← pendCurrentThread Q cfg s.sched (some waitQ) (timeout = -1)
  some { s with
    sched := sched
    place := update s.place current .pended
    got := update s.got current false }

def lockWoken : Option (MutexState N W σ) :=
  let current := s.sched.current
  if s.got current then do
    let sched ← kSchedUnlock Q cfg s.sched
    some { s with
      sched := sched
      place := update s.place current .outside
      got := update s.got current false
      held := update s.held current (s.held current + 1) }
  else do
    let waiter ← Q.best s.sched.queues (.waitq waitQ)
    let newPrio := match waiter with
      | some waiter => newPrioForInheritance ceiling (s.sched.prio waiter) s.mutex.ownerOrigPrio
      | none => s.mutex.ownerOrigPrio
    let sched ← adjustOwnerPrio Q cfg s.mutex s.sched newPrio
    some { s with sched := sched, place := update s.place current .toGiveUp }

def lockGiveUp : Option (MutexState N W σ) := do
  let current := s.sched.current
  let sched ← kSchedUnlock Q cfg s.sched
  some { s with sched := sched, place := update s.place current .outside }

def kMutexUnlock : Option (MutexState N W σ) :=
  let current := s.sched.current
  let sched := schedLock s.sched
  let mutex : KMutex N := { s.mutex with lockCount := s.mutex.lockCount - 1 }
  let held := update s.held current (s.held current - 1)
  if mutex.lockCount ≠ 0 then do
    let sched ← kSchedUnlock Q cfg sched
    some { s with sched := sched, mutex := mutex, held := held }
  else do
    -- the mutex has neither a count nor a new owner while other threads run
    let sched ← adjustOwnerPrio Q cfg mutex sched mutex.ownerOrigPrio
    some { s with sched := sched, mutex := mutex, held := held, place := update s.place current .toHandOver }

def unlockHandOver : Option (MutexState N W σ) := do
  let current := s.sched.current
  let place := update s.place current .outside
  match ← unpendFirstThread Q s.sched waitQ with
  | (sched, none) =>
    let sched ← kSchedUnlock Q cfg sched
    some { s with sched := sched, mutex := { s.mutex with owner := none }, place := place }
  | (sched, some newOwner) =>
    let sched ← readyThread Q cfg sched newOwner
    let mutex : KMutex N := ⟨some newOwner, (s.mutex.lockCount + 1) % 2 ^ 32, sched.prio newOwner⟩
    let sched ← kSchedUnlock Q cfg sched
    some { s with sched := sched, mutex := mutex, place := place, got := update s.got newOwner true }

end

end code

/-! ## Steps -/

/-- `sched` is anything that threads and interrupts do without this mutex. -/
inductive MutexOp (N : Nat) (W : Type) where
  | sched (op : SchedOp N W)
  | lock (timeout : ℤ)
  | unlock
  | goOn

def MutexOp.exec (Q : Queues N W σ) (cfg : Config N) (waitQ : W) (ceiling : ℤ) (s : MutexState N W σ) :
    MutexOp N W → Option (MutexState N W σ)
  | .sched op => (op.exec Q cfg s.sched).map fun sched => { s with sched := sched }
  | .lock timeout => kMutexLock Q cfg ceiling s timeout
  | .unlock => kMutexUnlock Q cfg s
  | .goOn =>
    match s.place s.sched.current with
    | .outside => none
    | .toPend timeout => lockPend Q cfg waitQ s timeout
    | .pended => lockWoken Q cfg waitQ ceiling s
    | .toGiveUp => lockGiveUp Q cfg s
    | .toHandOver => unlockHandOver Q cfg waitQ s

/-- A thread in the code of the mutex does nothing else, but an interrupt can come. -/
def MutexState.Leaves (s : MutexState N W σ) : SchedOp N W → Prop
  | .isrEnter => True
  | _ => s.sched.nested ≠ 0 ∨ s.place s.sched.current = .outside

instance (s : MutexState N W σ) (op : SchedOp N W) : Decidable (s.Leaves op) := by
  induction op using SchedOp.casesOn <;> dsimp only [MutexState.Leaves] <;> infer_instance

/-- What the source asserts of a call, for the scheduler operations with `ResumesOthers` as well. -/
def MutexOp.Legal {Q : Queues N W σ} (H : Q.Lawful) (cfg : Config N) (waitQ : W) (s : MutexState N W σ) :
    MutexOp N W → Prop
  | .sched op => op.Legal H cfg s.sched ∧ ResumesOthers s.sched op ∧ op.Avoids waitQ ∧ s.Leaves op
  | .lock _ => s.sched.nested = 0 ∧ s.sched.current ≠ cfg.idle ∧ s.place s.sched.current = .outside
  | .unlock => s.sched.nested = 0 ∧ s.sched.current ≠ cfg.idle ∧ s.place s.sched.current = .outside ∧
      0 < s.mutex.lockCount ∧ s.mutex.owner = some s.sched.current
  | .goOn => s.sched.nested = 0 ∧ s.place s.sched.current ≠ .outside

instance {Q : Queues N W σ} (H : Q.Lawful) [∀ k, Decidable (H.Valid k)] (cfg : Config N) (waitQ : W)
    (s : MutexState N W σ) (op : MutexOp N W) : Decidable (op.Legal H cfg waitQ s) := by
  induction op using MutexOp.casesOn <;> dsimp only [MutexOp.Legal] <;> infer_instance

/-- Nobody has called the mutex since `k_mutex_init` (mutex.c:71), and no thread has been started. -/
structure MutexBooted {Q : Queues N W σ} (H : Q.Lawful) (cfg : Config N) (s : MutexState N W σ) : Prop where
  sched : Booted H cfg s.sched
  owner : s.mutex.owner = none
  lockCount : s.mutex.lockCount = 0
  place : ∀ y, s.place y = .outside
  got : ∀ y, s.got y = false
  held : ∀ y, s.held y = 0

/-- Mutual exclusion: at most one thread holds the mutex, and the mutex knows which and how many times. -/
def MutexState.Exclusive (s : MutexState N W σ) : Prop :=
  (∀ t u, 0 < s.held t → 0 < s.held u → t = u) ∧
    ∀ t, 0 < s.held t → s.mutex.owner = some t ∧ s.mutex.lockCount = s.held t

/-- No thread takes the mutex while another one is about to hand it over, and `lock_count` does not wrap. -/
def MutexState.TakesFree (s : MutexState N W σ) : MutexOp N W → Prop
  | .lock _ => (s.mutex.lockCount = 0 → ∀ u, s.place u ≠ .toHandOver) ∧
      (s.mutex.owner = some s.sched.current → s.mutex.lockCount + 1 < 2 ^ 32)
  | _ => True

instance (s : MutexState N W σ) (op : MutexOp N W) : Decidable (s.TakesFree op) := by
  induction op using MutexOp.casesOn <;> dsimp only [MutexState.TakesFree] <;> infer_instance

end Zephyr
