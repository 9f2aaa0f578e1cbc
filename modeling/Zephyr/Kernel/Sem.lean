import Zephyr.Kernel.SchedWaits
import Zephyr.Kernel.Api
import Zephyr.Kernel.Clocked
import Zephyr.Lib.Tally
/-!
# Semaphores (kernel/sem.c)

One semaphore with its wait queue, the threads and interrupts that use it, and the timeouts of all threads under the
clock (`Clocked`). The tick handler takes the address of an expired timeout before it locks interrupts
(timeout_q.h:83-103), so that another interrupt can come in between.

Without `CONFIG_POLL`. The last four fields are not in the source: they count calls.
-/
namespace Zephyr

open Sched Tally Function

variable {N : Nat} {W σ : Type} [DecidableEq W]

structure SemState (N : Nat) (W σ : Type) where
  sched : Sched N W σ
  count : Nat
  limit : Nat
  swapRetval : Fin N → ℤ
  taking : Fin N → Bool
  /-- `timeout.wait_q` of a thread -/
  timeoutWaitQ : Fin N → Option W
  gives : Nat
  /-- calls of `k_sem_take` that have returned 0 -/
  takes : Nat
  /-- gives that found `count` at the limit and nobody waiting -/
  wasted : Nat
  /-- what resets have thrown away -/
  discarded : Nat

namespace SemState

/-- `_add_timeout` writes `wait_q`. -/
def noteTimeouts (s : SemState N W σ) : SemState N W σ :=
  { s with timeoutWaitQ := fun t => (s.sched.base t).timeout.getD (s.timeoutWaitQ t) }

section code

variable (Q : Queues N W σ) (cfg : Config N) (waitQ : W)

def incrementCountUpToLimit (s : SemState N W σ) : SemState N W σ :=
    { s with count := s.count + if s.count ≠ s.limit then 1 else 0 }

def doSemGive (s : SemState N W σ) : Option (SemState N W σ) := do
  match ← unpendFirstThread Q s.sched waitQ with
  | (sched, some thread) =>
    let sched ← readyThread Q cfg sched thread
    some { s with sched := sched, swapRetval := update s.swapRetval thread 0 }
  | (sched, none) => some { s with sched := sched }.incrementCountUpToLimit

def kSemGive (s : SemState N W σ) : Option (SemState N W σ) := do
  let s ← s.doSemGive Q cfg waitQ
  some { s with sched := s.sched.reschedule }

/-- With the return value, if it returns at once. -/
def kSemTake (s : SemState N W σ) (timeout : Timeout) : Option (SemState N W σ × Option ℤ) :=
  if 0 < s.count then some ({ s with count := s.count - 1 }, some 0)
  else if timeout = .noWait then some (s, some ebusy)
  else do
    let sched ← pendCurrentThread Q cfg s.sched (some waitQ) (timeout = .forever)
    some ({ s with sched := sched, swapRetval := update s.swapRetval s.sched.current eagain,
                   taking := update s.taking s.sched.current true }.noteTimeouts, none)

/-- `_abort_timeout` has not cleared `wait_q`: a thread that was served in the meantime is taken out of a queue
once more. -/
def handleOneExpiredTimeout (s : SemState N W σ) (thread : Fin N) : Option (SemState N W σ) := do
  let sched := abortThreadTimeout s.sched thread
  let sched ← (if (s.timeoutWaitQ thread).isSome then unpendThreadNoTimeout Q sched thread else some sched)
  let sched ← readyThread Q cfg (sched.setBase thread .markAsStarted) thread
  some { s with sched := sched, timeoutWaitQ := update s.timeoutWaitQ thread none }

end code

end SemState

/-! ## Steps -/

/-- `sched` is anything that threads and interrupts do without this semaphore. A timeout that is set is one of
`ticks` ticks. -/
inductive SemOp (N : Nat) (W : Type) where
  | sched (op : SchedOp N W) (ticks : Nat)
  | give
  | take (timeout : Timeout) (ticks : Nat)
  | goOn
  | reset

def SemOp.isReset : SemOp N W → Bool
  | .reset => true
  | _ => false

def SemOp.exec (Q : Queues N W σ) (cfg : Config N) (waitQ : W) (s : SemState N W σ) :
    SemOp N W → Option (SemState N W σ)
  | .sched op _ => (op.exec Q cfg s.sched).map fun sched => { s with sched := sched }.noteTimeouts
  | .give => (s.kSemGive Q cfg waitQ).map fun s' =>
      { s' with
        gives := s.gives + 1
        wasted := s.wasted + if s.count = s.limit ∧ ∀ t, ¬ s.sched.WaitsOn waitQ t then 1 else 0 }
  | .take timeout _ => (s.kSemTake Q cfg waitQ timeout).map fun r =>
      { r.1 with takes := s.takes + if r.2 = some 0 then 1 else 0 }
  | .goOn => some { s with
      taking := update s.taking s.sched.current false
      takes := s.takes + if s.swapRetval s.sched.current = 0 then 1 else 0 }
  | .reset => some { s with count := 0, discarded := s.discarded + s.count }

/-- The idle thread has no timeout. -/
def semTimed (Q : Queues N W σ) (cfg : Config N) (waitQ : W) : Timed N (SemState N W σ) (SemOp N W) where
  exec s op := op.exec Q cfg waitQ s
  armed s t := t ≠ cfg.idle && (s.sched.base t).isThreadTimeoutActive
  ticks
    | .sched _ ticks | .take _ ticks => ticks
    | _ => 0
  handle s t := s.handleOneExpiredTimeout Q cfg t

namespace SemState

/-- The thread that runs, if no interrupt does, is not in `k_sem_take`. -/
def Free (s : SemState N W σ) : Prop := s.sched.nested = 0 → s.taking s.sched.current = false

instance decidableFree (s : SemState N W σ) : Decidable s.Free := inferInstanceAs (Decidable (_ → _))

/-- The interrupt that announces ticks does not return before the end. Timeouts expire by its steps only. -/
def Leaves (s : SemState N W σ) (announcing : Bool) : SchedOp N W → Prop
  | .isrEnter => True
  | .isrExit => announcing = true → 1 < s.sched.nested
  | .expire _ => False
  | _ => s.Free

/-- What the source asserts of a call, for the scheduler operations with `ResumesOthers` as well. -/
def Legal {Q : Queues N W σ} (H : Q.Lawful) (cfg : Config N) (waitQ : W) (announcing : Bool)
    (s : SemState N W σ) : SemOp N W → Prop
  | .sched op _ => op.Legal H cfg s.sched ∧ ResumesOthers s.sched op ∧ op.Avoids waitQ ∧ s.Leaves announcing op
  | .give | .reset => s.Free
  | .take timeout _ => s.Free ∧ (timeout ≠ .noWait → s.sched.nested = 0 ∧ s.sched.current ≠ cfg.idle)
  | .goOn => s.sched.nested = 0 ∧ s.taking s.sched.current = true

instance decidableLeaves (s : SemState N W σ) (announcing : Bool) (op : SchedOp N W) :
    Decidable (s.Leaves announcing op) := by
  induction op using SchedOp.casesOn <;> dsimp only [SemState.Leaves] <;> infer_instance

instance decidableLegal {Q : Queues N W σ} (H : Q.Lawful) [∀ k, Decidable (H.Valid k)] (cfg : Config N)
    (waitQ : W) (announcing : Bool)
    (s : SemState N W σ) (op : SemOp N W) : Decidable (s.Legal H cfg waitQ announcing op) := by
  cases op <;> dsimp only [SemState.Legal] <;> infer_instance

/-- The threads that a give has made ready and that are still to return 0. -/
def handed (s : SemState N W σ) : Nat := tally fun t => s.taking t && s.swapRetval t == 0

/-- What `KeepsPlaces` says, of a semaphore's operations. -/
def KeepsOrder (s : SemState N W σ) : SemOp N W → Prop
  | .sched op _ => KeepsPlaces s.sched op
  | _ => True

instance decidableKeepsOrder (s : SemState N W σ) (op : SemOp N W) : Decidable (s.KeepsOrder op) := by
  cases op <;> dsimp only [SemState.KeepsOrder] <;> infer_instance

end SemState

/-- The semaphore has been initialised, nobody has used it, and no thread has been started. -/
structure SemBooted {Q : Queues N W σ} (H : Q.Lawful) (cfg : Config N) (s : SemState N W σ) : Prop where
  sched : Booted H cfg s.sched
  limit : 1 ≤ s.limit
  count : s.count ≤ s.limit
  taking : ∀ t, s.taking t = false
  counts : s.gives = 0 ∧ s.takes = 0 ∧ s.wasted = 0 ∧ s.discarded = 0

end Zephyr
