import Zephyr.Kernel.Queues
/-!
# The scheduler (kernel/sched.c, kernel/thread.c, kernel/thread_abort.c, kernel/include/ksched.h)

A uniprocessor kernel with preemption, without time slicing. `N` threads, one of them the idle thread,
and wait queues `W`, both arbitrary; the queues are any `Queues`. An operation is one section with
interrupts locked, up to and including the `_Swap` or `_reschedule` at its end: a switch makes `_current`
what `ready_q.cache` says. `none` is a fault of the queues below.

The timeout queue itself is the subject of `Zephyr.Kernel.TimeoutQ`; here a timeout is active until it is
aborted or handled. `Sched.arrivals` is not in the source and nothing reads it: it records in which
order the threads of a wait queue came.
-/
namespace Zephyr

open StableQueue Function

structure ThreadBase (W : Type) where
  dummy : Bool
  pending : Bool
  prestart : Bool
  dead : Bool
  suspended : Bool
  queued : Bool
  schedLocked : Nat
  pendedOn : Option W
  /-- `none` is `_INACTIVE`. -/
  timeout : Option (Option W)

namespace ThreadBase

variable {W : Type}

section

variable (b : ThreadBase W)

def isThreadPreventedFromRunning : Bool := b.pending || b.prestart || b.dead || b.dummy || b.suspended

def isThreadTimeoutActive : Bool := b.timeout.isSome

def isThreadReady : Bool := !(b.isThreadPreventedFromRunning || b.isThreadTimeoutActive)

def markAsQueued : ThreadBase W := { b with queued := true }
def markAsNotQueued : ThreadBase W := { b with queued := false }
def markAsPending : ThreadBase W := { b with pending := true }
def markAsNotPending : ThreadBase W := { b with pending := false }
def markAsSuspended : ThreadBase W := { b with suspended := true }
def markAsNotSuspended : ThreadBase W := { b with suspended := false }
def markAsStarted : ThreadBase W := { b with prestart := false }
def markAsDead : ThreadBase W := { b with dead := true }
def setPendedOn (w : W) (b : ThreadBase W) : ThreadBase W := { b with pendedOn := some w }
def setTimeout (t : Option (Option W)) (b : ThreadBase W) : ThreadBase W := { b with timeout := t }

end

end ThreadBase

structure Sched (N : Nat) (W σ : Type) where
  queues : σ
  prio : Fin N → ℤ
  base : Fin N → ThreadBase W
  current : Fin N
  cache : Fin N
  nested : Nat
  arrivals : W → List (Fin N)

/-- The idle thread, `K_HIGHEST_THREAD_PRIO` and `CONFIG_NUM_METAIRQ_PRIORITIES`. -/
structure Config (N : Nat) where
  idle : Fin N
  highest : ℤ
  numMetairq : ℤ

variable {N : Nat} {W σ : Type}

namespace Sched

def setBase (s : Sched N W σ) (thread : Fin N) (f : ThreadBase W → ThreadBase W) : Sched N W σ :=
  { s with base := update s.base thread (f (s.base thread)) }

/-- Other queues and another `cache`. -/
def put (s : Sched N W σ) (queues : σ) (cache : Fin N) : Sched N W σ := { s with queues := queues, cache := cache }

def setPrio (s : Sched N W σ) (thread : Fin N) (prio : ℤ) : Sched N W σ := { s with prio := update s.prio thread prio }

section setBase

variable {s : Sched N W σ} {x y : Fin N} {q : σ} {c : Fin N} {f : ThreadBase W → ThreadBase W}

@[simp] theorem setBase_self : (s.setBase x f).base x = f (s.base x) := by simp [setBase]

theorem setBase_ne (h : y ≠ x) : (s.setBase x f).base y = s.base y := by simp [setBase, h]

@[simp] theorem setBase_queues : (s.setBase x f).queues = s.queues := rfl
@[simp] theorem setBase_prio : (s.setBase x f).prio = s.prio := rfl
@[simp] theorem setBase_current : (s.setBase x f).current = s.current := rfl
@[simp] theorem setBase_nested : (s.setBase x f).nested = s.nested := rfl
@[simp] theorem setBase_arrivals : (s.setBase x f).arrivals = s.arrivals := rfl

@[simp] theorem put_prio : (s.put q c).prio = s.prio := rfl
@[simp] theorem put_base : (s.put q c).base = s.base := rfl
@[simp] theorem put_current : (s.put q c).current = s.current := rfl
@[simp] theorem put_nested : (s.put q c).nested = s.nested := rfl

end setBase

def isThreadReady (s : Sched N W σ) (thread : Fin N) : Bool := (s.base thread).isThreadReady

/-- `base.preempt` is `sched_locked` and `prio` read as one `u16_t` (kernel.h:436-447). -/
def isPreempt (s : Sched N W σ) (thread : Fin N) : Bool :=
  256 * (s.base thread).schedLocked + (s.prio thread % 256).toNat ≤ 0x7f

def isMetairq (cfg : Config N) (s : Sched N W σ) (thread : Fin N) : Bool := s.prio thread - cfg.highest < cfg.numMetairq

def shouldPreempt (cfg : Config N) (s : Sched N W σ) (th : Fin N) (preemptOk : Bool) : Bool :=
  if preemptOk then true
  else if !s.isThreadReady s.current then true
  else if s.isPreempt s.current || isMetairq cfg s th then true
  else s.current = cfg.idle

section

variable (s : Sched N W σ)

def swap : Sched N W σ := { s with current := s.cache }

def reschedule : Sched N W σ := if s.nested ≠ 0 then s else s.swap

@[simp] theorem reschedule_prio : s.reschedule.prio = s.prio := by unfold reschedule; split <;> rfl
@[simp] theorem reschedule_base : s.reschedule.base = s.base := by unfold reschedule; split <;> rfl
@[simp] theorem reschedule_nested : s.reschedule.nested = s.nested := by unfold reschedule; split <;> rfl
@[simp] theorem reschedule_arrivals : s.reschedule.arrivals = s.arrivals := by unfold reschedule; split <;> rfl

end

end Sched

open Sched

section code

variable [DecidableEq W] (Q : Queues N W σ) (cfg : Config N)

def nextUp (s : Sched N W σ) : Option (Fin N) := (Q.best s.queues .runq).map fun th => th.getD cfg.idle

def updateCache (s : Sched N W σ) (preemptOk : Bool) : Option (Sched N W σ) := do
  let th ← nextUp Q cfg s
  some { s with cache := if shouldPreempt cfg s th preemptOk then th else s.current }

def addThreadToReadyQ (s : Sched N W σ) (thread : Fin N) : Option (Sched N W σ) := do
  let queues ← Q.add s.prio s.queues .runq thread
  updateCache Q cfg ({ s with queues := queues }.setBase thread .markAsQueued) false

def removeThreadFromReadyQ (s : Sched N W σ) (thread : Fin N) : Option (Sched N W σ) :=
  if (s.base thread).queued then do
    let queues ← Q.remove s.prio s.queues .runq thread
    updateCache Q cfg ({ s with queues := queues }.setBase thread .markAsNotQueued) (thread = s.current)
  else some s

def readyThread (s : Sched N W σ) (thread : Fin N) : Option (Sched N W σ) :=
  if s.isThreadReady thread then addThreadToReadyQ Q cfg s thread else some s

/-- `_sched_lock` (ksched.h:254): the `u8_t` counts down from 0. -/
def schedLock (s : Sched N W σ) : Sched N W σ :=
  s.setBase s.current fun b => { b with schedLocked := (b.schedLocked + 255) % 256 }

def kSchedUnlock (s : Sched N W σ) : Option (Sched N W σ) := do
  let s ← updateCache Q cfg (s.setBase s.current fun b => { b with schedLocked := (b.schedLocked + 1) % 256 }) true
  some s.reschedule

/-! ## Wait queues -/

def addThreadTimeout (s : Sched N W σ) (thread : Fin N) (waitQ : Option W) : Sched N W σ :=
  s.setBase thread (.setTimeout (some waitQ))

def abortThreadTimeout (s : Sched N W σ) (thread : Fin N) : Sched N W σ := s.setBase thread (.setTimeout none)

/-- The end of `pend` (sched.c:274-279). -/
def waitAdd (s : Sched N W σ) (thread : Fin N) (w : W) : Option (Sched N W σ) := do
  let s := s.setBase thread (.setPendedOn w)
  let queues ← Q.add s.prio s.queues (.waitq w) thread
  some { s with queues := queues, arrivals := update s.arrivals w (s.arrivals w ++ [thread]) }

def pend (s : Sched N W σ) (thread : Fin N) (waitQ : Option W) (forever : Bool) : Option (Sched N W σ) := do
  let s ← removeThreadFromReadyQ Q cfg s thread
  let s := s.setBase thread .markAsPending
  let s := if forever then s else addThreadTimeout s thread waitQ
  match waitQ with
  | none => some s
  | some w => waitAdd Q s thread w

def pendCurrentThread (s : Sched N W σ) (waitQ : Option W) (forever : Bool) : Option (Sched N W σ) := do
  let s ← pend Q cfg s s.current waitQ forever
  some s.swap

def unpendThreadNoTimeout (s : Sched N W σ) (thread : Fin N) : Option (Sched N W σ) := do
  let w ← (s.base thread).pendedOn
  let queues ← Q.remove s.prio s.queues (.waitq w) thread
  some ({ s with queues := queues, arrivals := fun v => (s.arrivals v).erase thread }.setBase thread .markAsNotPending)

def unpendThread (s : Sched N W σ) (thread : Fin N) : Option (Sched N W σ) := do
  let s ← unpendThreadNoTimeout Q s thread
  some (abortThreadTimeout s thread)

def unpendFirstThread (s : Sched N W σ) (w : W) : Option (Sched N W σ × Option (Fin N)) := do
  match ← Q.best s.queues (.waitq w) with
  | none => some (s, none)
  | some t =>
    let s ← unpendThread Q s t
    some (s, some t)

def readyOneThread (s : Sched N W σ) (w : W) : Option (Sched N W σ) := do
  match ← unpendFirstThread Q s w with
  | (s, none) => some s
  | (s, some t) => readyThread Q cfg s t

/-- The loop of `_unpend_all` (sched.c:671). -/
def unpendAll (s : Sched N W σ) (w : W) : Nat → Option (Sched N W σ)
  | 0 => none
  | fuel + 1 =>
    match Q.best s.queues (.waitq w) with
    | none => none
    | some none => some s
    | some (some th) => do
      let s ← unpendThread Q s th
      let s ← readyThread Q cfg s th
      unpendAll s w fuel

def handleOneExpiredThreadTimeout (s : Sched N W σ) (thread : Fin N) : Option (Sched N W σ) := do
  let waitQ := (s.base thread).timeout.join
  let s := abortThreadTimeout s thread
  let s ← (if waitQ.isSome then unpendThreadNoTimeout Q s thread else some s)
  readyThread Q cfg (s.setBase thread .markAsStarted) thread

/-! ## Thread operations -/

/-- `_priq_run_remove`, a new priority, `_priq_run_add` and `update_cache(1)` (sched.c:364-367, 788-790). -/
def requeue (s : Sched N W σ) (thread : Fin N) (prio : Fin N → ℤ) : Option (Sched N W σ) := do
  let queues ← Q.remove s.prio s.queues .runq thread
  let queues ← Q.add prio queues .runq thread
  updateCache Q cfg { s with queues := queues, prio := prio } true

def threadPrioritySet (s : Sched N W σ) (thread : Fin N) (prio : ℤ) : Option (Sched N W σ) :=
  if s.isThreadReady thread then do
    let s ← requeue Q cfg s thread (update s.prio thread prio)
    some s.reschedule
  else some (s.setPrio thread prio)

def kYield (s : Sched N W σ) : Option (Sched N W σ) := do
  let s ← (if s.current ≠ cfg.idle then requeue Q cfg s s.current s.prio else some s)
  some s.swap

def kSleep (s : Sched N W σ) (duration : Nat) : Option (Sched N W σ) :=
  if duration = 0 then kYield Q cfg s
  else do
    let thread := s.current
    let s ← removeThreadFromReadyQ Q cfg s thread
    some (addThreadTimeout s thread none).swap

section

variable (s : Sched N W σ) (thread : Fin N)

def kWakeup : Option (Sched N W σ) :=
  if (s.base thread).pending then some s
  else if !(s.base thread).isThreadTimeoutActive then some s
  else do
    let s ← readyThread Q cfg (abortThreadTimeout s thread) thread
    some s.reschedule

def kThreadStart : Option (Sched N W σ) :=
  if !(s.base thread).prestart then some s
  else do
    let s ← readyThread Q cfg (s.setBase thread .markAsStarted) thread
    some s.reschedule

def kThreadSuspend : Option (Sched N W σ) := do
  let s ← (if s.isThreadReady thread then removeThreadFromReadyQ Q cfg s thread else some s)
  let s := s.setBase thread .markAsSuspended
  some (if thread = s.current then s.swap else s)

def kThreadResume : Option (Sched N W σ) := do
  let s ← readyThread Q cfg (s.setBase thread .markAsNotSuspended) thread
  some s.reschedule

/-- The branch of `_k_thread_single_abort` for a thread that is not ready (thread.c:545-551). -/
def abortWaiting : Option (Sched N W σ) := do
  let s ← (if (s.base thread).pending then unpendThreadNoTimeout Q s thread else some s)
  some (if (s.base thread).isThreadTimeoutActive then abortThreadTimeout s thread else s)

def kThreadAbort : Option (Sched N W σ) := do
  let s ← (if s.isThreadReady thread then removeThreadFromReadyQ Q cfg s thread else abortWaiting Q s thread)
  let s := s.setBase thread .markAsDead
  some (if s.nested ≠ 0 then s else if s.current = thread then s.swap else s.reschedule)

end

end code

end Zephyr
