import Zephyr.Lib.Inheritance
import Zephyr.Kernel.MutexRuns
/-!
# Several mutexes and the priorities of their owners (kernel/mutex.c:12-27)

Any number of mutexes over one scheduler, each with the code of `Zephyr.Kernel.Mutex`: a step on one of them is a
step of that model on the state as seen from it (`MutexesState.view`). Their code meets in the priority of a thread
that owns several, since `k_mutex_unlock` writes back the one priority that the mutex has saved, whoever waits for
the others.

Two fields are not in the source. `stack` has the mutexes that a thread owns, the last one acquired first. `before`
is the priority that the thread had when it acquired the first of them; of a thread that owns none it is the last
that was set.
-/
namespace Zephyr

open Sched

variable {N : Nat} {M V σ : Type} [DecidableEq M] [DecidableEq V]

structure MutexesState (N : Nat) (M V σ : Type) where
  sched : Sched N (M ⊕ V) σ
  mutex : M → KMutex N
  inside : Fin N → Option M
  place : Fin N → Place
  got : Fin N → Bool
  stack : Fin N → List M
  before : Fin N → ℤ

/-- The thread that runs gives the mutex up in this step. -/
def MutexOp.releases {W : Type} (s : MutexState N W σ) : MutexOp N W → Bool
  | .unlock => s.mutex.lockCount - 1 = 0
  | .sched _ | .lock _ | .goOn => false

namespace MutexesState

/-- What the code of the mutex `m` sees: a thread in the code of another one is outside. -/
def view (s : MutexesState N M V σ) (m : M) : MutexState N (M ⊕ V) σ :=
  ⟨s.sched, s.mutex m, fun y => if s.inside y = some m then s.place y else .outside, s.got, fun _ => 0⟩

section code

variable (Q : Queues N (M ⊕ V) σ) (cfg : Config N) (ceiling : ℤ)

section

variable (s : MutexesState N M V σ) (m : M) (op : MutexOp N (M ⊕ V))

def stackAfter : Fin N → List M :=
  match op.acquirer Q (.inl m) (s.view m) with
  | some t => Function.update s.stack t (m :: s.stack t)
  | none =>
    if op.releases (s.view m) then Function.update s.stack s.sched.current
      ((s.stack s.sched.current).erase m) else s.stack

def beforeAfter : Fin N → ℤ :=
  match op.acquirer Q (.inl m) (s.view m) with
  | some t => if s.stack t = [] then Function.update s.before t (s.sched.prio t) else s.before
  | none => s.before

/-- The state after the code of `m` has come to `v`. -/
def put (v : MutexState N (M ⊕ V) σ) : MutexesState N M V σ :=
  { sched := v.sched
    mutex := Function.update s.mutex m v.mutex
    inside := Function.update s.inside s.sched.current (some m)
    place := Function.update s.place s.sched.current (v.place s.sched.current)
    got := v.got
    stack := s.stackAfter Q m op
    before := s.beforeAfter Q m op }

def on : Option (MutexesState N M V σ) :=
  (op.exec Q cfg (.inl m) ceiling (s.view m)).map (s.put Q m op)

end

end code

end MutexesState

inductive MutexesOp (N : Nat) (M V : Type) where
  | sched (op : SchedOp N (M ⊕ V))
  | lock (m : M) (timeout : ℤ)
  | unlock (m : M)
  | goOn

/-- The priorities after an operation of the scheduler. -/
def SchedOp.priorities {W : Type} (prio : Fin N → ℤ) : SchedOp N W → Fin N → ℤ
  | .prioritySet thread k => Function.update prio thread k
  | _ => prio

def MutexesOp.exec (Q : Queues N (M ⊕ V) σ) (cfg : Config N) (ceiling : ℤ) (s : MutexesState N M V σ) :
    MutexesOp N M V → Option (MutexesState N M V σ)
  | .sched op => (op.exec Q cfg s.sched).map fun sched => { s with sched := sched, before := op.priorities s.before }
  | .lock m timeout => s.on Q cfg ceiling m (.lock timeout)
  | .unlock m => s.on Q cfg ceiling m .unlock
  | .goOn =>
    match s.inside s.sched.current with
    | some m => s.on Q cfg ceiling m .goOn
    | none => none

namespace MutexesState

/-- What the source asserts of a call; a thread in the code of a mutex does nothing else. -/
def Legal {Q : Queues N (M ⊕ V) σ} (H : Q.Lawful) (cfg : Config N) (s : MutexesState N M V σ) : MutexesOp N M V → Prop
  | .sched op => op.Legal H cfg s.sched ∧ ResumesOthers s.sched op ∧ ∀ m, op.Avoids (.inl m) ∧ (s.view m).Leaves op
  | .lock m timeout => MutexOp.Legal H cfg (.inl m) (s.view m) (.lock timeout) ∧ s.place s.sched.current = .outside
  | .unlock m => MutexOp.Legal H cfg (.inl m) (s.view m) .unlock ∧ s.place s.sched.current = .outside
  | .goOn => ∀ m, s.inside s.sched.current = some m → MutexOp.Legal H cfg (.inl m) (s.view m) .goOn

/-- The thread waits for the mutex, or is about to. -/
def Wants (s : MutexesState N M V σ) (m : M) (y : Fin N) : Prop :=
  s.sched.WaitsOn (.inl m) y ∨ s.inside y = some m ∧ (s.place y).isToPend = true

def Owns (s : MutexesState N M V σ) (m : M) (a : Fin N) : Prop := (s.mutex m).owner = some a ∧ 0 < (s.mutex m).lockCount

/-- A thread releases its mutexes in the reverse order, and its priority is set by others only while it has nothing
to do with mutexes. -/
def Ordered (s : MutexesState N M V σ) : MutexesOp N M V → Prop
  | .sched (.prioritySet x _) => s.stack x = [] ∧ ∀ m, ¬ s.Wants m x
  | .unlock m => (s.mutex m).lockCount - 1 = 0 → (s.stack s.sched.current).head? = some m
  | _ => True

/-- **Priority inheritance** (mutex.c:12-14): an owner is not lower than a thread that waits, up to the ceiling,
and a thread that has released all its mutexes has the priority from before. -/
structure Inherits (ceiling : ℤ) (s : MutexesState N M V σ) : Prop where
  raised : ∀ m a y, s.Owns m a → s.sched.WaitsOn (.inl m) y → s.sched.prio a ≤ max (s.sched.prio y) ceiling
  restored : ∀ a, (∀ m, ¬ s.Owns m a) → s.sched.prio a = s.before a

/-- The state of the priorities, without the code. -/
def abs (s : MutexesState N M V σ) : Inheritance.State (Fin N) M :=
  ⟨s.sched.prio, s.before, s.stack, fun m => (s.mutex m).ownerOrigPrio, s.Wants⟩

/-! ## When it works -/

/-- A thread that comes to wait for `m` finds all that the owner acquired later with a saved priority as high as
its own, and if it raises an owner that waits itself, those who make that one wait are high enough. -/
def BoostsAll (ceiling : ℤ) (s : MutexesState N M V σ) (m : M) : Prop :=
  ∀ o, (s.mutex m).owner = some o → o ≠ s.sched.current →
    (∀ m' ∈ Inheritance.later m (s.stack o), (s.mutex m').ownerOrigPrio ≤ max (s.sched.prio s.sched.current) ceiling) ∧
    (boostedPrio ceiling (s.view m) o < s.sched.prio o →
      Inheritance.MayRaise ceiling s.abs o (boostedPrio ceiling (s.view m) o))

/-- Nobody is on the way to the queue of `m`, and the first in it has the highest priority. -/
def Settled (Q : Queues N (M ⊕ V) σ) (s : MutexesState N M V σ) (m : M) : Prop :=
  (∀ y, s.inside y = some m → (s.place y).isToPend = false) ∧
    ∀ y x, s.sched.WaitsOn (.inl m) y → Q.best s.sched.queues (.waitq (.inl m)) = some (some x) →
    s.sched.prio x ≤ s.sched.prio y

/-- For those that want what the owner acquired later the priority `p` is high enough, and it is no change while
`m` is handed over. -/
def Spares (ceiling : ℤ) (s : MutexesState N M V σ) (m : M) (o : Fin N) (p : ℤ) : Prop :=
  ((s.mutex m).lockCount = 0 → p = s.sched.prio o) ∧
    (∀ m' ∈ Inheritance.later m (s.stack o), ∀ y, s.Wants m' y → p ≤ max (s.sched.prio y) ceiling) ∧
    (p < s.sched.prio o → Inheritance.MayRaise ceiling s.abs o p)

/-- What a thread that has timed out on `m` writes spares the other mutexes of the owner. -/
def SparesOthers (Q : Queues N (M ⊕ V) σ) (ceiling : ℤ) (s : MutexesState N M V σ) (m : M) : Prop :=
  ∀ o waiter, (s.mutex m).owner = some o → Q.best s.sched.queues (.waitq (.inl m)) = some waiter →
    s.Spares ceiling m o (timedOutPrio ceiling (s.view m) waiter)

/-- The condition on a step under which priorities are inherited. -/
def Nests (Q : Queues N (M ⊕ V) σ) (ceiling : ℤ) (s : MutexesState N M V σ) : MutexesOp N M V → Prop
  | .sched _ | .unlock _ => True
  | .lock m timeout => (s.view m).TakesFree (.lock timeout) ∧
      ((s.mutex m).lockCount ≠ 0 → timeout ≠ 0 → s.BoostsAll ceiling m)
  | .goOn => ∀ m, s.inside s.sched.current = some m →
      (s.place s.sched.current = .toHandOver → s.Settled Q m) ∧
      (s.place s.sched.current = .pended → s.got s.sched.current = false → s.Settled Q m ∧ s.SparesOthers Q ceiling m)

end MutexesState

/-- Nobody has called a mutex since `k_mutex_init`, and no thread has been started. -/
structure MutexesBooted {Q : Queues N (M ⊕ V) σ} (H : Q.Lawful) (cfg : Config N) (s : MutexesState N M V σ) : Prop where
  sched : Booted H cfg s.sched
  mutex : ∀ m, (s.mutex m).owner = none ∧ (s.mutex m).lockCount = 0
  inside : ∀ y, s.inside y = none
  place : ∀ y, s.place y = .outside
  stack : ∀ y, s.stack y = []
  before : s.before = s.sched.prio

end Zephyr
