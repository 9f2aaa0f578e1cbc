import Zephyr.Kernel.Api
import Zephyr.Kernel.Priq
/-!
# Polling (kernel/poll.c)

`k_poll` registers its events one by one on the lists of their objects, waits, and takes them off again, also those
that a signaller has taken off. Between two sections with interrupts locked anything may happen.

There are `T` threads and `E` events; objects are numbers. The cells of the lists are those of thread queues: a
`QNode.thread` is the `_node` of an event. `PollOp.post` is `k_sem_give` when no thread waits for the semaphore, an
insertion in a queue, or `k_poll_signal`; what else happens to an object is `PollOp.setCond`. `prio none` is what
is found when a `NULL` `poller` is followed.
-/
namespace Zephyr

open Ring Function

inductive PollPhase where
  /-- the loop over the events, before event `ii` -/
  | scan (ii : Nat)
  /-- in `_pend_current_thread`; `expired` from the tick on, until the time-out is handled -/
  | pending (expired : Bool)
  | woken
  | clear
deriving DecidableEq

/-- A call of `k_poll` with its variables. -/
structure PollCall (E : Nat) where
  events : List (Fin E)
  timeout : Timeout
  isPolling : Bool
  /-- `last_registered + 1` -/
  registered : Nat
  phase : PollPhase
  rc : ℤ

inductive PollKind where
  | sem
  | queue
  | signal

/-- `K_POLL_STATE_SEM_AVAILABLE`, `K_POLL_STATE_FIFO_DATA_AVAILABLE`, `K_POLL_STATE_SIGNALED` -/
def PollKind.state : PollKind → BitVec 4
  | sem => 2
  | queue => 4
  | signal => 1

/-- `K_POLL_STATE_CANCELLED` -/
def stateCancelled : BitVec 4 := 8

structure PollState (T E : Nat) where
  links : Links (QNode Nat E)
  /-- `NULL` for `K_POLL_TYPE_IGNORE` -/
  obj : Fin E → Option Nat
  poller : Fin E → Option (Fin T)
  state : Fin E → BitVec 4
  /-- the count is not 0, the queue is not empty, the signal is set -/
  cond : Nat → Bool
  calls : Fin T → Option (PollCall E)
  /-- a signaller has taken the event off its list since it was registered -/
  signalled : Fin E → Bool
  returned : List (Fin T × ℤ)

section code

variable {T E : Nat} (prio : Option (Fin T) → ℤ) (kind : Nat → PollKind) (s : PollState T E)

def PollState.setCall (t : Fin T) (f : PollCall E) : PollState T E := { s with calls := update s.calls t (some f) }

def PollState.ret (t : Fin T) (rc : ℤ) : PollState T E :=
  { s with calls := update s.calls t none, returned := s.returned ++ [(t, rc)] }

def kPollEventInit (e : Fin E) (obj : Option Nat) : PollState T E :=
  { s with
    obj := update s.obj e obj
    poller := update s.poller e none
    state := update s.state e 0 }

def setEventReady (e : Fin E) (state : BitVec 4) : PollState T E :=
  { s with poller := update s.poller e none, state := update s.state e (s.state e ||| state) }

/-- The list is walked as `_priq_dumb_add` does, unless the event belongs at its end. -/
def addEvent (o : Nat) (e : Fin E) (t : Fin T) : Option (Links (QNode Nat E)) :=
  let evPrio : Fin E → ℤ := fun x => prio (update s.poller e (some t) x)
  match sysDlistPeekTail s.links (.head o) with
  | none => some (sysDlistAppend s.links (.head o) (.thread e))
  | some (.thread x) =>
    if isT1HigherPrioThanT2 evPrio x e then some (sysDlistAppend s.links (.head o) (.thread e))
    else priqDumbAdd evPrio s.links (.head o) e
  | some (.head _) => none

def registerEvent (e : Fin E) (t : Fin T) : Option (PollState T E) :=
  (match s.obj e with
  | none => some s.links
  | some o => addEvent prio s o e t).map fun links =>
    { s with links := links, poller := update s.poller e (some t), signalled := update s.signalled e false }

def clearEventRegistration (e : Fin E) : PollState T E :=
  { s with
    poller := update s.poller e none
    links := if (s.obj e).isSome then sysDlistRemove s.links (.thread e) else s.links }

def clearSection (t : Fin T) (f : PollCall E) : Option (PollState T E) :=
  match f.registered with
  | 0 => some (s.ret t f.rc)
  | n + 1 => f.events[n]?.map fun e => (clearEventRegistration s e).setCall t { f with registered := n, phase := .clear }

/-- `is_condition_met` (poll.c:46), with the state it gives. -/
def isConditionMet (e : Fin E) : Option (BitVec 4) :=
  match s.obj e with
  | none => none
  | some o => if s.cond o then some (kind o).state else none

/-- The body of the loop over the events (poll.c:188-201). -/
def scanSection (t : Fin T) (f : PollCall E) (ii : Nat) (e : Fin E) : Option (PollState T E) :=
  let f := { f with phase := .scan (ii + 1) }
  match isConditionMet kind s e with
  | some state => some ((setEventReady s e state).setCall t { f with isPolling := false })
  | none =>
    if f.timeout ≠ .noWait ∧ f.isPolling then
      (registerEvent prio s e t).map fun s => s.setCall t { f with registered := f.registered + 1 }
    else some (s.setCall t f)

/-- From the end of the loop to `_pend_current_thread` (poll.c:204-225). -/
def pendSection (t : Fin T) (f : PollCall E) : Option (PollState T E) :=
  if f.isPolling then
    if f.timeout = .noWait then some (s.ret t eagain)
    else some (s.setCall t { f with isPolling := false, phase := .pending false, rc := eagain })
  else clearSection s t { f with rc := 0 }

def pollStep (t : Fin T) : Option (PollState T E) := do
  let f ← s.calls t
  match f.phase with
  | .scan ii =>
    match f.events[ii]? with
    | some e => scanSection prio kind s t f ii e
    | none => pendSection s t f
  | .pending _ => none
  | .woken | .clear => clearSection s t f

/-- A thread whose time-out has expired is left alone, and so is the event's `poller`. -/
def signalPollEvent (e : Fin E) (state : BitVec 4) : PollState T E :=
  match s.poller e with
  | none => setEventReady s e state
  | some t =>
    match s.calls t with
    | none => setEventReady s e state
    | some f =>
      let f := { f with isPolling := false }
      match f.phase with
      | .pending true => s.setCall t f
      | .pending false =>
        setEventReady (s.setCall t { f with phase := .woken, rc := if state = stateCancelled then eintr else 0 }) e state
      | _ => setEventReady (s.setCall t f) e state

def handleObjPollEvents (o : Nat) (state : BitVec 4) : Option (PollState T E) :=
  match sysDlistGet s.links (.head o) with
  | (_, none) => some s
  | (links, some (.thread e)) =>
    some (signalPollEvent { s with links := links, signalled := update s.signalled e true } e state)
  | (_, some (.head _)) => none

end code

/-! ## Calls -/

inductive PollOp (T E : Nat) where
  | eventInit (e : Fin E) (obj : Option Nat)
  | call (t : Fin T) (events : List (Fin E)) (timeout : Timeout)
  | step (t : Fin T)
  | post (o : Nat)
  | cancel (o : Nat)
  | setCond (o : Nat) (met : Bool)
  | expire (t : Fin T)
  | timeOut (t : Fin T)

/-- The event that the next section of a call takes off its list. -/
def PollCall.clears {E : Nat} (f : PollCall E) : Option (Fin E) :=
  match f.phase with
  | .scan ii => if f.events.length ≤ ii ∧ f.isPolling = false then (f.events.take f.registered).getLast? else none
  | .pending _ => none
  | .woken | .clear => (f.events.take f.registered).getLast?

namespace PollOp

variable {T E : Nat} (prio : Option (Fin T) → ℤ) (kind : Nat → PollKind)

def exec (s : PollState T E) : PollOp T E → Option (PollState T E)
  | eventInit e obj => some (kPollEventInit s e obj)
  | call t events timeout => some (s.setCall t ⟨events, timeout, true, 0, .scan 0, 0⟩)
  | step t => pollStep prio kind s t
  | post o => handleObjPollEvents { s with cond := update s.cond o true } o (kind o).state
  | cancel o => handleObjPollEvents s o stateCancelled
  | setCond o met => some { s with cond := update s.cond o met }
  | expire t => (s.calls t).map fun f => s.setCall t { f with phase := .pending true }
  | timeOut t => (s.calls t).map fun f => s.setCall t { f with phase := .woken }

/-- The events of a call are in no other; a thread that waits makes no step. -/
def Legal (s : PollState T E) : PollOp T E → Prop
  | eventInit e _ => ∀ t, ∀ f ∈ s.calls t, e ∉ f.events
  | call t events _ => s.calls t = none ∧ events ≠ [] ∧ events.Nodup ∧ ∀ t', ∀ f ∈ s.calls t', ∀ e ∈ events,
      e ∉ f.events
  | step t => ∃ f ∈ s.calls t, f.phase ≠ .pending false ∧ f.phase ≠ .pending true
  | post _ | cancel _ | setCond _ _ => True
  | expire t => ∃ f ∈ s.calls t, f.phase = .pending false ∧ f.timeout = .ticks
  | timeOut t => ∃ f ∈ s.calls t, f.phase = .pending true

/-- An event that is taken off a second time was between two nodes that are next to each other now. -/
def Unmoved (s : PollState T E) : PollOp T E → Prop
  | step t => ∀ f ∈ s.calls t, ∀ e ∈ f.clears, s.signalled e = true → s.obj e ≠ none →
      s.links.next (s.links.prev (.thread e)) = s.links.next (.thread e) ∧
      s.links.prev (s.links.next (.thread e)) = s.links.prev (.thread e)
  | _ => True

instance decidableLegal (s : PollState T E) (op : PollOp T E) : Decidable (op.Legal s) := by
  cases op <;> dsimp only [PollOp.Legal] <;> infer_instance

instance decidableUnmoved (s : PollState T E) (op : PollOp T E) : Decidable (op.Unmoved s) := by
  cases op <;> dsimp only [PollOp.Unmoved] <;> infer_instance

end PollOp

/-- Every object has an empty list; no thread polls. -/
def initPoll {T E : Nat} (links : Links (QNode Nat E)) (cond : Nat → Bool) : PollState T E where
  links :=
    { next := fun c => match c with | .head o => .head o | .thread e => links.next (.thread e)
      prev := fun c => match c with | .head o => .head o | .thread e => links.prev (.thread e) }
  obj _ := none
  poller _ := none
  state _ := 0
  cond := cond
  calls _ := none
  signalled _ := false
  returned := []

end Zephyr
