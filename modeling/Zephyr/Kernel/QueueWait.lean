import Zephyr.Kernel.Poll
import Zephyr.Lib.Tally
/-!
# Threads that wait for a queue, without and with `CONFIG_POLL` (kernel/queue.c)

Without `CONFIG_POLL` an insertion hands its item to the first thread of `wait_q`. With it a waiting thread polls: the
insertion puts the item in the list and signals one event, and the thread whose event it is takes the first item
that it finds, or polls again.

The list is the list of its items, and the tail is read and used in one step. There are `T` threads; the event of
`k_queue_poll`, a variable of that function, has the number of its thread, and the queue is object 0.
`k_queue_cancel_wait` is not called, so that `k_poll` returns 0.
-/
namespace Zephyr

open StableQueue Tally Function

/-- Where a thread is in `k_queue_get(queue, K_FOREVER)`. -/
inductive GetPhase where
  | idle
  | begun
  | waiting
  /-- made ready, with the item in `swap_data` -/
  | handed (item : Nat)
  | done (item : Nat)
deriving DecidableEq

namespace GetPhase

def isDone : GetPhase → Bool
  | done _ => true
  | _ => false

def isIdle : GetPhase → Bool
  | idle => true
  | _ => false

end GetPhase

inductive InsertReq where
  | append (item : Nat)
  | prepend (item : Nat)
  | appendList (head : Nat) (others : List Nat)

namespace InsertReq

def items : InsertReq → List Nat
  | append item | prepend item => [item]
  | appendList head others => head :: others

/-- The list after the insertion. -/
def into (data : List Nat) : InsertReq → List Nat
  | append item => data ++ [item]
  | prepend item => item :: data
  | appendList head others => data ++ head :: others

end InsertReq

inductive WaitOp (T : Nat) where
  | get (t : Fin T)
  /-- the next section of a thread's `k_queue_get` -/
  | step (t : Fin T)
  | insert (req : InsertReq)

variable {T : Nat}

/-- The number of threads that have called `k_queue_get`. -/
def getters (phase : Fin T → GetPhase) : Nat := tally fun t => !(phase t).isIdle

/-- The number of threads that have their item. -/
def received (phase : Fin T → GetPhase) : Nat := tally fun t => (phase t).isDone

/-! ## Without `CONFIG_POLL` -/

structure PendQueue (T : Nat) where
  data : List Nat
  waitQ : List (Fin T)
  phase : Fin T → GetPhase
  /-- how many items were inserted -/
  inserted : Nat

namespace PendQueue

variable (prio : Fin T → ℤ) (s : PendQueue T)

def setPhase (t : Fin T) (ph : GetPhase) : PendQueue T := { s with phase := update s.phase t ph }

/-- `_unpend_first_thread` and `prepare_thread_to_run`, as long as there are threads and items; with the items that
are left. -/
def handOver (s : PendQueue T) : List Nat → PendQueue T × List Nat
  | [] => (s, [])
  | item :: items =>
    match s.waitQ with
    | [] => (s, item :: items)
    | t :: waitQ => handOver ({ s with waitQ := waitQ }.setPhase t (.handed item)) items

def insert (req : InsertReq) : PendQueue T :=
  let s := { s with inserted := s.inserted + req.items.length }
  match req with
  | .append item | .prepend item =>
    match s.waitQ with
    | t :: waitQ => { s with waitQ := waitQ }.setPhase t (.handed item)
    | [] => { s with data := req.into s.data }
  | .appendList head others =>
    match s.handOver (head :: others) with
    | (s, []) => s
    | (s, item :: items) => { s with data := (InsertReq.appendList item items).into s.data }

def getSection (t : Fin T) : PendQueue T :=
  match s.data with
  | item :: data => { s with data := data }.setPhase t (.done item)
  | [] => { s with waitQ := enq prio t s.waitQ }.setPhase t .waiting

def exec (s : PendQueue T) : WaitOp T → Option (PendQueue T)
  | .get t => some (s.setPhase t .begun)
  | .step t =>
    match s.phase t with
    | .begun => some (s.getSection prio t)
    | .handed item => some (s.setPhase t (.done item))
    | _ => none
  | .insert req => some (s.insert req)

/-- A thread calls once, and makes no step while it waits. -/
def Legal (s : PendQueue T) : WaitOp T → Prop
  | .get t => s.phase t = .idle
  | .step t => s.phase t ≠ .idle ∧ s.phase t ≠ .waiting ∧ (s.phase t).isDone = false
  | .insert _ => True

instance (s : PendQueue T) (op : WaitOp T) : Decidable (s.Legal op) := by
  cases op <;> dsimp only [PendQueue.Legal] <;> infer_instance

/-- All threads that were made ready have run. -/
def Quiet : Prop := ∀ t, s.phase t = .idle ∨ s.phase t = .waiting ∨ (s.phase t).isDone = true

instance : Decidable s.Quiet :=
    inferInstanceAs (Decidable (∀ t, s.phase t = .idle ∨ s.phase t = .waiting ∨ (s.phase t).isDone = true))

def init (T : Nat) : PendQueue T := ⟨[], [], fun _ => .idle, 0⟩

end PendQueue

/-! ## With `CONFIG_POLL` -/

structure PollQueue (T : Nat) where
  poll : PollState T T
  data : List Nat
  phase : Fin T → GetPhase
  inserted : Nat

namespace PollQueue

variable (prio : Option (Fin T) → ℤ) (s : PollQueue T)

def setPhase (t : Fin T) (ph : GetPhase) : PollQueue T := { s with phase := update s.phase t ph }

/-- The first item is taken off. -/
def take (t : Fin T) (item : Nat) (data : List Nat) : PollQueue T :=
  { s with data := data, poll.cond := update s.poll.cond 0 (!data.isEmpty) }.setPhase t (.done item)

/-- `k_poll(&event, 1, K_FOREVER)` is called. -/
def callPoll (t : Fin T) : PollQueue T :=
  { s with poll := { s.poll with state := update s.poll.state t 0 }.setCall t ⟨[t], .forever, true, 0, .scan 0, 0⟩ }

def insert (req : InsertReq) : Option (PollQueue T) :=
  (handleObjPollEvents { s.poll with cond := update s.poll.cond 0 true } 0 PollKind.queue.state).map fun poll =>
    { s with poll := poll, data := req.into s.data, inserted := s.inserted + req.items.length }

def getSection (t : Fin T) : PollQueue T :=
  match s.data with
  | item :: data => s.take t item data
  | [] => ({ s with poll := kPollEventInit s.poll t (some 0) }.setPhase t .waiting).callPoll t

/-- A section of `k_poll`, or what comes behind it. -/
def pollSection (t : Fin T) : Option (PollQueue T) :=
  match s.poll.calls t with
  | some _ => (pollStep prio (fun _ => .queue) s.poll t).map fun poll => { s with poll := poll }
  | none =>
    match s.data with
    | item :: data => some (s.take t item data)
    | [] => some (s.callPoll t)

def exec (s : PollQueue T) : WaitOp T → Option (PollQueue T)
  | .get t => some (s.setPhase t .begun)
  | .step t =>
    match s.phase t with
    | .begun => some (s.getSection t)
    | .waiting => s.pollSection prio t
    | _ => none
  | .insert req => s.insert req

/-- The thread is in `_pend_current_thread`. -/
def Pending (t : Fin T) : Prop := ∃ f ∈ s.poll.calls t, f.phase = .pending false

instance (t : Fin T) : Decidable (s.Pending t) :=
    inferInstanceAs (Decidable (∃ f ∈ s.poll.calls t, f.phase = .pending false))

def Legal (s : PollQueue T) : WaitOp T → Prop
  | .get t => s.phase t = .idle
  | .step t => s.phase t ≠ .idle ∧ (s.phase t).isDone = false ∧ ¬ s.Pending t
  | .insert _ => True

instance (s : PollQueue T) (op : WaitOp T) : Decidable (s.Legal op) := by
  cases op <;> dsimp only [PollQueue.Legal] <;> infer_instance

def Quiet : Prop := ∀ t, s.phase t = .idle ∨ s.Pending t ∨ (s.phase t).isDone = true

instance : Decidable s.Quiet :=
    inferInstanceAs (Decidable (∀ t, s.phase t = .idle ∨ s.Pending t ∨ (s.phase t).isDone = true))

/-- The event of the thread is registered and was not signalled. -/
def blocked (t : Fin T) : Bool :=
  match s.poll.calls t with
  | some f => f.registered == 1 && !s.poll.signalled t
  | none => false

/-- The thread will look for an item. -/
def active (t : Fin T) : Bool := !(s.phase t).isIdle && !(s.phase t).isDone && !s.blocked t

/-- An event is cleared while its neighbours are next to each other, and with the thread that it wakes an insertion
leaves no fewer threads under way than items, or no thread blocked. -/
def Enough (s : PollQueue T) : WaitOp T → Prop
  | .get _ => True
  | .step t => (PollOp.step t).Unmoved s.poll
  | .insert req => tally s.blocked ≤ 1 ∨ s.data.length + req.items.length ≤ tally s.active + 1

instance (s : PollQueue T) (op : WaitOp T) : Decidable (s.Enough op) := by
  cases op <;> dsimp only [PollQueue.Enough] <;> infer_instance

def init (T : Nat) (links : Ring.Links (QNode Nat T)) : PollQueue T :=
    ⟨initPoll links fun _ => false, [], fun _ => .idle, 0⟩

end PollQueue

end Zephyr
