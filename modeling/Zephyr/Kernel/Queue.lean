import Zephyr.Misc.Sflist
/-!
# Queues (kernel/queue.c)

`k_queue_append` and `k_queue_alloc_append` read the tail of the list before `queue_insert` locks interrupts, so
that other threads and ISRs may come in between. A call is therefore two steps here; a `k_queue_get` that does not
wait is one.

A node is the user's own item, or a `struct alloc_node` that points to it. After a `k_queue_get` whoever has the item
may write to it, and a node that `k_free` was called for may be written or be allocated again. When the
allocation fails `queue_insert` returns with interrupts locked (queue.c:170), which leaves others no more to do than
they do here.
-/
namespace Zephyr

open Function

structure KQueue where
  mem : Nat → SfNode Nat
  /-- `data` of an `alloc_node` -/
  anodeData : Nat → Nat
  dataQ : Sflist Nat

section code

variable (q : KQueue)

def zQueueNodePeek (node : Nat) : Nat := if (q.mem node).flags ≠ 0 then q.anodeData node else node

/-- `anode` is what `z_thread_malloc` gives; without a node the result is `-ENOMEM`. Returned is also the node that
goes in the list. -/
def queueInsert (prev : Option Nat) (data : Nat) (alloc : Bool) (anode : Option Nat) : Option (KQueue × Nat) :=
  (if alloc then anode else some data).map fun node =>
    let mem := sysSfnodeInit q.mem node (if alloc then 1 else 0)
    let (mem, list) := sysSflistInsert mem q.dataQ prev node
    (⟨mem, if alloc then update q.anodeData node data else q.anodeData, list⟩, node)

/-- The queue, and the node with the pointer that is returned. -/
def queueGet : KQueue × Option (Nat × Nat) :=
  match q.dataQ.head with
  | some node => ({ q with dataQ := sysSflistGetNotEmpty q.mem q.dataQ node }, some (node, zQueueNodePeek q node))
  | none => (q, none)

end code

/-! ## Calls -/

inductive QueueReq where
  | append
  | prepend
  | allocAppend
  | allocPrepend
deriving DecidableEq

def QueueReq.alloc : QueueReq → Bool
  | append | prepend => false
  | allocAppend | allocPrepend => true

def QueueReq.appends : QueueReq → Bool
  | append | allocAppend => true
  | prepend | allocPrepend => false

/-- A call that has its arguments and has not locked interrupts yet. -/
structure InsertCall where
  prev : Option Nat
  data : Nat
  alloc : Bool

/-- Calls have numbers; an item is known by the call that inserts it. -/
structure QueueState where
  queue : KQueue
  calls : Nat → Option InsertCall
  reqs : Nat → Option (QueueReq × Nat)
  /-- the appends that were over when the call, an append too, was made -/
  before : Nat → List Nat
  /-- the call that a node was last used for -/
  item : Nat → Option Nat
  inserted : List Nat
  /-- the items that `k_queue_get` gave, with the pointers -/
  returned : List (Nat × Nat)

namespace QueueState

variable (s : QueueState)

def isReturned (c : Nat) : Prop := c ∈ s.returned.map Prod.fst

instance (c : Nat) : Decidable (s.isReturned c) := inferInstanceAs (Decidable (c ∈ s.returned.map Prod.fst))

/-- Neither the queue nor a call under way has the node. -/
def Free (n : Nat) : Prop := ∀ c ∈ s.item n, s.isReturned c

instance (n : Nat) : Decidable (s.Free n) :=
  match h : s.item n with
  | none => isTrue fun c hc => by simp [h] at hc
  | some c => decidable_of_iff (s.isReturned c) (by simp [Free, h])

/-- The node is in the queue, as far as the calls tell. -/
def Queued (n : Nat) : Prop := ∃ c ∈ s.item n, c ∈ s.inserted ∧ ¬ s.isReturned c

instance (n : Nat) : Decidable (s.Queued n) :=
  match h : s.item n with
  | none => isFalse fun ⟨c, hc, _⟩ => by simp [h] at hc
  | some c => decidable_of_iff (c ∈ s.inserted ∧ ¬ s.isReturned c) (by simp [Queued, h])

def appended (c : Nat) : Bool := ((s.reqs c).map fun r => r.1.appends).getD false

end QueueState

inductive QueueOp where
  | call (c : Nat) (req : QueueReq) (data : Nat)
  /-- the section with interrupts locked -/
  | lock (c : Nat) (anode : Option Nat)
  | get
  | write (n : Nat) (node : SfNode Nat) (data : Nat)

namespace QueueOp

def exec (s : QueueState) : QueueOp → Option QueueState
  | call c req data =>
    some { s with
      calls := update s.calls c (some ⟨if req.appends then s.queue.dataQ.tail else none, data, req.alloc⟩)
      reqs := update s.reqs c (some (req, data))
      before := update s.before c (if req.appends then s.inserted.filter s.appended else [])
      item := if req.alloc then s.item else update s.item data (some c) }
  | lock c anode =>
    (s.calls c).map fun i =>
      let s := { s with calls := update s.calls c none }
      match queueInsert s.queue i.prev i.data i.alloc anode with
      | none => s
      | some (q, node) => { s with queue := q, item := update s.item node (some c), inserted := s.inserted ++ [c] }
  | get =>
    let (q, got) := queueGet s.queue
    some { s with queue := q, returned := s.returned ++ (got.bind fun e => (s.item e.1).map fun c => (c, e.2)).toList }
  | write n node data =>
    some { s with queue.mem := update s.queue.mem n node, queue.anodeData := update s.queue.anodeData n data }

/-- The user's item is not in use, and neither is what `z_thread_malloc` gives. -/
def Legal (s : QueueState) : QueueOp → Prop
  | call c req data => s.reqs c = none ∧ (req.alloc = false → s.Free data)
  | lock c anode => ∃ i ∈ s.calls c, i.alloc = true → ∀ n ∈ anode, s.Free n
  | get => True
  | write n _ _ => s.Free n

/-- The node that was the tail is in the queue, or has no successor. -/
def Fresh (s : QueueState) : QueueOp → Prop
  | lock c anode => ∀ i ∈ s.calls c, ∀ p ∈ i.prev, s.Queued p ∨ (s.queue.mem p).next = none ∨ i.alloc = true ∧
      anode = some p
  | _ => True

instance decidableLegal (s : QueueState) (op : QueueOp) : Decidable (op.Legal s) := by
  cases op <;> dsimp only [QueueOp.Legal] <;> infer_instance

instance decidableFresh (s : QueueState) (op : QueueOp) : Decidable (op.Fresh s) := by
  cases op <;> dsimp only [QueueOp.Fresh] <;> infer_instance

end QueueOp

/-- A queue after `k_queue_init`. -/
def initQueue (mem : Nat → SfNode Nat) (anodeData : Nat → Nat) : QueueState where
  queue := ⟨mem, anodeData, ⟨none, none⟩⟩
  calls _ := none
  reqs _ := none
  before _ := []
  item _ := none
  inserted := []
  returned := []

end Zephyr
