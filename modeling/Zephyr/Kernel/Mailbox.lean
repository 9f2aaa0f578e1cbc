import Zephyr.Kernel.SchedWaits
import Zephyr.Kernel.Api
/-!
# Mailboxes (kernel/mailbox.c)

A sender and a receiver meet in a mailbox over the scheduler of `Zephyr.Kernel.Sched`. When they have met the
receiver has the message, and the sender waits until it has been disposed of; it waits in no queue. A sender that
comes first is taken off `tx_msg_queue` by `k_mbox_get` and is not marked as pending any more, and so
the scheduler takes it for ready, though it is not in the run queue.

The code is cut where another thread can run: behind `_pend_current_thread`, between `irq_unlock` and the check
of the data, and in front of the section that wakes the sender. `MboxPlace` says where a thread stands.
Receive descriptors have numbers, and a thread (or the dummy thread of `k_mbox_async_put`) has one transmit
descriptor, the one that its `swap_data` points to. The data themselves are left out; a pointer is a number, and
the threads that `k_mem_pool_free`, `k_stack_push` and `k_sem_give` wake are woken by steps of the scheduler.
-/
namespace Zephyr

open Sched Function

variable {N : Nat} {W σ : Type} [DecidableEq W]

structure KMbox (W : Type) where
  txMsgQueue : W
  rxMsgQueue : W
deriving DecidableEq

/-- `K_ANY` and `NULL` are `none`. -/
structure MboxMsg (N : Nat) where
  size : Nat
  info : Nat
  txData : Option Nat
  txBlock : Option Nat
  rxSourceThread : Option (Fin N)
  txTargetThread : Option (Fin N)
  syncingThread : Option (Fin N)
deriving DecidableEq

/-- Where a thread stands in the code of the mailboxes; `buffer` is whether the receiver has supplied one. -/
inductive MboxPlace (N : Nat) where
  | outside
  /-- in `_pend_current_thread` of `mbox_message_put`; a dummy thread that is in use -/
  | put
  /-- in `_pend_current_thread` of `k_mbox_get` -/
  | get (d : Nat) (buffer : Bool)
  /-- in front of `mbox_message_data_check` -/
  | check (d : Nat) (buffer : Bool)
  /-- in front of `mbox_message_dispose` -/
  | dispose (d : Nat)
  /-- in front of the section at the end of `mbox_message_dispose` -/
  | wake (sender : Fin N)
deriving DecidableEq

/-- The receive descriptor that is in use. -/
def MboxPlace.desc? : MboxPlace N → Option Nat
  | get d _ | check d _ | dispose d => some d
  | outside | put | wake _ => none

/-- A message that was matched: the sending thread, the number of its message, and both descriptors as they were
given. -/
structure Rendezvous (N : Nat) where
  sender : Fin N
  number : Nat
  tx : MboxMsg N
  rx : MboxMsg N
deriving DecidableEq

/-- A message that was disposed of, and the sizes in both descriptors then. -/
structure Disposal (N : Nat) where
  met : Rendezvous N
  discarded : Bool
  rxSize : Nat
  txSize : Nat
deriving DecidableEq

/-- A `k_mbox_put` that has returned, and the size in its descriptor then. -/
structure PutReturn (N : Nat) where
  sender : Fin N
  number : Nat
  code : ℤ
  size : Nat
deriving DecidableEq

/-- Who is to wake a sender that has been matched. -/
inductive Holder (N : Nat) where
  | desc (d : Nat)
  | waker (t : Fin N)
deriving DecidableEq

structure MboxState (N : Nat) (W σ : Type) where
  sched : Sched N W σ
  txMsg : Fin N → MboxMsg N
  rxMsg : Nat → MboxMsg N
  /-- `swap_data` of a thread in `k_mbox_get` -/
  rxDesc : Fin N → Nat
  place : Fin N → MboxPlace N
  /-- what `_Swap` returns to the thread -/
  retval : Fin N → ℤ
  -- what follows is not in the source
  /-- how many messages a thread has sent -/
  puts : Fin N → Nat
  /-- the descriptors as they were given -/
  sent : Fin N → MboxMsg N
  asked : Nat → MboxMsg N
  /-- the message in a receive descriptor, and whether its data were discarded -/
  kept : Nat → Option (Rendezvous N)
  discarded : Nat → Bool
  /-- the senders that have been matched and not been woken -/
  held : Fin N → Option (Holder N)
  met : List (Rendezvous N)
  disposed : List (Disposal N)
  returned : List (PutReturn N)

/-- The updated descriptors, or `none` for -1. -/
def mboxMessageMatch (tx rx : MboxMsg N) : Option (MboxMsg N × MboxMsg N) :=
  if (tx.txTargetThread = none ∨ tx.txTargetThread = rx.txTargetThread) ∧
      (rx.rxSourceThread = none ∨ rx.rxSourceThread = tx.rxSourceThread) then
    some ({ tx with txTargetThread := rx.txTargetThread, info := rx.info },
        { size := if rx.size > tx.size then tx.size else rx.size
          info := tx.info
          txData := if tx.txData ≠ none then tx.txData else tx.txBlock
          txBlock := if tx.txData ≠ none then none else tx.txBlock
          rxSourceThread := tx.rxSourceThread
          txTargetThread := rx.txTargetThread
          syncingThread := tx.syncingThread })
  else none

namespace MboxState

variable (s : MboxState N W σ)

def setPlace (t : Fin N) (place : MboxPlace N) : MboxState N W σ := { s with place := update s.place t place }

def setRetval (t : Fin N) (retval : ℤ) : MboxState N W σ := { s with retval := update s.retval t retval }

/-- A thread is going to send `tx`. -/
def sends (t : Fin N) (tx : MboxMsg N) : MboxState N W σ :=
  { s with
    txMsg := update s.txMsg t tx
    sent := update s.sent t tx
    puts := update s.puts t (s.puts t + 1) }

/-- A descriptor is going to be used to receive. -/
def asks (d : Nat) (rx : MboxMsg N) : MboxState N W σ :=
  { s with
    rxMsg := update s.rxMsg d rx
    asked := update s.asked d rx
    kept := update s.kept d none
    discarded := update s.discarded d false }

/-- The message of `sender` has been matched with the descriptor `d`, and these are both descriptors now. -/
def meets (sender : Fin N) (d : Nat) (tx rx : MboxMsg N) : MboxState N W σ :=
  let met : Rendezvous N := ⟨sender, s.puts sender, s.sent sender, s.asked d⟩
  { s with
    txMsg := update s.txMsg sender tx
    rxMsg := update s.rxMsg d rx
    kept := update s.kept d (some met)
    held := update s.held sender (some (.desc d))
    met := s.met ++ [met] }

/-- The message in the descriptor `d`, sent by `sender`, has been disposed of. -/
def disposes (d : Nat) (sender : Fin N) : MboxState N W σ :=
  { s with disposed := s.disposed ++
      ((s.kept d).map fun met => (⟨met, s.discarded d, (s.rxMsg d).size, (s.txMsg sender).size⟩ : Disposal N)).toList }

/-- `k_mbox_put` of a thread returns. -/
def returns (t : Fin N) (code : ℤ) : MboxState N W σ :=
  { s with
    place := update s.place t .outside
    returned := s.returned ++ [⟨t, s.puts t, code, (s.txMsg t).size⟩] }

def setRxSize (d size : Nat) : MboxState N W σ :=
  { s with rxMsg := update s.rxMsg d { s.rxMsg d with size := size } }

end MboxState

section code

variable (Q : Queues N W σ) (each : σ → W → Option (List (Fin N))) (cfg : Config N) (s : MboxState N W σ)

/-! ## Sending -/

def mboxMessagePut (mbox : KMbox W) (sendingThread : Fin N) (timeout : Timeout) : Option (MboxState N W σ) := do
  let current := s.sched.current
  let receivers ← each s.sched.queues mbox.rxMsgQueue
  match receivers.findSome? fun r => (mboxMessageMatch (s.txMsg sendingThread) (s.rxMsg (s.rxDesc r))).map
    fun m => (r, m) with
  | some (receivingThread, tx, rx) =>
    let sched ← unpendThread Q s.sched receivingThread
    let sched ← readyThread Q cfg sched receivingThread
    let s := (s.meets sendingThread (s.rxDesc receivingThread) tx rx).setRetval receivingThread 0
    if (s.sched.base sendingThread).dummy then some { s with sched := sched.reschedule }
    else
      -- pend current thread (unqueued) until the receiver consumes the message
      let sched ← pendCurrentThread Q cfg sched none true
      some { s with sched := sched }
  | none =>
    if timeout = .noWait then some (s.returns current enomsg)
    else if (s.sched.base sendingThread).dummy then
      let sched ← pend Q cfg s.sched sendingThread (some mbox.txMsgQueue) true
      some { s with sched := sched }
    else
      let sched ← pendCurrentThread Q cfg s.sched (some mbox.txMsgQueue) (timeout = .forever)
      some { s with sched := sched }

def kMboxPut (mbox : KMbox W) (msg : MboxMsg N) (timeout : Timeout) : Option (MboxState N W σ) :=
  let current := s.sched.current
  let s := s.sends current { msg with rxSourceThread := some current, syncingThread := some current }
  mboxMessagePut Q each cfg ((s.setPlace current .put).setRetval current eagain) mbox current timeout

/-- The descriptor `async` is one that `mbox_async_alloc` gives. -/
def kMboxAsyncPut (mbox : KMbox W) (async : Fin N) (msg : MboxMsg N) : Option (MboxState N W σ) :=
  let current := s.sched.current
  let s := { s with sched := s.sched.setPrio async (s.sched.prio current) }
  let s := s.sends async { msg with rxSourceThread := some current, syncingThread := some async }
  mboxMessagePut Q each cfg ((s.setPlace async .put).setRetval async eagain) mbox async .forever

/-! ## Receiving -/

/-- `k_mbox_get` when `tx_target_thread` is set (mailbox.c:429-465). -/
def getAsked (mbox : KMbox W) (d : Nat) (buffer : Bool) (timeout : Timeout) : Option (MboxState N W σ) := do
  let current := s.sched.current
  let senders ← each s.sched.queues mbox.txMsgQueue
  match senders.findSome? fun h => (mboxMessageMatch (s.txMsg h) (s.rxMsg d)).map fun m => (h, m) with
  | some (sendingThread, tx, rx) =>
    let sched ← unpendThread Q s.sched sendingThread
    some { (s.meets sendingThread d tx rx).setPlace current (.check d buffer) with sched := sched }
  | none =>
    if timeout = .noWait then some s
    else
      let sched ← pendCurrentThread Q cfg s.sched (some mbox.rxMsgQueue) (timeout = .forever)
      some { (s.setPlace current (.get d buffer)).setRetval current eagain with
        sched := sched
        rxDesc := update s.rxDesc current d }

def kMboxGet (mbox : KMbox W) (d : Nat) (msg : MboxMsg N) (buffer : Bool) (timeout : Timeout) :
    Option (MboxState N W σ) :=
  getAsked Q each cfg (s.asks d { msg with txTargetThread := some s.sched.current }) mbox d buffer timeout

/-- `k_mbox_get` behind `_pend_current_thread`. -/
def getWoken (d : Nat) (buffer : Bool) : MboxState N W σ :=
  s.setPlace s.sched.current (if s.retval s.sched.current = 0 then .check d buffer else .outside)

/-- `buffer` is not `NULL`. -/
def kMboxDataGet (d : Nat) (buffer : Bool) : MboxState N W σ :=
  let s := if buffer then s else { s.setRxSize d 0 with discarded := update s.discarded d true }
  s.setPlace s.sched.current (.dispose d)

def mboxMessageDataCheck (d : Nat) (buffer : Bool) : MboxState N W σ :=
  if buffer then kMboxDataGet s d true
  else if (s.rxMsg d).size = 0 then s.setPlace s.sched.current (.dispose d)
  else s.setPlace s.sched.current .outside

/-- `pool` is not `NULL`, and `k_mem_pool_alloc` succeeds. -/
def kMboxDataBlockGet (d : Nat) (pool alloc : Bool) : MboxState N W σ :=
  if !pool then kMboxDataGet s d false
  else if (s.rxMsg d).txBlock ≠ none then
    -- give ownership of the block to receiver
    MboxState.setPlace { s with rxMsg := update s.rxMsg d { s.rxMsg d with txBlock := none } } s.sched.current
    (.dispose d)
  else if alloc then kMboxDataGet s d true
  else s

/-! ## Disposing -/

def mboxMessageDispose (d : Nat) : MboxState N W σ :=
  let current := s.sched.current
  match (s.rxMsg d).syncingThread with
  | none => s.setPlace current .outside
  | some sendingThread =>
    let s := { s with
      -- the sender's memory pool block is released
      rxMsg := update s.rxMsg d { s.rxMsg d with txBlock := none, syncingThread := none }
      txMsg := update s.txMsg sendingThread { s.txMsg sendingThread with size := (s.rxMsg d).size } }
    let s := s.disposes d sendingThread
    if (s.sched.base sendingThread).dummy then
      { (s.setPlace sendingThread .outside).setPlace current .outside with held := update s.held sendingThread none }
    else { s.setPlace current (.wake sendingThread) with held := update s.held sendingThread (some (.waker current)) }

def wakeSender (sendingThread : Fin N) : Option (MboxState N W σ) := do
  let sched ← readyThread Q cfg (s.sched.setBase sendingThread .markAsNotPending) sendingThread
  some { (s.setRetval sendingThread 0).setPlace s.sched.current .outside with
    sched := sched.reschedule
    held := update s.held sendingThread none }

end code

/-! ## Steps -/

/-- `sched` is anything that threads and interrupts do without a mailbox. -/
inductive MboxOp (N : Nat) (W : Type) where
  | sched (op : SchedOp N W)
  | put (mbox : KMbox W) (msg : MboxMsg N) (timeout : Timeout)
  | asyncPut (mbox : KMbox W) (async : Fin N) (msg : MboxMsg N)
  | get (mbox : KMbox W) (d : Nat) (msg : MboxMsg N) (buffer : Bool) (timeout : Timeout)
  | dataGet (d : Nat) (buffer : Bool)
  | dataBlockGet (d : Nat) (pool alloc : Bool)
  | goOn

def MboxOp.exec (Q : Queues N W σ) (each : σ → W → Option (List (Fin N))) (cfg : Config N) (s : MboxState N W σ) :
    MboxOp N W → Option (MboxState N W σ)
  | .sched op => (op.exec Q cfg s.sched).map fun sched => { s with sched := sched }
  | .put mbox msg timeout => kMboxPut Q each cfg s mbox msg timeout
  | .asyncPut mbox async msg => kMboxAsyncPut Q each cfg s mbox async msg
  | .get mbox d msg buffer timeout => kMboxGet Q each cfg s mbox d msg buffer timeout
  | .dataGet d buffer => some (kMboxDataGet s d buffer)
  | .dataBlockGet d pool alloc => some (kMboxDataBlockGet s d pool alloc)
  | .goOn =>
    match s.place s.sched.current with
    | .outside => none
    | .put => some (s.returns s.sched.current (s.retval s.sched.current))
    | .get d buffer => some (getWoken s d buffer)
    | .check d buffer => some (mboxMessageDataCheck s d buffer)
    | .dispose d => some (mboxMessageDispose s d)
    | .wake sender => wakeSender Q cfg s sender

namespace MboxState

variable (s : MboxState N W σ)

/-- A thread that is in no call. -/
def Calls (cfg : Config N) : Prop :=
    s.sched.nested = 0 ∧ s.sched.current ≠ cfg.idle ∧ s.place s.sched.current = .outside

/-- Nobody is using the descriptor. -/
def Free (d : Nat) : Prop := ∀ t, (s.place t).desc? ≠ some d

/-- Nobody else uses the queues of the mailboxes or a dummy thread of theirs, or starts, aborts or unpends
a sender that has been matched. -/
def Spares (mboxes : List (KMbox W)) : SchedOp N W → Prop
  | .start thread | .abort thread | .unpend thread => s.held thread = none
  | .pendCurrent w _ => ∀ m ∈ mboxes, w ≠ m.txMsgQueue ∧ w ≠ m.rxMsgQueue
  | .pendDummy thread w _ => s.place thread = .outside ∧ ∀ m ∈ mboxes, w ≠ m.txMsgQueue ∧ w ≠ m.rxMsgQueue
  | _ => True

instance (cfg : Config N) : Decidable (s.Calls cfg) := inferInstanceAs (Decidable (_ ∧ _ ∧ _))

instance (d : Nat) : Decidable (s.Free d) := inferInstanceAs (Decidable (∀ t, (s.place t).desc? ≠ some d))

instance (mboxes : List (KMbox W)) (op : SchedOp N W) : Decidable (s.Spares mboxes op) := by
  induction op using SchedOp.casesOn <;> dsimp only [MboxState.Spares] <;> infer_instance

end MboxState

def MboxOp.Legal {Q : Queues N W σ} (H : Q.Lawful) (cfg : Config N) (mboxes : List (KMbox W))
    (s : MboxState N W σ) : MboxOp N W → Prop
  | .sched op => op.Legal H cfg s.sched ∧ s.Spares mboxes op
  | .put mbox _ _ => s.Calls cfg ∧ mbox ∈ mboxes
  | .asyncPut mbox async _ => s.Calls cfg ∧ mbox ∈ mboxes ∧ async ≠ cfg.idle ∧ s.place async = .outside ∧
      (s.sched.base async).dummy = true ∧ (s.sched.base async).pending = false ∧ (s.sched.base async).timeout = none
  | .get mbox d _ _ _ => s.Calls cfg ∧ mbox ∈ mboxes ∧ s.Free d
  | .dataGet d _ | .dataBlockGet d _ _ => s.Calls cfg ∧ s.Free d ∧ s.kept d ≠ none
  | .goOn => s.sched.nested = 0 ∧ s.place s.sched.current ≠ .outside

instance MboxOp.decidableLegal {Q : Queues N W σ} (H : Q.Lawful) [∀ k, Decidable (H.Valid k)] (cfg : Config N)
    (mboxes : List (KMbox W)) (s : MboxState N W σ) (op : MboxOp N W) : Decidable (op.Legal H cfg mboxes s) := by
  cases op <;> dsimp only [MboxOp.Legal] <;> infer_instance

/-- Nobody has called a mailbox, and no thread has been started. -/
structure MboxBooted {Q : Queues N W σ} (H : Q.Lawful) (cfg : Config N) (s : MboxState N W σ) : Prop where
  sched : Booted H cfg s.sched
  place : ∀ t, s.place t = .outside
  kept : ∀ d, s.kept d = none
  held : ∀ t, s.held t = none
  met : s.met = []
  disposed : s.disposed = []
  returned : s.returned = []

/-! ## The rendezvous -/

/-- Both filters let the message through. -/
def Rendezvous.Accepted (x : Rendezvous N) : Prop :=
  (x.tx.txTargetThread = none ∨ x.tx.txTargetThread = x.rx.txTargetThread) ∧
    (x.rx.rxSourceThread = none ∨ x.rx.rxSourceThread = x.tx.rxSourceThread)

structure MboxState.Synchronous (s : MboxState N W σ) : Prop where
  once : (s.met.map fun x => (x.sender, x.number)).Nodup
  accepted : ∀ x ∈ s.met, x.Accepted
  /-- the sender does not run before the message is disposed of -/
  rests : ∀ x ∈ s.met, (∀ e ∈ s.disposed, e.met ≠ x) → s.sched.current ≠ x.sender
  returned : ∀ r ∈ s.returned, r.code = 0 →
    ∃ e ∈ s.disposed, e.met ∈ s.met ∧ e.met.sender = r.sender ∧ e.met.number = r.number ∧ e.txSize = r.size
  sizes : ∀ e ∈ s.disposed, e.txSize = e.rxSize ∧ e.rxSize = if e.discarded then 0 else min e.met.tx.size e.met.rx.size

/-- No thread is resumed that is ready, and no sender that `k_mbox_get` has taken off the queue is resumed or, unless it
is suspended, given a priority before it is woken. -/
def MboxState.Undisturbed (s : MboxState N W σ) : SchedOp N W → Prop
  | .resume thread => s.sched.isThreadReady thread = false ∧
      (s.held thread ≠ none → (s.sched.base thread).pending = true)
  | .prioritySet thread _ => s.held thread ≠ none → s.sched.isThreadReady thread = false
  | _ => True

instance (s : MboxState N W σ) (op : SchedOp N W) : Decidable (s.Undisturbed op) := by
  induction op using SchedOp.casesOn <;> dsimp only [MboxState.Undisturbed] <;> infer_instance

/-- A condition on the steps that use no mailbox. -/
def MboxOp.Outside (ok : SchedOp N W → Prop) : MboxOp N W → Prop
  | .sched op => ok op
  | _ => True

instance (ok : SchedOp N W → Prop) [DecidablePred ok] (op : MboxOp N W) : Decidable (op.Outside ok) := by
  cases op <;> dsimp only [MboxOp.Outside] <;> infer_instance

end Zephyr
