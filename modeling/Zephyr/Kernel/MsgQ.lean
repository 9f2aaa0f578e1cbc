import Zephyr.Kernel.Api
import Zephyr.Kernel.Clocked
import Zephyr.Lib.RingBuffer
import Zephyr.Lib.StableQueue
/-!
# Message queues (kernel/msg_q.c)

Messages of one size in a ring of slots. Readers and writers wait on one queue: a message for a reader that
waits does not go through the ring, and a reader puts the message of a writer that waits into the slot
it has made free.

Calls have numbers, and a number in `wait_q` stands for the thread that made the call. What is at `data`
of a call are `msg_size` bytes, which `swap_data` shows to others while the thread waits. A return value
that others set is written down at once; the thread has nothing left to do but return it. The time-outs of those that
wait are under the clock (`Clocked`).
-/
namespace Zephyr

open RingBuffer StableQueue Function

structure KMsgq (β : Type) where
  msgSize : Nat
  maxMsgs : Nat
  buffer : Nat → β
  readPtr : Nat
  writePtr : Nat
  usedMsgs : Nat

inductive MsgqReq where
  | put
  | get
deriving DecidableEq

structure MsgqCall (N : Nat) (β : Type) where
  req : MsgqReq
  /-- the thread that waits, if the call does -/
  thread : Fin N
  /-- what is at `data` when the call is made -/
  data : List β
  /-- priority of the thread -/
  prio : ℤ
  timeout : Timeout
  /-- how long `.ticks` is -/
  ticks : Nat

structure MsgqState (N : Nat) (β : Type) where
  q : KMsgq β
  waitQ : List Nat
  calls : Nat → Option (MsgqCall N β)
  /-- what is at `data` of a call now -/
  data : Nat → List β
  returned : Nat → Option ℤ
  /-- puts whose message has come in since the last purge, in this order -/
  entered : List Nat
  /-- gets that have been given a message since the last purge, in this order -/
  got : List Nat
  /-- puts and gets that had succeeded by the last purge -/
  earlier : List Nat

section code

variable {N : Nat} {β : Type}

def kMsgqInit (buffer : Nat → β) (msgSize maxMsgs : Nat) : KMsgq β where
  msgSize := msgSize
  maxMsgs := maxMsgs
  buffer := buffer
  readPtr := 0
  writePtr := 0
  usedMsgs := 0

namespace KMsgq

variable (q : KMsgq β)

def bufferEnd : Nat := q.maxMsgs * q.msgSize

def storeMsg (data : List β) : KMsgq β :=
  { q with
    buffer := write q.buffer q.writePtr data
    writePtr := step q.bufferEnd q.writePtr q.msgSize
    usedMsgs := q.usedMsgs + 1 }

/-- The message and the queue without it. -/
def fetchMsg : List β × KMsgq β :=
  (slice q.buffer q.readPtr q.msgSize, { q with
      readPtr := step q.bufferEnd q.readPtr q.msgSize
      usedMsgs := q.usedMsgs - 1 })

end KMsgq

namespace MsgqState

variable (s : MsgqState N β)

def prio (c : Nat) : ℤ := (s.calls c).elim 0 MsgqCall.prio

def isReq (r : MsgqReq) (c : Nat) : Bool := (s.calls c).any fun f => f.req = r

/-- The message that a put is made with. -/
def message (c : Nat) : List β := (s.calls c).elim [] MsgqCall.data

def withCall (c : Nat) (f : MsgqCall N β) : MsgqState N β :=
  { s with calls := update s.calls c (some f), data := update s.data c f.data }

def ret (c : Nat) (result : ℤ) : MsgqState N β := { s with returned := update s.returned c (some result) }

/-- `_pend_current_thread` -/
def pend (c : Nat) : MsgqState N β := { s with waitQ := enq s.prio c s.waitQ }

end MsgqState

def kMsgqPut (s : MsgqState N β) (c : Nat) (timeout : Timeout) : MsgqState N β :=
  if s.q.usedMsgs < s.q.maxMsgs then
    match s.waitQ with
    | pendingThread :: waitQ =>
      -- give message to waiting thread
      { s with
        waitQ := waitQ
        data := update s.data pendingThread (s.data c)
        got := s.got ++ [pendingThread]
        entered := s.entered ++ [c]
        returned := update (update s.returned pendingThread (some 0)) c (some 0) }
    | [] => MsgqState.ret { s with q := s.q.storeMsg (s.data c), entered := s.entered ++ [c] } c 0
  else if timeout = .noWait then s.ret c enomsg
  else s.pend c

def kMsgqGet (s : MsgqState N β) (c : Nat) (timeout : Timeout) : MsgqState N β :=
  if 0 < s.q.usedMsgs then
    let (msg, q) := s.q.fetchMsg
    let s := MsgqState.ret { s with q := q, data := update s.data c msg, got := s.got ++ [c] } c 0
    match s.waitQ with
    | pendingThread :: waitQ =>
      -- add thread's message to queue
      MsgqState.ret
        { s with
          waitQ := waitQ
          q := s.q.storeMsg (s.data pendingThread)
          entered := s.entered ++ [pendingThread] } pendingThread 0
    | [] => s
  else if timeout = .noWait then s.ret c enomsg
  else s.pend c

/-- The loop of `_impl_k_msgq_purge` (msg_q.c:255-258). -/
def wakeAll (returned : Nat → Option ℤ) : List Nat → Nat → Option ℤ
  | [] => returned
  | pendingThread :: waitQ => wakeAll (update returned pendingThread (some enomsg)) waitQ

def kMsgqPurge (s : MsgqState N β) : MsgqState N β :=
  { s with
    returned := wakeAll s.returned s.waitQ
    waitQ := []
    q := { s.q with usedMsgs := 0, readPtr := s.q.writePtr }
    entered := []
    got := []
    earlier := s.entered ++ s.got ++ s.earlier }

end code

/-! ## Runs -/

inductive MsgqOp (N : Nat) (β : Type) where
  | call (c : Nat) (f : MsgqCall N β)
  | purge

section

variable {N : Nat} {β : Type}

namespace MsgqOp

def exec (s : MsgqState N β) : MsgqOp N β → Option (MsgqState N β)
  | call c f =>
    match f.req with
    | .put => some (kMsgqPut (s.withCall c f) c f.timeout)
    | .get => some (kMsgqGet (s.withCall c f) c f.timeout)
  | purge => some (kMsgqPurge s)

/-- A call has a new number and `msg_size` bytes at `data`. -/
def Legal (s : MsgqState N β) : MsgqOp N β → Prop
  | call c f => s.calls c = none ∧ f.data.length = s.q.msgSize
  | purge => True

instance : ∀ s : MsgqState N β, DecidablePred (Legal s)
  | s, call c f => decidable_of_iff ((s.calls c).isNone ∧ f.data.length = s.q.msgSize) (by simp [Legal])
  | _, purge => .isTrue trivial

end MsgqOp

namespace MsgqState

variable (s : MsgqState N β) (i : Fin N)

/-- The call is one of thread `i` for a limited time. -/
def isTimed (c : Nat) : Bool := (s.calls c).any fun f => f.thread = i && f.timeout = .ticks

/-- The thread waits no longer, and returns `-EAGAIN`. -/
def timesOut : MsgqState N β :=
    (s.waitQ.find? (s.isTimed i)).elim s fun c => MsgqState.ret { s with waitQ := s.waitQ.erase c } c eagain

end MsgqState

def msgqTimed (N : Nat) (β : Type) : Timed N (MsgqState N β) (MsgqOp N β) where
  exec := MsgqOp.exec
  armed s i := s.waitQ.any (s.isTimed i)
  ticks
    | .call _ f => f.ticks
    | .purge => 0
  handle s i := some (s.timesOut i)

end

def initMsgq {β : Type} (N : Nat) (buffer : Nat → β) (msgSize maxMsgs : Nat) : MsgqState N β where
  q := kMsgqInit buffer msgSize maxMsgs
  waitQ := []
  calls _ := none
  data _ := []
  returned _ := none
  entered := []
  got := []
  earlier := []

end Zephyr
