import Zephyr.Kernel.Api
import Zephyr.Lib.RingBuffer
import Zephyr.Lib.StableQueue
import Zephyr.Lib.Runs
/-!
# Pipes (kernel/pipes.c)

Bytes go from a writer to a reader directly or through a ring buffer, which may have size 0. A call first
makes up its list of waiters that it can serve completely, with interrupts locked; then it copies, with the
scheduler locked only, so that waiters may time out meanwhile; at last it returns or waits.

Calls have numbers, and a number in a wait queue stands for the thread (or the dummy thread of
`k_pipe_block_put`) that waits there. The bytes a call is to write are `data`; what a call has read so far is
`dest`, and a `buffer` is an offset in one or the other. A reader's buffer, a writer's and the ring
lie in different places, so that the sums of their sizes do not wrap.
-/
namespace Zephyr

open RingBuffer StableQueue Function

structure KPipe (β : Type) where
  buffer : Nat → β
  size : Nat
  bytesUsed : Nat
  readIndex : Nat
  writeIndex : Nat

structure PipeDesc where
  buffer : Nat
  bytesToXfer : Nat

/-- What a call is to do. -/
inductive PipeReq (β : Type) where
  | put (data : List β)
  | blockPut (data : List β)
  | get (bytesToRead : Nat)

structure PipeCall (β : Type) where
  req : PipeReq β
  /-- priority of the thread -/
  prio : ℤ
  minXfer : Nat
  timeout : Timeout

/-- A run of bytes that was copied. -/
inductive Copy (β : Type) where
  | direct (writer reader : Nat) (bytes : List β)
  | store (writer : Nat) (bytes : List β)
  | fetch (reader : Nat) (bytes : List β)

namespace Copy

variable {β : Type}

def takenFrom (c : Nat) : Copy β → List β
  | direct w _ bytes => if w = c then bytes else []
  | store w bytes => if w = c then bytes else []
  | fetch _ _ => []

def givenTo (c : Nat) : Copy β → List β
  | direct _ r bytes => if r = c then bytes else []
  | store _ _ => []
  | fetch r bytes => if r = c then bytes else []

def taken : Copy β → List β
  | direct _ _ bytes => bytes
  | store _ bytes => bytes
  | fetch _ _ => []

def given : Copy β → List β
  | direct _ _ bytes => bytes
  | store _ _ => []
  | fetch _ bytes => bytes

def stored : Copy β → List β
  | store _ bytes => bytes
  | _ => []

def fetched : Copy β → List β
  | fetch _ bytes => bytes
  | _ => []

end Copy

/-- The call that has the scheduler locked: `xfer_list`, and `reader` or `writer`. -/
structure InXfer where
  call : Nat
  xferList : List Nat
  waiter : Option Nat

structure PipeState (β : Type) where
  pipe : KPipe β
  writers : List Nat
  readers : List Nat
  calls : Nat → Option (PipeCall β)
  desc : Nat → PipeDesc
  dest : Nat → List β
  busy : Option InXfer
  /-- threads made ready that have not run yet -/
  woken : List Nat
  /-- return code and `*bytes_written` or `*bytes_read` -/
  returned : Nat → Option (ℤ × Nat)
  copies : List (Copy β)
  /-- waiters that were taken for served, with what `bytes_to_xfer` was then -/
  readied : List (Nat × Nat)

section code

variable {β : Type}

/-! ## Copying -/

/-- `src` has `src_size` bytes; the result is what was copied. -/
def pipeXfer (destSize : Nat) (src : List β) : List β := src.take (min destSize src.length)

/-- The body of the loop of `pipe_buffer_put` (pipes.c:228-243); with the pipe `num_bytes_written`. -/
def putRound (src : List β) (st : KPipe β × Nat) : KPipe β × Nat :=
  let (pipe, written) := st
  let runLength := min (pipe.size - pipe.bytesUsed) (pipe.size - pipe.writeIndex)
  let bytes := pipeXfer runLength (src.drop written)
  ({ pipe with
      buffer := write pipe.buffer pipe.writeIndex bytes
      bytesUsed := pipe.bytesUsed + bytes.length
      writeIndex := step pipe.size pipe.writeIndex bytes.length }, written + bytes.length)

def pipeBufferPut (pipe : KPipe β) (src : List β) : KPipe β × Nat := putRound src (putRound src (pipe, 0))

/-- The body of the loop of `pipe_buffer_get` (pipes.c:264-279); with the pipe what has been read. -/
def getRound (destSize : Nat) (st : KPipe β × List β) : KPipe β × List β :=
  let (pipe, got) := st
  let runLength := min pipe.bytesUsed (pipe.size - pipe.readIndex)
  let bytes := pipeXfer (destSize - got.length) (slice pipe.buffer pipe.readIndex runLength)
  ({ pipe with
      bytesUsed := pipe.bytesUsed - bytes.length
      readIndex := step pipe.size pipe.readIndex bytes.length }, got ++ bytes)

def pipeBufferGet (pipe : KPipe β) (destSize : Nat) : KPipe β × List β :=
    getRound destSize (getRound destSize (pipe, []))

/-! ## The working set -/

/-- The first loop of `pipe_xfer_prepare` (pipes.c:327-336). -/
def availableBytes (desc : Nat → PipeDesc) (bytesToXfer : Nat) : List Nat → Nat → Nat
  | [], numBytes => numBytes
  | t :: waitQ, numBytes =>
    let numBytes := numBytes + (desc t).bytesToXfer
    if bytesToXfer ≤ numBytes then numBytes else availableBytes desc bytesToXfer waitQ numBytes

/-- The second loop (pipes.c:351-374): the list, the waiter that stays, and what is left of the wait queue. -/
def workingSet (desc : Nat → PipeDesc) (bytesToXfer : Nat) : List Nat → Nat → List Nat × Option Nat × List Nat
  | [], _ => ([], none, [])
  | t :: waitQ, numBytes =>
    let numBytes := numBytes + (desc t).bytesToXfer
    if bytesToXfer < numBytes then ([], some t, t :: waitQ)
    else
      let (xferList, waiter, rest) := workingSet desc bytesToXfer waitQ numBytes
      (t :: xferList, waiter, rest)

def pipeXferPrepare (desc : Nat → PipeDesc) (waitQ : List Nat) (pipeSpace bytesToXfer minXfer : Nat)
    (timeout : Timeout) :
    Option (List Nat × Option Nat × List Nat) :=
  if timeout = .noWait ∧ availableBytes desc bytesToXfer waitQ 0 + pipeSpace < minXfer then none
  else some (workingSet desc bytesToXfer waitQ 0)

def pipeReturnCode (minXfer bytesRemaining bytesRequested : Nat) : ℤ :=
    if minXfer ≤ bytesRequested - bytesRemaining then 0 else eagain

end code

namespace PipeState

variable {β : Type} (s : PipeState β)

/-- `data` of a call that writes. -/
def data (c : Nat) : List β :=
  match (s.calls c).map PipeCall.req with
  | some (.put data) => data
  | some (.blockPut data) => data
  | _ => []

def prio (c : Nat) : ℤ := ((s.calls c).map PipeCall.prio).getD 0

def minXfer (c : Nat) : Nat := ((s.calls c).map PipeCall.minXfer).getD 0

def timeout (c : Nat) : Timeout := ((s.calls c).map PipeCall.timeout).getD .forever

def isBlockPut (c : Nat) : Bool :=
  match (s.calls c).map PipeCall.req with
  | some (.blockPut _) => true
  | _ => false

/-- `bytes_to_write` or `bytes_to_read` -/
def bytesAsked (c : Nat) : Nat :=
  match (s.calls c).map PipeCall.req with
  | some (.get n) => n
  | _ => (s.data c).length

/-- `desc->buffer += n; desc->bytes_to_xfer -= n` -/
def advance (c n : Nat) : PipeState β :=
  { s with desc := update s.desc c ⟨(s.desc c).buffer + n, (s.desc c).bytesToXfer - n⟩ }

def ret (c : Nat) (code : ℤ) (bytes : Nat) : PipeState β :=
    { s with returned := update s.returned c (some (code, bytes)) }

/-- The bytes go to the offset `pos` of the buffer of call `c`. -/
def intoDest (c pos : Nat) (bytes : List β) : PipeState β :=
  { s with dest := update s.dest c ((s.dest c).take pos ++ bytes) }

def log (copy : Copy β) : PipeState β := { s with copies := s.copies ++ [copy] }

end PipeState

section code

variable {β : Type}

/-- A waiter's request is taken for satisfied. -/
def PipeState.served (s : PipeState β) (t : Nat) : PipeState β :=
    { s with readied := s.readied ++ [(t, (s.desc t).bytesToXfer)] }

/-- `_ready_thread` -/
def PipeState.wake (s : PipeState β) (t : Nat) : PipeState β := { s with woken := s.woken ++ [t] }

/-- For a dummy thread `pipe_async_finish` frees the block, and nothing is left to run. -/
def pipeThreadReady (s : PipeState β) (t : Nat) : PipeState β :=
    if s.isBlockPut t then s.served t else (s.served t).wake t

/-! ## Writing -/

def putBegin (s : PipeState β) (c : Nat) : PipeState β :=
  match pipeXferPrepare s.desc s.readers (s.pipe.size - s.pipe.bytesUsed) (s.data c).length (s.minXfer c)
    (s.timeout c) with
  | none => s.ret c eio 0
  | some (xferList, reader, readers) => { s with readers := readers, busy := some ⟨c, xferList, reader⟩ }

/-- Bytes of the writer `c` go to a reader that waits (pipes.c:486-494, :508-516); with the state
`num_bytes_written`. -/
def toReader (c : Nat) (st : PipeState β × Nat) (r : Nat) : PipeState β × Nat :=
  let (s, written) := st
  let bytes := pipeXfer (s.desc r).bytesToXfer ((s.data c).drop written)
  (((s.intoDest r (s.desc r).buffer bytes).advance r bytes.length).log (.direct c r bytes), written + bytes.length)

/-- The body of the loop over the readers (pipes.c:485-502). -/
def serveReader (c : Nat) (st : PipeState β × Nat) (r : Nat) : PipeState β × Nat :=
  let (s, written) := toReader c st r
  ((s.served r).wake r, written)

/-- The reader that was left on the wait queue (pipes.c:507-517). -/
def toWaiter (c : Nat) (reader : Option Nat) (st : PipeState β × Nat) : PipeState β × Nat :=
  match reader with
  | some r => toReader c st r
  | none => st

/-- Bytes go to the ring buffer (pipes.c:524); `src` are bytes of the writer `c`. -/
def toRing (s : PipeState β) (c : Nat) (src : List β) : PipeState β × Nat :=
  let (pipe, n) := pipeBufferPut s.pipe src
  ({ s with pipe := pipe }.log (.store c (src.take n)), n)

/-- What is left over of a call that writes (pipes.c:536-576). -/
def putRest (s : PipeState β) (c written : Nat) : PipeState β :=
  let len := (s.data c).length
  if s.isBlockPut c ∨ s.timeout c ≠ .noWait then
    { s with
      desc := update s.desc c ⟨written, len - written⟩
      writers := enq s.prio c s.writers }
  else s.ret c (pipeReturnCode (s.minXfer c) (len - written) len) (len - (len - written))

def putFinish (s : PipeState β) (x : InXfer) : PipeState β :=
  let c := x.call
  let st := x.xferList.foldl (serveReader c) ({ s with busy := none }, 0)
  let (s, written) := toWaiter c x.waiter st
  let (s, n) := toRing s c ((s.data c).drop written)
  let written := written + n
  if written = (s.data c).length then
    -- `pipe_async_finish` for a block
    if s.isBlockPut c then s else s.ret c 0 written
  else putRest s c written

/-! ## Reading -/

def getBegin (s : PipeState β) (c : Nat) : PipeState β :=
  match pipeXferPrepare s.desc s.writers s.pipe.bytesUsed (s.bytesAsked c) (s.minXfer c) (s.timeout c) with
  | none => s.ret c eio 0
  | some (xferList, writer, writers) => { s with writers := writers, busy := some ⟨c, xferList, writer⟩ }

/-- What is left of the bytes of a writer that waits. -/
def srcOf (s : PipeState β) (w : Nat) : List β := ((s.data w).drop (s.desc w).buffer).take (s.desc w).bytesToXfer

/-- Bytes of a writer that waits go to the reader `c` (pipes.c:634-641, :658-665); with the state `num_bytes_read`. -/
def fromWriter (c : Nat) (st : PipeState β × Nat) (w : Nat) : PipeState β × Nat :=
  let (s, read) := st
  let bytes := pipeXfer (s.bytesAsked c - read) (srcOf s w)
  (((s.intoDest c read bytes).advance w bytes.length).log (.direct w c bytes), read + bytes.length)

/-- The first loop over the writers (pipes.c:632-655), with what is left of the list. -/
def drainWriters (c : Nat) : List Nat → PipeState β × Nat → (PipeState β × Nat) × List Nat
  | [], st => (st, [])
  | w :: ws, (s, read) =>
    if read < s.bytesAsked c then
      let (s, read) := fromWriter c (s, read) w
      if read = s.bytesAsked c then ((s, read), w :: ws) else drainWriters c ws (pipeThreadReady s w, read)
    else ((s, read), w :: ws)

/-- The writer that was left on the wait queue (pipes.c:657-666). -/
def fromWaiter (c : Nat) (writer : Option Nat) (st : PipeState β × Nat) : PipeState β × Nat :=
  match writer with
  | some w => if st.2 < st.1.bytesAsked c then fromWriter c st w else st
  | none => st

/-- Bytes of a writer that waits go to the ring buffer (pipes.c:675-680, :689-694). -/
def refill (s : PipeState β) (w : Nat) : PipeState β :=
  let (s, n) := toRing s w (srcOf s w)
  s.advance w n

/-- The body of the second loop over the writers (pipes.c:673-686). -/
def refillReady (s : PipeState β) (w : Nat) : PipeState β := pipeThreadReady (refill s w) w

/-- The writer that was left on the wait queue, once more (pipes.c:688-695). -/
def refillWaiter (writer : Option Nat) (s : PipeState β) : PipeState β :=
  match writer with
  | some w => refill s w
  | none => s

/-- What is missing of a call that reads (pipes.c:699-718). -/
def getRest (s : PipeState β) (c read : Nat) : PipeState β :=
  let len := s.bytesAsked c
  if s.timeout c ≠ .noWait then
    { s with
      desc := update s.desc c ⟨read, len - read⟩
      readers := enq s.prio c s.readers }
  else s.ret c (pipeReturnCode (s.minXfer c) (len - read) len) (len - (len - read))

/-- Bytes of the ring buffer go to the reader `c` (pipes.c:613). -/
def fromRing (s : PipeState β) (c : Nat) : PipeState β × Nat :=
  let (pipe, bytes) := pipeBufferGet s.pipe (s.bytesAsked c)
  (({ s with pipe := pipe }.intoDest c 0 bytes).log (.fetch c bytes), bytes.length)

def getFinish (s : PipeState β) (x : InXfer) : PipeState β :=
  let c := x.call
  let st := fromRing { s with busy := none } c
  let ((s, read), ws) := drainWriters c x.xferList st
  let (s, read) := fromWaiter c x.waiter (s, read)
  let s := refillWaiter x.waiter (ws.foldl refillReady s)
  if read = s.bytesAsked c then s.ret c 0 read else getRest s c read

/-! ## Calls -/

inductive PipeOp (β : Type) where
  | call (c : Nat) (call : PipeCall β)
  | finish
  | expire (c : Nat)
  | resume (c : Nat)

/-- `k_pipe_block_put` asks for all bytes and waits for ever (pipes.c:783). -/
def PipeCall.normal (call : PipeCall β) : PipeCall β :=
  match call.req with
  | .blockPut data => { call with minXfer := data.length, timeout := .forever }
  | _ => call

def isGet (s : PipeState β) (c : Nat) : Bool :=
  match (s.calls c).map PipeCall.req with
  | some (.get _) => true
  | _ => false

def PipeOp.exec (s : PipeState β) : PipeOp β → Option (PipeState β)
  | .call c k =>
    let s := { s with calls := update s.calls c (some k.normal) }
    some (if isGet s c then getBegin s c else putBegin s c)
  | .finish => s.busy.map fun x => if isGet s x.call then getFinish s x else putFinish s x
  | .expire c => some { s with writers := s.writers.erase c, readers := s.readers.erase c, woken := s.woken ++ [c] }
  | .resume c =>
    let left := (s.desc c).bytesToXfer
    some { s.ret c (pipeReturnCode (s.minXfer c) left (s.bytesAsked c)) (s.bytesAsked c - left) with
      woken := s.woken.erase c }

/-- No call is made and no thread goes on while one has the scheduler locked. -/
def PipeOp.Legal (s : PipeState β) : PipeOp β → Prop
  | .call c _ => s.busy.isNone ∧ (s.calls c).isNone
  | .finish => s.busy.isSome
  | .expire c => (c ∈ s.writers ∨ c ∈ s.readers) ∧ s.timeout c = .ticks
  | .resume c => s.busy.isNone ∧ c ∈ s.woken

instance decidablePipeOpLegal (s : PipeState β) (op : PipeOp β) : Decidable (op.Legal s) := by
  cases op <;> dsimp only [PipeOp.Legal] <;> infer_instance

/-- A pipe after `k_pipe_init` (pipes.c:131) with a buffer of `size` bytes. -/
def initPipe (buffer : Nat → β) (size : Nat) : PipeState β where
  pipe := ⟨buffer, size, 0, 0, 0⟩
  writers := []
  readers := []
  calls _ := none
  desc _ := ⟨0, 0⟩
  dest _ := []
  busy := none
  woken := []
  returned _ := none
  copies := []
  readied := []

end code

end Zephyr
