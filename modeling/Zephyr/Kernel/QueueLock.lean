import Zephyr.Kernel.Poll
import Zephyr.Kernel.Queue
import Zephyr.Mempool.Malloc
/-!
# The interrupt lock of `queue_insert` (kernel/queue.c:145)

`data_q` and its insertion are those of `Queue`, object `o` of the events is the queue, and `buf` is the address of
the pool's buffer. The lock that the pool takes and gives back in between is left out. `none` is a fault of the
pool or of the lists.
-/
namespace Zephyr

open Function

variable {T E : Nat}

structure InsertCtx (T E : Nat) where
  locked : Bool
  queue : KQueue
  waitQ : List (Fin T)
  /-- `swap_data` of the threads that have been made ready -/
  handed : Fin T → Option Nat
  poll : PollState T E
  resourcePool : Option (PoolDef × Pool)

namespace InsertCtx

variable (s : InsertCtx T E)

/-- With the key. -/
def irqLock : InsertCtx T E × Bool := ({ s with locked := true }, s.locked)

def irqUnlock (key : Bool) : InsertCtx T E := { s with locked := key && s.locked }

def swap (key : Bool) : InsertCtx T E := { s with locked := true }.irqUnlock key

def reschedule (isr better : Bool) (key : Bool) : InsertCtx T E :=
    if !isr && better then s.swap key else s.irqUnlock key

end InsertCtx

/-- `sizeof(struct alloc_node)` -/
def allocNodeSize : Nat := 8

section code

variable (poll isr better : Bool) (o buf : Nat) (s : InsertCtx T E) (prev : Option Nat) (data : Nat) (alloc : Bool)

/-- The `alloc_node`, if there is to be one (queue.c:163-168). -/
def allocNode : Option (InsertCtx T E × Option Nat) :=
  if alloc then (zThreadMalloc s.resourcePool allocNodeSize).map fun r =>
    ({ s with resourcePool := r.1 }, r.2.map (buf + ·.ptr))
  else some (s, none)

/-- `handle_poll_events` -/
def signalInsert : Option (InsertCtx T E) :=
  if poll then
    (handleObjPollEvents { s.poll with cond := update s.poll.cond o true } o PollKind.queue.state).map
      fun p => { s with poll := p }
  else some s

def insertNode (key : Bool) : Option (InsertCtx T E × ℤ) := do
  let (s, anode) ← allocNode buf s alloc
  match queueInsert s.queue prev data alloc anode with
  | none => some (s, enomem)
  | some (queue, _) =>
    let s ← signalInsert poll o { s with queue := queue }
    some (s.reschedule isr better key, 0)

def queueInsertLocked : Option (InsertCtx T E × ℤ) :=
  let (s, key) := s.irqLock
  match s.waitQ with
  | t :: waitQ =>
    if poll then insertNode poll isr better o buf s prev data alloc key
    else some ({ s with waitQ := waitQ, handed := update s.handed t (some data) }.reschedule isr better key, 0)
  | [] => insertNode poll isr better o buf s prev data alloc key

end code

section

variable {poll isr better alloc key : Bool} {o buf data : Nat} {s s' : InsertCtx T E} {prev : Option Nat} {rc : ℤ}

theorem reschedule_locked (h : s.locked = true) : (s.reschedule isr better key).locked = key := by
  unfold InsertCtx.reschedule
  split
  · simp [InsertCtx.swap, InsertCtx.irqUnlock]
  · simp [InsertCtx.irqUnlock, h]

/-- Nothing of the queue has changed. -/
def InsertCtx.SameQueue (s s' : InsertCtx T E) : Prop :=
    s'.queue = s.queue ∧ s'.waitQ = s.waitQ ∧ s'.handed = s.handed ∧ s'.poll = s.poll

theorem allocNode_same {r : InsertCtx T E × Option Nat} (h : allocNode buf s alloc = some r) :
    r.1.locked = s.locked ∧ s.SameQueue r.1 := by
  cases alloc with
  | false =>
    cases h
    exact ⟨rfl, rfl, rfl, rfl, rfl⟩
  | true =>
    obtain ⟨q, -, rfl⟩ := Option.map_eq_some_iff.1 h
    exact ⟨rfl, rfl, rfl, rfl, rfl⟩

theorem signalInsert_locked (h : signalInsert poll o s = some s') : s'.locked = s.locked := by
  cases poll with
  | false =>
    cases h
    rfl
  | true =>
    obtain ⟨p, -, rfl⟩ := Option.map_eq_some_iff.1 h
    rfl

/-- A node is to be allocated, and `z_thread_malloc` has none. -/
def InsertCtx.LacksNode (poll : Bool) (s : InsertCtx T E) (alloc : Bool) : Prop :=
  alloc = true ∧ (poll = true ∨ s.waitQ = []) ∧ (zThreadMalloc s.resourcePool allocNodeSize).map Prod.snd = some none

/-- A node was linked and the lock given back; or there was none, and then nothing was done, and the lock was kept. -/
theorem insertNode_cases (hlocked : s.locked = true) (hnode : poll = true ∨ s.waitQ = [])
    (h : insertNode poll isr better o buf s prev data alloc key = some (s', rc)) :
    (rc = 0 ∧ s'.locked = key ∧ ¬ s.LacksNode poll alloc) ∨
      rc = enomem ∧ s'.locked = true ∧ s.LacksNode poll alloc ∧ s.SameQueue s' := by
  obtain ⟨⟨s1, anode⟩, h1, h⟩ := Option.bind_eq_some_iff.1 h
  obtain ⟨hlocked1, hsame⟩ := allocNode_same h1
  simp only at h hlocked1 hsame
  have hlacks : s.LacksNode poll alloc ↔ alloc = true ∧ anode = none := by
    refine and_congr_right fun halloc => ?_
    subst halloc
    obtain ⟨r, hr, heq⟩ := Option.map_eq_some_iff.1 h1
    cases heq
    simp [hr, hnode]
  cases hq : queueInsert s1.queue prev data alloc anode with
  | none =>
    simp only [hq] at h
    cases h
    refine .inr ⟨rfl, by rw [hlocked1, hlocked], hlacks.2 ?_, hsame⟩
    cases alloc <;> simp_all [queueInsert]
  | some q =>
    simp only [hq] at h
    obtain ⟨s2, h2, h⟩ := Option.bind_eq_some_iff.1 h
    cases h
    refine .inl ⟨rfl, reschedule_locked (by rw [signalInsert_locked h2]; exact hlocked1.trans hlocked), fun hno => ?_⟩
    obtain ⟨rfl, rfl⟩ := hlacks.1 hno
    simp [queueInsert] at hq

theorem queueInsertLocked_cases (h : queueInsertLocked poll isr better o buf s prev data alloc = some (s', rc)) :
    (rc = 0 ∧ s'.locked = s.locked ∧ ¬ s.LacksNode poll alloc) ∨
      rc = enomem ∧ s'.locked = true ∧ s.LacksNode poll alloc ∧ s.SameQueue s' := by
  unfold queueInsertLocked at h
  simp only [InsertCtx.irqLock] at h
  split at h
  next t waitQ hw =>
    split at h
    · have hcases := insertNode_cases rfl (.inl (by assumption)) h
      exact hcases
    · cases h
      exact .inl ⟨rfl, reschedule_locked rfl, fun hno => by simp_all [InsertCtx.LacksNode]⟩
  next hw =>
    have hcases := insertNode_cases (s := { s with locked := true }) rfl (.inr hw) h
    exact hcases

end

/-- **`queue_insert` leaves the lock as it was** exactly if no node is needed or there is one, or interrupts were
locked at the call, in both builds; without a node the queue, its waiters and its events are left alone. -/
theorem queueInsert_leaves_lock {poll isr better alloc : Bool} {o buf data : Nat} {s s' : InsertCtx T E}
    {prev : Option Nat} {rc : ℤ} (h : queueInsertLocked poll isr better o buf s prev data alloc = some (s', rc)) :
    (rc = 0 ∨ rc = enomem) ∧ (s'.locked = s.locked ↔ ¬ s.LacksNode poll alloc ∨ s.locked = true) ∧
    (rc = enomem → s.SameQueue s') := by
  obtain ⟨rfl, hlocked, hnode⟩ | ⟨rfl, hlocked, hnode, hsame⟩ := queueInsertLocked_cases h
  · exact ⟨.inl rfl, iff_of_true hlocked (.inl hnode), fun he => absurd he (by decide)⟩
  · refine ⟨.inr rfl, ?_, fun _ => hsame⟩
    rw [hlocked, eq_comm, or_iff_right (not_not_intro hnode)]

/-- A queue without items and waiters, in a thread without a resource pool. -/
def noPool (locked : Bool) : InsertCtx 1 0 :=
  ⟨locked, ⟨fun _ => ⟨none, 0⟩, fun _ => 0, ⟨none, none⟩⟩, [], fun _ => none, initPoll ⟨id, id⟩ fun _ => false, none⟩

theorem queueInsert_leaves_lock_noPool :
    ∃ s', queueInsertLocked true false false 0 0 (noPool false) none 7 false = some (s', 0) ∧
    s'.locked = false := by
  have hrun : ∃ s', queueInsertLocked true false false 0 0 (noPool false) none 7 false = some (s', 0) := ⟨_, rfl⟩
  obtain ⟨s', hs⟩ := hrun
  exact ⟨s', hs, (queueInsert_leaves_lock hs).2.1.2 (.inl fun hno => absurd hno.1 (by decide))⟩

/-- **Without memory interrupts stay locked**: `k_queue_alloc_append` in a thread that has no resource pool. -/
theorem no_memory_keeps_lock : (noPool false).locked = false ∧
    (∃ s', queueInsertLocked true false false 0 0 (noPool false) none 7 true = some (s', enomem) ∧ s'.locked = true) ∧
    ∃ s', queueInsertLocked false false false 0 0 (noPool false) none 7 true = some (s', enomem) ∧ s'.locked = true :=
  ⟨rfl, ⟨_, rfl, rfl⟩, _, rfl, rfl⟩

end Zephyr
