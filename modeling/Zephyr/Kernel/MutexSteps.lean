import Zephyr.Kernel.Mutex
import Zephyr.Kernel.Preempt
/-!
# What a step of the mutex does

Each piece of the code between two switches is one of eleven cases (`MutexEffect`): what happens to the mutex and to
the thread, which priority is written, and who may wait after it. The scheduler does its part without bringing
any other thread into a wait queue (`Calm`). The properties of the mutex use these cases and not the code.
-/
namespace Zephyr

open Ring Sched Function Option

variable {N : Nat} {W σ : Type} [DecidableEq W] {Q : Queues N W σ} {H : Q.Lawful} {cfg : Config N} {waitQ : W}
    {ceiling : ℤ}

/-- A piece of the scheduler's work that leaves all threads in their places and brings none into the queue. -/
def Calm (H : Q.Lawful) (cfg : Config N) (waitQ : W) (s : Sched N W σ) (r : Option (Sched N W σ)) : Prop :=
  ∀ s' ∈ r, (∃ L, SchedInv H cfg s' L) ∧ ∀ y, s'.WaitsOn waitQ y → s.WaitsOn waitQ y

variable {r : Option (Sched N W σ)} {mutex : KMutex N} {k : ℤ} {y : Fin N} {op : MutexOp N W} {s : MutexState N W σ}

section calm

variable {s s1 : Sched N W σ} {L : QueueId W → List (Fin N)}

theorem KeepsFit.calm {ok : Prop} (h : KeepsFit H cfg s L ok r) (hoff : ∀ y, StaysOff waitQ y s r) :
    Calm H cfg waitQ s r := by
  intro s' hs'
  obtain ⟨s2, L2, hr, hinv, -⟩ := h
  obtain rfl : s2 = s' := by simpa [hr] using hs'
  exact ⟨⟨L2, hinv⟩, fun y => hoff y s2 hs'⟩

theorem Calm.trans (h : Calm H cfg waitQ s (some s1)) (hr : Calm H cfg waitQ s1 r) : Calm H cfg waitQ s r :=
  fun s' hs' => ⟨(hr s' hs').1, fun y hy => (h s1 rfl).2 y ((hr s' hs').2 y hy)⟩

theorem Calm.of_mem {s1 s2 : Sched N W σ} (h : Calm H cfg waitQ s1 r) (hr : r = some s2) :
    Calm H cfg waitQ s1 (some s2) := hr ▸ h

variable (h : SchedInv H cfg s L)

include h

theorem kSchedUnlock_calm : Calm H cfg waitQ s (kSchedUnlock Q cfg s) :=
  (kSchedUnlock_keeps h).calm fun _ => kSchedUnlock_staysOff

theorem schedLock_inv : SchedInv H cfg (schedLock s) L := h.stay rfl fun _ => ⟨rfl, rfl, rfl, rfl⟩

theorem schedLock_calm : Calm H cfg waitQ s (some (schedLock s)) :=
  (schedLock_keeps h).calm fun _ => schedLock_staysOff

theorem adjustOwnerPrio_calm (hidle : mutex.owner ≠ some cfg.idle) (hk : mutex.owner ≠ none → H.Valid k)
    (hrekey : ∀ o v, mutex.owner = some o → o ∈ L (.waitq v) → H.RekeyOk s.prio (L (.waitq v)) o k) :
    Calm H cfg waitQ s (adjustOwnerPrio Q cfg mutex s k) := by
  unfold adjustOwnerPrio
  cases hown : mutex.owner with
  | none => intro s' hs'; cases hs'
  | some owner =>
    have hne : owner ≠ cfg.idle := fun e => hidle (by rw [hown, e])
    show Calm H cfg waitQ s (if s.prio owner ≠ k then threadPrioritySet Q cfg s owner k else some s)
    split
    · exact (threadPrioritySet_keeps h hne (hk (by simp [hown])) fun v hv => hrekey owner v hown hv).calm
        fun _ => threadPrioritySet_staysOff
    · have hkeep : KeepsFit H cfg s L True (some s) := h.keeps
      exact hkeep.calm fun _ => staysOff_steady.done rfl rfl

end calm

/-! ## Who is alive -/

section alive

variable {s t : Sched N W σ} {L : QueueId W → List (Fin N)}

/-- A thread that has been aborted stays so. -/
def NoneRevived (s t : Sched N W σ) : Prop := ∀ y, (t.base y).dead = false → (s.base y).dead = false

omit [DecidableEq W] in
theorem NoneRevived.setBase {x : Fin N} {f : ThreadBase W → ThreadBase W}
    (hf : ∀ b, (f b).dead = false → b.dead = false) :
    NoneRevived s (s.setBase x f) := by
  intro y hy
  by_cases hyx : y = x
  · subst hyx
    rw [setBase_self] at hy
    exact hf _ hy
  · rwa [setBase_ne hyx] at hy

omit [DecidableEq W] in
theorem noneRevived_steady : Steady (NoneRevived (N := N) (W := W) (σ := σ)) where
  trans hst htu y hy := hst y (htu y hy)
  same hb _ y hy := by rwa [hb] at hy
  mark hf := .setBase fun b hb => by
    cases hf with
    | dead => simp [ThreadBase.markAsDead] at hb
    | _ => exact hb

/-- What the scheduler does for the mutex when no thread comes to wait. -/
structure Quiet (H : Q.Lawful) (cfg : Config N) (s t : Sched N W σ) : Prop where
  calm : ∀ w, Calm H cfg w s (some t)
  alive : NoneRevived s t

theorem Quiet.trans {u : Sched N W σ} (h : Quiet H cfg s t) (h' : Quiet H cfg t u) : Quiet H cfg s u :=
  ⟨fun w => (h.calm w).trans (h'.calm w), noneRevived_steady.trans h.alive h'.alive⟩

variable (h : SchedInv H cfg s L)

include h

theorem kSchedUnlock_quiet (hun : kSchedUnlock Q cfg s = some t) : Quiet H cfg s t := by
  refine ⟨fun w => (kSchedUnlock_calm h).of_mem hun, fun y hy => ?_⟩
  have hmid := noneRevived_steady.kSchedUnlock t hun y hy
  refine NoneRevived.setBase ?_ y hmid
  exact fun _ hb => hb

theorem schedLock_quiet : Quiet H cfg s (schedLock s) := ⟨fun _ => schedLock_calm h, .setBase fun _ hb => hb⟩

theorem lock_unlock_quiet (hun : kSchedUnlock Q cfg (schedLock s) = some t) : Quiet H cfg s t :=
  (schedLock_quiet h).trans (kSchedUnlock_quiet (schedLock_inv h) hun)

theorem adjustOwnerPrio_quiet (hidle : mutex.owner ≠ some cfg.idle)
    (hk : mutex.owner ≠ none → H.Valid k) (hrekey : ∀ o v, mutex.owner = some o → o ∈ L (.waitq v) →
      H.RekeyOk s.prio (L (.waitq v)) o k) (hadj : adjustOwnerPrio Q cfg mutex s k = some t) : Quiet H cfg s t := by
  refine ⟨fun w => (adjustOwnerPrio_calm h hidle hk hrekey).of_mem hadj, ?_⟩
  obtain ⟨o, -, hset⟩ := bind_eq_some_iff.1 hadj
  split at hset
  · exact noneRevived_steady.threadPrioritySet t hset
  · cases hset
    exact fun _ hy => hy

end alive

omit [DecidableEq W] in
theorem exec_noneRevived [DecidableEq W] {s t : Sched N W σ} {op : SchedOp N W}
    (hexec : op.exec Q cfg s = some t) : NoneRevived s t := by
  have hplain : op.Plain → NoneRevived s t := fun hp => noneRevived_steady.exec hp t hexec
  cases op with
  | prioritySet thread prio => exact fun y hy => noneRevived_steady.threadPrioritySet t hexec y hy
  | lock =>
    cases hexec
    exact .setBase fun _ hb => hb
  | unlock =>
    intro y hy
    refine NoneRevived.setBase ?_ y (noneRevived_steady.kSchedUnlock t hexec y hy)
    exact fun _ hb => hb
  | pendCurrent v forever =>
    exact noneRevived_steady.pendCurrentThread (.setBase fun _ hb => hb) (fun _ => .setBase fun _ hb => hb) t hexec
  | pendDummy thread v forever =>
    exact noneRevived_steady.pend (.setBase fun _ hb => hb) (fun _ => .setBase fun _ hb => hb) t hexec
  | _ => exact hplain trivial

/-! ## Priorities -/

section prio

omit [DecidableEq W]

variable {s t : Sched N W σ}

theorem samePrio_steady : Steady fun s t : Sched N W σ => t.prio = s.prio :=
    ⟨fun h h' => h'.trans h, fun _ h => h, fun _ => rfl⟩

theorem kSchedUnlock_prio (h : kSchedUnlock Q cfg s = some t) : t.prio = s.prio := samePrio_steady.kSchedUnlock t h

theorem lock_unlock_prio (h : kSchedUnlock Q cfg (schedLock s) = some t) : t.prio = s.prio := by
  rw [kSchedUnlock_prio h]
  rfl

/-- **`adjust_owner_prio` (mutex.c:108)** writes the priority of the owner. -/
theorem adjustOwnerPrio_prio (h : adjustOwnerPrio Q cfg mutex s k = some t) :
    ∃ o, mutex.owner = some o ∧ t.prio = update s.prio o k := by
  obtain ⟨o, ho, hset⟩ := bind_eq_some_iff.1 h
  refine ⟨o, ho, ?_⟩
  split at hset
  · exact samePrio_steady.threadPrioritySet t hset
  · rename_i hk
    cases hset
    rw [← not_not.1 hk, update_eq_self]

theorem threadPrioritySet_base {x : Fin N} (h : threadPrioritySet Q cfg s x k = some t) : t.base = s.base := by
  unfold threadPrioritySet at h
  split at h
  · obtain ⟨u, hre, heq⟩ := bind_eq_some_iff.1 h
    obtain ⟨q, c, rfl, -⟩ := requeue_eq_some hre
    cases heq
    simp
  · cases h
    rfl

theorem adjustOwnerPrio_base (h : adjustOwnerPrio Q cfg mutex s k = some t) : t.base = s.base := by
  obtain ⟨o, -, hset⟩ := bind_eq_some_iff.1 h
  split at hset
  · exact threadPrioritySet_base hset
  · cases hset
    rfl

/-- A thread that waits still does when another one has unlocked the scheduler. -/
theorem kSchedUnlock_waitsOn (h : kSchedUnlock Q cfg s = some t) {w : W} (hy : s.WaitsOn w y) : t.WaitsOn w y := by
  obtain ⟨u, hup, heq⟩ := bind_eq_some_iff.1 h
  obtain ⟨c, rfl⟩ := updateCache_eq_some hup
  cases heq
  rw [Sched.WaitsOn, reschedule_base]
  by_cases hyc : y = s.current
  · subst hyc
    simpa [Sched.WaitsOn] using hy
  · simp only [setBase_ne hyc]
    exact hy

end prio

theorem newPrioForInheritance_eq (ceiling target limit : ℤ) :
    newPrioForInheritance ceiling target limit = max (min target limit) ceiling := by
  unfold newPrioForInheritance
  dsimp only
  split <;> split <;> omega

theorem newPrio_valid {target limit : ℤ} (hc : H.Valid ceiling) (ht : H.Valid target) (hl : H.Valid limit) :
    H.Valid (newPrioForInheritance ceiling target limit) := by
  unfold newPrioForInheritance
  dsimp only
  split <;> split <;> assumption

/-- The priority that a thread writes for the owner when it has timed out (mutex.c:187-191). -/
def timedOutPrio (ceiling : ℤ) (s : MutexState N W σ) : Option (Fin N) → ℤ
  | some waiter => newPrioForInheritance ceiling (s.sched.prio waiter) s.mutex.ownerOrigPrio
  | none => s.mutex.ownerOrigPrio

/-- The owner's priority after a thread has come to wait (mutex.c:157-167). -/
def boostedPrio (ceiling : ℤ) (s : MutexState N W σ) (owner : Fin N) : ℤ :=
  let newPrio := newPrioForInheritance ceiling (s.sched.prio s.sched.current) (s.sched.prio owner)
  if newPrio < s.sched.prio owner then newPrio else s.sched.prio owner

/-! ## The cases -/

/-- The thread that the mutex goes to in this step. -/
def MutexOp.acquirer (Q : Queues N W σ) (waitQ : W) (s : MutexState N W σ) : MutexOp N W → Option (Fin N)
  | .lock _ => if s.mutex.lockCount = 0 then some s.sched.current else none
  | .goOn => if s.place s.sched.current = .toHandOver then (Q.best s.sched.queues (.waitq waitQ)).join else none
  | .sched _ | .unlock => none

/-- The thread is about to wait. -/
def Place.isToPend : Place → Bool
  | .toPend _ => true
  | _ => false

/-- What the thread that runs does to the mutex, to itself and to the owner's priority. -/
inductive MutexEffect (H : Q.Lawful) (cfg : Config N) (waitQ : W) (ceiling : ℤ) (s : MutexState N W σ) :
    MutexOp N W → MutexState N W σ → Prop
  | take {timeout : ℤ} {sched : Sched N W σ} (place : s.place s.sched.current = .outside)
      (fast : s.mutex.lockCount = 0 ∨ s.mutex.owner = some s.sched.current)
      (quiet : Quiet H cfg s.sched sched) (prio : sched.prio = s.sched.prio) :
      MutexEffect H cfg waitQ ceiling s (.lock timeout) { s with
        sched := sched
        mutex :=
          { owner := some s.sched.current
            lockCount := (s.mutex.lockCount + 1) % 2 ^ 32
            ownerOrigPrio := if s.mutex.lockCount = 0 then s.sched.prio s.sched.current else s.mutex.ownerOrigPrio }
        held := update s.held s.sched.current (s.held s.sched.current + 1) }
  | busy {timeout : ℤ} {sched : Sched N W σ} (count : s.mutex.lockCount ≠ 0)
      (quiet : Quiet H cfg s.sched sched) (prio : sched.prio = s.sched.prio) :
      MutexEffect H cfg waitQ ceiling s (.lock timeout) { s with sched := sched }
  | boost {timeout : ℤ} {sched : Sched N W σ} {owner : Fin N} (place : s.place s.sched.current = .outside)
      (count : s.mutex.lockCount ≠ 0)
      (own : s.mutex.owner = some owner) (other : owner ≠ s.sched.current) (quiet : Quiet H cfg s.sched sched)
      (prio : sched.prio = update s.sched.prio owner (boostedPrio ceiling s owner)) (wait : timeout ≠ 0) :
      MutexEffect H cfg waitQ ceiling s (.lock timeout) { s with
        sched := sched, place := update s.place s.sched.current (.toPend timeout) }
  | pend {timeout : ℤ} {sched : Sched N W σ} (place : s.place s.sched.current = .toPend timeout)
      (inv : ∃ L, SchedInv H cfg sched L)
      (waits : ∀ w y, sched.WaitsOn w y → y = s.sched.current ∧ w = waitQ ∨ s.sched.WaitsOn w y)
      (alive : NoneRevived s.sched sched) (prio : sched.prio = s.sched.prio) :
      MutexEffect H cfg waitQ ceiling s .goOn { s with
        sched := sched
        place := update s.place s.sched.current .pended
        got := update s.got s.sched.current false }
  | granted {sched : Sched N W σ} (place : s.place s.sched.current = .pended) (got : s.got s.sched.current = true)
      (quiet : Quiet H cfg s.sched sched) (prio : sched.prio = s.sched.prio) :
      MutexEffect H cfg waitQ ceiling s .goOn { s with
        sched := sched
        place := update s.place s.sched.current .outside
        got := update s.got s.sched.current false
        held := update s.held s.sched.current (s.held s.sched.current + 1) }
  | timedOut {sched : Sched N W σ} {owner : Fin N} {waiter : Option (Fin N)} (place : s.place s.sched.current = .pended)
      (got : s.got s.sched.current = false) (own : s.mutex.owner = some owner)
      (best : Q.best s.sched.queues (.waitq waitQ) = some waiter)
      (quiet : Quiet H cfg s.sched sched) (same : ∀ y, s.sched.WaitsOn waitQ y → sched.WaitsOn waitQ y)
      (prio : sched.prio = update s.sched.prio owner (timedOutPrio ceiling s waiter)) :
      MutexEffect H cfg waitQ ceiling s .goOn { s with
        sched := sched, place := update s.place s.sched.current .toGiveUp }
  | giveUp {sched : Sched N W σ} (place : s.place s.sched.current = .toGiveUp) (quiet : Quiet H cfg s.sched sched)
      (same : ∀ y, s.sched.WaitsOn waitQ y → sched.WaitsOn waitQ y) (prio : sched.prio = s.sched.prio) :
      MutexEffect H cfg waitQ ceiling s .goOn { s with
        sched := sched, place := update s.place s.sched.current .outside }
  | drop {sched : Sched N W σ} (place : s.place s.sched.current = .outside) (own : s.mutex.owner = some s.sched.current)
      (count : s.mutex.lockCount - 1 ≠ 0) (quiet : Quiet H cfg s.sched sched) (prio : sched.prio = s.sched.prio) :
      MutexEffect H cfg waitQ ceiling s .unlock { s with
        sched := sched
        mutex := { s.mutex with lockCount := s.mutex.lockCount - 1 }
        held := update s.held s.sched.current (s.held s.sched.current - 1) }
  | release {sched : Sched N W σ} (place : s.place s.sched.current = .outside)
      (own : s.mutex.owner = some s.sched.current)
      (count : s.mutex.lockCount - 1 = 0) (quiet : Quiet H cfg s.sched sched)
      (prio : sched.prio = update s.sched.prio s.sched.current s.mutex.ownerOrigPrio) :
      MutexEffect H cfg waitQ ceiling s .unlock { s with
        sched := sched
        mutex := { s.mutex with lockCount := s.mutex.lockCount - 1 }
        place := update s.place s.sched.current .toHandOver
        held := update s.held s.sched.current (s.held s.sched.current - 1) }
  | clear {sched : Sched N W σ} (place : s.place s.sched.current = .toHandOver) (none : ∀ y, ¬ s.sched.WaitsOn waitQ y)
      (quiet : Quiet H cfg s.sched sched) (prio : sched.prio = s.sched.prio) :
      MutexEffect H cfg waitQ ceiling s .goOn { s with
        sched := sched
        mutex := { s.mutex with owner := .none }
        place := update s.place s.sched.current .outside }
  | pass {sched : Sched N W σ} {newOwner : Fin N} (place : s.place s.sched.current = .toHandOver)
      (best : Q.best s.sched.queues (.waitq waitQ) = some (some newOwner)) (waited : s.sched.WaitsOn waitQ newOwner)
      (quiet : Quiet H cfg s.sched sched) (left : ¬ sched.WaitsOn waitQ newOwner) (prio : sched.prio = s.sched.prio) :
      MutexEffect H cfg waitQ ceiling s .goOn { s with
        sched := sched
        mutex := ⟨some newOwner, (s.mutex.lockCount + 1) % 2 ^ 32, s.sched.prio newOwner⟩
        place := update s.place s.sched.current .outside
        got := update s.got newOwner true }

/-- Whatever queue the owner of the mutex waits in, it can take a new priority of the owner. -/
def RekeysOwner (H : Q.Lawful) (cfg : Config N) (s : MutexState N W σ) : Prop :=
  ∀ L o v k, SchedInv H cfg s.sched L → s.mutex.owner = some o → o ∈ L (.waitq v) →
  H.RekeyOk s.sched.prio (L (.waitq v)) o k

/-- What a step must meet for the queues to take all new priorities. -/
def MutexOp.Rekeys (H : Q.Lawful) (cfg : Config N) (s : MutexState N W σ) : MutexOp N W → Prop
  | .sched op => ∀ L, SchedInv H cfg s.sched L → op.Fine H s.sched L
  | .lock _ | .goOn => RekeysOwner H cfg s
  | .unlock => True

/-- What the code takes for granted: the scheduler is right, the idle thread has nothing to do with the mutex, and
the saved priority is one. -/
structure MutexSane (H : Q.Lawful) (cfg : Config N) (s : MutexState N W σ) : Prop where
  sched : ∃ L, SchedInv H cfg s.sched L
  idle : s.place cfg.idle = .outside ∧ s.mutex.owner ≠ some cfg.idle
  orig : s.mutex.owner ≠ none → H.Valid s.mutex.ownerOrigPrio

namespace MutexSane

variable {s s' : MutexState N W σ}

section

variable (h : MutexSane H cfg s)

include h

theorem current_ne_idle (hplace : s.place s.sched.current ≠ .outside) : s.sched.current ≠ cfg.idle := by
  intro e
  rw [e] at hplace
  exact hplace h.idle.1

/-- Whom `_waitq_head` gives waits, and if it gives nobody, nobody waits. -/
theorem best_waits {waiter : Option (Fin N)} (hbest : Q.best s.sched.queues (.waitq waitQ) = some waiter) :
    (∀ x, waiter = some x → s.sched.WaitsOn waitQ x) ∧ (waiter = none → ∀ y, ¬ s.sched.WaitsOn waitQ y) := by
  obtain ⟨L, hL⟩ := h.sched
  rw [H.best_spec hL.rep] at hbest
  have hhead : (L (.waitq waitQ)).head? = waiter := Option.some.inj hbest
  refine ⟨fun x hx => hL.waitsOn_iff.2 (List.mem_of_head? (hhead.trans hx)), fun hnone y hy => ?_⟩
  have hmem := hL.waitsOn_iff.1 hy
  rw [List.head?_eq_none_iff.1 (hhead.trans hnone)] at hmem
  cases hmem

/-- **`k_mutex_lock` (mutex.c:121)** up to where it waits. -/
theorem lock_effect (hrekey : RekeysOwner H cfg s) (hceil : H.Valid ceiling) {timeout : ℤ}
    (hi : s.sched.current ≠ cfg.idle) (hout : s.place s.sched.current = .outside)
    (hs : kMutexLock Q cfg ceiling s timeout = some s') : MutexEffect H cfg waitQ ceiling s (.lock timeout) s' := by
  obtain ⟨L, hL⟩ := h.sched
  unfold kMutexLock at hs
  dsimp only at hs
  split at hs
  · -- the mutex is free, or the thread's own
    rename_i hfast
    obtain ⟨sched, hun, hs⟩ := bind_eq_some_iff.1 hs
    cases hs
    exact .take hout hfast (lock_unlock_quiet hL hun) (lock_unlock_prio hun)
  · rename_i hslow
    rw [not_or] at hslow
    split at hs
    · obtain ⟨sched, hun, hs⟩ := bind_eq_some_iff.1 hs
      cases hs
      exact .busy hslow.1 (lock_unlock_quiet hL hun) (lock_unlock_prio hun)
    · obtain ⟨owner, hown, hs⟩ := bind_eq_some_iff.1 hs
      obtain ⟨sched, hadj, hs⟩ := bind_eq_some_iff.1 hs
      cases hs
      have hne : owner ≠ cfg.idle := fun e => h.idle.2 (by rw [hown, e])
      have h1 := schedLock_inv hL
      refine .boost hout hslow.1 hown (fun e => hslow.2 (by rw [hown, e])) ?_ ?_ (by assumption)
      · split at hadj
        · exact (schedLock_quiet hL).trans (adjustOwnerPrio_quiet h1 h.idle.2
            (fun _ => newPrio_valid hceil (h1.valid _ hi) (h1.valid _ hne))
            (fun o v ho hv => hrekey L o v _ hL ho hv) hadj)
        · cases hadj
          exact schedLock_quiet hL
      · unfold boostedPrio
        dsimp only
        split at hadj
        · obtain ⟨o, ho, hprio⟩ := adjustOwnerPrio_prio hadj
          obtain rfl : owner = o := by simpa [hown] using ho
          rw [if_pos (by assumption)]
          exact hprio
        · cases hadj
          rw [if_neg (by assumption), update_eq_self]
          rfl

/-- **`_pend_current_thread` in `k_mutex_lock` (mutex.c:169)** -/
theorem pend_effect {timeout : ℤ} (hn : s.sched.nested = 0) (hplace : s.place s.sched.current = .toPend timeout)
    (hs : lockPend Q cfg waitQ s timeout = some s') : MutexEffect H cfg waitQ ceiling s .goOn s' := by
  obtain ⟨L, hL⟩ := h.sched
  obtain ⟨sched, hpend, hs⟩ := bind_eq_some_iff.1 hs
  cases hs
  have hi := h.current_ne_idle (by simp [hplace])
  obtain ⟨s2, L2, hs2, hinv, -⟩ := pendCurrentThread_keeps hL hn hi waitQ (timeout = -1)
  obtain rfl : s2 = sched := by simpa [hs2] using hpend
  refine .pend hplace ⟨L2, hinv⟩ (fun w y hy => ?_) (noneRevived_steady.pendCurrentThread (.setBase fun _ hb => hb)
      (fun _ => .setBase fun _ hb => hb) s2 hpend) (samePrio_steady.pendCurrentThread rfl (fun _ => rfl) s2 hpend)
  by_cases hself : y = s.sched.current ∧ w = waitQ
  · exact .inl hself
  · refine .inr (pendCurrentThread_staysOff ?_ _ hpend hy)
    by_cases hyc : y = s.sched.current
    · exact .inr fun e => hself ⟨hyc, e.symm⟩
    · exact .inl hyc

/-- **The rest of `k_mutex_lock` (mutex.c:176)** after the thread has been woken, with the mutex or without it. -/
theorem woken_effect (hrekey : RekeysOwner H cfg s) (hceil : H.Valid ceiling)
    (hplace : s.place s.sched.current = .pended) (hs : lockWoken Q cfg waitQ ceiling s = some s') :
    MutexEffect H cfg waitQ ceiling s .goOn s' := by
  obtain ⟨L, hL⟩ := h.sched
  unfold lockWoken at hs
  dsimp only at hs
  split at hs
  · rename_i hgot
    obtain ⟨sched, hun, hs⟩ := bind_eq_some_iff.1 hs
    cases hs
    exact .granted hplace hgot (kSchedUnlock_quiet hL hun) (kSchedUnlock_prio hun)
  · rename_i hgot
    obtain ⟨waiter, hbest, hs⟩ := bind_eq_some_iff.1 hs
    obtain ⟨sched, hadj, hs⟩ := bind_eq_some_iff.1 hs
    cases hs
    obtain ⟨owner, hown, hprio⟩ := adjustOwnerPrio_prio hadj
    refine .timedOut hplace (by simpa using hgot) hown hbest ?_ (fun y hy => ?_) (by cases waiter <;> exact hprio)
    rotate_left
    · rwa [Sched.WaitsOn, adjustOwnerPrio_base hadj]
    refine adjustOwnerPrio_quiet hL h.idle.2 (fun ho => ?_) (fun o v => hrekey L o v _ hL) hadj
    cases waiter with
    | none => exact h.orig ho
    | some waiter =>
      rw [H.best_spec hL.rep] at hbest
      exact newPrio_valid hceil (hL.valid _ (hL.waiting (List.mem_of_head? (by simpa using hbest))).1) (h.orig ho)

theorem giveUp_effect (hplace : s.place s.sched.current = .toGiveUp) (hs : lockGiveUp Q cfg s = some s') :
    MutexEffect H cfg waitQ ceiling s .goOn s' := by
  obtain ⟨L, hL⟩ := h.sched
  obtain ⟨sched, hun, hs⟩ := bind_eq_some_iff.1 hs
  cases hs
  exact .giveUp hplace (kSchedUnlock_quiet hL hun) (fun _ => kSchedUnlock_waitsOn hun) (kSchedUnlock_prio hun)

/-- **`k_mutex_unlock` (mutex.c:212)** up to where it hands the mutex over. -/
theorem unlock_effect (hn : s.sched.nested = 0) (hi : s.sched.current ≠ cfg.idle)
    (hout : s.place s.sched.current = .outside) (hown : s.mutex.owner = some s.sched.current)
    (hs : kMutexUnlock Q cfg s = some s') : MutexEffect H cfg waitQ ceiling s .unlock s' := by
  obtain ⟨L, hL⟩ := h.sched
  unfold kMutexUnlock at hs
  dsimp only at hs
  split at hs
  · rename_i hc
    obtain ⟨sched, hun, hs⟩ := bind_eq_some_iff.1 hs
    cases hs
    exact .drop hout hown hc (lock_unlock_quiet hL hun) (lock_unlock_prio hun)
  · rename_i hc
    obtain ⟨sched, hadj, hs⟩ := bind_eq_some_iff.1 hs
    cases hs
    -- the owner is the thread that runs, and so it waits in no queue
    have hrun : ∀ o v, s.mutex.owner = some o → o ∉ L (.waitq v) := by
      rintro o v ho hv
      obtain rfl : s.sched.current = o := by simpa [hown] using ho
      exact H.disj hL.rep (by simp) (hL.current_ready hn hi) hv
    obtain ⟨o, ho, hprio⟩ := adjustOwnerPrio_prio hadj
    obtain rfl : s.sched.current = o := by simpa [hown] using ho
    exact .release hout hown (not_not.1 hc) ((schedLock_quiet hL).trans
      (adjustOwnerPrio_quiet (schedLock_inv hL) h.idle.2 h.orig (fun o v ho hv => absurd hv (hrun o v ho)) hadj)) hprio

/-- **The rest of `k_mutex_unlock` (mutex.c:237)** -/
theorem handOver_effect (hplace : s.place s.sched.current = .toHandOver)
    (hs : unlockHandOver Q cfg waitQ s = some s') : MutexEffect H cfg waitQ ceiling s .goOn s' := by
  obtain ⟨L, hL⟩ := h.sched
  have hbest := H.best_spec hL.rep (.waitq waitQ)
  unfold unlockHandOver unpendFirstThread at hs
  rw [hbest] at hs
  cases hhead : (L (.waitq waitQ)).head? with
  | none =>
    simp only [hhead, bind_eq_bind, bind_some] at hs
    obtain ⟨sched, hun, hs⟩ := bind_eq_some_iff.1 hs
    cases hs
    refine .clear hplace (fun y hy => ?_) (kSchedUnlock_quiet hL hun) (kSchedUnlock_prio hun)
    have hmem := hL.waitsOn_iff.1 hy
    rw [List.head?_eq_none_iff.1 hhead] at hmem
    cases hmem
  | some t =>
    have ht := List.mem_of_head? hhead
    obtain ⟨q, s1, L1, hun, hready, hinv, hL1, -, hsame⟩ := unpend_spec hL ht
    simp only [hhead, hun, hready, bind_eq_bind, bind_some] at hs
    obtain ⟨sched, hunlock, hs⟩ := bind_eq_some_iff.1 hs
    cases hs
    have hprio : s1.prio = s.sched.prio := hsame.prio
    rw [hprio]
    have hboth : (unpendThread Q s.sched t >>= fun s => readyThread Q cfg s t) = some s1 := by rw [hun]; exact hready
    -- who waits after that waited before
    have hquiet : Quiet H cfg s.sched s1 := by
      refine ⟨fun w => ?_, noneRevived_steady.unpend s1 hboth⟩
      rintro s2 ⟨⟩
      exact ⟨⟨L1, hinv⟩, fun y hy => staysOff_steady.unpend s1 hboth hy⟩
    refine .pass hplace (by rw [hbest, hhead]) (hL.waitsOn_iff.2 ht)
      (hquiet.trans (kSchedUnlock_quiet hinv hunlock)) (fun hw => ?_)
      ((kSchedUnlock_prio hunlock).trans hprio)
    · obtain ⟨-, hwaits⟩ := kSchedUnlock_calm hinv sched hunlock
      have hmem : t ∈ (L (.waitq waitQ)).erase t := by simpa [hL1] using hinv.waitsOn_iff.1 (hwaits t hw)
      exact ((H.nodup hL.rep _).mem_erase_iff.1 hmem).1 rfl

/-- **Every step of a thread in the code of the mutex is one of the cases.** -/
theorem effect (hceil : H.Valid ceiling) (hop : ∀ o, op ≠ .sched o) (hlegal : op.Legal H cfg waitQ s)
    (hrekey : op.Rekeys H cfg s) (hs : op.exec Q cfg waitQ ceiling s = some s') :
    MutexEffect H cfg waitQ ceiling s op s' := by
  cases op with
  | sched op => exact absurd rfl (hop op)
  | lock timeout => exact h.lock_effect hrekey hceil hlegal.2.1 hlegal.2.2 hs
  | unlock => exact h.unlock_effect hlegal.1 hlegal.2.1 hlegal.2.2.1 hlegal.2.2.2.2 hs
  | goOn =>
    simp only [MutexOp.exec] at hs
    cases hplace : s.place s.sched.current with
    | outside => exact absurd hplace hlegal.2
    | toPend timeout => rw [hplace] at hs; exact h.pend_effect hlegal.1 hplace hs
    | pended => rw [hplace] at hs; exact h.woken_effect hrekey hceil hplace hs
    | toGiveUp => rw [hplace] at hs; exact h.giveUp_effect hplace hs
    | toHandOver => rw [hplace] at hs; exact h.handOver_effect hplace hs

end

end MutexSane

/-! ## What every step keeps -/

namespace MutexEffect

variable {s s' : MutexState N W σ} {op : MutexOp N W}

section

variable (h : MutexEffect H cfg waitQ ceiling s op s')

include h

/-- The scheduler stays in order, and only a thread that pends comes into a queue, and only into that of the mutex. -/
theorem onSched : (∃ L, SchedInv H cfg s'.sched L) ∧ NoneRevived s.sched s'.sched ∧ ∀ w y, s'.sched.WaitsOn w y →
    s.sched.WaitsOn w y ∨ y = s.sched.current ∧ w = waitQ ∧ (s.place y).isToPend = true ∧
    s'.place y = .pended ∧ s'.got y = false := by
  cases h with
  | pend place inv waits alive _ =>
    refine ⟨inv, alive, fun w y hy => ?_⟩
    rcases waits w y hy with ⟨rfl, rfl⟩ | hold
    · exact .inr ⟨rfl, rfl, by rw [place]; rfl, by simp, by simp⟩
    · exact .inl hold
  | take _ _ quiet _ | busy _ quiet _ | boost _ _ _ _ quiet _ | granted _ _ quiet _
  | timedOut _ _ _ _ quiet _ _ | giveUp _ quiet _ _
  | drop _ _ _ quiet _ | release _ _ _ quiet _ | clear _ _ quiet _ | pass _ _ _ quiet _ _ =>
    exact ⟨(quiet.calm waitQ _ rfl).1, quiet.alive, fun w y hy => .inl ((quiet.calm w _ rfl).2 y hy)⟩

theorem inv : ∃ L, SchedInv H cfg s'.sched L := h.onSched.1

theorem alive : NoneRevived s.sched s'.sched := h.onSched.2.1

/-- Other threads stay where they are in the code. -/
theorem place_of_ne (hy : y ≠ s.sched.current) : s'.place y = s.place y := by
  cases h with
  | take | busy | drop => rfl
  | boost | pend | granted | timedOut | giveUp | release | clear | pass => exact update_of_ne hy _ _

theorem sane (hs : MutexSane H cfg s) (hi : s.sched.current ≠ cfg.idle) : MutexSane H cfg s' := by
  have hplace : s'.place cfg.idle = .outside := by rw [h.place_of_ne (Ne.symm hi)]; exact hs.idle.1
  have hinv := h.inv
  obtain ⟨L, hL⟩ := hs.sched
  cases h with
  | take _ fast _ _ =>
    refine ⟨hinv, ⟨hplace, fun e => hi (Option.some.inj e)⟩, fun _ => ?_⟩
    dsimp only
    split
    · exact hL.valid _ hi
    · exact hs.orig (by simp [fast.resolve_left ‹_›])
  | clear => exact ⟨hinv, ⟨hplace, by simp⟩, fun ho => absurd rfl ho⟩
  | pass _ _ waited _ _ _ =>
    have hne := (hL.waiting (hL.waitsOn_iff.1 waited)).1
    exact ⟨hinv, ⟨hplace, fun e => hne (Option.some.inj e)⟩, fun _ => hL.valid _ hne⟩
  | busy | boost | pend | granted | timedOut | giveUp | drop | release => exact ⟨hinv, ⟨hplace, hs.idle.2⟩, hs.orig⟩

end

end MutexEffect

/-- What threads and interrupts do without the mutex. -/
theorem MutexSane.sched_exec (h : MutexSane H cfg s) {op : SchedOp N W} (hop : op.Legal H cfg s.sched)
    (hfine : ∀ L, SchedInv H cfg s.sched L → op.Fine H s.sched L) (havoid : op.Avoids waitQ) {sched : Sched N W σ}
    (hexec : op.exec Q cfg s.sched = some sched) : MutexSane H cfg { s with sched := sched } ∧
    Calm H cfg waitQ s.sched (some sched) := by
  obtain ⟨L, hL⟩ := h.sched
  have hcalm := ((exec_keeps hL hop (hfine L hL)).calm fun y => exec_staysOff havoid).of_mem hexec
  exact ⟨⟨(hcalm sched rfl).1, h.idle, h.orig⟩, hcalm⟩

theorem MutexOp.Legal.nested_eq (hop : ∀ o, op ≠ .sched o) (hlegal : op.Legal H cfg waitQ s) : s.sched.nested = 0 := by
  cases op with
  | sched op => exact absurd rfl (hop op)
  | lock timeout => exact hlegal.1
  | unlock => exact hlegal.1
  | goOn => exact hlegal.1

theorem MutexOp.Legal.current_ne_idle (h : MutexSane H cfg s) (hop : ∀ o, op ≠ .sched o)
    (hlegal : op.Legal H cfg waitQ s) : s.sched.current ≠ cfg.idle := by
  cases op with
  | sched op => exact absurd rfl (hop op)
  | lock timeout => exact hlegal.2.1
  | unlock => exact hlegal.2.1
  | goOn => exact h.current_ne_idle hlegal.2

end Zephyr
