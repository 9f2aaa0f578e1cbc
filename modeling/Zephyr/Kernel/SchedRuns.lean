import Zephyr.Kernel.SchedOps
import Zephyr.Kernel.PriqRuns
import Zephyr.Lib.Runs
/-!
# The scheduler under every run of thread operations

A run starts when only the idle thread can run and no other thread has been started. `SchedOp` has the
thread operations, waiting and being woken, the expiry of timeouts, and interrupts that come and go.
`SchedOp.Legal` is what the source asserts of a call: some calls are not for interrupts, only a thread
other than the idle thread waits, `_unpend_thread` is for a thread that is pending. The callers of
`_unpend_thread` hand the thread to `_ready_thread` with interrupts still locked, and so it is one step.
-/
namespace Zephyr

open Ring StableQueue Sched Function Option

variable {N : Nat} {W σ : Type} [DecidableEq W]

inductive SchedOp (N : Nat) (W : Type) where
  | start (thread : Fin N)
  | suspend (thread : Fin N)
  | resume (thread : Fin N)
  | prioritySet (thread : Fin N) (prio : ℤ)
  | yield
  | sleep (duration : Nat)
  | wakeup (thread : Fin N)
  | abort (thread : Fin N)
  | lock
  | unlock
  | pendCurrent (w : W) (forever : Bool)
  | pendDummy (thread : Fin N) (w : W) (forever : Bool)
  | unpend (thread : Fin N)
  | readyOne (w : W)
  | readyAll (w : W)
  | expire (thread : Fin N)
  | reschedule
  | isrEnter
  | isrExit

/-- On the way out of the last interrupt, `_current` is what `cache` says. -/
def leaveIsr (s : Sched N W σ) : Sched N W σ := { s with nested := s.nested - 1 }.reschedule

def SchedOp.exec (Q : Queues N W σ) (cfg : Config N) (s : Sched N W σ) : SchedOp N W → Option (Sched N W σ)
  | .start thread => kThreadStart Q cfg s thread
  | .suspend thread => kThreadSuspend Q cfg s thread
  | .resume thread => kThreadResume Q cfg s thread
  | .prioritySet thread prio => threadPrioritySet Q cfg s thread prio
  | .yield => kYield Q cfg s
  | .sleep duration => kSleep Q cfg s duration
  | .wakeup thread => kWakeup Q cfg s thread
  | .abort thread => kThreadAbort Q cfg s thread
  | .lock => some (schedLock s)
  | .unlock => kSchedUnlock Q cfg s
  | .pendCurrent w forever => pendCurrentThread Q cfg s (some w) forever
  | .pendDummy thread w forever => pend Q cfg s thread (some w) forever
  | .unpend thread => do
    let s ← unpendThread Q s thread
    readyThread Q cfg s thread
  | .readyOne w => readyOneThread Q cfg s w
  | .readyAll w => unpendAll Q cfg s w (N + 1)
  | .expire thread => handleOneExpiredThreadTimeout Q cfg s thread
  | .reschedule => some s.reschedule
  | .isrEnter => some { s with nested := s.nested + 1 }
  | .isrExit => some (leaveIsr s)

def SchedOp.Legal {Q : Queues N W σ} (H : Q.Lawful) (cfg : Config N) (s : Sched N W σ) : SchedOp N W → Prop
  | .start thread | .resume thread | .wakeup thread | .abort thread => thread ≠ cfg.idle
  -- `_Swap` is not for interrupts
  | .suspend thread => thread ≠ cfg.idle ∧ (thread = s.current → s.nested = 0)
  | .prioritySet thread prio => thread ≠ cfg.idle ∧ s.nested = 0 ∧ H.Valid prio
  | .yield | .lock => s.nested = 0
  | .unlock => s.nested = 0 ∧ (s.base s.current).schedLocked ≠ 0
  | .sleep _ | .pendCurrent _ _ => s.nested = 0 ∧ s.current ≠ cfg.idle
  | .pendDummy thread _ _ =>
    thread ≠ cfg.idle ∧ (s.base thread).dummy = true ∧ (s.base thread).pending = false ∧ (s.base thread).timeout = none
  | .unpend thread => (s.base thread).pending = true
  | .expire thread => thread ≠ cfg.idle ∧ s.nested ≠ 0 ∧ (s.base thread).isThreadTimeoutActive = true
  | .readyOne _ | .readyAll _ | .reschedule | .isrEnter => True
  | .isrExit => s.nested ≠ 0

instance {Q : Queues N W σ} (H : Q.Lawful) [∀ k, Decidable (H.Valid k)] (cfg : Config N) (s : Sched N W σ)
    (op : SchedOp N W) :
    Decidable (op.Legal H cfg s) := by
  induction op using SchedOp.casesOn <;> dsimp only [SchedOp.Legal] <;> infer_instance

/-- The state of the kernel before any thread is started. -/
structure Booted {Q : Queues N W σ} (H : Q.Lawful) (cfg : Config N) (s : Sched N W σ) : Prop where
  rep : H.Rep s.prio s.queues fun _ => []
  base : ∀ y, (s.base y).pending = false ∧ (s.base y).queued = false ∧ (s.base y).timeout = none
  prestart : ∀ y, y ≠ cfg.idle → (s.base y).prestart = true
  current : s.current = cfg.idle
  cache : s.cache = cfg.idle
  nested : s.nested = 0
  valid : ∀ y, y ≠ cfg.idle → H.Valid (s.prio y)
  arrivals : ∀ w, s.arrivals w = []

abbrev schedRun (Q : Queues N W σ) (cfg : Config N) : Sched N W σ → List (SchedOp N W) → Option (Sched N W σ) :=
  Runs.run (SchedOp.exec Q cfg)

abbrev SchedAlong (Q : Queues N W σ) (cfg : Config N) (ok : Sched N W σ → SchedOp N W → Prop) :
    Sched N W σ → List (SchedOp N W) → Prop :=
  Runs.Along (SchedOp.exec Q cfg) ok

variable {Q : Queues N W σ} {H : Q.Lawful} {cfg : Config N} {s s' : Sched N W σ} {L : QueueId W → List (Fin N)}

/-- What an operation must meet for all threads to stay in their places. -/
def SchedOp.Fine (H : Q.Lawful) (s : Sched N W σ) (L : QueueId W → List (Fin N)) : SchedOp N W → Prop
  | .resume thread => s.isThreadReady thread = false
  | .prioritySet thread prio => ∀ w, thread ∈ L (.waitq w) → H.RekeyOk s.prio (L (.waitq w)) thread prio
  | _ => True

/-- The operation is not for a thread of `X`. -/
def SchedOp.Misses (X : Fin N → Bool) : SchedOp N W → Prop
  | .start thread | .suspend thread | .resume thread | .prioritySet thread _ | .wakeup thread | .abort thread
  | .pendDummy thread _ _ | .unpend thread | .expire thread => X thread = false
  | _ => True

/-- What it must meet for the wait queues to stay in order. -/
def SchedOp.InOrder (H : Q.Lawful) (s : Sched N W σ) (L : QueueId W → List (Fin N)) : SchedOp N W → Prop
  | .prioritySet thread prio => ∀ w, thread ∈ L (.waitq w) → KeepsPlace s.prio (L (.waitq w)) thread prio
  | .pendCurrent w _ => H.Fresh s.prio s.queues (.waitq w) (L (.waitq w)) s.current
  | .pendDummy thread w _ => H.Fresh s.prio s.queues (.waitq w) (L (.waitq w)) thread
  | _ => True

theorem Booted.inv (h : Booted H cfg s) : SchedInv H cfg s fun _ => [] := by
  refine ⟨⟨h.rep, fun y => ?_, .inl h.cache, h.valid, rfl⟩, fun _ => .inl h.current, rfl⟩
  obtain ⟨hp, hq, ht⟩ := h.base y
  refine ⟨?_, by simp [hq], by simp [hp], by simp, by simp [ht], by simp [ht], fun _ => hp⟩
  simp only [List.not_mem_nil, false_iff, not_and]
  intro hy
  simp [Sched.isThreadReady, ready_eq, h.prestart y hy]

variable {op : SchedOp N W} {ok : Sched N W σ → SchedOp N W → Prop} {X : Fin N → Bool} {x : Fin N}

omit [DecidableEq W] in
theorem SchedOp.misses_none : op.Misses fun _ => false := by
  cases op <;> trivial

theorem exec_keeps (h : SchedInv H cfg s L X) (hlegal : op.Legal H cfg s) (hfine : op.Fine H s L)
    (hmiss : op.Misses X := by exact SchedOp.misses_none) :
    KeepsFit H cfg s L (op.InOrder H s L) (op.exec Q cfg s) X := by
  cases op with
  | start thread => exact kThreadStart_keeps h hlegal hmiss
  | suspend thread => exact kThreadSuspend_keeps h hlegal.1 hmiss
  | resume thread => exact kThreadResume_keeps h hlegal hmiss hfine
  | prioritySet thread prio => exact threadPrioritySet_keeps h hlegal.1 hlegal.2.2 hfine (.inl hmiss)
  | yield => exact kYield_keeps h hlegal
  | sleep duration => exact kSleep_keeps h hlegal.1 hlegal.2 duration
  | wakeup thread => exact kWakeup_keeps h hlegal hmiss
  | abort thread => exact kThreadAbort_keeps h hlegal hmiss
  | lock => exact schedLock_keeps h
  | unlock => exact kSchedUnlock_keeps h
  | pendCurrent w forever => exact pendCurrentThread_keeps h hlegal.1 hlegal.2 w forever
  | pendDummy thread w forever => exact pend_dummy_keeps h hlegal.1 hlegal.2.1 hlegal.2.2.1 hlegal.2.2.2 w forever hmiss
  | unpend thread =>
    obtain ⟨w, hw⟩ := ((h.fits thread).fits hmiss).pending.1 hlegal
    obtain ⟨q, s', L', hun, hready, hinv, -, hord, -⟩ := unpend_spec h hw
    refine ⟨s', L', ?_, hinv, fun _ => hord⟩
    simp only [SchedOp.exec, hun, hready, bind_eq_bind, bind_some]
  | readyOne w => exact readyOneThread_keeps h w
  | readyAll w =>
    have hlen : (L (.waitq w)).length ≤ N := by simpa using (H.nodup h.rep (.waitq w)).length_le_card
    exact unpendAll_keeps w h (by omega)
  | expire thread => exact handleOneExpiredThreadTimeout_keeps h hlegal.1 hmiss hlegal.2.2
  | reschedule => exact h.keeps.reschedule
  | isrEnter =>
    refine ⟨_, L, rfl, ⟨h.congr h.rep rfl (fun _ _ => Iff.rfl) h.cache h.valid, fun hn => ?_, h.shown⟩,
      fun _ ho => ho.congr rfl rfl fun _ => rfl⟩
    simp at hn
  | isrExit =>
    have hfit : AllFit H cfg { s with nested := s.nested - 1 } L X :=
      h.congr h.rep rfl (fun _ _ => Iff.rfl) h.cache h.valid
    exact ⟨_, L, rfl, hfit.reschedule h.shown, fun _ ho => ho.congr (by simp [leaveIsr]) (by simp [leaveIsr])
      fun _ => rfl⟩

/-- **Every run keeps all threads in their places**, and the wait queues in order, if `ok` sees to both. -/
theorem run_keeps (hok : ∀ s L op, SchedInv H cfg s L → ok s op → op.Legal H cfg s ∧ op.Fine H s L)
    {ops : List (SchedOp N W)} (h : SchedInv H cfg s L) (hall : SchedAlong Q cfg ok s ops) :
    KeepsFit H cfg s L (∀ s L op, SchedInv H cfg s L → ok s op → op.InOrder H s L) (schedRun Q cfg s ops) := by
  have hstep : ∀ s1 op, KeepsFit H cfg s L (∀ s L op, SchedInv H cfg s L → ok s op → op.InOrder H s L)
    (some s1) → ok s1 op → ∃ s2, op.exec Q cfg s1 = some s2 ∧
        KeepsFit H cfg s L (∀ s L op, SchedInv H cfg s L → ok s op → op.InOrder H s L) (some s2) := by
    rintro s1 op ⟨_, L1, ⟨⟩, h1, hord1⟩ hop
    obtain ⟨hlegal, hfine⟩ := hok s1 L1 op h1 hop
    obtain ⟨s2, L2, hexec, h2, hord2⟩ := exec_keeps h1 hlegal hfine
    exact ⟨s2, hexec, s2, L2, rfl, h2, fun hin ho => hord2 (hin s1 L1 op h1 hop) (hord1 hin ho)⟩
  obtain ⟨s', hrun, hkeep⟩ := Runs.run_total hstep h.keeps hall
  unfold schedRun
  rwa [hrun]

/-! ## The run queue -/

/-- `k_thread_resume` is called for a thread that is not ready. -/
def ResumesOthers (s : Sched N W σ) : SchedOp N W → Prop
  | .resume thread => s.isThreadReady thread = false
  | _ => True

instance (s : Sched N W σ) (op : SchedOp N W) : Decidable (ResumesOthers s op) := by
  induction op using SchedOp.casesOn <;> dsimp only [ResumesOthers] <;> infer_instance

/-- A pending thread gets a priority that compares as the old one did with those of the threads it waits with. -/
def KeepsPlaces (s : Sched N W σ) : SchedOp N W → Prop
  | .prioritySet thread prio => (s.base thread).pending = true → ∀ y, y ≠ thread → (s.base y).pending = true →
      (s.base y).pendedOn = (s.base thread).pendedOn →
      (s.prio y < s.prio thread ↔ s.prio y < prio) ∧ (s.prio thread < s.prio y ↔ prio < s.prio y)
  | _ => True

instance (s : Sched N W σ) (op : SchedOp N W) : Decidable (KeepsPlaces s op) := by
  induction op using SchedOp.casesOn <;> dsimp only [KeepsPlaces] <;> infer_instance

theorem KeepsPlaces.keepsPlace {k : ℤ} (h : SchedInv H cfg s L X) (hk : KeepsPlaces s (.prioritySet x k)) {w : W}
    (hx : x ∈ L (.waitq w)) : KeepsPlace s.prio (L (.waitq w)) x k := by
  intro y hy hne
  refine hk ((h.fitsIn hx).pending.2 ⟨w, hx⟩) y hne ((h.fitsIn hy).pending.2 ⟨w, hy⟩) ?_
  rw [(h.fitsIn hx).pendedOn w hx, (h.fitsIn hy).pendedOn w hy]

theorem SchedOp.fine_of (hresume : ResumesOthers s op)
    (hprio : ∀ x k w, op = .prioritySet x k → x ∈ L (.waitq w) → H.RekeyOk s.prio (L (.waitq w)) x k) :
    op.Fine H s L := by
  cases op with
  | resume thread => exact hresume
  | prioritySet thread prio => exact fun w hw => hprio thread prio w rfl hw
  | _ => trivial

/-- The record of a thread that has not been started, or of the idle thread. -/
def bootBase (prestart : Bool) : ThreadBase Unit := ⟨false, false, prestart, false, false, false, 0, none, none⟩

/-- Lists in memory, one wait queue, and thread 0 the idle thread. -/
def bootSched (N : Nat) [NeZero N] (prio : Fin N → ℤ) : Sched N Unit (Links (QNode (QueueId Unit) N)) :=
  ⟨initQueues [.runq, .waitq ()] (anyLinks (QueueId Unit) N), prio, fun y => bootBase (y ≠ 0), 0, 0, 0, fun _ => []⟩

def bootConfig (N : Nat) [NeZero N] : Config N := ⟨0, -16, 0⟩

theorem bootSched_booted (N : Nat) [NeZero N] (prio : Fin N → ℤ) :
    Booted (dumbLawful N Unit) (bootConfig N) (bootSched N prio) where
  rep := initQueues_rep (fun i => by cases i <;> simp) _
  base _ := ⟨rfl, rfl, rfl⟩
  prestart y hy := by simpa [bootSched, bootBase, bootConfig] using hy
  current := rfl
  cache := rfl
  nested := rfl
  valid _ _ := trivial
  arrivals _ := rfl

/-- A list that ends behind its first thread holds no other. -/
theorem DumbRep.single {ι : Type} {m : Links (QNode ι N)} {L : ι → List (Fin N)} (h : DumbRep m L) {i : ι}
    (hhead : m.next (.head i) = .thread x) (hnext : m.next (.thread x) = .head i) : L i = [x] := by
  have hr := h.ring i
  cases hL : L i with
  | nil =>
    rw [hr.next_head] at hhead
    simp [qnodes, hL] at hhead
  | cons a l =>
    have hr' : IsRing m (.head i) ([] ++ QNode.thread a :: l.map QNode.thread) := by simpa [qnodes, hL] using hr
    have ha : a = x := by
      rw [hr.next_head] at hhead
      simpa [qnodes, hL] using hhead
    rw [← ha, hr'.next_of_mem] at hnext
    cases l with
    | nil => rw [ha]
    | cons b l => simp at hnext

/-- The idle thread and threads of the priorities 3, 5 and 9. -/
def mixedPrio : Fin 4 → ℤ
  | 0 => 15
  | 1 => 3
  | 2 => 5
  | 3 => 9

end Zephyr
