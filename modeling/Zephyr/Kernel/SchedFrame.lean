import Zephyr.Kernel.SchedRuns
/-!
# What the thread operations leave alone

The functions of sched.c change the record of a thread by a few marks (`Mark`). A relation between states that
every mark keeps, and that looks at nothing but records and priorities, holds between the states before and
after each operation made of those marks (`Steady.exec`). What `pend`, `_thread_priority_set` and the scheduler
lock do beyond them is a premise of their lemmas.
-/
namespace Zephyr

open Sched

variable {N : Nat} {W σ : Type}

/-- The marks that the operations make, apart from those of `pend` and of the scheduler lock. -/
inductive Mark : (ThreadBase W → ThreadBase W) → Prop
  | queued : Mark .markAsQueued
  | notQueued : Mark .markAsNotQueued
  | notPending : Mark .markAsNotPending
  | suspended : Mark .markAsSuspended
  | notSuspended : Mark .markAsNotSuspended
  | started : Mark .markAsStarted
  | dead : Mark .markAsDead
  | timeout (t : Option (Option W)) : Mark (.setTimeout t)

structure Steady (R : Sched N W σ → Sched N W σ → Prop) : Prop where
  trans : ∀ {s t u}, R s t → R t u → R s u
  same : ∀ {s t}, t.base = s.base → t.prio = s.prio → R s t
  mark : ∀ {s x f}, Mark f → R s (s.setBase x f)

/-- The relation holds between the state and the result, if there is one. -/
def Leads (R : Sched N W σ → Sched N W σ → Prop) (s : Sched N W σ) (r : Option (Sched N W σ)) : Prop := ∀ s' ∈ r, R s s'

/-- The operation makes no other marks. -/
def SchedOp.Plain : SchedOp N W → Prop
  | .prioritySet _ _ | .lock | .unlock | .pendCurrent _ _ | .pendDummy _ _ _ => False
  | _ => True

namespace Leads

variable {R : Sched N W σ → Sched N W σ → Prop} {s : Sched N W σ} {r r' : Option (Sched N W σ)}

theorem bind_of {α : Type} {o : Option α} {f : α → Option (Sched N W σ)} (hf : ∀ a, Leads R s (f a)) :
    Leads R s (o >>= f) := by
  intro s' hs'
  obtain ⟨a, -, ha⟩ := Option.bind_eq_some_iff.1 hs'
  exact hf a s' ha

theorem ite {p : Prop} [Decidable p] (ht : Leads R s r) (hf : Leads R s r') : Leads R s (if p then r else r') := by
  split
  · exact ht
  · exact hf

end Leads

namespace Steady

variable {R : Sched N W σ → Sched N W σ → Prop} {Q : Queues N W σ} {cfg : Config N} {s t : Sched N W σ}
    {x : Fin N} {w : W}
  {r : Option (Sched N W σ)} {f : Sched N W σ → Option (Sched N W σ)} {g : ThreadBase W → ThreadBase W} (h : Steady R)

include h

theorem done (hb : t.base = s.base) (hp : t.prio = s.prio) : Leads R s (some t) := by
  rintro s' ⟨⟩
  exact h.same hb hp

theorem after (hst : R s t) (hr : Leads R t r) : Leads R s r := fun s' hs' => h.trans hst (hr s' hs')

theorem bind (hr : Leads R s r) (hf : ∀ t, Leads R t (f t)) : Leads R s (r >>= f) := by
  intro s' hs'
  obtain ⟨t, ht, hs2⟩ := Option.bind_eq_some_iff.1 hs'
  exact h.trans (hr t ht) (hf t s' hs2)

/-- A mark behind a change to the queues. -/
theorem marked (hg : Mark g) (hb : t.base = s.base) (hp : t.prio = s.prio) : R s (t.setBase x g) :=
    h.trans (h.same hb hp) (h.mark hg)

theorem reschedule : Leads R s (some s.reschedule) := h.done (by simp) (by simp)

theorem updateCache {ok : Bool} : Leads R s (updateCache Q cfg s ok) := .bind_of fun _ => h.done rfl rfl

theorem addThreadToReadyQ : Leads R s (addThreadToReadyQ Q cfg s x) :=
  .bind_of fun q => h.after (h.marked (t := { s with queues := q }) (x := x) .queued rfl rfl) h.updateCache

theorem removeThreadFromReadyQ : Leads R s (removeThreadFromReadyQ Q cfg s x) :=
  .ite (.bind_of fun q => h.after (h.marked (t := { s with queues := q })
    (x := x) .notQueued rfl rfl) h.updateCache) (h.done rfl rfl)

theorem readyThread : Leads R s (readyThread Q cfg s x) := .ite h.addThreadToReadyQ (h.done rfl rfl)

theorem unpendThreadNoTimeout : Leads R s (unpendThreadNoTimeout Q s x) := by
  refine .bind_of fun v => .bind_of fun q => ?_
  rintro s' ⟨⟩
  exact h.marked .notPending rfl rfl

theorem unpendThread : Leads R s (unpendThread Q s x) := by
  refine h.bind h.unpendThreadNoTimeout fun t => ?_
  rintro s' ⟨⟩
  exact h.mark (.timeout none)

/-- `_unpend_thread` and `_ready_thread`. -/
theorem unpend : Leads R s (Zephyr.unpendThread Q s x >>= fun t => Zephyr.readyThread Q cfg t x) :=
  h.bind h.unpendThread fun _ => h.readyThread

theorem readyOneThread : Leads R s (readyOneThread Q cfg s w) := by
  intro s' hs'
  unfold Zephyr.readyOneThread unpendFirstThread at hs'
  cases hbest : Q.best s.queues (.waitq w) with
  | none => simp [hbest] at hs'
  | some t =>
    cases t with
    | none =>
      obtain rfl : s = s' := by simpa [hbest] using hs'
      exact h.same rfl rfl
    | some t =>
      have hboth : Leads R s (Zephyr.unpendThread Q s t >>= fun u => Zephyr.readyThread Q cfg u t) := h.unpend
      refine hboth s' ?_
      simpa [hbest, Option.bind_assoc] using hs'

theorem unpendAll {n : Nat} : ∀ {s : Sched N W σ}, Leads R s (unpendAll Q cfg s w n) := by
  induction n with
  | zero => intro s s' hs'; cases hs'
  | succ n ih =>
    intro s
    unfold Zephyr.unpendAll
    split
    · intro s' hs'; cases hs'
    · exact h.done rfl rfl
    · exact h.bind h.unpendThread fun _ => h.bind h.readyThread fun _ => ih

theorem handleOneExpiredThreadTimeout : Leads R s (handleOneExpiredThreadTimeout Q cfg s x) := by
  refine h.after (h.mark (.timeout none)) (h.bind (.ite h.unpendThreadNoTimeout (h.done rfl rfl)) fun t => ?_)
  exact h.after (h.mark .started) h.readyThread

theorem requeue : Leads R s (requeue Q cfg s x s.prio) := .bind_of fun _ => .bind_of fun q =>
  h.after (h.same (t := { s with queues := q }) rfl rfl) h.updateCache

theorem kYield : Leads R s (kYield Q cfg s) := h.bind (.ite h.requeue (h.done rfl rfl)) fun _ => h.done rfl rfl

theorem kSleep {duration : Nat} : Leads R s (kSleep Q cfg s duration) := by
  refine .ite h.kYield (h.bind h.removeThreadFromReadyQ fun t => ?_)
  exact h.after (h.mark (.timeout (some none))) (h.done rfl rfl)

theorem kWakeup : Leads R s (kWakeup Q cfg s x) := by
  refine .ite (h.done rfl rfl) (.ite (h.done rfl rfl) ?_)
  exact h.after (h.mark (.timeout none)) (h.bind h.readyThread fun _ => h.reschedule)

theorem kThreadStart : Leads R s (kThreadStart Q cfg s x) :=
  .ite (h.done rfl rfl) (h.after (h.mark .started) (h.bind h.readyThread fun _ => h.reschedule))

theorem kThreadSuspend : Leads R s (kThreadSuspend Q cfg s x) := by
  refine h.bind (.ite h.removeThreadFromReadyQ (h.done rfl rfl)) fun t =>
    h.after (h.mark (x := x) .suspended) (h.done ?_ ?_)
  · split <;> rfl
  · split <;> rfl

theorem kThreadResume : Leads R s (kThreadResume Q cfg s x) :=
  h.after (h.mark .notSuspended) (h.bind h.readyThread fun _ => h.reschedule)

theorem abortWaiting : Leads R s (abortWaiting Q s x) := by
  refine h.bind (.ite h.unpendThreadNoTimeout (h.done rfl rfl)) fun t => ?_
  rintro s' ⟨⟩
  split
  · exact h.mark (.timeout none)
  · exact h.same rfl rfl

theorem kThreadAbort : Leads R s (kThreadAbort Q cfg s x) := by
  refine h.bind (.ite h.removeThreadFromReadyQ h.abortWaiting) fun t => h.after (h.mark (x := x) .dead) ?_
  intro s' hs'
  obtain rfl := Option.some.inj hs'
  split
  · exact h.same rfl rfl
  · split
    · exact h.same rfl rfl
    · exact h.same (by simp) (by simp)

/-! ## The other operations -/

theorem pend [DecidableEq W] (hp : ∀ {s : Sched N W σ} {x}, R s (s.setBase x .markAsPending))
    (hon : ∀ {s : Sched N W σ} {x} w, R s (s.setBase x (.setPendedOn w))) {forever : Bool} :
    Leads R s (pend Q cfg s x (some w) forever) := by
  refine h.bind h.removeThreadFromReadyQ fun t =>
    h.after (hp (x := x)) (h.after ?_ (h.after (hon (x := x) w) (.bind_of fun q => h.done rfl rfl)))
  split
  · exact h.same rfl rfl
  · exact h.mark (.timeout _)

theorem pendCurrentThread [DecidableEq W] (hp : ∀ {s : Sched N W σ} {x}, R s (s.setBase x .markAsPending))
    (hon : ∀ {s : Sched N W σ} {x} w, R s (s.setBase x (.setPendedOn w))) {forever : Bool} :
    Leads R s (pendCurrentThread Q cfg s (some w) forever) :=
  h.bind (h.pend hp hon) fun _ => h.done rfl rfl

/-- From the state in which the priority is set already. -/
theorem threadPrioritySet {k : ℤ} : Leads R (s.setPrio x k) (threadPrioritySet Q cfg s x k) := by
  refine .ite (h.bind (.bind_of fun _ => .bind_of fun q => ?_) fun _ => h.reschedule) (h.done rfl rfl)
  exact h.after (h.same (t := { s.setPrio x k with queues := q }) rfl rfl) h.updateCache

/-- From the state in which the thread holds one lock less. -/
theorem kSchedUnlock : Leads R (s.setBase s.current fun b =>
    { b with schedLocked := (b.schedLocked + 1) % 256 }) (kSchedUnlock Q cfg s) :=
  h.bind h.updateCache fun _ => h.reschedule

/-- **An operation that makes only these marks keeps the relation.** -/
theorem exec [DecidableEq W] {op : SchedOp N W} (hop : op.Plain) : Leads R s (op.exec Q cfg s) := by
  cases op with
  | start thread => exact h.kThreadStart
  | suspend thread => exact h.kThreadSuspend
  | resume thread => exact h.kThreadResume
  | yield => exact h.kYield
  | sleep duration => exact h.kSleep
  | wakeup thread => exact h.kWakeup
  | abort thread => exact h.kThreadAbort
  | unpend thread => exact h.unpend
  | readyOne v => exact h.readyOneThread
  | readyAll v => exact h.unpendAll
  | expire thread => exact h.handleOneExpiredThreadTimeout
  | reschedule => exact h.reschedule
  | isrEnter => exact h.done rfl rfl
  | isrExit => exact h.done (by simp [leaveIsr]) (by simp [leaveIsr])
  | prioritySet | lock | unlock | pendCurrent | pendDummy => exact hop.elim

end Steady

end Zephyr
