import Zephyr.Kernel.Preempt
/-!
# A thread that may not be preempted keeps the processor

Every section that changes a queue leaves `_ready_q.cache` right (`Cached`), and what runs when it ends is what
`cache` says. So a cooperative thread, or one that has locked the scheduler, runs on until it gives the
processor up itself, where the flag that `update_cache` gets is the right one: `k_sched_unlock` and
`_thread_priority_set` pass 1 whatever they are called for, and two functions do not decide at all (`Careful`).
-/
namespace Zephyr

open Ring StableQueue Sched Function Option ThreadBase

variable {N : Nat} {W σ : Type} [DecidableEq W] {Q : Queues N W σ} {H : Q.Lawful} {cfg : Config N} {s t : Sched N W σ}
  {L : QueueId W → List (Fin N)} {x : Fin N} {w : W}

/-! ## Wait queues -/

theorem nextUp_eq (h : H.Rep s.prio s.queues L) : nextUp Q cfg s = some ((L .runq).head?.getD cfg.idle) := by
  rw [nextUp, H.best_spec h .runq]
  rfl

/-- A wait queue is changed and the run queue stays as it is. -/
theorem nextUp_wait {l' : List (Fin N)} (h : H.Rep s.prio s.queues L)
    (h' : H.Rep t.prio t.queues (update L (.waitq w) l')) :
    nextUp Q cfg t = nextUp Q cfg s := by
  rw [nextUp_eq h', nextUp_eq h, update_of_ne (by simp)]

theorem unpendThreadNoTimeout_touched (h : Flux H cfg x s L) (hx : x ∈ L (.waitq w))
    (hon : (s.base x).pendedOn = some w)
    (hq : (s.base x).queued = false) (hres : unpendThreadNoTimeout Q s x = some t) : Touched Q cfg x s t := by
  obtain ⟨q, hun, hout⟩ := unpendThreadNoTimeout_spec h hx hon hq
  obtain rfl : unpended s x q = t := Option.some.inj (hun.symm.trans hres)
  exact ⟨fun y hy => setBase_ne hy, rfl, rfl, rfl, nextUp_wait h.rep hout.rep⟩

variable {forever : Bool}

/-- The end of `pend`. -/
theorem enter_touched (h : Out H cfg x s L) (ht : (s.base x).timeout = none)
    (hres : waitAdd Q (if forever then s.setBase x .markAsPending else addThreadTimeout
      (s.setBase x .markAsPending) x (some w)) x w = some t) :
    Touched Q cfg x s t := by
  obtain ⟨t', l', hadd, hfit, -⟩ := enter_spec (w := w) h ht forever
  obtain rfl : t' = t := Option.some.inj (hadd.symm.trans hres)
  have hnext : nextUp Q cfg t' = nextUp Q cfg s := nextUp_wait h.rep hfit.rep
  obtain ⟨q, -, heq⟩ := bind_eq_some_iff.1 hres
  cases heq
  cases forever with
  | true => exact ⟨fun y hy => by simp [setBase_ne hy], rfl, rfl, rfl, hnext⟩
  | false => exact ⟨fun y hy => by simp [setBase_ne hy, addThreadTimeout], rfl, rfl, rfl, hnext⟩

/-! ## Threads that start, stop and change -/

section

omit [DecidableEq W]

theorem removeThreadFromReadyQ_undisturbed (hq : (s.base x).queued = true) (hx : x ≠ s.current)
    (hres : removeThreadFromReadyQ Q cfg s x = some t) :
    Undisturbed Q cfg s t := by
  obtain ⟨q, c, rfl, hcached, -⟩ := removeThreadFromReadyQ_eq_some hq hres
  exact ⟨hcached hx, rfl, (held_put (Ne.symm hx)).2⟩

theorem kThreadStart_dispatched (hs : Cached Q cfg s) (hres : kThreadStart Q cfg s x = some t) :
    Dispatched Q cfg s t := by
  unfold kThreadStart at hres
  split at hres
  · cases hres
    exact (Undisturbed.refl hs).dispatched
  · obtain ⟨u, hready, heq⟩ := bind_eq_some_iff.1 hres
    cases heq
    refine (readyThread_undisturbed hs ?_ (.setBase _) hready).reschedule
    simp_all [Sched.isThreadReady, ready_eq]

theorem kThreadResume_dispatched (hs : Cached Q cfg s) (hx : s.isThreadReady x = false)
    (hres : kThreadResume Q cfg s x = some t) :
    Dispatched Q cfg s t := by
  obtain ⟨u, hready, heq⟩ := bind_eq_some_iff.1 hres
  cases heq
  exact (readyThread_undisturbed hs hx (.setBase _) hready).reschedule

theorem kWakeup_dispatched (hs : Cached Q cfg s) (hres : kWakeup Q cfg s x = some t) : Dispatched Q cfg s t := by
  unfold kWakeup at hres
  split at hres
  · cases hres
    exact (Undisturbed.refl hs).dispatched
  · split at hres
    · cases hres
      exact (Undisturbed.refl hs).dispatched
    · obtain ⟨u, hready, heq⟩ := bind_eq_some_iff.1 hres
      cases heq
      refine (readyThread_undisturbed hs ?_ (.setBase _) hready).reschedule
      simp_all [Sched.isThreadReady, ThreadBase.isThreadReady]

theorem kYield_cached (hs : Cached Q cfg s) (hres : kYield Q cfg s = some t) : Cached Q cfg t := by
  obtain ⟨u, hu, heq⟩ := bind_eq_some_iff.1 hres
  cases heq
  split at hu
  · obtain ⟨q, c, rfl, hnext⟩ := requeue_eq_some hu
    exact .swap_of_next hnext
  · cases hu
    exact hs.swap

end

section

variable (h : SchedInv H cfg s L)

include h

theorem unpendThread_touched (hx : x ∈ L (.waitq w)) (hres : unpendThread Q s x = some t) : Touched Q cfg x s t := by
  obtain ⟨hi, -, hq⟩ := h.waiting hx
  obtain ⟨u, hu, heq⟩ := bind_eq_some_iff.1 hres
  cases heq
  exact (unpendThreadNoTimeout_touched (h.flux hi) hx ((h.fits x).pendedOn w hx) hq hu).trans (.setBase _)

theorem SchedInv.queued_of_ready (hx : x ≠ cfg.idle) (hr : s.isThreadReady x = true) : (s.base x).queued = true :=
  (h.fits x).queued.2 ((h.fits x).run.2 ⟨hx, hr⟩)

theorem abortWaiting_touched (hx : x ≠ cfg.idle) (hres : abortWaiting Q s x = some t) : Touched Q cfg x s t := by
  obtain ⟨u, hu, heq⟩ := bind_eq_some_iff.1 hres
  cases heq
  have hmid : Touched Q cfg x s u := by
    split at hu
    · obtain ⟨v, hv⟩ := (h.fits x).pending.1 ‹_›
      exact unpendThreadNoTimeout_touched (h.flux hx) hv ((h.fits x).pendedOn v hv) (h.waiting hv).2.2 hu
    · cases hu
      exact ⟨fun _ _ => rfl, rfl, rfl, rfl, rfl⟩
  split
  · exact hmid.trans (.setBase _)
  · exact hmid

theorem pendCurrentThread_cached (hn : s.nested = 0) (hi : s.current ≠ cfg.idle)
    (hres : pendCurrentThread Q cfg s (some w) forever = some t) : Cached Q cfg t := by
  have hx := h.current_ready hn hi
  obtain ⟨q, c, hrem, hout, -⟩ := removeThreadFromReadyQ_spec h hx
  obtain ⟨q', c', hshape, -, hnext⟩ := removeThreadFromReadyQ_eq_some ((h.fits _).queued.2 hx) hrem
  obtain ⟨u, hu, heq⟩ := bind_eq_some_iff.1 hres
  cases heq
  unfold pend at hu
  rw [hrem] at hu
  have htouch : Touched Q cfg s.current ((s.put q c).setBase s.current .markAsNotQueued) u :=
    enter_touched hout (by simpa [markAsNotQueued] using (h.ready_record hx).2) hu
  exact .swap_of_next (by rw [htouch.next, htouch.cache]; exact hnext rfl)

variable (hs : Cached Q cfg s)

include hs

/-- `x` is not ready any more. Where it is the thread that runs, the first of the queue follows it. -/
theorem SchedInv.left {r : Option (Sched N W σ)} {u : Sched N W σ} {f : ThreadBase W → ThreadBase W}
    (hx : x ≠ cfg.idle) (hu : (if s.isThreadReady x = true then removeThreadFromReadyQ Q cfg s x else r) = some u)
    (hr : r = some u → Touched Q cfg x s u) (hf : (u.setBase x f).isThreadReady x = false) :
    Undisturbed Q cfg s (u.setBase x f) ∨ x = s.current ∧ u.current = x ∧ nextUp Q cfg u = some u.cache := by
  by_cases hready : s.isThreadReady x = true
  · rw [if_pos hready] at hu
    have hq := h.queued_of_ready hx hready
    by_cases hc : x = s.current
    · obtain ⟨q, c, rfl, -, hnext⟩ := removeThreadFromReadyQ_eq_some hq hu
      exact .inr ⟨hc, hc.symm, hnext hc⟩
    · have hmid := removeThreadFromReadyQ_undisturbed hq hc hu
      have hcu : u.current ≠ x := by rw [hmid.current]; exact Ne.symm hc
      exact .inl (hmid.trans ((Touched.setBase f).undisturbed_of_ne hcu hmid.cached))
  · rw [if_neg hready] at hu
    exact .inl (((hr hu).trans (.setBase f)).undisturbed hs (by simpa using hready) hf)

theorem kThreadSuspend_dispatched (hx : x ≠ cfg.idle)
    (hres : kThreadSuspend Q cfg s x = some t) : Cached Q cfg t ∧ (x ≠ s.current → Dispatched Q cfg s t) := by
  obtain ⟨u, hu, heq⟩ := bind_eq_some_iff.1 hres
  cases heq
  have hsame : some s = some u → Touched Q cfg x s u := by
    rintro ⟨⟩
    exact ⟨fun _ _ => rfl, rfl, rfl, rfl, rfl⟩
  rcases h.left hs hx hu hsame (f := .markAsSuspended)
    (by simp [Sched.isThreadReady, ready_eq, markAsSuspended]) with hall | ⟨hc, hcu, hnext⟩
  · split
    · exact ⟨hall.swap.cached, fun _ => hall.swap⟩
    · exact ⟨hall.cached, fun _ => hall.dispatched⟩
  · rw [if_pos (by exact hcu.symm)]
    exact ⟨.swap_of_next hnext, fun hne => absurd hc hne⟩

theorem kThreadAbort_dispatched (hx : x ≠ cfg.idle)
    (hres : kThreadAbort Q cfg s x = some t) : Cached Q cfg t ∧ (x ≠ s.current → Dispatched Q cfg s t) := by
  obtain ⟨u, hu, heq⟩ := bind_eq_some_iff.1 hres
  cases heq
  have hdead : (u.setBase x .markAsDead).isThreadReady x = false := by
    simp [Sched.isThreadReady, ready_eq, markAsDead]
  rcases h.left hs hx hu (abortWaiting_touched h hx) hdead with hall | ⟨hc, hcu, hnext⟩
  · split
    · exact ⟨hall.cached, fun _ => hall.dispatched⟩
    · split
      · exact ⟨hall.swap.cached, fun _ => hall.swap⟩
      · exact ⟨hall.reschedule.cached, fun _ => hall.reschedule⟩
  · refine ⟨?_, fun hne => absurd hc hne⟩
    split
    · -- an interrupt ends the thread it came to
      exact ⟨.inl hnext, fun hheld => absurd hcu (hheld.ne hdead)⟩
    · rw [if_pos (by exact hcu)]
      exact .swap_of_next hnext

theorem threadPrioritySet_dispatched (hx : x ≠ cfg.idle) (hn : s.nested = 0) {k : ℤ}
    (hres : threadPrioritySet Q cfg s x k = some t) :
    Cached Q cfg t ∧ (s.isThreadReady x = false → Dispatched Q cfg s t) := by
  unfold threadPrioritySet at hres
  split at hres
  · obtain ⟨u, hu, heq⟩ := bind_eq_some_iff.1 hres
    cases heq
    obtain ⟨q, c, rfl, hnext⟩ := requeue_eq_some hu
    refine ⟨?_, fun hr => by simp_all⟩
    rw [Sched.reschedule, if_neg (by simpa using hn)]
    exact .swap_of_next hnext
  · cases hres
    have hr : s.isThreadReady x = false := by simpa using ‹¬ s.isThreadReady x = true›
    have hrun : x ∉ L .runq := fun hm => by simp [((h.fits x).run.1 hm).2] at hr
    have hcache : s.cache ≠ x := by
      rintro rfl
      rcases h.cache with hc | hc
      · exact hx hc
      · exact hrun hc
    -- a thread that is not ready is not held, whatever its priority
    have hheld : Held cfg (s.setPrio x k) ↔ Held cfg s := by
      by_cases hc : s.current = x
      · exact ⟨fun hh => absurd hc (hh.ne hr), fun hh => absurd hc (hh.ne hr)⟩
      · exact held_congr rfl rfl (by simp [Sched.isPreempt, Sched.setPrio, hc])
    have hall : Undisturbed Q cfg s (s.setPrio x k) :=
      ⟨hs.congr rfl rfl rfl hheld (by simp [isMetairq, Sched.setPrio, hcache]), rfl, hheld.2⟩
    exact ⟨hall.cached, fun _ => hall.dispatched⟩

/-! ## Giving the processor up -/

theorem kSleep_cached (hn : s.nested = 0) (hi : s.current ≠ cfg.idle) {duration : Nat}
    (hres : kSleep Q cfg s duration = some t) : Cached Q cfg t := by
  unfold kSleep at hres
  split at hres
  · exact kYield_cached hs hres
  · obtain ⟨u, hu, heq⟩ := bind_eq_some_iff.1 hres
    cases heq
    obtain ⟨q, c, rfl, -, hnext⟩ := removeThreadFromReadyQ_eq_some ((h.fits _).queued.2 (h.current_ready hn hi)) hu
    exact .swap_of_next (hnext rfl)

theorem pendDummy_dispatched (hx : x ≠ cfg.idle) (hd : (s.base x).dummy = true)
    (hp : (s.base x).pending = false) (ht : (s.base x).timeout = none)
    (hres : pend Q cfg s x (some w) forever = some t) :
    Dispatched Q cfg s t := by
  have hr : s.isThreadReady x = false := by
    simp [Sched.isThreadReady, ready_eq, hd]
  have hout := h.out hx hr hp
  unfold pend at hres
  rw [removeThreadFromReadyQ, if_neg (by simp [hout.unqueued])] at hres
  have hpend : (t.base x).pending = true := by
    have hadd : waitAdd Q (if forever then s.setBase x .markAsPending else addThreadTimeout
      (s.setBase x .markAsPending) x (some w)) x w = some t :=
      hres
    obtain ⟨q, -, heq⟩ := bind_eq_some_iff.1 hadd
    cases heq
    cases forever <;> simp [addThreadTimeout, setPendedOn, markAsPending, setTimeout]
  refine ((enter_touched hout ht hres).undisturbed hs hr ?_).dispatched
  simp [Sched.isThreadReady, ready_eq, hpend]

/-! ## Waking -/

theorem unpend_undisturbed (hx : x ∈ L (.waitq w))
    (hres : (unpendThread Q s x >>= fun s => readyThread Q cfg s x) = some t) : Undisturbed Q cfg s t := by
  obtain ⟨u, hu, hready⟩ := bind_eq_some_iff.1 hres
  exact readyThread_undisturbed hs (h.waiting hx).2.1 (unpendThread_touched h hx hu) hready

theorem readyOneThread_undisturbed (hres : readyOneThread Q cfg s w = some t) : Undisturbed Q cfg s t := by
  have hbest := H.best_spec h.rep (.waitq w)
  unfold readyOneThread unpendFirstThread at hres
  rw [hbest] at hres
  cases hhead : (L (.waitq w)).head? with
  | none =>
    obtain rfl : s = t := by simpa [hhead] using hres
    exact .refl hs
  | some y =>
    refine unpend_undisturbed h hs (List.mem_of_head? hhead) ?_
    simpa [hhead, bind_assoc] using hres

theorem handleOneExpiredThreadTimeout_undisturbed (hx : x ≠ cfg.idle)
    (ht : (s.base x).isThreadTimeoutActive = true) (hres : handleOneExpiredThreadTimeout Q cfg s x = some t) :
    Undisturbed Q cfg s t := by
  have hr : s.isThreadReady x = false := by simp [Sched.isThreadReady, ThreadBase.isThreadReady, ht]
  obtain ⟨u, hu, hready⟩ := bind_eq_some_iff.1 hres
  refine readyThread_undisturbed hs hr ((Touched.trans ?_ (.setBase _))) hready
  obtain ⟨wq, hwq⟩ := isSome_iff_exists.1 ht
  cases wq with
  | none =>
    obtain rfl : abortThreadTimeout s x = u := by simpa [hwq] using hu
    exact .setBase _
  | some v =>
    have hmem := (h.fits x).timeout v hwq
    refine (Touched.setBase (.setTimeout none)).trans
      (unpendThreadNoTimeout_touched ((h.flux hx).setBase (.setTimeout none)) hmem
      (by simpa [setTimeout] using (h.fits x).pendedOn v hmem)
      (by simpa [setTimeout] using (h.waiting hmem).2.2) ?_)
    simpa [hwq, abortThreadTimeout] using hu

end

theorem unpendAll_undisturbed {fuel : Nat} :
    ∀ {s : Sched N W σ} {L : QueueId W → List (Fin N)}, SchedInv H cfg s L → Cached Q cfg s →
    unpendAll Q cfg s w fuel = some t → Undisturbed Q cfg s t := by
  induction fuel with
  | zero => intro s L _ _ hres; cases hres
  | succ fuel ih =>
    intro s L h hs hres
    unfold unpendAll at hres
    rw [H.best_spec h.rep (.waitq w)] at hres
    cases hhead : (L (.waitq w)).head? with
    | none =>
      obtain rfl : s = t := by simpa [hhead] using hres
      exact .refl hs
    | some y =>
      have hy := List.mem_of_head? hhead
      obtain ⟨q, u, L', hun, hready, hinv, -⟩ := unpend_spec h hy
      have hfirst : Undisturbed Q cfg s u := unpend_undisturbed h hs hy (by rw [hun]; exact hready)
      simp only [hhead, hun, hready, bind_eq_bind, bind_some] at hres
      exact hfirst.trans (ih hinv hfirst.cached hres)

/-! ## All that acts on the decision -/

structure Dispatch (N : Nat) (W σ : Type) where
  sched : Sched N W σ
  locks : Fin N → Nat

inductive DispatchOp (N : Nat) (W : Type) where
  | sched (op : SchedOp N W)
  | unlockNoReschedule
  | timeSlice (ceiling : ℤ)
  | deadlineSet (thread : Fin N) (deadline : BitVec 32)
  | cycles (n : BitVec 32)

namespace DispatchOp

variable (Q : Queues N W σ) (cfg : Config N) (D : Option (Deadlines N σ))

def step (s : Sched N W σ) : DispatchOp N W → Option (Sched N W σ)
  | .sched op => op.exec Q cfg s
  | .unlockNoReschedule => some (schedUnlockNoReschedule s)
  | .timeSlice ceiling => handleTimeSlicing Q cfg s ceiling
  | .deadlineSet thread deadline => kThreadDeadlineSet Q D s thread deadline
  | .cycles n => D.map fun d => { s with queues := d.pass s.queues n }

/-- The locks that the threads hold after the operation. -/
def locksAfter (st : Dispatch N W σ) : DispatchOp N W → Fin N → Nat
  | .sched .lock => update st.locks st.sched.current (st.locks st.sched.current + 1)
  | .sched .unlock | .unlockNoReschedule => update st.locks st.sched.current (st.locks st.sched.current - 1)
  | _ => st.locks

def exec (st : Dispatch N W σ) (op : DispatchOp N W) : Option (Dispatch N W σ) :=
  (op.step Q cfg D st.sched).map fun s => ⟨s, op.locksAfter st⟩

end DispatchOp

/-- What the source asserts beyond `SchedOp.Legal`. `base.prio` is an `s8_t`; a thread that calls `k_sched_lock` is what
`cache` says, since the sections before have ended. -/
def SchedOp.Asserted (s : Sched N W σ) : SchedOp N W → Prop
  | .lock => (s.base s.current).schedLocked ≠ 1 ∧ s.cache = s.current
  | .prioritySet _ prio => -128 ≤ prio ∧ prio ≤ 127
  | _ => True

def DispatchOp.Legal (H : Q.Lawful) (cfg : Config N) (D : Option (Deadlines N σ)) (s : Sched N W σ) :
    DispatchOp N W → Prop
  | .sched op => op.Legal H cfg s ∧ op.Asserted s
  | .unlockNoReschedule => s.nested = 0 ∧ (s.base s.current).schedLocked ≠ 0
  | .timeSlice _ => s.nested ≠ 0
  | .deadlineSet _ _ | .cycles _ => D.isSome = true

/-- The thread that runs blocks, suspends itself, yields, exits or changes its own priority. -/
def DispatchOp.GivesUp (s : Sched N W σ) : DispatchOp N W → Prop
  | .sched .yield | .sched (.sleep _) | .sched (.pendCurrent _ _) => True
  | .sched (.suspend thread) | .sched (.abort thread) | .sched (.prioritySet thread _) => thread = s.current
  | _ => False

namespace Dispatch

/-- The thread is cooperative or holds the scheduler lock. -/
def Coop (st : Dispatch N W σ) (thread : Fin N) : Prop := st.sched.prio thread < 0 ∨ 0 < st.locks thread

/-- The thread that runs is such a thread, and is not the idle thread. -/
def Restricted (cfg : Config N) (st : Dispatch N W σ) : Prop :=
  st.sched.isThreadReady st.sched.current = true ∧ st.Coop st.sched.current ∧ st.sched.current ≠ cfg.idle

/-- A restricted thread that does not give the processor up is switched out at most for a metairq. -/
def NotSwitchedOut (cfg : Config N) (st : Dispatch N W σ) (op : DispatchOp N W) (st' : Dispatch N W σ) : Prop :=
  st.Restricted cfg → ¬ op.GivesUp st.sched → st'.Coop st.sched.current →
    st'.sched.current = st.sched.current ∨ isMetairq cfg st'.sched st'.sched.current = true

/-- The counters are right, and so is the range of the priorities. -/
def LocksOk (st : Dispatch N W σ) : Prop :=
  ∀ y, (st.sched.base y).schedLocked = (256 - st.locks y) % 256 ∧ st.locks y ≤ 255 ∧ -128 ≤ st.sched.prio y ∧
  st.sched.prio y ≤ 127

end Dispatch

/-! ## The counters -/

def SameLocks (s t : Sched N W σ) : Prop := (∀ y, (t.base y).schedLocked = (s.base y).schedLocked) ∧ t.prio = s.prio

variable {st : Dispatch N W σ} {D : Option (Deadlines N σ)} {op : DispatchOp N W}

section counters

omit [DecidableEq W]

theorem SameLocks.setBase {f : ThreadBase W → ThreadBase W} (hf : ∀ b, (f b).schedLocked = b.schedLocked) :
    SameLocks s (s.setBase x f) := by
  refine ⟨fun y => ?_, rfl⟩
  by_cases hy : y = x
  · rw [hy, setBase_self, hf]
  · rw [setBase_ne hy]

theorem sameLocks_steady : Steady (SameLocks (N := N) (W := W) (σ := σ)) where
  trans hst htu := ⟨fun y => (htu.1 y).trans (hst.1 y), htu.2.trans hst.2⟩
  same hb hp := ⟨fun y => by rw [hb], hp⟩
  mark hf := .setBase fun b => by cases hf <;> rfl

theorem handleTimeSlicing_sameLocks {ceiling : ℤ} : Leads SameLocks s (handleTimeSlicing Q cfg s ceiling) := by
  refine .bind_of fun b => .ite (.bind_of fun _ => .bind_of fun q => ?_) (sameLocks_steady.done rfl rfl)
  exact sameLocks_steady.after (sameLocks_steady.marked (t := { s with queues := q })
    (x := s.current) .queued rfl rfl) sameLocks_steady.updateCache

theorem kThreadDeadlineSet_sameLocks {d : BitVec 32} : Leads SameLocks s (kThreadDeadlineSet Q D s x d) :=
  .bind_of fun _ => .ite (.bind_of fun _ => .bind_of fun _ => sameLocks_steady.done rfl rfl)
  (sameLocks_steady.done rfl rfl)

namespace Dispatch

/-- `preempt` is at most 127 where the thread is neither cooperative nor holds the lock (kernel.h:436). -/
theorem LocksOk.isPreempt_eq_false (h : st.LocksOk) (y : Fin N) : st.sched.isPreempt y = false ↔ st.Coop y := by
  obtain ⟨hl, hmax, hlo, hhi⟩ := h y
  simp only [Sched.isPreempt, decide_eq_false_iff_not, hl, Coop]
  omega

theorem LocksOk.held_iff (h : st.LocksOk) : Held cfg st.sched ↔ st.Restricted cfg := by
  rw [Held, Restricted, h.isPreempt_eq_false]

theorem LocksOk.congr (h : st.LocksOk) (ht : SameLocks st.sched t) : LocksOk ⟨t, st.locks⟩ := fun y => by
  simpa only [ht.1, ht.2] using h y

theorem LocksOk.setBase (h : st.LocksOk) {f : ThreadBase W → ThreadBase W} {n : Nat} (hn : n ≤ 255)
    (hf : (f (st.sched.base x)).schedLocked = (256 - n) % 256) :
    LocksOk ⟨st.sched.setBase x f, update st.locks x n⟩ := by
  intro y
  by_cases hy : y = x
  · subst hy
    simpa [hf, hn] using (h y).2.2
  · simpa only [update_of_ne hy, setBase_ne hy, setBase_prio] using h y

/-- `sched_locked` counts down from 0 with each lock and up with each unlock. -/
theorem LocksOk.unlocked (h : st.LocksOk) (hl : (st.sched.base st.sched.current).schedLocked ≠ 0) :
    LocksOk ⟨schedUnlockNoReschedule st.sched, update st.locks st.sched.current (st.locks st.sched.current - 1)⟩ := by
  obtain ⟨hc, hmax, -⟩ := h st.sched.current
  exact h.setBase (by omega) (by simp only [hc] at hl ⊢; omega)

end Dispatch

end counters

/-- **Every operation keeps the counters right.** -/
theorem Dispatch.LocksOk.step (h : st.LocksOk) (hlegal : op.Legal H cfg D st.sched)
    (hres : op.step Q cfg D st.sched = some t) :
    LocksOk ⟨t, op.locksAfter st⟩ := by
  have hpend : ∀ {s : Sched N W σ} {x}, SameLocks s (s.setBase x .markAsPending) := fun {s x} => .setBase fun _ => rfl
  have hon : ∀ {s : Sched N W σ} {x} w, SameLocks s (s.setBase x (.setPendedOn w)) :=
    fun {s x} w => .setBase fun _ => rfl
  cases op with
  | sched op =>
    have hplain : op.Plain → SameLocks st.sched t := fun hp => sameLocks_steady.exec hp t hres
    cases op with
    | lock =>
      obtain ⟨hc, hmax, -⟩ := h st.sched.current
      cases hres
      have hl := hlegal.2.1
      exact h.setBase (by omega) (by simp only [hc] at hl ⊢; omega)
    | unlock => exact (h.unlocked hlegal.1.2).congr (sameLocks_steady.kSchedUnlock t hres)
    | prioritySet thread prio =>
      have hset : LocksOk ⟨st.sched.setPrio thread prio, st.locks⟩ := by
        intro y
        obtain ⟨hc, hmax, hrange⟩ := h y
        refine ⟨hc, hmax, ?_⟩
        by_cases hy : y = thread
        · have hrange' : -128 ≤ prio ∧ prio ≤ 127 := hlegal.2
          simpa [Sched.setPrio, hy] using hrange'
        · simpa [Sched.setPrio, hy] using hrange
      exact hset.congr (sameLocks_steady.threadPrioritySet t hres)
    | pendCurrent w forever => exact h.congr (sameLocks_steady.pendCurrentThread hpend hon t hres)
    | pendDummy thread w forever => exact h.congr (sameLocks_steady.pend hpend hon t hres)
    | _ => exact h.congr (hplain trivial)
  | unlockNoReschedule =>
    cases hres
    exact h.unlocked hlegal.2
  | timeSlice ceiling => exact h.congr (handleTimeSlicing_sameLocks t hres)
  | deadlineSet thread deadline => exact h.congr (kThreadDeadlineSet_sameLocks t hres)
  | cycles n =>
    obtain ⟨d, -, rfl⟩ := map_eq_some_iff.1 hres
    exact h.congr ⟨fun _ => rfl, rfl⟩

/-! ## What else keeps the threads in their places -/

/-- The queues are as they were when a deadline is set or time goes by, and a thread gets in front of whom it is
higher than. -/
structure Deadlines.Keeps (H : Q.Lawful) (d : Deadlines N σ) : Prop where
  set : ∀ {prio m L x k}, H.Rep prio m L → H.Rep prio (d.set m x k) L
  pass : ∀ {prio m L k}, H.Rep prio m L → H.Rep prio (d.pass m k) L
  first : ∀ {prio m m₁ m' L x}, H.Rep prio m L → x ∈ L .runq → Q.remove prio m .runq x = some m₁ →
    Q.add prio m₁ .runq x = some m' →
    Q.best m' .runq = some (some (((L .runq).erase x).head?.elim x fun y => if d.higher m prio x y then x else y))

theorem SchedInv.queues_congr {q : σ} (h : SchedInv H cfg s L)
    (hrep : H.Rep s.prio q L) : SchedInv H cfg { s with queues := q } L :=
  ⟨h.congr hrep rfl (fun _ _ => Iff.rfl) h.cache h.valid, h.current, rfl⟩

/-- `_priq_run_remove` and `_priq_run_add` of one thread. -/
theorem SchedInv.readd (h : SchedInv H cfg s L) (hx : x ∈ L .runq) :
    ∃ q1 q L', Q.remove s.prio s.queues .runq x = some q1 ∧
    Q.add s.prio q1 .runq x = some q ∧ SchedInv H cfg { s with queues := q } L' := by
  obtain ⟨q', c, l', hre, hinv⟩ := requeue_spec h hx (h.valid x ((h.fits x).run.1 hx).1)
  have hprio : (s.put q' c).setPrio x (s.prio x) = s.put q' c := by rw [Sched.setPrio, put_prio, update_eq_self]; rfl
  rw [update_eq_self] at hre
  rw [hprio] at hre hinv
  obtain ⟨q1, hrem, hre1⟩ := bind_eq_some_iff.1 hre
  obtain ⟨q, hadd, hup⟩ := bind_eq_some_iff.1 hre1
  obtain ⟨c', hc'⟩ := updateCache_eq_some hup
  obtain rfl : q' = q := congrArg Sched.queues hc'
  refine ⟨q1, q', _, hrem, hadd, hinv.congr hinv.rep rfl (fun _ _ => Iff.rfl) ?_ h.valid, hinv.current, rfl⟩
  -- the same threads are in it as before
  refine h.cache.imp_right fun hcache => (hinv.fits _).run.2 ?_
  exact (h.fits _).run.1 hcache

theorem handleTimeSlicing_total (h : SchedInv H cfg s L) (hq : (s.base s.current).queued = true) (ceiling : ℤ) :
    ∃ t L', handleTimeSlicing Q cfg s ceiling = some t ∧ SchedInv H cfg t L' := by
  have hslice : ∃ b, isThreadTimeSlicing Q s ceiling = some b := by
    unfold isThreadTimeSlicing
    rw [H.best_spec h.rep .runq]
    split
    · exact ⟨_, rfl⟩
    · cases (L .runq).head? <;> exact ⟨_, rfl⟩
  obtain ⟨b, hb⟩ := hslice
  unfold handleTimeSlicing
  rw [hb]
  cases b with
  | false => exact ⟨s, L, rfl, h⟩
  | true =>
    obtain ⟨q1, q, L', hrem, hadd, hinv⟩ := h.readd ((h.fits _).queued.1 hq)
    have hmark : { s with queues := q }.setBase s.current .markAsQueued = { s with queues := q } := by
      have hsame : markAsQueued (s.base s.current) = s.base s.current := by rw [markAsQueued, ← hq]
      simp only [Sched.setBase, hsame, update_eq_self]
    obtain ⟨c, hup, hc⟩ := updateCache_spec cfg hinv.rep false fun _ hi hr => (hinv.fits _).run.2 ⟨hi, hr⟩
    refine ⟨s.put q c, L', ?_, hinv.congr hinv.rep rfl (fun _ _ => Iff.rfl) hc hinv.valid, hinv.current, rfl⟩
    show moveThreadToEndOfPrioQ Q cfg s s.current = _
    unfold moveThreadToEndOfPrioQ
    rw [hrem]
    show (Q.add s.prio q1 .runq s.current).bind _ = _
    rw [hadd]
    show updateCache Q cfg ({ s with queues := q }.setBase s.current .markAsQueued) false = _
    rw [hmark]
    exact hup

theorem kThreadDeadlineSet_total (h : SchedInv H cfg s L) {d : Deadlines N σ} (hd : d.Keeps H) (x : Fin N)
    (k : BitVec 32) :
    ∃ t L', kThreadDeadlineSet Q (some d) s x k = some t ∧ SchedInv H cfg t L' := by
  have hset := h.queues_congr (hd.set (x := x) (k := k) h.rep)
  unfold kThreadDeadlineSet
  by_cases hq : (s.base x).queued = true
  · obtain ⟨q1, q, L', hrem, hadd, hinv⟩ := hset.readd ((h.fits x).queued.1 hq)
    refine ⟨_, L', ?_, hinv⟩
    simp only [bind_eq_bind, bind_some, hq, if_true, hrem, hadd]
  · exact ⟨_, L, by simp [hq], hset⟩

/-- The first of the run queue stays the first, where the deadline leaves it there. -/
theorem kThreadDeadlineSet_next (h : SchedInv H cfg s L) {d : Deadlines N σ} (hd : d.Keeps H) {k : BitVec 32}
    (hfirst : (s.base x).queued = true → ∀ y, (Q.remove s.prio s.queues .runq x).bind (Q.best · .runq) = some (some y) →
      (d.higher (d.set s.queues x k) s.prio x y = true ↔ nextUp Q cfg s = some x))
    (hstep : kThreadDeadlineSet Q (some d) s x k = some t) : nextUp Q cfg t = nextUp Q cfg s := by
  have hset := hd.set (x := x) (k := k) h.rep
  have hnext : nextUp Q cfg s = _ := nextUp_eq h.rep
  rw [kThreadDeadlineSet, bind_eq_bind, bind_some] at hstep
  dsimp only at hstep
  split at hstep
  · rename_i hq
    have hx := (h.fits x).queued.1 hq
    obtain ⟨q₁, hrem, hrep₁, -⟩ := H.remove_spec h.rep hx
    have hbest : Q.best q₁ .runq = some ((L .runq).erase x).head? := by rw [H.best_spec hrep₁, update_self]
    have hfirst' := hfirst hq
    rw [hrem, bind_some, hbest] at hfirst'
    obtain ⟨m₁, hrem', hstep⟩ := bind_eq_some_iff.1 hstep
    obtain ⟨m', hadd, heq⟩ := bind_eq_some_iff.1 hstep
    obtain rfl := Option.some.inj heq
    rw [hnext, nextUp, hd.first hset hx hrem' hadd]
    rw [hnext] at hfirst'
    cases hL : L .runq with
    | nil => simp [hL] at hx
    | cons z rest =>
      rw [hL] at hfirst'
      by_cases hz : z = x
      · subst hz
        cases rest with
        | nil => simp
        | cons y rest => simp [(hfirst' y (by simp)).2 rfl]
      · have herase : (z :: rest).erase x = z :: rest.erase x := List.erase_cons_tail (by simpa using hz)
        have hno := mt (hfirst' z (by rw [herase]; rfl)).1 (by simpa using hz)
        simp [herase, hno]
  · obtain rfl := Option.some.inj hstep
    rw [hnext, nextUp_eq (s := { s with queues := _ }) hset]

/-! ## Each operation -/

/-- No thread that is ready is resumed. A thread that stays restricted calls `k_sched_unlock` only where it is the
first of the run queue, or a metairq is, and `k_thread_priority_set` for no other thread that is ready. Where the
decision is not made again, it does not have to be. -/
def DispatchOp.Careful (Q : Queues N W σ) (cfg : Config N) (D : Option (Deadlines N σ))
    (st : Dispatch N W σ) : DispatchOp N W → Prop
  | .sched (.resume thread) => st.sched.isThreadReady thread = false
  | .sched (.prioritySet thread _) => st.Restricted cfg → thread = st.sched.current ∨
      st.sched.isThreadReady thread = false
  | .sched .unlock => st.sched.prio st.sched.current < 0 ∨ 1 < st.locks st.sched.current →
      ∀ y, nextUp Q cfg st.sched = some y → y = st.sched.current ∨ isMetairq cfg st.sched y = true
  | .unlockNoReschedule => (st.sched.prio st.sched.current < 0 ∨ 1 < st.locks st.sched.current) ∨
      nextUp Q cfg st.sched = some st.sched.cache
  -- an interrupt that ends the thread it came to does not move it in the queue after that
  | .timeSlice _ => (st.sched.base st.sched.current).queued = true
  -- with the new deadline the thread is first in the run queue if and only if it was
  | .deadlineSet thread deadline => (st.sched.base thread).queued = true → ∀ d ∈ D, ∀ y,
      (Q.remove st.sched.prio st.sched.queues .runq thread).bind (Q.best · .runq) = some (some y) →
      (d.higher (d.set st.sched.queues thread deadline) st.sched.prio thread y = true ↔
        nextUp Q cfg st.sched = some thread)
  | _ => True

namespace Dispatch

section

omit [DecidableEq W]

theorem LocksOk.notSwitchedOut (h : st.LocksOk) (op : DispatchOp N W) (hd : Dispatched Q cfg st.sched t) :
    NotSwitchedOut cfg st op ⟨t, op.locksAfter st⟩ :=
  fun hr _ _ => hd.stays (h.held_iff.2 hr)

/-- `_sched_lock` where nothing is left to be switched to. -/
theorem LocksOk.lock_cached (h' : LocksOk ⟨schedLock st.sched, DispatchOp.locksAfter st (.sched .lock)⟩)
    (hs : Cached Q cfg st.sched) (hc : st.sched.cache = st.sched.current) : Cached Q cfg (schedLock st.sched) := by
  refine ⟨?_, fun _ => .inl hc⟩
  rcases hs.next with hn | ⟨hheld, -⟩
  · exact .inl hn
  · obtain ⟨hr, -, hi⟩ := hheld
    refine .inr ⟨h'.held_iff.2 ⟨?_, .inr (by simp [DispatchOp.locksAfter, schedLock]), hi⟩, hc⟩
    simpa [schedLock, Sched.isThreadReady, ready_eq, isThreadTimeoutActive] using hr

theorem LocksOk.unlockNoReschedule_cached (h : st.LocksOk) (hl : (st.sched.base st.sched.current).schedLocked ≠ 0)
    (hs : Cached Q cfg st.sched) (hcare : DispatchOp.Careful Q cfg D st .unlockNoReschedule) :
    Cached Q cfg (schedUnlockNoReschedule st.sched) := by
  have h' : Held cfg (schedUnlockNoReschedule st.sched) ↔ _ := (h.unlocked hl).held_iff
  have hready : (schedUnlockNoReschedule st.sched).isThreadReady st.sched.current =
    st.sched.isThreadReady st.sched.current := by
    simp [schedUnlockNoReschedule, Sched.isThreadReady, ready_eq, isThreadTimeoutActive]
  have hback : Held cfg (schedUnlockNoReschedule st.sched) → Held cfg st.sched := by
    rw [h', h.held_iff]
    rintro ⟨hr, hcoop, hi⟩
    refine ⟨hready ▸ hr, hcoop.imp id fun hpos => ?_, hi⟩
    have : 0 < st.locks st.sched.current - 1 := by simpa [schedUnlockNoReschedule] using hpos
    omega
  refine ⟨?_, fun hheld => hs.held (hback hheld)⟩
  rcases hs.next with hn | ⟨hheld, hc⟩
  · exact .inl hn
  · rcases hcare with hcoop | hn
    · refine .inr ⟨h'.2 ⟨hready.trans hheld.1, hcoop.imp id fun hpos => ?_, hheld.2.2⟩, hc⟩
      simp only [schedUnlockNoReschedule, setBase_current, update_self]
      omega
    · exact .inl hn

theorem handleTimeSlicing_cached (hs : Cached Q cfg s) {ceiling : ℤ}
    (hres : handleTimeSlicing Q cfg s ceiling = some t) :
    Cached Q cfg t ∧ t.current = s.current := by
  obtain ⟨b, -, hmove⟩ := bind_eq_some_iff.1 hres
  cases b with
  | false =>
    cases hmove
    exact ⟨hs, rfl⟩
  | true =>
    obtain ⟨q1, -, h1⟩ := bind_eq_some_iff.1 (show moveThreadToEndOfPrioQ Q cfg s s.current = some t from hmove)
    obtain ⟨q, -, hup⟩ := bind_eq_some_iff.1 h1
    obtain ⟨c, hc⟩ := updateCache_eq_some hup
    exact ⟨updateCache_false_cached hup, by rw [hc]; rfl⟩

theorem kThreadDeadlineSet_shape {k : BitVec 32} (hres : kThreadDeadlineSet Q D s x k = some t) : ∃ q,
    t = { s with queues := q } := by
  obtain ⟨d, -, hd⟩ := bind_eq_some_iff.1 hres
  dsimp only at hd
  split at hd
  · obtain ⟨q1, -, h1⟩ := bind_eq_some_iff.1 hd
    obtain ⟨q, -, heq⟩ := bind_eq_some_iff.1 h1
    exact ⟨q, (Option.some.inj heq).symm⟩
  · exact ⟨_, (Option.some.inj hd).symm⟩

end

/-- **One thread operation**: the decision stands, and nobody is switched out against the rules. -/
theorem LocksOk.sched_step {op : SchedOp N W} (hl : st.LocksOk) (h : SchedInv H cfg st.sched L)
    (hs : Cached Q cfg st.sched)
    (hlegal : DispatchOp.Legal H cfg D st.sched (.sched op)) (hcare : DispatchOp.Careful Q cfg D st (.sched op))
    (hres : op.exec Q cfg st.sched = some t) :
    Cached Q cfg t ∧ NotSwitchedOut cfg st (.sched op) ⟨t, DispatchOp.locksAfter st (.sched op)⟩ := by
  have hof : Dispatched Q cfg st.sched t → Cached Q cfg t ∧
    NotSwitchedOut cfg st (.sched op) ⟨t, DispatchOp.locksAfter st (.sched op)⟩ :=
    fun hd => ⟨hd.cached, hl.notSwitchedOut _ hd⟩
  cases op with
  | start thread => exact hof (kThreadStart_dispatched hs hres)
  | suspend thread =>
    obtain ⟨hc, hd⟩ := kThreadSuspend_dispatched h hs hlegal.1.1 hres
    exact ⟨hc, fun hr hg => hl.notSwitchedOut (.sched (.suspend thread)) (hd hg) hr hg⟩
  | resume thread => exact hof (kThreadResume_dispatched hs hcare hres)
  | prioritySet thread prio =>
    obtain ⟨hc, hd⟩ := threadPrioritySet_dispatched h hs hlegal.1.1 hlegal.1.2.1 hres
    refine ⟨hc, fun hr hg => ?_⟩
    have hnot := (hcare hr).resolve_left hg
    exact hl.notSwitchedOut (.sched (.prioritySet thread prio)) (hd hnot) hr hg
  | yield => exact ⟨kYield_cached hs hres, fun _ hg => absurd trivial hg⟩
  | sleep duration => exact ⟨kSleep_cached h hs hlegal.1.1 hlegal.1.2 hres, fun _ hg => absurd trivial hg⟩
  | wakeup thread => exact hof (kWakeup_dispatched hs hres)
  | abort thread =>
    obtain ⟨hc, hd⟩ := kThreadAbort_dispatched h hs hlegal.1 hres
    exact ⟨hc, fun hr hg => hl.notSwitchedOut (.sched (.abort thread)) (hd hg) hr hg⟩
  | lock =>
    cases hres
    exact ⟨LocksOk.lock_cached (hl.step hlegal rfl) hs hlegal.2.2, fun _ _ _ => .inl rfl⟩
  | unlock =>
    obtain ⟨u, hup, heq⟩ := bind_eq_some_iff.1 hres
    cases heq
    have hnext := updateCache_true_next hup
    obtain ⟨c, rfl⟩ := updateCache_eq_some hup
    rw [Sched.reschedule, if_neg (by simpa using hlegal.1.1)]
    refine ⟨.swap_of_next hnext, fun _ _ hcoop => hcare (hcoop.imp id fun hpos => ?_) c hnext⟩
    have : 0 < st.locks st.sched.current - 1 := by simpa [DispatchOp.locksAfter] using hpos
    omega
  | pendCurrent w forever =>
    exact ⟨pendCurrentThread_cached h hlegal.1.1 hlegal.1.2 hres, fun _ hg => absurd trivial hg⟩
  | pendDummy thread w forever =>
    exact hof (pendDummy_dispatched h hs hlegal.1.1 hlegal.1.2.1 hlegal.1.2.2.1 hlegal.1.2.2.2 hres)
  | unpend thread =>
    obtain ⟨w, hw⟩ := (h.fits thread).pending.1 hlegal.1
    exact hof (unpend_undisturbed h hs hw hres).dispatched
  | readyOne w => exact hof (readyOneThread_undisturbed h hs hres).dispatched
  | readyAll w => exact hof (unpendAll_undisturbed h hs hres).dispatched
  | expire thread => exact hof (handleOneExpiredThreadTimeout_undisturbed h hs hlegal.1.1 hlegal.1.2.2 hres).dispatched
  | reschedule =>
    cases hres
    exact hof (Undisturbed.refl hs).reschedule
  | isrEnter =>
    cases hres
    exact hof ⟨⟨hs.next, hs.held⟩, fun _ => .inl rfl⟩
  | isrExit =>
    cases hres
    have hmid : Undisturbed Q cfg st.sched { st.sched with nested := st.sched.nested - 1 } :=
      ⟨⟨hs.next, hs.held⟩, rfl, id⟩
    exact hof hmid.reschedule

end Dispatch

/-! ## Runs -/

structure DispatchInv (H : Q.Lawful) (cfg : Config N) (st : Dispatch N W σ) : Prop where
  sched : ∃ L, SchedInv H cfg st.sched L
  cached : Cached Q cfg st.sched
  locks : st.LocksOk

/-- The state before any thread is started. -/
structure DispatchBooted (H : Q.Lawful) (cfg : Config N) (st : Dispatch N W σ) : Prop where
  sched : Booted H cfg st.sched
  locks : ∀ y, (st.sched.base y).schedLocked = 0 ∧ st.locks y = 0
  prio : ∀ y, -128 ≤ st.sched.prio y ∧ st.sched.prio y ≤ 127

theorem DispatchBooted.inv (h : DispatchBooted H cfg st) : DispatchInv H cfg st where
  sched := ⟨_, h.sched.inv⟩
  cached := by
    refine .of_next ?_ (h.sched.cache.trans h.sched.current.symm)
    rw [nextUp_eq h.sched.rep, h.sched.cache]
    rfl
  locks y := by
    obtain ⟨hc, hl⟩ := h.locks y
    exact ⟨by rw [hc, hl], by omega, h.prio y⟩

/-- What keeps a tree of waiting threads in order, where the queues are trees. -/
def DispatchOp.RekeysFine (H : Q.Lawful) (cfg : Config N) (s : Sched N W σ) (op : DispatchOp N W) : Prop :=
  ∀ L x k w, SchedInv H cfg s L → op = .sched (.prioritySet x k) → x ∈ L (.waitq w) →
  H.RekeyOk s.prio (L (.waitq w)) x k

/-- **One step** of a careful run. -/
theorem DispatchInv.exec (hD : ∀ d ∈ D, d.Keeps H) (h : DispatchInv H cfg st) (hlegal : op.Legal H cfg D st.sched)
    (hcare : op.Careful Q cfg D st) (hrekey : op.RekeysFine H cfg st.sched) :
    ∃ st', op.exec Q cfg D st = some st' ∧ DispatchInv H cfg st' ∧ st.NotSwitchedOut cfg op st' := by
  obtain ⟨L, hL⟩ := h.sched
  have hgo : ∀ t, op.step Q cfg D st.sched = some t → (∃ L', SchedInv H cfg t L') → Cached Q cfg t →
      st.NotSwitchedOut cfg op ⟨t, op.locksAfter st⟩ → ∃ st', op.exec Q cfg D st = some st' ∧
      DispatchInv H cfg st' ∧ st.NotSwitchedOut cfg op st' :=
    fun t hstep hinv hc hnot => ⟨_, by rw [DispatchOp.exec, hstep]; rfl, ⟨hinv, hc, h.locks.step hlegal hstep⟩, hnot⟩
  cases op with
  | sched op =>
    have hfine : op.Fine H st.sched L := by
      cases op with
      | resume thread => exact hcare
      | prioritySet thread prio => exact fun w hw => hrekey L thread prio w hL rfl hw
      | _ => trivial
    obtain ⟨t, L', hexec, hinv, -⟩ := exec_keeps hL hlegal.1 hfine
    obtain ⟨hc, hnot⟩ := h.locks.sched_step hL h.cached hlegal hcare hexec
    exact hgo t hexec ⟨L', hinv⟩ hc hnot
  | unlockNoReschedule =>
    exact hgo _ rfl ⟨L, hL.stay rfl fun _ => ⟨rfl, rfl, rfl, rfl⟩⟩
      (h.locks.unlockNoReschedule_cached hlegal.2 h.cached hcare)
      fun _ _ _ => .inl rfl
  | timeSlice ceiling =>
    obtain ⟨t, L', hstep, hinv⟩ := handleTimeSlicing_total hL hcare ceiling
    obtain ⟨hc, hcur⟩ := Dispatch.handleTimeSlicing_cached h.cached hstep
    exact hgo t hstep ⟨L', hinv⟩ hc fun _ _ _ => .inl hcur
  | deadlineSet thread deadline =>
    obtain ⟨d, rfl⟩ := isSome_iff_exists.1 hlegal
    obtain ⟨t, L', hstep, hinv⟩ := kThreadDeadlineSet_total hL (hD d rfl) thread deadline
    have hnext := kThreadDeadlineSet_next hL (hD d rfl) (fun hq => hcare hq d rfl) hstep
    obtain ⟨q, rfl⟩ := Dispatch.kThreadDeadlineSet_shape hstep
    exact hgo _ hstep ⟨L', hinv⟩ (h.cached.congr hnext rfl rfl Iff.rfl rfl) fun _ _ _ => .inl rfl
  | cycles n =>
    obtain ⟨d, rfl⟩ := isSome_iff_exists.1 hlegal
    have hrep := (hD d rfl).pass (k := n) hL.rep
    refine hgo _ rfl ⟨L, hL.queues_congr hrep⟩ (h.cached.congr ?_ rfl rfl Iff.rfl rfl) fun _ _ _ => .inl rfl
    rw [nextUp_eq (s := { st.sched with queues := d.pass st.sched.queues n }) hrep, nextUp_eq hL.rep]

abbrev dispatchRun (Q : Queues N W σ) (cfg : Config N) (D : Option (Deadlines N σ)) :
    Dispatch N W σ → List (DispatchOp N W) → Option (Dispatch N W σ) :=
  Runs.run (DispatchOp.exec Q cfg D)

abbrev DispatchAlong (Q : Queues N W σ) (cfg : Config N) (D : Option (Deadlines N σ))
    (ok : Dispatch N W σ → DispatchOp N W → Prop) :
    Dispatch N W σ → List (DispatchOp N W) → Prop :=
  Runs.Along (DispatchOp.exec Q cfg D) ok

/-- In every run from boot whose steps are legal and meet `ok`: where the thread that runs is not restricted,
`cache` is the best thread of the run queue; and no further step switches a restricted thread out that does not
give the processor up. -/
def KeepsProcessor (H : Q.Lawful) (cfg : Config N) (D : Option (Deadlines N σ))
    (ok : Dispatch N W σ → DispatchOp N W → Prop) : Prop :=
  ∀ st0, DispatchBooted H cfg st0 → ∀ ops, DispatchAlong Q cfg D (fun st op => op.Legal H cfg D st.sched ∧
    ok st op) st0 ops →
    ∃ st, dispatchRun Q cfg D st0 ops = some st ∧ (¬ st.Restricted cfg → nextUp Q cfg st.sched = some st.sched.cache) ∧
      ∀ op, op.Legal H cfg D st.sched → ok st op → ∃ st', op.exec Q cfg D st = some st' ∧ st.NotSwitchedOut cfg op st'

theorem keepsProcessor_of {ok : Dispatch N W σ → DispatchOp N W → Prop} (hD : ∀ d ∈ D, d.Keeps H)
    (hok : ∀ st op, ok st op → op.Careful Q cfg D st ∧ op.RekeysFine H cfg st.sched) : KeepsProcessor H cfg D ok := by
  intro st0 hboot ops hall
  have hstep : ∀ st op, DispatchInv H cfg st → op.Legal H cfg D st.sched ∧ ok st op →
      ∃ st', op.exec Q cfg D st = some st' ∧ DispatchInv H cfg st' := by
    intro st op hinv hop
    obtain ⟨hcare, hrekey⟩ := hok st op hop.2
    obtain ⟨st', hexec, hinv', -⟩ := hinv.exec hD hop.1 hcare hrekey
    exact ⟨st', hexec, hinv'⟩
  obtain ⟨st, hrun, hinv⟩ := Runs.run_total hstep hboot.inv hall
  refine ⟨st, hrun, fun hr => hinv.cached.best fun hheld => hr (hinv.locks.held_iff.1 hheld), fun op hlegal hop => ?_⟩
  obtain ⟨hcare, hrekey⟩ := hok st op hop
  obtain ⟨st', hexec, -, hnot⟩ := hinv.exec hD hlegal hcare hrekey
  exact ⟨st', hexec, hnot⟩

theorem deadlines_keeps : (deadlines N W).Keeps (deadlineLawful N W) where
  set h := h
  pass h := h
  first {prio m m₁ m' L x} h hx hrem hadd := by
    cases hrem
    have hrep : DumbRep (priqDumbRemove m.links x) _ := priqDumbRemove_spec h hx
    have hout : ∀ j, x ∉ update L .runq ((L .runq).erase x) j := by
      intro j
      cases j with
      | runq => simp [(h.nodup .runq).mem_erase_iff]
      | waitq w => rw [update_of_ne (by simp)]; exact h.disj' (by simp) hx
    obtain ⟨links, hadd', hrep'⟩ := priqDumbAdd_spec (deadlineKey m prio) (i := QueueId.runq) hrep hout
    obtain ⟨links', hlinks, rfl⟩ := map_eq_some_iff.1 hadd
    obtain rfl : links = links' := Option.some.inj (hadd'.symm.trans hlinks)
    show priqDumbBest links (.head .runq) = _
    rw [priqDumbBest_spec hrep', update_self, update_self]
    cases (L .runq).erase x with
    | nil => rfl
    | cons y rest =>
      rw [enq_cons]
      simp only [deadlineKey_lt, List.head?_cons, Option.elim_some]
      split
      · rename_i hlt
        exact congrArg (some ∘ some) (if_pos hlt).symm
      · rename_i hlt
        exact congrArg (some ∘ some) (if_neg hlt).symm

/-- `KeepsPlaces` for the operation that can break a place. -/
def DispatchOp.KeepsPlaces (s : Sched N W σ) : DispatchOp N W → Prop
  | .sched op => Zephyr.KeepsPlaces s op
  | _ => True

/-- **A thread that may not be preempted keeps the processor** (sched.c:112-253, 356-429, 749-798), under each choice of
queues, in every careful run; and for trees, in which a pending thread keeps its place. -/
theorem restricted_keepsProcessor (N : Nat) (W : Type) [DecidableEq W] (hN : N ≤ 2 ^ 32) (highest : ℤ)
    (cfg : Config N) :
    KeepsProcessor (dumbLawful N W) cfg none (fun st op => op.Careful (dumbQueues N W) cfg none st) ∧
      KeepsProcessor (deadlineLawful N W) cfg (some (deadlines N W))
        (fun st op => op.Careful (deadlineQueues N W) cfg (some (deadlines N W)) st) ∧
      KeepsProcessor (multiqLawful N W highest) cfg none
      (fun st op => op.Careful (multiqQueues N W highest) cfg none st) ∧
      KeepsProcessor (scalableLawful W hN) cfg none
        (fun st op => op.Careful (scalableQueues N W) cfg none st ∧ op.KeepsPlaces st.sched) := by
  refine ⟨?_, ?_, ?_, ?_⟩
  · exact keepsProcessor_of (by simp) fun st op hop => ⟨hop, fun _ _ _ _ _ _ _ => trivial⟩
  · refine keepsProcessor_of ?_ fun st op hop => ⟨hop, fun _ _ _ _ _ _ _ => trivial⟩
    rintro d ⟨⟩
    exact deadlines_keeps
  · exact keepsProcessor_of (by simp) fun st op hop => ⟨hop, fun _ _ _ _ _ _ _ => trivial⟩
  · refine keepsProcessor_of (by simp) fun st op hop => ⟨hop.1, ?_⟩
    rintro L x k w hL rfl hw
    exact Zephyr.KeepsPlaces.keepsPlace hL hop.2 hw

section decidable

variable (cfg : Config N) (D : Option (Deadlines N σ))

instance Dispatch.decidableRestricted (st : Dispatch N W σ) : Decidable (st.Restricted cfg) :=
  inferInstanceAs (Decidable (_ ∧ (_ < _ ∨ _ < _) ∧ _))

instance SchedOp.decidableAsserted (s : Sched N W σ) (op : SchedOp N W) : Decidable (op.Asserted s) := by
  induction op using SchedOp.casesOn <;> dsimp only [SchedOp.Asserted] <;> infer_instance

instance DispatchOp.decidableLegal (H : Q.Lawful) [∀ k, Decidable (H.Valid k)] (s : Sched N W σ) (op : DispatchOp N W) :
    Decidable (op.Legal H cfg D s) := by
  cases op <;> dsimp only [DispatchOp.Legal] <;> infer_instance

instance DispatchOp.decidableCareful (st : Dispatch N W σ) (op : DispatchOp N W) :
    Decidable (op.Careful Q cfg D st) := by
  rcases op with ⟨_ | _⟩ | _ <;> dsimp only [DispatchOp.Careful] <;> infer_instance

end decidable

def bootDispatch (prio : Fin 4 → ℤ) : Dispatch 4 Unit (Links (QNode (QueueId Unit) 4)) := ⟨bootSched 4 prio, fun _ => 0⟩

theorem bootDispatch_booted : DispatchBooted (dumbLawful 4 Unit) (bootConfig 4) (bootDispatch mixedPrio) where
  sched := bootSched_booted 4 _
  locks _ := ⟨rfl, rfl⟩
  prio := by decide

/-- A thread of low priority locks the scheduler twice, and one of high priority is started. -/
def lockedTwice : List (DispatchOp 4 Unit) := [.sched (.start 3), .sched .lock, .sched .lock, .sched (.start 1)]

theorem restricted_keepsProcessor_lockedTwice :
    ∃ st, dispatchRun (dumbQueues 4 Unit) (bootConfig 4) none (bootDispatch mixedPrio)
        (.sched (.start 2) :: .sched (.sleep 5) :: lockedTwice) = some st ∧ st.Restricted (bootConfig 4) ∧
      ∃ st', DispatchOp.exec (dumbQueues 4 Unit) (bootConfig 4) none st (.sched (.wakeup 2)) = some st' ∧
        st.sched.isThreadReady 2 = false ∧ st'.sched.isThreadReady 2 = true ∧
        st.NotSwitchedOut (bootConfig 4) (.sched (.wakeup 2)) st' := by
  obtain ⟨st, hrun, -, hstep⟩ := (restricted_keepsProcessor 4 Unit (by decide) (-16)
    (bootConfig 4)).1 _ bootDispatch_booted
    (.sched (.start 2) :: .sched (.sleep 5) :: lockedTwice) (by decide +kernel)
  have hother : (2 : Fin 4) ≠ 0 := by decide
  obtain ⟨st', hexec, hnot⟩ := hstep (.sched (.wakeup 2)) ⟨hother, trivial⟩ trivial
  obtain ⟨hres, hasleep, hready⟩ := Runs.at_end (R := fun st => st.Restricted (bootConfig 4) ∧
    st.sched.isThreadReady 2 = false ∧
    (DispatchOp.exec (dumbQueues 4 Unit) (bootConfig 4) none st (.sched (.wakeup 2))).any fun st' =>
    st'.sched.isThreadReady 2)
    (Runs.exists_end (by decide +kernel) fun _ _ h => h) hrun
  rw [hexec, Option.any_some] at hready
  exact ⟨st, hrun, hres, st', hexec, hasleep, hready, hnot⟩

/-- **One of two locks is released, and the thread is preempted** (sched.c:412-421). `k_sched_unlock` calls
`update_cache(1)` whether or not the lock is still held: the thread of high priority runs, though the other one has
called `k_sched_lock` once more than `k_sched_unlock`. -/
theorem nested_unlock_preempts :
    DispatchAlong (dumbQueues 4 Unit) (bootConfig 4) none
    (fun st op => op.Legal (dumbLawful 4 Unit) (bootConfig 4) none st.sched)
        (bootDispatch mixedPrio) (lockedTwice ++ [.sched .unlock]) ∧
      ∃ st st', dispatchRun (dumbQueues 4 Unit) (bootConfig 4) none (bootDispatch mixedPrio) lockedTwice = some st ∧
        DispatchOp.exec (dumbQueues 4 Unit) (bootConfig 4) none st (.sched .unlock) = some st' ∧
        ¬ st.NotSwitchedOut (bootConfig 4) (.sched .unlock) st' := by
  refine ⟨by decide +kernel, ?_⟩
  have hend : (dispatchRun (dumbQueues 4 Unit) (bootConfig 4) none (bootDispatch mixedPrio) lockedTwice).bind (fun st =>
      (DispatchOp.exec (dumbQueues 4 Unit) (bootConfig 4) none st (.sched .unlock)).map fun st' =>
        (decide (st.Restricted (bootConfig 4)), st.sched.current, st'.locks 3, st'.sched.current,
          isMetairq (bootConfig 4) st'.sched 1)) =
      some (true, 3, 1, 1, false) := by
    decide +kernel
  obtain ⟨st, hrun, hst⟩ := bind_eq_some_iff.1 hend
  obtain ⟨st', hexec, hs⟩ := map_eq_some_iff.1 hst
  simp only [Prod.mk.injEq, decide_eq_true_eq] at hs
  obtain ⟨hr, hcur, hlocks, hcur', hmeta⟩ := hs
  refine ⟨st, st', hrun, hexec, fun hnot => ?_⟩
  rcases hnot hr id (.inr (by rw [hcur, hlocks]; decide)) with hc | hc
  · rw [hcur, hcur'] at hc
    cases hc
  · rw [hcur', hmeta] at hc
    cases hc

/-- Two threads of one priority, all deadlines at 0. -/
def bootDeadlines : Dispatch 4 Unit (DeadlineMem (QueueId Unit) 4) :=
  ⟨⟨⟨initQueues [.runq, .waitq ()] (anyLinks (QueueId Unit) 4), fun _ => 0, 0⟩, fun y => if y = 0 then
    15 else 5, fun y => bootBase (y ≠ 0), 0, 0, 0, fun _ => []⟩, fun _ => 0⟩

/-- **A deadline is set and nobody decides anew** (sched.c:749-758). The thread that runs moves its own deadline behind
that of the other one; it can be preempted, the other one is the best of the run queue, and `cache` names the first. -/
theorem deadline_keeps_cache :
    ∃ st, dispatchRun (deadlineQueues 4 Unit) (bootConfig 4) (some (deadlines 4 Unit)) bootDeadlines
      [.sched (.start 1), .sched (.start 2), .deadlineSet 1 100] = some st ∧
    ¬ st.Restricted (bootConfig 4) ∧ nextUp (deadlineQueues 4 Unit) (bootConfig 4) st.sched ≠ some st.sched.cache := by
  refine Runs.exists_end (P := fun st => ¬ st.Restricted (bootConfig 4) ∧
    nextUp (deadlineQueues 4 Unit) (bootConfig 4) st.sched = some 2 ∧ st.sched.cache = 1) (by decide +kernel) ?_
  rintro st - ⟨hres, hnext, hcache⟩
  refine ⟨hres, ?_⟩
  rw [hnext, hcache]
  decide

end Zephyr
