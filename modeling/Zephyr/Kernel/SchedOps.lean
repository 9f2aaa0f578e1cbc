import Zephyr.Kernel.SchedInv
/-!
# Each thread operation keeps every thread in its place

One lemma for each operation of `Zephyr.Kernel.Sched`: from a state in which all threads fit it ends in
one, and if it meets what its queues ask for, the wait queues stay in order.
-/
namespace Zephyr

open StableQueue Sched Function Option ThreadBase

variable {N : Nat} {W σ : Type} [DecidableEq W] {Q : Queues N W σ} {H : Q.Lawful} {cfg : Config N} {s s' : Sched N W σ}
  {L : QueueId W → List (Fin N)} {X : Fin N → Bool} {x y : Fin N}

/-- The operation ends with all threads in their places, and given `ok` with the wait queues in order if they were. -/
def KeepsFit (H : Q.Lawful) (cfg : Config N) (s : Sched N W σ) (L : QueueId W → List (Fin N)) (ok : Prop)
    (r : Option (Sched N W σ)) (X : Fin N → Bool := fun _ => false) : Prop :=
  ∃ s' L', r = some s' ∧ SchedInv H cfg s' L' X ∧ (ok → Orderly s L → Orderly s' L')

variable {ok : Prop} {r : Option (Sched N W σ)} {f : ThreadBase W → ThreadBase W} {k : ℤ} {w : W}

theorem KeepsFit.mono {ok' : Prop} (h : KeepsFit H cfg s L ok r X) (himp : ok' → ok) : KeepsFit H cfg s L ok' r X := by
  obtain ⟨s', L', hr, hinv, hord⟩ := h
  exact ⟨s', L', hr, hinv, fun hok => hord (himp hok)⟩

theorem SchedInv.keeps (h : SchedInv H cfg s L X) : KeepsFit H cfg s L ok (some s) X := ⟨s, L, rfl, h, fun _ => id⟩

theorem KeepsFit.swap (h : KeepsFit H cfg s L ok r X) : KeepsFit H cfg s L ok (r >>= fun s => some s.swap) X := by
  obtain ⟨s', L', rfl, hinv, hord⟩ := h
  exact ⟨s'.swap, L', rfl, hinv.toAllFit.swap, fun hok ho => (hord hok ho).congr rfl rfl fun _ => rfl⟩

theorem KeepsFit.reschedule (h : KeepsFit H cfg s L ok r X) :
    KeepsFit H cfg s L ok (r >>= fun s => some s.reschedule) X := by
  obtain ⟨s', L', rfl, hinv, hord⟩ := h
  exact ⟨s'.reschedule, L', rfl, hinv.reschedule, fun hok ho => (hord hok ho).congr (by simp) (by simp) fun _ => rfl⟩

omit [DecidableEq W] in
/-- The priority of a thread that is in no wait queue is of no concern to them. -/
theorem Orderly.setPrio_out {q : σ} {c : Fin N} {L' : QueueId W → List (Fin N)} (h : Orderly s L)
    (hx : ∀ w, x ∉ L (.waitq w))
    (hL : ∀ w, L' (.waitq w) = L (.waitq w)) : Orderly ((s.put q c).setPrio x k) L' := fun w => by
  rw [hL]
  exact (h w).congr fun y hy => update_of_ne (by rintro rfl; exact hx w hy) _ _

/-- The end of `k_thread_suspend` (thread.c:511). -/
theorem suspended_keeps {s1 : Sched N W σ} {L1 : QueueId W → List (Fin N)} (hfit : AllFit H cfg s1 L1 X)
    (hflux : Flux H cfg x s1 L1 X)
    (hp : s1.prio = s.prio) (ha : s1.arrivals = s.arrivals) (hL : ∀ w, L1 (.waitq w) = L (.waitq w)) :
    KeepsFit H cfg s L True (some (if x = s1.current then s1.swap else s1)) X := by
  split
  · exact ⟨_, L1, rfl, hfit.swap, fun _ ho => ho.congr hp ha hL⟩
  · rename_i hne
    exact ⟨_, L1, rfl, hflux.sched hfit fun _ => Ne.symm hne, fun _ ho => ho.congr hp ha hL⟩

/-- From no queue, with the state that `pend` gives it, into a wait queue. -/
theorem enter_spec {s1 : Sched N W σ} {L1 : QueueId W → List (Fin N)} (hout : Out H cfg x s1 L1 X)
    (ht : (s1.base x).timeout = none) (forever : Bool) :
    ∃ s' l', waitAdd Q (if forever then s1.setBase x .markAsPending else addThreadTimeout
      (s1.setBase x .markAsPending) x (some w)) x w = some s' ∧
      AllFit H cfg s' (update L1 (.waitq w) l') X ∧ s'.prio = s1.prio ∧ s'.current = s1.current ∧
      s'.nested = s1.nested ∧
      s'.arrivals = update s1.arrivals w (s1.arrivals w ++ [x]) ∧
      (H.Fresh s1.prio s1.queues (.waitq w) (L1 (.waitq w)) x → l' = enq s1.prio x (L1 (.waitq w))) := by
  have hpend := hout.setBase (f := .markAsPending) rfl
  cases forever with
  | true =>
    obtain ⟨q, l', hadd, hfit, henq⟩ := waitAdd_spec (w := w) hpend (by simp [markAsPending])
      (.inl (by simpa [markAsPending] using ht))
    exact ⟨_, l', hadd, hfit, rfl, rfl, rfl, rfl, henq⟩
  | false =>
    obtain ⟨q, l', hadd, hfit, henq⟩ := waitAdd_spec (w := w) (hpend.setBase (f := .setTimeout (some (some w))) rfl)
      (by simp [markAsPending, setTimeout]) (.inr (by simp [setTimeout]))
    exact ⟨_, l', hadd, hfit, rfl, rfl, rfl, rfl, henq⟩

/-- A thread leaves its wait queue, is changed by `f`, and is offered to the run queue. -/
theorem leave_spec (h : Flux H cfg x s L X) (hx : x ∈ L (.waitq w)) (hon : (s.base x).pendedOn = some w)
    (hq : (s.base x).queued = false) (hcur : s.nested = 0 → s.current ≠ x)
    (hf : ∀ b, (f b).queued = b.queued ∧ (f b).pending = b.pending)
    (ht : (f (s.base x).markAsNotPending).timeout = none) :
    ∃ q s' L', unpendThreadNoTimeout Q s x = some (unpended s x q) ∧
    readyThread Q cfg ((unpended s x q).setBase x f) x = some s' ∧
      SchedInv H cfg s' L' X ∧ (∀ v, L' (.waitq v) = update L (.waitq w) ((L (.waitq w)).erase x) (.waitq v)) ∧
      (Orderly s L → Orderly s' L') ∧ QueuesOnly x ((unpended s x q).setBase x f) s' := by
  obtain ⟨q, hun, hout⟩ := unpendThreadNoTimeout_spec h hx hon hq
  obtain ⟨s', L', hready, hinv, hL, hsame⟩ := readyThread_spec (hout.setBase (f := f) (hf _).1)
    (by simp [unpended, (hf _).2, markAsNotPending]) (fun v => by rw [setBase_self, unpended, setBase_self]; simp [ht])
    (fun hn hc => absurd hc (hcur hn))
  refine ⟨q, s', L', hun, hready, hinv, hL, fun ho => ?_, hsame⟩
  have hleave : Orderly (unpended s x q) _ := ho.leave h.rep hx rfl rfl
  exact hleave.congr hsame.prio hsame.arrivals hL

section

variable (h : SchedInv H cfg s L X)

include h

theorem SchedInv.not_pending_timeout (hX : X x = false) (hp : (s.base x).pending = false) (w : W) :
    (s.base x).timeout ≠ some (some w) := fun ht => by
  have hfit := (h.fits x).fits hX
  simpa [hp] using hfit.pending.2 ⟨w, hfit.timeout w ht⟩

theorem SchedInv.current_ready (hn : s.nested = 0) (hi : s.current ≠ cfg.idle) : s.current ∈ L .runq :=
  (h.current hn).resolve_left hi

theorem SchedInv.current_ne (hx : x ≠ cfg.idle) (hr : s.isThreadReady x = false) (hn : s.nested = 0) :
    s.current ≠ x := by
  rintro rfl
  have hrun := h.current_ready hn hx
  have := ((h.fitsIn hrun).run.1 hrun).2
  simp [hr] at this

/-- A thread that stays as ready as it was fits where it is. -/
theorem SchedInv.stay (hr : (f (s.base x)).isThreadReady = s.isThreadReady x)
    (hf : ∀ b, (f b).queued = b.queued ∧ (f b).pending = b.pending ∧ (f b).pendedOn = b.pendedOn ∧
      (f b).timeout = b.timeout) (hX : X x = false := by rfl) : SchedInv H cfg (s.setBase x f) L X := by
  refine ⟨⟨h.rep, fun y => ?_, h.cache, h.valid, h.idle⟩, h.current, h.shown⟩
  by_cases hy : y = x
  · subst hy
    obtain ⟨hq, hp, hon, ht⟩ := hf (s.base y)
    have hfit := (h.fits y).fits hX
    refine Fits.inPlace ⟨?_, ?_, ?_, ?_, ?_, ?_, ?_⟩ hX <;>
      simp only [setBase_self, Sched.isThreadReady, hq, hp, hon, ht, hr]
    · exact hfit.run
    · exact hfit.queued
    · exact hfit.pending
    · exact hfit.pendedOn
    · exact hfit.timeout
    · exact hfit.asleep
    · exact hfit.idle
  · exact (h.fits y).congr (setBase_ne hy) fun _ => Iff.rfl

/-- A thread that is not ready and waits for nothing is changed by `f` and offered to the run queue. -/
theorem offer_keeps (hx : x ≠ cfg.idle) (hX : X x = false) (hr : s.isThreadReady x = false)
    (hp : (s.base x).pending = false)
    (hf : ∀ b, (f b).queued = b.queued ∧ (f b).pending = b.pending) (ht : ∀ w, (f (s.base x)).timeout ≠ some (some w)) :
    KeepsFit H cfg s L True (readyThread Q cfg (s.setBase x f) x) X := by
  obtain ⟨s', L', hready, hinv, hL, hsame⟩ := readyThread_spec ((h.out hx hr hp hX).setBase (f := f) (hf _).1)
    (by simp [(hf _).2, hp])
    (by simpa using ht) (fun hn hc => absurd hc (h.current_ne hx hr hn))
  exact ⟨s', L', hready, hinv, fun _ ho => ho.congr hsame.prio hsame.arrivals hL⟩

/-- A thread that is not ready loses a reason for it and is offered to the run queue. -/
theorem release_keeps (hx : x ≠ cfg.idle) (hX : X x = false) (hr : s.isThreadReady x = false)
    (hf : ∀ b, (f b).queued = b.queued ∧ (f b).pending = b.pending ∧ (f b).pendedOn = b.pendedOn ∧
      (f b).timeout = b.timeout) :
    KeepsFit H cfg s L True (readyThread Q cfg (s.setBase x f) x) X := by
  cases hp : (s.base x).pending with
  | true =>
    have hr' : (f (s.base x)).isThreadReady = false := by
      simp [ready_eq, (hf _).2.1, hp]
    refine ⟨s.setBase x f, L, ?_, h.stay (hr'.trans hr.symm) hf hX, fun _ ho => ho.congr rfl rfl fun _ => rfl⟩
    rw [readyThread, if_neg]
    simp [Sched.isThreadReady, hr']
  | false =>
    refine offer_keeps h hx hX hr hp (fun b => ⟨(hf b).1, (hf b).2.1⟩) ?_
    rw [(hf _).2.2.2]
    exact h.not_pending_timeout hX hp

/-! ## Starting, suspending and resuming -/

theorem kThreadStart_keeps (hx : x ≠ cfg.idle) (hX : X x = false) :
    KeepsFit H cfg s L True (kThreadStart Q cfg s x) X := by
  unfold kThreadStart
  cases hs : (s.base x).prestart with
  | false => simpa using h.keeps
  | true =>
    have hr : s.isThreadReady x = false := by
      simp [Sched.isThreadReady, ready_eq, hs]
    exact (release_keeps (f := .markAsStarted) h hx hX hr fun _ => ⟨rfl, rfl, rfl, rfl⟩).reschedule

/-- **`k_thread_resume` (thread.c:526)** of a thread that is not ready. -/
theorem kThreadResume_keeps (hx : x ≠ cfg.idle) (hX : X x = false) (hr : s.isThreadReady x = false) :
    KeepsFit H cfg s L True (kThreadResume Q cfg s x) X :=
  (release_keeps (f := .markAsNotSuspended) h hx hX hr fun _ => ⟨rfl, rfl, rfl, rfl⟩).reschedule

theorem kThreadSuspend_keeps (hx : x ≠ cfg.idle) (hX : X x = false) :
    KeepsFit H cfg s L True (kThreadSuspend Q cfg s x) X := by
  unfold kThreadSuspend
  have hsusp : ∀ b : ThreadBase W, b.markAsSuspended.isThreadReady = false := fun b => by
    simp [ready_eq, markAsSuspended]
  by_cases hr : s.isThreadReady x = true
  · obtain ⟨hp, -, -, -, -, ht⟩ := (ready_iff _).1 hr
    obtain ⟨q, c, hrem, hout, -⟩ := removeThreadFromReadyQ_spec h (((h.fits x).fits hX).run.2 ⟨hx, hr⟩)
    have hout' := hout.setBase (f := .markAsSuspended) rfl
    have hfit := hout'.close (by simp [Sched.isThreadReady, hsusp])
      (by simpa [markAsSuspended, markAsNotQueued] using hp)
      (by simp [markAsSuspended, markAsNotQueued, ht])
    rw [if_pos hr, hrem]
    exact suspended_keeps hfit hout'.toFlux rfl rfl fun w => update_of_ne (by simp) _ _
  · have hr' : s.isThreadReady x = false := by simpa using hr
    have hinv := h.stay (f := .markAsSuspended) ((hsusp _).trans hr'.symm) (fun _ => ⟨rfl, rfl, rfl, rfl⟩) hX
    rw [if_neg hr]
    exact suspended_keeps hinv.toAllFit (hinv.flux hx hX) rfl rfl fun _ => rfl

/-! ## Locking the scheduler -/

theorem schedLock_keeps : KeepsFit H cfg s L True (some (schedLock s)) X :=
  ⟨_, L, rfl, h.stay rfl (fun _ => ⟨rfl, rfl, rfl, rfl⟩) h.shown, fun _ ho => ho.congr rfl rfl fun _ => rfl⟩

theorem kSchedUnlock_keeps : KeepsFit H cfg s L True (kSchedUnlock Q cfg s) X := by
  have hinv := h.stay (x := s.current) (f := fun b => { b with schedLocked := (b.schedLocked + 1) % 256 }) rfl
    (fun _ => ⟨rfl, rfl, rfl, rfl⟩) h.shown
  obtain ⟨c, hupd, hc⟩ := updateCache_spec cfg hinv.rep true (fun hok => by simp at hok)
  have hmid : KeepsFit H cfg s L True (updateCache Q cfg
    (s.setBase s.current fun b => { b with schedLocked := (b.schedLocked + 1) % 256 }) true) X :=
    ⟨_, L, hupd, ⟨hinv.congr hinv.rep rfl (fun _ _ => Iff.rfl) hc hinv.valid, hinv.current, hinv.shown⟩,
      fun _ ho => ho.congr rfl rfl fun _ => rfl⟩
  exact hmid.reschedule

/-! ## Priorities -/

theorem requeue_keeps (hx : x ∈ L .runq) (hk : H.Valid k) :
    KeepsFit H cfg s L True (requeue Q cfg s x (update s.prio x k)) X := by
  obtain ⟨q, c, l', hreq, hinv⟩ := requeue_spec h hx hk
  exact ⟨_, _, hreq, hinv, fun _ ho => ho.setPrio_out (fun w => H.disj h.rep (by simp) hx) fun w =>
    update_of_ne (by simp) _ _⟩

theorem kYield_keeps (hn : s.nested = 0) : KeepsFit H cfg s L True (kYield Q cfg s) X := by
  have hmid : KeepsFit H cfg s L True (if s.current ≠ cfg.idle then
    requeue Q cfg s s.current s.prio else some s) X := by
    split
    · rename_i hi
      have := requeue_keeps (k := s.prio s.current) h (h.current_ready hn hi) (h.valid _ hi)
      rwa [update_eq_self] at this
    · exact h.keeps
  exact hmid.swap

/-- **`_thread_priority_set` (sched.c:356)**: a queue that the thread waits in must take its new priority. -/
theorem threadPrioritySet_keeps (hx : x ≠ cfg.idle) (hk : H.Valid k)
    (hrekey : ∀ w, x ∈ L (.waitq w) → H.RekeyOk s.prio (L (.waitq w)) x k)
    (hX : X x = false ∨ s.isThreadReady x = false := by exact .inl rfl) :
    KeepsFit H cfg s L (∀ w, x ∈ L (.waitq w) → KeepsPlace s.prio (L (.waitq w)) x k)
    (threadPrioritySet Q cfg s x k) X := by
  unfold threadPrioritySet
  by_cases hr : s.isThreadReady x = true
  · rw [if_pos hr]
    have hfit := (h.fits x).fits (hX.resolve_right (by simp [hr]))
    exact ((requeue_keeps h (hfit.run.2 ⟨hx, hr⟩) hk).mono fun _ => trivial).reschedule
  · rw [if_neg hr]
    have hrun : x ∉ L .runq := fun hm => hr ((h.fitsIn hm).run.1 hm).2
    refine ⟨s.setPrio x k, L, rfl, ⟨h.congr (H.rekey_spec h.rep hrun hrekey) rfl (fun _ _ => Iff.rfl) h.cache
      fun y hy => ?_, h.current, h.shown⟩, fun hplace ho w => ?_⟩
    · by_cases hyx : y = x
      · subst hyx; simpa [setPrio] using hk
      · simpa [setPrio, hyx] using h.valid y hy
    · by_cases hxw : x ∈ L (.waitq w)
      · exact (ho w).rekey (H.nodup h.rep _) (hplace w hxw)
      · exact (ho w).congr fun y hy => update_of_ne (by rintro rfl; exact hxw hy) _ _

/-! ## Sleeping and waiting -/

/-- A thread of the run queue has no timeout and is not pending. -/
theorem SchedInv.ready_record (hx : x ∈ L .runq) : (s.base x).pending = false ∧ (s.base x).timeout = none := by
  obtain ⟨hp, -, -, -, -, ht⟩ := (ready_iff _).1 ((h.fitsIn hx).run.1 hx).2
  exact ⟨hp, ht⟩

theorem kSleep_keeps (hn : s.nested = 0) (hi : s.current ≠ cfg.idle) (duration : Nat) :
    KeepsFit H cfg s L True (kSleep Q cfg s duration) X := by
  unfold kSleep
  split
  · exact kYield_keeps h hn
  · have hx := h.current_ready hn hi
    obtain ⟨hp, -⟩ := h.ready_record hx
    obtain ⟨q, c, hrem, hout, -⟩ := removeThreadFromReadyQ_spec h hx
    have hout' := hout.setBase (f := .setTimeout (some none)) rfl
    have hfit := hout'.close
      (by simp [Sched.isThreadReady, ThreadBase.isThreadReady, ThreadBase.isThreadTimeoutActive, ThreadBase.setTimeout])
      (by simpa [setTimeout, markAsNotQueued] using hp) (by simp [setTimeout])
    simp only [hrem]
    exact ⟨_, _, rfl, hfit.swap, fun _ ho => ho.congr rfl rfl fun w => update_of_ne (by simp) _ _⟩

theorem kWakeup_keeps (hx : x ≠ cfg.idle) (hX : X x = false) : KeepsFit H cfg s L True (kWakeup Q cfg s x) X := by
  unfold kWakeup
  cases hp : (s.base x).pending with
  | true => simpa using h.keeps
  | false =>
    cases ht : (s.base x).timeout with
    | none => simpa [ThreadBase.isThreadTimeoutActive, ht] using h.keeps
    | some wq =>
      have hr : s.isThreadReady x = false := by
        simp [Sched.isThreadReady, ThreadBase.isThreadReady, ThreadBase.isThreadTimeoutActive, ht]
      have hk := offer_keeps (f := .setTimeout none) h hx hX hr hp (fun _ => ⟨rfl, rfl⟩) (by simp [setTimeout])
      simpa [ThreadBase.isThreadTimeoutActive, ht, abortThreadTimeout] using hk.reschedule

/-- **`_pend_current_thread` (sched.c:323)** -/
theorem pendCurrentThread_keeps (hn : s.nested = 0) (hi : s.current ≠ cfg.idle) (w : W) (forever : Bool) :
    KeepsFit H cfg s L (H.Fresh s.prio s.queues (.waitq w) (L (.waitq w)) s.current)
    (pendCurrentThread Q cfg s (some w) forever) X := by
  have hx := h.current_ready hn hi
  obtain ⟨-, ht⟩ := h.ready_record hx
  obtain ⟨q, c, hrem, hout, hfresh⟩ := removeThreadFromReadyQ_spec h hx
  obtain ⟨s', l', hadd, hfit, hprio, -, -, harr, henq⟩ :=
    enter_spec (w := w) hout (by simpa [markAsNotQueued] using ht) forever
  refine ⟨s'.swap, _, ?_, hfit.swap, fun hf ho => ?_⟩
  · unfold pendCurrentThread pend
    rw [hrem]
    show (waitAdd Q _ _ _).bind _ = _
    rw [hadd]
    rfl
  · have hw : update L .runq ((L .runq).erase s.current) (.waitq w) = L (.waitq w) := update_of_ne (by simp) _ _
    rw [hw] at henq
    exact Orderly.enter (s := s) (ho.congr rfl rfl fun v => update_of_ne (by simp) _ _)
      (henq (hfresh w _ hf)) hprio harr

/-- **`_pend_thread` (sched.c:283)** of a dummy thread, which stands for a message. -/
theorem pend_dummy_keeps (hx : x ≠ cfg.idle) (hd : (s.base x).dummy = true) (hp : (s.base x).pending = false)
    (ht : (s.base x).timeout = none) (w : W) (forever : Bool) (hX : X x = false) :
    KeepsFit H cfg s L (H.Fresh s.prio s.queues (.waitq w) (L (.waitq w)) x) (pend Q cfg s x (some w) forever) X := by
  have hr : s.isThreadReady x = false := by
    simp [Sched.isThreadReady, ready_eq, hd]
  have hout := h.out hx hr hp hX
  obtain ⟨s', l', hadd, hfit, hprio, hcur, hnest, harr, henq⟩ := enter_spec (w := w) hout ht forever
  have hrun : update L (.waitq w) l' .runq = L .runq := update_of_ne (by simp) _ _
  refine ⟨s', _, ?_, ⟨hfit, fun hn => ?_, hcur ▸ h.shown⟩, fun hf ho => ho.enter (henq hf) hprio harr⟩
  · unfold pend
    rw [removeThreadFromReadyQ, if_neg (by simp [hout.unqueued])]
    exact hadd
  · rw [hcur, hrun]
    exact h.current (hnest ▸ hn)

/-! ## Being woken -/

/-- A thread in a wait queue is not ready. -/
theorem SchedInv.waiting (hx : x ∈ L (.waitq w)) :
    x ≠ cfg.idle ∧ s.isThreadReady x = false ∧ (s.base x).queued = false := by
  have hfit := h.fitsIn hx
  have hp : (s.base x).pending = true := hfit.pending.2 ⟨w, hx⟩
  have hr : s.isThreadReady x = false := by
    simp [Sched.isThreadReady, ready_eq, hp]
  refine ⟨fun he => by simpa [hp] using hfit.idle he, hr, Bool.eq_false_iff.2 fun hq => ?_⟩
  simpa [hr] using (hfit.run.1 (hfit.queued.1 hq)).2

/-- `_unpend_thread` and `_ready_thread`. -/
theorem unpend_spec (hx : x ∈ L (.waitq w)) :
    ∃ q s' L', unpendThread Q s x = some ((unpended s x q).setBase x (.setTimeout none)) ∧
      readyThread Q cfg ((unpended s x q).setBase x (.setTimeout none)) x = some s' ∧
      SchedInv H cfg s' L' X ∧ (∀ v, L' (.waitq v) = update L (.waitq w) ((L (.waitq w)).erase x) (.waitq v)) ∧
      (Orderly s L → Orderly s' L') ∧ QueuesOnly x ((unpended s x q).setBase x (.setTimeout none)) s' := by
  obtain ⟨hi, hr, hq⟩ := h.waiting hx
  obtain ⟨q, s', L', hun, hrest⟩ := leave_spec (f := .setTimeout none) (h.flux hi (h.shows hx)) hx
    ((h.fitsIn hx).pendedOn w hx) hq
    (h.current_ne hi hr) (fun _ => ⟨rfl, rfl⟩) rfl
  exact ⟨q, s', L', by rw [unpendThread, hun]; rfl, hrest⟩

theorem readyOneThread_keeps (w : W) : KeepsFit H cfg s L True (readyOneThread Q cfg s w) X := by
  have hbest := H.best_spec h.rep (.waitq w)
  unfold readyOneThread unpendFirstThread
  rw [hbest]
  cases hhead : (L (.waitq w)).head? with
  | none => exact h.keeps
  | some t =>
    obtain ⟨q, s', L', hun, hready, hinv, -, hord, -⟩ := unpend_spec h (List.mem_of_head? hhead)
    refine ⟨s', L', ?_, hinv, fun _ => hord⟩
    simp only [hun, hready, bind_eq_bind, bind_some]

/-- **`_handle_one_expired_timeout` (timeout_q.h:83)** of a thread's timeout. -/
theorem handleOneExpiredThreadTimeout_keeps (hx : x ≠ cfg.idle) (hX : X x = false)
    (ht : (s.base x).isThreadTimeoutActive = true) :
    KeepsFit H cfg s L True (handleOneExpiredThreadTimeout Q cfg s x) X := by
  have hr : s.isThreadReady x = false := by simp [Sched.isThreadReady, ThreadBase.isThreadReady, ht]
  obtain ⟨wq, hwq⟩ := isSome_iff_exists.1 ht
  unfold handleOneExpiredThreadTimeout
  cases wq with
  | none =>
    -- it slept, or waited for its start
    have hp := ((h.fits x).fits hX).asleep hwq
    have hk := offer_keeps (f := fun b => (b.setTimeout none).markAsStarted) h hx hX hr hp
      (fun _ => ⟨rfl, rfl⟩) (by simp [setTimeout, markAsStarted])
    simp only [hwq, join_some, isSome_none, Bool.false_eq_true, if_false]
    simpa [abortThreadTimeout, setBase] using hk
  | some w =>
    have hmem := ((h.fits x).fits hX).timeout w hwq
    obtain ⟨-, -, hq⟩ := h.waiting hmem
    obtain ⟨q, s', L', hun, hready, hinv, -, hord, -⟩ :=
      leave_spec (f := .markAsStarted) ((h.flux hx hX).setBase (.setTimeout none)) hmem
      (by simpa [setTimeout] using (h.fitsIn hmem).pendedOn w hmem) (by simpa [setTimeout] using hq)
      (h.current_ne hx hr) (fun _ => ⟨rfl, rfl⟩) (by simp [setTimeout, markAsStarted, markAsNotPending])
    refine ⟨s', L', ?_, hinv, fun _ ho => hord (ho.congr rfl rfl fun _ => rfl)⟩
    simp only [hwq, join_some, isSome_some, if_true, abortThreadTimeout, hun, hready, bind_eq_bind, bind_some]

/-! ## Aborting -/

theorem abortWaiting_spec (hx : x ≠ cfg.idle) (hX : X x = false) (hr : s.isThreadReady x = false) :
    ∃ s1 L1, abortWaiting Q s x = some s1 ∧ Out H cfg x s1 L1 X ∧ (s1.base x).pending = false ∧
    (s1.base x).timeout = none ∧ (Orderly s L → Orderly s1 L1) := by
  -- out of its wait queue, if it is in one
  have hmid : ∃ s0 L1, (if (s.base x).pending then unpendThreadNoTimeout Q s x else some s) = some s0 ∧
    Out H cfg x s0 L1 X ∧
      (s0.base x).pending = false ∧ (Orderly s L → Orderly s0 L1) := by
    cases hp : (s.base x).pending with
    | false => exact ⟨s, L, rfl, h.out hx hr hp hX, hp, id⟩
    | true =>
      obtain ⟨w, hw⟩ := ((h.fits x).fits hX).pending.1 hp
      obtain ⟨q, hun, hout⟩ := unpendThreadNoTimeout_spec (h.flux hx hX) hw ((h.fitsIn hw).pendedOn w hw)
        (h.waiting hw).2.2
      exact ⟨_, _, hun, hout, by simp [unpended, markAsNotPending], fun ho => ho.leave h.rep hw rfl rfl⟩
  obtain ⟨s0, L1, hs0, hout, hp, hord⟩ := hmid
  unfold abortWaiting
  rw [hs0]
  cases ht : (s0.base x).timeout with
  | none => exact ⟨s0, L1, by simp [isThreadTimeoutActive, ht], hout, hp, ht, hord⟩
  | some wq =>
    refine ⟨abortThreadTimeout s0 x, L1, by simp [isThreadTimeoutActive, ht], hout.setBase rfl, ?_, ?_,
      fun ho => (hord ho).congr rfl rfl fun _ => rfl⟩
    · simpa [abortThreadTimeout, setTimeout] using hp
    · simp [abortThreadTimeout, setTimeout]

theorem kThreadAbort_keeps (hx : x ≠ cfg.idle) (hX : X x = false) :
    KeepsFit H cfg s L True (kThreadAbort Q cfg s x) X := by
  have hmid : ∃ s1 L1, (if s.isThreadReady x then removeThreadFromReadyQ Q cfg s x else abortWaiting Q s x) =
    some s1 ∧ Out H cfg x s1 L1 X ∧
      (s1.base x).pending = false ∧ (s1.base x).timeout = none ∧ (Orderly s L → Orderly s1 L1) := by
    by_cases hr : s.isThreadReady x = true
    · have hrun := ((h.fits x).fits hX).run.2 ⟨hx, hr⟩
      obtain ⟨hp, ht⟩ := h.ready_record hrun
      obtain ⟨q, c, hrem, hout, -⟩ := removeThreadFromReadyQ_spec h hrun
      exact ⟨_, _, by rw [if_pos hr, hrem], hout, by simpa [markAsNotQueued] using hp,
        by simpa [markAsNotQueued] using ht, fun ho => ho.congr rfl rfl fun w => update_of_ne (by simp) _ _⟩
    · rw [if_neg hr]
      exact abortWaiting_spec h hx hX (by simpa using hr)
  obtain ⟨s1, L1, hs1, hout, hp, ht, hord⟩ := hmid
  have hfit := (hout.setBase (f := .markAsDead) rfl).close (by simp [Sched.isThreadReady, ready_eq, markAsDead])
    (by simpa [markAsDead] using hp) (by simp [markAsDead, ht])
  -- whether the thread aborts itself or another one, `_current` is `cache` in the end unless an interrupt is served
  have hend : ∀ s2 : Sched N W σ, (if s2.nested ≠ 0 then s2 else if s2.current = x then
    s2.swap else s2.reschedule) = s2.reschedule := by
    intro s2
    unfold Sched.reschedule
    split
    · rfl
    · split <;> rfl
  unfold kThreadAbort
  rw [hs1]
  exact ⟨_, L1, congrArg some (hend _), hfit.reschedule hout.shown,
    fun _ ho => (hord ho).congr (by simp) (by simp) fun _ => rfl⟩

end

/-- **`_unpend_all` (sched.c:667)** ends when the queue is empty. -/
theorem unpendAll_keeps (w : W) {fuel : Nat} :
    ∀ {s : Sched N W σ} {L : QueueId W → List (Fin N)}, SchedInv H cfg s L X →
    (L (.waitq w)).length < fuel → KeepsFit H cfg s L True (unpendAll Q cfg s w fuel) X := by
  induction fuel with
  | zero => intro s L _ hf; omega
  | succ fuel ih =>
    intro s L h hf
    have hbest := H.best_spec h.rep (.waitq w)
    unfold unpendAll
    rw [hbest]
    cases hhead : (L (.waitq w)).head? with
    | none => exact h.keeps
    | some t =>
      have ht := List.mem_of_head? hhead
      obtain ⟨q, s1, L1, hun, hready, hinv, hL, hord, -⟩ := unpend_spec h ht
      have hlen : (L1 (.waitq w)).length < fuel := by
        have := List.length_pos_of_mem ht
        rw [hL, update_self, List.length_erase_of_mem ht]
        omega
      obtain ⟨s2, L2, hall, hinv2, hord2⟩ := ih hinv hlen
      refine ⟨s2, L2, ?_, hinv2, fun hok ho => hord2 hok (hord ho)⟩
      simp only [hun, hready, hall, bind_eq_bind, bind_some]

end Zephyr
