import Zephyr.Kernel.SchedWaits
/-!
# A scheduler with some threads put aside

A thread that has been taken out of its wait queue and not been made ready is where sched.c does not
expect one to be: it is not pending and not queued, and the next operation on it takes it for ready. `Veiled s X` says
that only the threads of `X` are like that. The veil is laid on a thread that is
taken out of a queue or parks itself (`unpendThread_veils`, `parkCurrent_veils`) and is lifted from one that is woken
(`wake_unveils`).
-/
namespace Zephyr

open Sched Function Option ThreadBase

variable {N : Nat} {W σ : Type} [DecidableEq W] {Q : Queues N W σ} {H : Q.Lawful} {cfg : Config N} {s t : Sched N W σ}
  {X : Fin N → Bool} {L : QueueId W → List (Fin N)} {x y : Fin N} {w v : W}

def Veiled (H : Q.Lawful) (cfg : Config N) (s : Sched N W σ) (X : Fin N → Bool) : Prop := ∃ L, SchedInv H cfg s L X

/-- A thread waits that is not one of `X`. -/
def Sched.Waits (s : Sched N W σ) (X : Fin N → Bool) (w : W) (y : Fin N) : Prop := X y = false ∧ s.WaitsOn w y

theorem SchedInv.waits_iff (h : SchedInv H cfg s L X) : s.Waits X w y ↔ y ∈ L (.waitq w) :=
  ⟨fun hy => (h.waitsOn_iff hy.1).1 hy.2, fun hy => ⟨h.shows hy, (h.waitsOn_iff (h.shows hy)).2 hy⟩⟩

theorem KeepsFit.veiled {ok : Prop} {r : Option (Sched N W σ)} (h : KeepsFit H cfg s L ok r X) :
    ∃ t, r = some t ∧ Veiled H cfg t X := by
  obtain ⟨t, L', ht, hinv, -⟩ := h
  exact ⟨t, ht, L', hinv⟩

/-! ## Who is hidden -/

section

variable (h : Veiled H cfg s X)

include h

theorem Veiled.not_waits_current (hn : s.nested = 0) : ¬ s.Waits X w s.current := by
  obtain ⟨L, hinv⟩ := h
  exact fun hw => hinv.current_not_waits hn hw.2

/-- The thread that runs is ready. -/
theorem Veiled.current_ready (hn : s.nested = 0) (hi : s.current ≠ cfg.idle) : s.isThreadReady s.current = true := by
  obtain ⟨L, hinv⟩ := h
  have hrun := hinv.current_ready hn hi
  exact ((hinv.fitsIn hrun).run.1 hrun).2

theorem Veiled.current_shown : X s.current = false := by
  obtain ⟨L, hinv⟩ := h
  exact hinv.shown

theorem Veiled.idle_shown : X cfg.idle = false := by
  obtain ⟨L, hinv⟩ := h
  exact hinv.idle

theorem Veiled.aside (hx : X x = true) : x ≠ s.current ∧ (s.base x).queued = false ∧ (s.base x).timeout = none ∧
    ((s.base x).dummy = true → (s.base x).pending = false) := by
  obtain ⟨L, hinv⟩ := h
  obtain ⟨-, hq, ht, hd⟩ := (hinv.fits x).aside hx
  refine ⟨?_, hq, ht, hd⟩
  rintro rfl
  simp [hinv.shown] at hx

theorem Veiled.reschedule : Veiled H cfg s.reschedule X := by
  obtain ⟨L, hinv⟩ := h
  exact ⟨L, hinv.reschedule⟩

/-! ## One step -/

/-- **An operation on other threads** leaves the hidden ones alone. -/
theorem exec_veiled {op : SchedOp N W} (hlegal : op.Legal H cfg s) (hmiss : op.Misses X)
    (hfine : ∀ L, SchedInv H cfg s L X → op.Fine H s L) :
    ∃ t, op.exec Q cfg s = some t ∧ Veiled H cfg t X ∧ ∀ w y, op.Avoids w → t.Waits X w y → s.Waits X w y := by
  obtain ⟨L, hinv⟩ := h
  obtain ⟨t, ht, hv⟩ := (exec_keeps hinv hlegal (hfine L hinv) hmiss).veiled
  exact ⟨t, ht, hv, fun w y havoid hw => ⟨hw.1, exec_staysOff havoid _ ht hw.2⟩⟩

/-- **`_unpend_thread` and `_ready_thread`** of a thread that waits: it leaves its queue, and of the others nothing
changes. -/
theorem unpend_veiled (hx : s.Waits X w x) :
    ∃ t1 t, unpendThread Q s x = some t1 ∧ readyThread Q cfg t1 x = some t ∧ Veiled H cfg t X ∧
    t.current = s.current ∧ t.nested = s.nested ∧
      (∀ y, y ≠ x → t.base y = s.base y) ∧ ∀ v y, t.Waits X v y → s.Waits X v y ∧ y ≠ x := by
  obtain ⟨L, hinv⟩ := h
  obtain ⟨q, t, L', hun, hready, hinv', -, -, hsame⟩ := unpend_spec hinv (hinv.waits_iff.1 hx)
  refine ⟨_, t, hun, hready, ⟨L', hinv'⟩, hsame.current, hsame.nested, fun y hy => ?_, fun v y hw => ⟨⟨hw.1, ?_⟩, ?_⟩⟩
  · rw [hsame.base y hy, setBase_ne hy, unpended, setBase_ne hy]
  · exact unpendThread_staysOff _ hun (readyThread_staysOff _ hready hw.2)
  · rintro rfl
    have hp := (readyThread_staysOff _ hready hw.2).1
    simp [unpended, setTimeout, markAsNotPending] at hp

end

/-! ## The veil is laid -/

omit [DecidableEq W] in
theorem InPlace.update (h : InPlace cfg s L X y) (hy : y ≠ x) (b : Bool) : InPlace cfg s L (update X x b) y := by
  rw [InPlace, update_of_ne hy]
  exact h

/-- Whoever is in no queue can be hidden. -/
theorem Out.lay (h : Out H cfg x s L X) (ht : (s.base x).timeout = none)
    (hd : (s.base x).dummy = true → (s.base x).pending = false) :
    AllFit H cfg s L (update X x true) where
  rep := h.rep
  fits y := by
    by_cases hy : y = x
    · subst hy
      exact Aside.inPlace ⟨h.out, h.unqueued, ht, hd⟩ (update_self ..)
    · exact (h.fits y hy).update hy true
  cache := h.cache
  valid := h.valid
  idle := by
    rw [update_of_ne (Ne.symm h.notIdle)]
    exact h.idle

theorem Out.lay_veiled (h : Out H cfg x s L X) (ht : (s.base x).timeout = none)
    (hd : (s.base x).dummy = true → (s.base x).pending = false)
    (hcur : s.current ≠ x) : Veiled H cfg s (update X x true) := by
  refine ⟨L, h.lay ht hd, fun hn => (h.current hn).imp_right fun hc => hc.resolve_right hcur, ?_⟩
  rw [update_of_ne hcur]
  exact h.shown

omit [DecidableEq W] in
/-- Whoever waits with one more hidden waited before, and is another one. -/
theorem Waits.of_insert (h : s.Waits (update X x true) w y) : s.Waits X w y ∧ y ≠ x := by
  have hne : y ≠ x := by
    rintro rfl
    simpa using h.1
  exact ⟨⟨by simpa [hne] using h.1, h.2⟩, hne⟩

/-- **`_unpend_thread` (sched.c:341)** of a thread that is not made ready. -/
theorem unpendThread_veils (h : Veiled H cfg s X) (hn : s.nested = 0) (hx : s.Waits X w x) :
    ∃ t, unpendThread Q s x = some t ∧ Veiled H cfg t (update X x true) ∧ t.current = s.current ∧
      ∀ v y, t.Waits (update X x true) v y → s.Waits X v y ∧ y ≠ x := by
  obtain ⟨L, hinv⟩ := h
  have hmem := hinv.waits_iff.1 hx
  obtain ⟨hi, hr, hq⟩ := hinv.waiting hmem
  obtain ⟨q, hun, hout⟩ := unpendThreadNoTimeout_spec (hinv.flux hi hx.1) hmem ((hinv.fitsIn hmem).pendedOn w hmem) hq
  have hdone : unpendThread Q s x = some (abortThreadTimeout (unpended s x q) x) := by
    rw [unpendThread, hun]
    rfl
  refine ⟨_, hdone, (hout.setBase (f := .setTimeout none) rfl).lay_veiled ?_ (fun _ => ?_)
    (hinv.current_ne hi hr hn), rfl, fun v y hw => ?_⟩
  · simp [setTimeout]
  · simp [unpended, setTimeout, markAsNotPending]
  · obtain ⟨⟨hX, hon⟩, hne⟩ := Waits.of_insert hw
    exact ⟨⟨hX, unpendThread_staysOff _ hdone hon⟩, hne⟩

/-- **`_pend_current_thread` (sched.c:323) on no queue** -/
theorem parkCurrent_veils (h : Veiled H cfg s X) (hn : s.nested = 0) (hi : s.current ≠ cfg.idle) :
    ∃ t, pendCurrentThread Q cfg s none true = some t ∧ Veiled H cfg t (update X s.current true) ∧
      ∀ v y, t.Waits (update X s.current true) v y → s.Waits X v y := by
  obtain ⟨-, -, -, hd, -, ht⟩ := (ready_iff _).1 (h.current_ready hn hi)
  obtain ⟨L, hinv⟩ := h
  obtain ⟨q, c, hrem, hout, -⟩ := removeThreadFromReadyQ_spec hinv (hinv.current_ready hn hi)
  refine ⟨_, by rw [pendCurrentThread, pend, hrem]; rfl,
    ⟨_, ((hout.setBase (f := .markAsPending) rfl).lay ?_ fun hdummy => ?_).swap⟩, fun v y hw => ?_⟩
  · simpa [markAsPending, markAsNotQueued] using ht
  · simp [markAsPending, markAsNotQueued, hd] at hdummy
  · obtain ⟨⟨hX, hon⟩, hne⟩ := Waits.of_insert hw
    refine ⟨hX, removeThreadFromReadyQ_staysOff _ hrem ?_⟩
    change (((s.put q c).setBase s.current .markAsNotQueued).setBase s.current .markAsPending).WaitsOn v y at hon
    rwa [Sched.WaitsOn, setBase_ne hne] at hon

/-- A dummy thread that is in no queue is hidden. -/
theorem Veiled.insert_dummy (h : Veiled H cfg s X) (hx : X x = false) (hi : x ≠ cfg.idle) (hcur : s.current ≠ x)
    (hd : (s.base x).dummy = true) (hp : (s.base x).pending = false) (ht : (s.base x).timeout = none) :
    Veiled H cfg s (update X x true) := by
  obtain ⟨L, hinv⟩ := h
  exact (hinv.out hi (by simp [Sched.isThreadReady, ready_eq, hd]) hp hx).lay_veiled ht (fun _ => hp) hcur

/-! ## The veil is lifted -/

omit [DecidableEq W] in
theorem Waits.of_remove (hp : (s.base x).pending = false) (h : s.Waits (update X x false) w y) : s.Waits X w y := by
  have hne : y ≠ x := by
    rintro rfl
    simp [h.2.1] at hp
  exact ⟨by simpa [hne] using h.1, h.2⟩

theorem SchedInv.lift (h : SchedInv H cfg s L X) (hx : X x = true) : Out H cfg x s L (update X x false) := by
  obtain ⟨hout, hq, -, -⟩ := (h.fits x).aside hx
  have hshown : ∀ y, X y = false → update X x false y = false := fun y hy => by
    by_cases hyx : y = x
    · simp [hyx]
    · rwa [update_of_ne hyx]
  refine ⟨⟨h.rep, fun y hy => (h.fits y).update hy false, h.cache, fun hn => (h.current hn).imp_right .inl,
    h.valid, ?_, hshown _ h.idle, hshown _ h.shown, update_self ..⟩, hout, hq⟩
  rintro rfl
  simp [h.idle] at hx

section

variable (h : Veiled H cfg s X) (hx : X x = true)

include h hx

theorem Veiled.remove_dummy (hd : (s.base x).dummy = true) : Veiled H cfg s (update X x false) := by
  obtain ⟨hcur, -, ht, hp⟩ := h.aside hx
  obtain ⟨L, hinv⟩ := h
  have hout := hinv.lift hx
  have hfit := hout.close (by simp [Sched.isThreadReady, ready_eq, hd]) (hp hd) (by simp [ht])
  exact ⟨L, hout.toFlux.sched hfit fun _ => Ne.symm hcur⟩

/-- **A hidden thread is made ready**, and the scheduler decides who runs. -/
theorem wake_unveils :
    ∃ t, readyThread Q cfg (s.setBase x .markAsNotPending) x = some t ∧ Veiled H cfg t.reschedule (update X x false) ∧
      ∀ v y, t.reschedule.Waits (update X x false) v y → s.Waits X v y := by
  obtain ⟨hcur, -, ht, -⟩ := h.aside hx
  obtain ⟨L, hinv⟩ := h
  obtain ⟨t, L', hready, hinv', -⟩ := readyThread_spec ((hinv.lift hx).setBase (f := .markAsNotPending) rfl)
    (by simp [markAsNotPending]) (by simp [markAsNotPending, ht]) fun _ hc => absurd hc.symm hcur
  refine ⟨t, hready, ⟨L', hinv'.reschedule⟩, fun v y hw => ?_⟩
  have hoff := readyThread_staysOff _ hready (reschedule_staysOff _ rfl hw.2)
  obtain ⟨hX, hon⟩ := Waits.of_remove (s := s.setBase x .markAsNotPending) (by simp [markAsNotPending]) ⟨hw.1, hoff⟩
  exact ⟨hX, WaitsOn.of_setBase markAsNotPending (fun b => ⟨fun hp => by simp [markAsNotPending] at hp, rfl⟩) hon⟩

/-! ## Operations on a hidden thread -/

/-- Another record under the veil. -/
theorem Veiled.setBase {k : ThreadBase W → ThreadBase W} (hq : (k (s.base x)).queued = (s.base x).queued)
    (ht : (k (s.base x)).timeout = (s.base x).timeout) (hd : (k (s.base x)).dummy = (s.base x).dummy)
    (hp : (k (s.base x)).pending = (s.base x).pending) : Veiled H cfg (s.setBase x k) X := by
  obtain ⟨L, hinv⟩ := h
  refine ⟨L, ⟨hinv.rep, fun y => ?_, hinv.cache, hinv.valid, hinv.idle⟩, hinv.current, hinv.shown⟩
  by_cases hy : y = x
  · subst hy
    obtain ⟨hout, hq', ht', hd'⟩ := (hinv.fits y).aside hx
    rw [← hq] at hq'
    rw [← ht] at ht'
    rw [← hd, ← hp] at hd'
    exact Aside.inPlace ⟨hout, by rwa [setBase_self], by rwa [setBase_self], by rwa [setBase_self]⟩ hx
  · exact (hinv.fits y).congr (setBase_ne hy) fun _ => Iff.rfl

theorem suspend_hidden :
    ∃ t, kThreadSuspend Q cfg s x = some t ∧ Veiled H cfg t X ∧ ∀ w y, t.Waits X w y → s.Waits X w y := by
  obtain ⟨hcur, hq, -, -⟩ := h.aside hx
  have hmid : (if s.isThreadReady x then removeThreadFromReadyQ Q cfg s x else some s) = some s := by
    split
    · rw [removeThreadFromReadyQ, if_neg (by simp [hq])]
    · rfl
  refine ⟨s.setBase x .markAsSuspended, ?_, h.setBase hx rfl rfl rfl rfl,
    fun w y hw => ⟨hw.1, WaitsOn.of_setBase markAsSuspended (fun _ => ⟨id, rfl⟩) hw.2⟩⟩
  rw [kThreadSuspend, hmid]
  exact congrArg some (if_neg hcur)

/-- `k_thread_resume` of a hidden thread that is still marked as pending. -/
theorem resume_hidden (hp : (s.base x).pending = true) :
    ∃ t, kThreadResume Q cfg s x = some t ∧ Veiled H cfg t X ∧ ∀ w y, t.Waits X w y → s.Waits X w y := by
  refine ⟨(s.setBase x .markAsNotSuspended).reschedule, ?_, (h.setBase hx rfl rfl rfl rfl).reschedule,
    fun w y hw => ⟨hw.1, ?_⟩⟩
  · rw [kThreadResume, readyThread, if_neg]
    · rfl
    · simp [Sched.isThreadReady, ready_eq, markAsNotSuspended, hp]
  · exact WaitsOn.of_setBase markAsNotSuspended (fun _ => ⟨id, rfl⟩) (reschedule_staysOff _ rfl hw.2)

/-- `k_thread_priority_set` of a hidden thread that is not ready. -/
theorem prioritySet_hidden (hr : s.isThreadReady x = false) {k : ℤ} (hk : H.Valid k) :
    ∃ t, threadPrioritySet Q cfg s x k = some t ∧ Veiled H cfg t X ∧ ∀ w y, t.Waits X w y → s.Waits X w y := by
  obtain ⟨L, hinv⟩ := h
  have hix : x ≠ cfg.idle := by
    rintro rfl
    simp [hinv.idle] at hx
  obtain ⟨t, ht, hv⟩ := (threadPrioritySet_keeps hinv hix hk
    (fun w hw => absurd hw (((hinv.fits x).aside hx).out _)) (.inr hr)).veiled
  exact ⟨t, ht, hv, fun w y hw => ⟨hw.1, threadPrioritySet_staysOff _ ht hw.2⟩⟩

theorem wakeup_hidden : kWakeup Q cfg s x = some s := by
  obtain ⟨-, -, ht, -⟩ := h.aside hx
  unfold kWakeup
  split
  · rfl
  · rw [if_pos]
    simp [isThreadTimeoutActive, ht]

end

end Zephyr
