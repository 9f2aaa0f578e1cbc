import Zephyr.Kernel.SchedFrame
/-!
# Who comes into a wait queue

Whether a thread waits in a queue can be read off its record (`Sched.WaitsOn`). Of all thread operations
only `pend` makes a thread wait, and only in the queue it is given: every other one leaves a thread out of
a queue that was not in it (`StaysOff`). An object of the kernel that has a wait queue of its own needs
no more than this of what the rest of the system does.
-/
namespace Zephyr

open Sched

variable {N : Nat} {W σ : Type} [DecidableEq W] {Q : Queues N W σ} {H : Q.Lawful} {cfg : Config N} {s s1 : Sched N W σ}
  {L : QueueId W → List (Fin N)} {X : Fin N → Bool} {x y : Fin N} {w v : W}

def Sched.WaitsOn (s : Sched N W σ) (w : W) (y : Fin N) : Prop :=
    (s.base y).pending = true ∧ (s.base y).pendedOn = some w

instance Sched.decidableWaitsOn (s : Sched N W σ) (w : W) (y : Fin N) : Decidable (s.WaitsOn w y) :=
    inferInstanceAs (Decidable (_ ∧ _))

theorem SchedInv.waitsOn_iff (h : SchedInv H cfg s L X) (hX : X y = false := by rfl) :
    s.WaitsOn w y ↔ y ∈ L (.waitq w) := by
  have hfit := (h.fits y).fits hX
  refine ⟨fun ⟨hp, hon⟩ => ?_, fun hy => ⟨hfit.pending.2 ⟨w, hy⟩, hfit.pendedOn w hy⟩⟩
  obtain ⟨v, hv⟩ := hfit.pending.1 hp
  obtain rfl : w = v := by simpa [hon] using hfit.pendedOn v hv
  exact hv

/-- A thread that runs does not wait. -/
theorem SchedInv.current_not_waits (h : SchedInv H cfg s L X) (hn : s.nested = 0) : ¬ s.WaitsOn w s.current := by
  rintro ⟨hp, -⟩
  rcases h.current hn with hi | hr
  · simp [((h.fits _).fits h.shown).idle hi] at hp
  · simp [(h.ready_record hr).1] at hp

/-- The thread `y` does not come into the queue `w` by an operation. -/
def StaysOff (w : W) (y : Fin N) (s : Sched N W σ) (r : Option (Sched N W σ)) : Prop :=
    ∀ s' ∈ r, s'.WaitsOn w y → s.WaitsOn w y

omit [DecidableEq W] in
/-- A change to the record of a thread that does not make it pending. -/
theorem WaitsOn.of_setBase (f : ThreadBase W → ThreadBase W)
    (hf : ∀ b, ((f b).pending = true → b.pending = true) ∧ (f b).pendedOn = b.pendedOn)
    (h : (s.setBase x f).WaitsOn w y) : s.WaitsOn w y := by
  by_cases hy : y = x
  · subst hy
    obtain ⟨hp, hon⟩ := h
    rw [setBase_self] at hp hon
    exact ⟨(hf _).1 hp, (hf _).2 ▸ hon⟩
  · rwa [Sched.WaitsOn, setBase_ne hy] at h

omit [DecidableEq W] in
theorem staysOff_steady : Steady fun s s' : Sched N W σ => s'.WaitsOn w y → s.WaitsOn w y where
  trans hst htu hw := hst (htu hw)
  same hb _ hw := by rwa [Sched.WaitsOn, hb] at hw
  mark {s x f} hf := by
    refine WaitsOn.of_setBase f fun b => ?_
    cases hf with
    | notPending => exact ⟨fun hp => by simp [ThreadBase.markAsNotPending] at hp, rfl⟩
    | _ => exact ⟨id, rfl⟩

section operations

omit [DecidableEq W]

theorem reschedule_staysOff : StaysOff w y s (some s.reschedule) := staysOff_steady.reschedule

theorem removeThreadFromReadyQ_staysOff : StaysOff w y s (removeThreadFromReadyQ Q cfg s x) :=
    staysOff_steady.removeThreadFromReadyQ

theorem readyThread_staysOff : StaysOff w y s (readyThread Q cfg s x) := staysOff_steady.readyThread

theorem unpendThread_staysOff : StaysOff w y s (unpendThread Q s x) := staysOff_steady.unpendThread

theorem schedLock_staysOff : StaysOff w y s (some (schedLock s)) := by
  rintro s' ⟨⟩
  exact WaitsOn.of_setBase _ fun _ => ⟨id, rfl⟩

theorem kSchedUnlock_staysOff : StaysOff w y s (kSchedUnlock Q cfg s) := by
  intro s' hs' hw
  refine WaitsOn.of_setBase _ ?_ (staysOff_steady.kSchedUnlock s' hs' hw)
  exact fun _ => ⟨id, rfl⟩

theorem threadPrioritySet_staysOff {k : ℤ} : StaysOff w y s (threadPrioritySet Q cfg s x k) :=
  staysOff_steady.after id staysOff_steady.threadPrioritySet

end operations

/-- The thread that goes into a wait queue is another one, or the queue is. -/
theorem pend_staysOff (hne : y ≠ x ∨ v ≠ w) {forever : Bool} : StaysOff w y s (pend Q cfg s x (some v) forever) := by
  refine staysOff_steady.bind staysOff_steady.removeThreadFromReadyQ fun s1 => .bind_of fun q => ?_
  rintro s' ⟨⟩ ⟨hp, hon⟩
  by_cases hy : y = x
  · subst hy
    have hv := hne.resolve_left (by simp)
    cases forever <;> simp [addThreadTimeout, ThreadBase.setPendedOn] at hon <;> exact absurd hon hv
  · cases forever <;> exact ⟨by simpa [addThreadTimeout, setBase_ne hy] using hp,
      by simpa [addThreadTimeout, setBase_ne hy] using hon⟩

theorem pendCurrentThread_staysOff (hne : y ≠ s.current ∨ v ≠ w) {forever : Bool} :
    StaysOff w y s (pendCurrentThread Q cfg s (some v) forever) :=
  staysOff_steady.bind (pend_staysOff hne) fun _ => staysOff_steady.done rfl rfl

/-- **`_handle_one_expired_timeout` (timeout_q.h:83)** changes the record of its thread and no other. -/
theorem handleOneExpiredThreadTimeout_leaves {t : Sched N W σ} (hL : SchedInv H cfg s L)
    (ht : (s.base x).isThreadTimeoutActive = true) (hres : handleOneExpiredThreadTimeout Q cfg s x = some t) :
    (∀ z, z ≠ x → t.base z = s.base z) ∧ (t.base x).pending = false ∧ (t.base x).timeout = none := by
  obtain ⟨u, hu, hready⟩ := Option.bind_eq_some_iff.1 hres
  have hmid : (∀ z, z ≠ x → u.base z = s.base z) ∧ (u.base x).pending = false ∧ (u.base x).timeout = none := by
    obtain ⟨wq, hwq⟩ := Option.isSome_iff_exists.1 ht
    cases wq with
    | none =>
      obtain rfl : abortThreadTimeout s x = u := by simpa [hwq] using hu
      refine ⟨fun z hz => setBase_ne hz, ?_, by simp [abortThreadTimeout, ThreadBase.setTimeout]⟩
      simpa [abortThreadTimeout, ThreadBase.setTimeout] using (hL.fits x).asleep hwq
    | some v =>
      have hun : unpendThreadNoTimeout Q (abortThreadTimeout s x) x = some u := by simpa [hwq] using hu
      obtain ⟨v', -, h1⟩ := Option.bind_eq_some_iff.1 hun
      obtain ⟨q, -, heq⟩ := Option.bind_eq_some_iff.1 h1
      cases heq
      refine ⟨fun z hz => ?_, by simp [ThreadBase.markAsNotPending],
        by simp [ThreadBase.markAsNotPending, abortThreadTimeout, ThreadBase.setTimeout]⟩
      rw [setBase_ne hz]
      exact setBase_ne hz
  unfold readyThread at hready
  split at hready
  · obtain ⟨q, -, hup⟩ := Option.bind_eq_some_iff.1 hready
    obtain ⟨c, -, heq⟩ := Option.bind_eq_some_iff.1 hup
    cases heq
    refine ⟨fun z hz => ?_, by simpa [ThreadBase.markAsQueued, ThreadBase.markAsStarted] using hmid.2⟩
    rw [setBase_ne hz]
    exact (setBase_ne hz).trans (hmid.1 z hz)
  · cases hready
    refine ⟨fun z hz => ?_, by simpa [ThreadBase.markAsStarted] using hmid.2⟩
    rw [setBase_ne hz]
    exact hmid.1 z hz

/-- The operation puts no thread in the queue. -/
def SchedOp.Avoids (waitQ : W) : SchedOp N W → Prop
  | .pendCurrent w _ | .pendDummy _ w _ => w ≠ waitQ
  | _ => True

instance (waitQ : W) (op : SchedOp N W) : Decidable (op.Avoids waitQ) := by
  induction op using SchedOp.casesOn <;> dsimp only [SchedOp.Avoids] <;> infer_instance

/-- **No operation but `pend` makes a thread wait.** -/
theorem exec_staysOff {op : SchedOp N W} (h : op.Avoids w) : StaysOff w y s (op.exec Q cfg s) := by
  cases op with
  | prioritySet thread prio => exact threadPrioritySet_staysOff
  | lock => exact schedLock_staysOff
  | unlock => exact kSchedUnlock_staysOff
  | pendCurrent v forever => exact pendCurrentThread_staysOff (.inr h)
  | pendDummy thread v forever => exact pend_staysOff (.inr h)
  | _ => exact staysOff_steady.exec trivial

end Zephyr
